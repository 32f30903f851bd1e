import LearningNotes.Opend.LoopPoll

/-!
# The packing of `pollfd` in `loop.poll.c`

The loop through the entries takes out the entry it stands on, moves the last one into the hole and
looks at the same index again. What is still to be looked at is the part of the array from the
index on, and a round takes exactly the entry it stands on out of it (`Visited`), whatever is
moved. So each entry that `poll` has flagged is handled once, and the entries that are left are those
of the connections that are left.

The user ids are not right in general (`loop_wrong`), and nothing is said about them here.
-/

namespace LearningNotes.Opend

variable {p p' : Poll} {x : PollPass} {read : Int → Read} {e : Pollfd} {i j : Nat} {fd : Int} {uid : Uid}

/-- What is done about an entry. -/
inductive Served where
  | request (fd : Int) (buf : List Byte)
  | closed (fd : Int)
  deriving DecidableEq

def Out.served : Out → Option Served
  | .connected _ _ => none
  | .request fd _ _ buf => some (.request fd buf)
  | .closed fd _ _ => some (.closed fd)

/-- `revents` has `POLLIN` or `POLLHUP`. -/
def Pollfd.flagged (e : Pollfd) : Bool := e.revents.pollin || e.revents.pollhup

/-- `read` on the descriptor fails, and it is called. -/
def Pollfd.Fails (read : Int → Read) (e : Pollfd) : Prop :=
  e.revents.pollhup = false ∧ e.revents.pollin = true ∧ read e.fd = .error

/-- What has to be done about an entry with a flag. -/
def Pollfd.answer (read : Int → Read) (e : Pollfd) : Served :=
  if e.revents.pollhup then .closed e.fd
  else
    match read e.fd with
    | .bytes (c :: buf) => .request e.fd (c :: buf)
    | _ => .closed e.fd

/-- What has to be done about these entries. -/
def answers (read : Int → Read) (es : List Pollfd) : List Served :=
  (es.filter Pollfd.flagged).map (Pollfd.answer read)

/-- The connections of which the log does not say that they have been closed. -/
def Conns.left (conns : Conns) (served : List Served) : Conns :=
  conns.filter fun c => Served.closed c.1 ∉ served

theorem answers_perm {es es' : List Pollfd} (h : es.Perm es') :
    (answers read es).Perm (answers read es') := (h.filter _).map _

theorem answers_append (es es' : List Pollfd) :
    answers read (es ++ es') = answers read es ++ answers read es' := by
  rw [answers, List.filter_append, List.map_append]
  rfl

theorem Conns.left_nil (conns : Conns) : conns.left [] = conns :=
  List.filter_eq_self.mpr fun _ _ => by simp

theorem Conns.left_append (conns : Conns) (served served' : List Served) :
    conns.left (served ++ served') = (conns.left served).left served' := by
  unfold left
  rw [List.filter_filter]
  apply List.filter_congr
  intro c _
  simp [not_or, Bool.and_comm]

theorem Conns.left_closed (conns : Conns) (fd : Int) : conns.left [.closed fd] = conns.close fd := by
  unfold left close
  apply List.filter_congr
  intro c _
  simp

/-! ## What a pass keeps -/

/-- The entries in use are those of `listenfd` and the open connections, in any order but for the
first, and each of these has an entry in `client`. -/
structure Packed (p : Poll) : Prop where
  numfd : p.numfd ≤ p.pollfd.length
  fds : ∃ e es, inUse p = e :: es ∧ e.fd = p.listenfd ∧ (es.map Pollfd.fd).Perm (p.conns.map Prod.fst)
  nodup : (p.listenfd :: p.conns.map Prod.fst).Nodup
  pos : ∀ fd ∈ p.listenfd :: p.conns.map Prod.fst, 0 ≤ fd
  clients : ((active p.client).map Client.fd).Perm (p.listenfd :: p.conns.map Prod.fst)

theorem Packed.init {listenfd : Int} (hl : 0 ≤ listenfd) (h : Poll.init listenfd = some p) :
    Packed p := by
  obtain ⟨⟨client, i⟩, hadd, he⟩ := Option.map_eq_some_iff.mp h
  cases he
  have hact := (active_add hadd (by omega)).1.map Client.fd
  refine ⟨?_, ⟨{ Pollfd.unused with fd := listenfd }, [], rfl, rfl, .nil⟩,
    List.pairwise_singleton .., ?_, hact⟩
  · show 1 ≤ ((List.replicate NALLOC Pollfd.unused).modify 0 fun e => { e with fd := listenfd }).length
    rw [List.length_modify, List.length_replicate]
    exact Nat.le_of_ble_eq_true rfl
  · intro fd hfd
    rw [List.mem_singleton.mp hfd]
    exact hl

theorem inUse_poll (p : Poll) (revents : Nat → Events) :
    (inUse (poll p revents)).map Pollfd.fd = (inUse p).map Pollfd.fd := by
  apply List.ext_getElem?
  intro k
  simp only [inUse, poll, List.getElem?_map, List.getElem?_take, List.getElem?_mapIdx]
  split
  · cases p.pollfd[k]? <;> rfl
  · rfl

theorem Packed.poll (h : Packed p) (revents : Nat → Events) : Packed (poll p revents) := by
  refine ⟨?_, ?_, h.nodup, h.pos, h.clients⟩
  · show p.numfd ≤ (p.pollfd.mapIdx _).length
    rw [List.length_mapIdx]
    exact h.numfd
  · obtain ⟨e, es, huse, he, hes⟩ := h.fds
    have hmap := inUse_poll p revents
    rw [huse, List.map_cons] at hmap
    obtain ⟨e', es', huse', he', hes'⟩ := List.map_eq_cons_iff.mp hmap
    refine ⟨e', es', huse', he'.trans he, ?_⟩
    rw [hes']
    exact hes

theorem Packed.accept (h : Packed p) (hfd : 0 ≤ fd) (hl : fd ≠ p.listenfd)
    (hnew : fd ∉ p.conns.map Prod.fst) (hs : pollAccept p (some (fd, uid)) = some p') : Packed p' := by
  obtain ⟨client, i, hadd, hlisten, hclient, hconns, -, -, hle, huse⟩ := pollAccept_spec h.numfd hs
  obtain ⟨e, es, huse₀, he, hes⟩ := h.fds
  have hfds : (p'.listenfd :: p'.conns.map Prod.fst) = (p.listenfd :: p.conns.map Prod.fst) ++ [fd] := by
    rw [hlisten, hconns, List.map_append]
    rfl
  refine ⟨hle, ⟨e, _, huse.trans (by rw [huse₀, List.cons_append]), he.trans hlisten.symm, ?_⟩, ?_, ?_, ?_⟩
  · rw [hconns, List.map_append, List.map_append]
    exact hes.append_right _
  · rw [hfds, List.nodup_append]
    refine ⟨h.nodup, List.pairwise_singleton .., fun a ha b hb => ?_⟩
    rw [List.mem_singleton.mp hb]
    rcases List.mem_cons.mp ha with rfl | ha
    · exact hl.symm
    · intro he
      exact hnew (he ▸ ha)
  · intro fd' hfd'
    rw [hfds] at hfd'
    rcases List.mem_append.mp hfd' with hfd' | hfd'
    · exact h.pos fd' hfd'
    · rw [List.mem_singleton.mp hfd']
      exact hfd
  · rw [hfds, hclient]
    have hact := (active_add hadd (by omega)).1.map Client.fd
    exact (hact.trans (h.clients.cons fd)).trans (List.perm_append_singleton fd _).symm

/-- `client` has an entry for each of these. -/
theorem Packed.numfd_le_client (h : Packed p) : p.numfd ≤ p.client.length := by
  obtain ⟨e, es, huse, -, hes⟩ := h.fds
  have hlen := length_inUse h.numfd
  have hes := hes.length_eq
  have hact := h.clients.length_eq
  have hle : (active p.client).length ≤ p.client.length := List.length_filter_le ..
  rw [huse] at hlen
  simp only [List.length_map, List.length_cons] at hlen hes hact
  omega

/-- `client_del` finds the entry of an open connection. -/
theorem clientDel_active {client : List Client} {fds : List Int}
    (h : ((active client).map Client.fd).Perm (fd :: fds)) (hnodup : (fd :: fds).Nodup) (hfd : fd ≠ -1) :
    ∃ client', clientDel client fd = some client' ∧ ((active client').map Client.fd).Perm fds := by
  obtain ⟨c, hc, hcfd⟩ := List.mem_map.mp (h.mem_iff.mpr List.mem_cons_self)
  obtain ⟨l, r, rfl⟩ := List.append_of_mem (mem_active.mp hc).1
  have hact : active (l ++ c :: r) = active l ++ c :: active r := by
    unfold active
    rw [List.filter_append, List.filter_cons_of_pos (by simpa using (mem_active.mp hc).2)]
  have hact' : active (l ++ { c with fd := -1 } :: r) = active l ++ active r := by
    unfold active
    rw [List.filter_append, List.filter_cons_of_neg (by simp)]
  rw [hact, List.map_append, List.map_cons, hcfd] at h
  have hnd := h.nodup_iff.mpr hnodup
  refine ⟨_, clientDel_spec hcfd ?_, ?_⟩
  · intro d hd hdfd
    have hmem : fd ∈ (active l).map Client.fd :=
      List.mem_map.mpr ⟨d, mem_active.mpr ⟨hd, hdfd ▸ hfd⟩, hdfd⟩
    rw [List.nodup_append] at hnd
    exact hnd.2.2 fd hmem fd List.mem_cons_self rfl
  · rw [hact', List.map_append]
    exact (List.perm_middle.symm.trans h).cons_inv

/-! ## One entry -/

/-- What a round does, or some rounds: from index `i` to index `j`. What was to be done about the
entries from `i` on has been done or is still to be done from `j` on. -/
structure Visited (read : Int → Read) (p : Poll) (i : Nat) (p' : Poll) (j : Nat) : Prop where
  packed : Packed p'
  listenfd : p'.listenfd = p.listenfd
  lo : 1 ≤ j
  out : ∃ new, p'.out = p.out ++ new ∧
    (new.filterMap Out.served ++ answers read ((inUse p').drop j)).Perm
      (answers read ((inUse p).drop i)) ∧
    p'.conns = p.conns.left (new.filterMap Out.served)
  rest : ∀ e ∈ (inUse p').drop j, e ∈ (inUse p).drop i

theorem Visited.refl (h : Packed p) (hi : 1 ≤ i) : Visited read p i p i :=
  ⟨h, rfl, hi, ⟨[], (List.append_nil _).symm, .refl _, (Conns.left_nil _).symm⟩, fun _ he => he⟩

theorem Visited.trans {p'' : Poll} {k : Nat} (h : Visited read p i p' j) (h' : Visited read p' j p'' k) :
    Visited read p i p'' k := by
  obtain ⟨new, hout, hperm, hconns⟩ := h.out
  obtain ⟨new', hout', hperm', hconns'⟩ := h'.out
  refine ⟨h'.packed, h'.listenfd.trans h.listenfd, h'.lo, ⟨new ++ new', ?_, ?_, ?_⟩,
    fun e he => h.rest e (h'.rest e he)⟩
  · rw [hout', hout, List.append_assoc]
  · rw [List.filterMap_append, List.append_assoc]
    exact (hperm'.append_left _).trans hperm
  · rw [hconns', hconns, List.filterMap_append, Conns.left_append]

/-- The array without an entry: the last one is in its place, unless it was that one. -/
theorem inUse_pack {A B : List Pollfd} (hle : p.numfd ≤ p.pollfd.length) (huse : inUse p = A ++ e :: B)
    (hi : A.length = i) :
    (B = [] ∧ ¬i < p.numfd - 1 ∧ p.pollfd.take (p.numfd - 1) = A) ∨
    ∃ B' last, B = B' ++ [last] ∧ i < p.numfd - 1 ∧ p.pollfd[p.numfd - 1]? = some last ∧
      (p.pollfd.set i last).take (p.numfd - 1) = A ++ last :: B' := by
  have hlen := length_inUse hle
  rw [huse, List.length_append, List.length_cons] at hlen
  have htake : p.pollfd.take (p.numfd - 1) = (A ++ e :: B).take (p.numfd - 1) := by
    rw [← huse, inUse, List.take_take, Nat.min_eq_left (Nat.sub_le ..)]
  rcases List.eq_nil_or_concat' B with rfl | ⟨B', last, rfl⟩
  · refine .inl ⟨rfl, by simp at hlen; omega, ?_⟩
    have hA : p.numfd - 1 = A.length := by simp at hlen; omega
    rw [htake, hA, List.take_left]
  · rw [List.length_append, List.length_singleton] at hlen
    have hsplit : A ++ e :: (B' ++ [last]) = (A ++ e :: B') ++ [last] := by simp
    have hn : p.numfd - 1 = (A ++ e :: B').length := by
      rw [List.length_append, List.length_cons]
      omega
    refine .inr ⟨B', last, rfl, by omega, ?_, ?_⟩
    · have hget : (inUse p)[p.numfd - 1]? = some last := by
        rw [huse, hsplit, hn, List.getElem?_append_right (Nat.le_refl _), Nat.sub_self]
        rfl
      rwa [inUse, List.getElem?_take_of_lt (by omega)] at hget
    · rw [List.take_set, htake, hsplit, hn, List.take_left, ← hi,
        List.set_append_right _ _ (Nat.le_refl _), Nat.sub_self, List.set_cons_zero]

/-- The client of an entry has gone: the entry is taken out. -/
theorem Packed.hungup {A B : List Pollfd} (h : Packed p) (huse : inUse p = A ++ e :: B)
    (hi : A.length = i) (h1 : 1 ≤ i) :
    ∃ j p', hungup p i e = some (j, p') ∧ Packed p' ∧ p'.listenfd = p.listenfd ∧ 1 ≤ j ∧
      p'.numfd + i < p.numfd + j ∧ ((inUse p').drop j).Perm B ∧
      p'.conns = p.conns.close e.fd ∧
      ∃ uid own, p'.out = p.out ++ [.closed e.fd uid own] := by
  -- entry 0 is that of the listening descriptor, and stays
  obtain ⟨e₀, es, huse₀, he₀, hes⟩ := h.fds
  obtain ⟨A, rfl⟩ : ∃ A', A = e₀ :: A' := by
    cases A with
    | nil =>
      rw [List.length_nil] at hi
      omega
    | cons a A =>
      rw [huse₀, List.cons_append] at huse
      exact ⟨A, by rw [(List.cons.inj huse).1]⟩
  have hes₀ : es = A ++ e :: B := by
    rw [huse₀, List.cons_append] at huse
    exact (List.cons.inj huse).2
  have hfds : (p.conns.map Prod.fst).Perm (e.fd :: (A ++ B).map Pollfd.fd) := by
    rw [hes₀] at hes
    exact hes.symm.trans ((List.perm_middle.map Pollfd.fd))
  have hmem : e.fd ∈ p.conns.map Prod.fst := hfds.mem_iff.mpr List.mem_cons_self
  have hpos := h.pos e.fd (List.mem_cons_of_mem _ hmem)
  have hnodup : (e.fd :: (A ++ B).map Pollfd.fd).Nodup :=
    hfds.nodup_iff.mp (List.nodup_cons.mp h.nodup).2
  -- the descriptor is closed, and it was there once
  have hclose : ((p.conns.close e.fd).map Prod.fst).Perm ((A ++ B).map Pollfd.fd) := by
    have hleft : (p.conns.close e.fd).map Prod.fst = (p.conns.map Prod.fst).filter (· ≠ e.fd) := by
      rw [List.filter_map]
      rfl
    have hright : ((A ++ B).map Pollfd.fd).filter (· ≠ e.fd) = (A ++ B).map Pollfd.fd := by
      apply List.filter_eq_self.mpr
      intro fd hfd
      have hne : fd ≠ e.fd := fun he => (List.nodup_cons.mp hnodup).1 (he ▸ hfd)
      simpa using hne
    have hfilter := hfds.filter (· ≠ e.fd)
    rwa [List.filter_cons_of_neg (by simp), ← hleft, hright] at hfilter
  have hclients := h.clients.trans ((hfds.cons p.listenfd).trans (List.Perm.swap ..))
  obtain ⟨client', hdel, hact⟩ := clientDel_active hclients
    (hclients.nodup_iff.mp (h.clients.nodup_iff.mpr h.nodup)) (by omega)
  have hilt : i < p.client.length := by
    have hlen := length_inUse h.numfd
    have hcl := h.numfd_le_client
    rw [huse, List.length_append, hi, List.length_cons] at hlen
    omega
  obtain ⟨c, hc⟩ : ∃ c, p.client[i]? = some c := ⟨_, List.getElem?_eq_getElem hilt⟩
  -- it is enough that the entries in use are the others, in any order
  have hpacked : ∀ (p' : Poll) (tl : List Pollfd), p'.numfd ≤ p'.pollfd.length →
      inUse p' = e₀ :: A ++ tl → tl.Perm B → p'.listenfd = p.listenfd →
      p'.conns = p.conns.close e.fd → p'.client = client' → Packed p' := by
    intro p' tl hle huse' htl hl hcs hcl
    have hrest : (p'.conns.map Prod.fst).Perm ((A ++ B).map Pollfd.fd) := hcs ▸ hclose
    have hsub : (p.listenfd :: (A ++ B).map Pollfd.fd).Nodup := by
      have hnd := (hfds.cons p.listenfd).nodup_iff.mp h.nodup
      exact hnd.sublist ((List.sublist_cons_self _ _).cons_cons _)
    refine ⟨hle, ⟨e₀, A ++ tl, huse', he₀.trans hl.symm, ?_⟩, ?_, ?_, ?_⟩
    · exact ((htl.append_left A).map Pollfd.fd).trans hrest.symm
    · rw [hl]
      exact (hrest.cons p.listenfd).nodup_iff.mpr hsub
    · intro fd hfd
      rw [hl] at hfd
      rcases List.mem_cons.mp hfd with rfl | hfd
      · exact h.pos _ List.mem_cons_self
      · refine h.pos fd (List.mem_cons_of_mem _ (hfds.mem_iff.mpr (List.mem_cons_of_mem _ ?_)))
        exact hrest.mem_iff.mp hfd
    · rw [hl, hcl]
      exact hact.trans (hrest.cons p.listenfd).symm
  unfold Opend.hungup
  simp only [hc, hdel, Option.bind_eq_bind, Option.bind_some]
  have hnum := h.numfd
  rcases inUse_pack h.numfd huse hi with ⟨rfl, hlast, htake⟩ | ⟨B', last, rfl, hlt, hget, htake⟩
  · rw [if_neg hlast]
    have hlen := length_inUse h.numfd
    rw [huse, List.length_append, hi, List.length_singleton] at hlen
    -- it was the last entry
    refine ⟨i + 1, _, rfl, hpacked _ [] ?_ (htake.trans (List.append_nil _).symm) (.refl _) rfl rfl rfl,
      rfl, by omega, ?_, ?_, rfl, c.uid, p.conns.own e.fd, rfl⟩
    · show p.numfd - 1 ≤ p.pollfd.length
      omega
    · show p.numfd - 1 + i < p.numfd + (i + 1)
      omega
    · show ((p.pollfd.take (p.numfd - 1)).drop (i + 1)).Perm []
      rw [htake, List.drop_of_length_le (by omega)]
  · rw [if_pos hlt, hget, Option.bind_some]
    -- the last entry takes its place, and is visited next
    refine ⟨i, _, rfl, hpacked _ (last :: B') ?_ htake
      (List.perm_append_singleton last B').symm rfl rfl rfl, rfl, h1, ?_, ?_, rfl, c.uid,
      p.conns.own e.fd, rfl⟩
    · show p.numfd - 1 ≤ (p.pollfd.set i last).length
      rw [List.length_set]
      omega
    · show p.numfd - 1 + i < p.numfd + i
      omega
    · show (((p.pollfd.set i last).take (p.numfd - 1)).drop i).Perm _
      rw [htake, ← hi, List.drop_left]
      exact (List.perm_append_singleton last B').symm

/-- **One entry**: it is handled as its flags say, unless `read` fails. -/
theorem Packed.visit (h : Packed p) (h1 : 1 ≤ i) (hi : i < p.numfd) :
    (visitEntry read p i = none ∧ ∃ e ∈ (inUse p).drop i, e.Fails read) ∨
    ∃ j p', visitEntry read p i = some (j, p') ∧ Visited read p i p' j ∧
      p'.numfd + i < p.numfd + j := by
  have hlen := length_inUse h.numfd
  have hlt : i < (inUse p).length := by omega
  obtain ⟨A, e, B, huse, hA⟩ : ∃ A e B, inUse p = A ++ e :: B ∧ A.length = i :=
    ⟨(inUse p).take i, (inUse p)[i], (inUse p).drop (i + 1),
      by rw [List.getElem_cons_drop, List.take_append_drop],
      by rw [List.length_take]; omega⟩
  have hdrop : (inUse p).drop i = e :: B := by rw [huse, ← hA, List.drop_left]
  have hdrop' : (inUse p).drop (i + 1) = B := by
    rw [← List.drop_drop, hdrop]
    rfl
  have hget : p.pollfd[i]? = some e := by
    have hg : (inUse p)[i]? = some e := by
      rw [huse, ← hA, List.getElem?_append_right (Nat.le_refl _), Nat.sub_self]
      rfl
    rwa [inUse, List.getElem?_take_of_lt hi] at hg
  -- the two ways in which a client can leave
  have hclosed : e.flagged = true → e.answer read = .closed e.fd →
      ∃ j p', Opend.hungup p i e = some (j, p') ∧ Visited read p i p' j ∧
        p'.numfd + i < p.numfd + j := by
    intro hflag hans
    obtain ⟨j, p', hs, hpacked, hl, hj, hless, hrest, hconns, uid, own, hout⟩ := h.hungup huse hA h1
    refine ⟨j, p', hs, ⟨hpacked, hl, hj, ⟨_, hout, ?_, ?_⟩, ?_⟩, hless⟩
    · rw [hdrop]
      show (Served.closed e.fd :: answers read _).Perm (answers read (e :: B))
      rw [answers, answers, List.filter_cons_of_pos hflag, List.map_cons, hans]
      exact (answers_perm hrest).cons _
    · rw [hconns]
      exact (Conns.left_closed p.conns e.fd).symm
    · intro e' he'
      rw [hdrop]
      exact List.mem_cons_of_mem _ (hrest.mem_iff.mp he')
  unfold visitEntry
  rw [hget]
  simp only [Option.bind_eq_bind, Option.bind_some]
  by_cases hhup : e.revents.pollhup = true
  · rw [if_pos hhup]
    refine .inr (hclosed ?_ ?_)
    · rw [Pollfd.flagged, hhup, Bool.or_true]
    · rw [Pollfd.answer, if_pos hhup]
  · rw [if_neg hhup]
    have hhup' : e.revents.pollhup = false := Bool.eq_false_iff.mpr hhup
    by_cases hin : e.revents.pollin = true
    · rw [if_pos hin]
      have hflag : e.flagged = true := by rw [Pollfd.flagged, hin, Bool.true_or]
      cases hread : read e.fd with
      | error =>
        -- `log_sys`: the program ends
        refine .inl ⟨rfl, e, ?_, hhup', hin, hread⟩
        rw [hdrop]
        exact List.mem_cons_self
      | bytes buf =>
        cases buf with
        | nil =>
          refine .inr (hclosed hflag ?_)
          rw [Pollfd.answer, if_neg hhup, hread]
        | cons b buf =>
          have hilt : i < p.client.length := Nat.lt_of_lt_of_le hi h.numfd_le_client
          dsimp only
          rw [List.getElem?_eq_getElem hilt, Option.bind_some]
          refine .inr ⟨i + 1, _, rfl, ⟨⟨h.numfd, h.fds, h.nodup, h.pos, h.clients⟩, rfl, by omega,
            ⟨_, rfl, ?_, ?_⟩, ?_⟩, ?_⟩
          · rw [hdrop]
            show (Served.request e.fd (b :: buf) :: answers read ((inUse p).drop (i + 1))).Perm _
            rw [hdrop', answers, answers, List.filter_cons_of_pos hflag, List.map_cons, Pollfd.answer,
              if_neg hhup, hread]
          · show p.conns = p.conns.left [.request e.fd (b :: buf)]
            exact (List.filter_eq_self.mpr fun _ _ => by simp).symm
          · intro e' he'
            have he' : e' ∈ (inUse p).drop (i + 1) := he'
            rw [hdrop'] at he'
            rw [hdrop]
            exact List.mem_cons_of_mem _ he'
          · show p.numfd + i < p.numfd + (i + 1)
            omega
    · rw [if_neg hin]
      refine .inr ⟨i + 1, p, rfl, ⟨h, rfl, by omega, ⟨[], (List.append_nil _).symm, ?_,
        (Conns.left_nil _).symm⟩, ?_⟩, by omega⟩
      · rw [hdrop, hdrop']
        have hflag : ¬e.flagged = true := by
          rw [Pollfd.flagged, hhup', Bool.or_false]
          exact hin
        rw [answers, answers, List.filter_cons_of_neg hflag]
        exact .refl _
      · intro e' he'
        rw [hdrop'] at he'
        rw [hdrop]
        exact List.mem_cons_of_mem _ he'

/-! ## A pass -/

/-- **The loop through the entries**: it goes on to the last one, unless `read` fails. -/
theorem Packed.scan : ∀ (rounds i : Nat) (p : Poll), Packed p → 1 ≤ i → p.numfd ≤ i + rounds →
    (scanFrom read rounds i p = none ∧ ∃ e ∈ (inUse p).drop i, e.Fails read) ∨
    ∃ p' j, scanFrom read rounds i p = some p' ∧ Visited read p i p' j ∧ p'.numfd ≤ j
  | rounds, i, p, h, h1, hr => by
    unfold scanFrom
    by_cases hi : i < p.numfd
    · rw [if_pos hi]
      cases rounds with
      | zero => omega
      | succ rounds =>
        dsimp only
        rcases @Packed.visit p read i h h1 hi with ⟨hs, hfail⟩ | ⟨j, p₁, hs, hv, hless⟩
        · rw [hs]
          exact .inl ⟨rfl, hfail⟩
        · rw [hs, Option.bind_some]
          rcases Packed.scan rounds j p₁ hv.packed hv.lo (by omega) with
            ⟨hs', e, he, hfail⟩ | ⟨p', k, hs', hv', hk⟩
          · exact .inl ⟨hs', e, hv.rest e he, hfail⟩
          · exact .inr ⟨p', k, hs', hv.trans hv', hk⟩
    · rw [if_neg hi]
      exact .inr ⟨p, i, rfl, .refl h h1, Nat.le_of_not_lt hi⟩

/-- The entries of clients after `poll`. -/
def polled (p : Poll) (x : PollPass) : List Pollfd := (inUse (poll p x.revents)).drop 1

/-- The new client, if `poll` has flagged the first entry. -/
def accepted (p : Poll) (x : PollPass) : Conns :=
  if (inUse (poll p x.revents)).head?.any (·.revents.pollin) then x.conn.toList else []

/-- `serv_accept` does not fail if it is called, and neither does `read`. -/
def Answered (p : Poll) (x : PollPass) : Prop :=
  ((inUse (poll p x.revents)).head?.any (·.revents.pollin) → x.conn ≠ none) ∧
    ∀ e ∈ polled p x, ¬e.Fails x.read

/-- What a pass has done. -/
structure PassDone (p : Poll) (x : PollPass) (p' : Poll) : Prop where
  packed : Packed p'
  listenfd : p'.listenfd = p.listenfd
  out : ∃ new, p'.out = p.out ++ new ∧
    (new.filterMap Out.served).Perm (answers x.read (polled p x)) ∧
    p'.conns = (p.conns ++ accepted p x).left (new.filterMap Out.served)

/-- **Up to the loop.** -/
theorem Packed.opened (h : Packed p) (hk : PollKernelOk p x) :
    (opened p x = none ∧ ¬Answered p x) ∨
    ∃ p₁, opened p x = some p₁ ∧ Packed p₁ ∧ p₁.listenfd = p.listenfd ∧
      (∃ new, p₁.out = p.out ++ new ∧ new.filterMap Out.served = []) ∧
      p₁.conns = p.conns ++ accepted p x ∧
      (∀ read, answers read ((inUse p₁).drop 1) = answers read (polled p x)) ∧
      ∀ e ∈ (inUse p₁).drop 1, e ∈ polled p x ∨ e.flagged = false := by
  have hpoll := h.poll x.revents
  obtain ⟨e, es, huse, -, -⟩ := hpoll.fds
  have hget : (Opend.poll p x.revents).pollfd[0]? = some e := by
    have hg : (inUse (Opend.poll p x.revents))[0]? = some e := by rw [huse]; rfl
    have hlen := length_inUse hpoll.numfd
    rw [huse, List.length_cons] at hlen
    rwa [inUse, List.getElem?_take_of_lt (by omega)] at hg
  have hhead : (inUse (Opend.poll p x.revents)).head?.any (·.revents.pollin) = e.revents.pollin := by
    rw [huse]
    rfl
  unfold Opend.opened Answered accepted
  dsimp only
  rw [hget, hhead]
  dsimp only
  by_cases hin : e.revents.pollin = true
  · rw [if_pos hin, if_pos hin]
    cases hx : x.conn with
    | none => exact .inl ⟨rfl, fun ha => ha.1 hin rfl⟩
    | some c =>
      obtain ⟨fd, uid⟩ := c
      obtain ⟨hfd, hl, hnew⟩ := hk fd uid hx
      obtain ⟨p₁, hs⟩ := pollAccept_some (Opend.poll p x.revents) fd uid
      obtain ⟨_, _, _, hlisten, _, hconns, hout, _, _, huse₁⟩ := pollAccept_spec hpoll.numfd hs
      -- the new entry comes last, and its flags are clear in this round
      have hdrop : (inUse p₁).drop 1 = polled p x ++ [⟨fd, ⟨true, false⟩, ⟨false, false⟩⟩] := by
        rw [huse₁, polled, huse]
        rfl
      refine .inr ⟨p₁, hs, hpoll.accept hfd hl hnew hs, hlisten, ⟨_, hout, rfl⟩, hconns, ?_, ?_⟩
      · intro read
        rw [hdrop, answers_append]
        exact List.append_nil _
      · intro e' he'
        rw [hdrop] at he'
        rcases List.mem_append.mp he' with he' | he'
        · exact .inl he'
        · rw [List.mem_singleton.mp he']
          exact .inr rfl
  · rw [if_neg hin, if_neg hin]
    exact .inr ⟨_, rfl, hpoll, rfl, ⟨[], (List.append_nil _).symm, rfl⟩, (List.append_nil _).symm,
      fun _ => rfl, fun _ he' => .inl he'⟩

/-- **What one pass does.** -/
theorem Packed.pass (h : Packed p) (hk : PollKernelOk p x) :
    (Answered p x → ∃ p', pollPass p x = some p') ∧
      ∀ p', pollPass p x = some p' → PassDone p x p' := by
  unfold pollPass
  rcases h.opened hk with ⟨hs, hno⟩ | ⟨p₁, hs, h₁, hl, ⟨new₁, hout₁, hnone⟩, hconns, hans, hmem⟩
  · rw [hs]
    exact ⟨fun ha => absurd ha hno, fun p' h => nomatch h⟩
  · rw [hs, Option.bind_some]
    rcases @Packed.scan x.read p₁.numfd 1 p₁ h₁ (Nat.le_refl 1) (by omega) with
      ⟨hs', e, he, hfail⟩ | ⟨p', j, hs', hv, hj⟩
    · rw [hs']
      refine ⟨fun ha => ?_, fun p' h => nomatch h⟩
      rcases hmem e he with hin | hflag
      · exact absurd hfail (ha.2 e hin)
      · rw [Pollfd.flagged, hfail.2.1, Bool.true_or] at hflag
        cases hflag
    · rw [hs']
      refine ⟨fun _ => ⟨p', rfl⟩, fun p'' he => ?_⟩
      cases he
      obtain ⟨new, hout, hperm, hleft⟩ := hv.out
      have hdone : (inUse p').drop j = [] := by
        apply List.drop_of_length_le
        rw [length_inUse hv.packed.numfd]
        exact hj
      have hnil : answers x.read [] = [] := rfl
      rw [hdone, hnil, List.append_nil, hans] at hperm
      refine ⟨hv.packed, hv.listenfd.trans hl, new₁ ++ new, ?_, ?_, ?_⟩
      · rw [hout, hout₁, List.append_assoc]
      · rw [List.filterMap_append, hnone, List.nil_append]
        exact hperm
      · rw [List.filterMap_append, hnone, List.nil_append, hleft, hconns]

theorem Poll.Reach.packed (h : Poll.Reach (fun _ _ => True) p) : Packed p := by
  induction h with
  | init hl hp => exact .init hl hp
  | pass _ hk _ hs ih => exact ((ih.pass hk).2 _ hs).packed

/-- The descriptors of the entries in use. -/
theorem Packed.descriptors (h : Packed p) : ∃ fds, (inUse p).map Pollfd.fd = p.listenfd :: fds ∧
    fds.Perm (p.conns.map Prod.fst) ∧ (p.listenfd :: fds).Nodup := by
  obtain ⟨e, es, huse, he, hes⟩ := h.fds
  refine ⟨es.map Pollfd.fd, ?_, hes, (hes.cons p.listenfd).nodup_iff.mpr h.nodup⟩
  rw [huse, List.map_cons, he]

/-- **Every pass**, in every run: it goes through if `serv_accept` and `read` do not fail. Then exactly
what the flags of the entries call for has been done, once for each entry, whose descriptors all
differ. The entries in use are afterwards those of `listenfd` and of the connections that were open or
new and have not been closed, without duplicates, and there is room for them. -/
theorem pollPass_packed (h : Poll.Reach (fun _ _ => True) p) (hk : PollKernelOk p x) :
    (Answered p x → ∃ p', pollPass p x = some p') ∧
    ((polled p x).map Pollfd.fd).Nodup ∧
    ∀ p', pollPass p x = some p' →
      (∃ new, p'.out = p.out ++ new ∧
        (new.filterMap Out.served).Perm (answers x.read (polled p x)) ∧
        p'.conns = (p.conns ++ accepted p x).left (new.filterMap Out.served)) ∧
      (∃ fds, (inUse p').map Pollfd.fd = p'.listenfd :: fds ∧ fds.Perm (p'.conns.map Prod.fst) ∧
        (p'.listenfd :: fds).Nodup) ∧
      p'.listenfd = p.listenfd ∧ p'.numfd ≤ p'.pollfd.length := by
  have hpacked := h.packed
  obtain ⟨hsome, hdone⟩ := hpacked.pass hk
  refine ⟨hsome, ?_, fun p' hs => ?_⟩
  · obtain ⟨fds, hfds, -, hnodup⟩ := (hpacked.poll x.revents).descriptors
    rw [polled, List.map_drop, hfds]
    exact (List.nodup_cons.mp hnodup).2
  · have hd := hdone p' hs
    exact ⟨hd.out, hd.packed.descriptors, hd.listenfd, hd.packed.numfd⟩

/-- The first two clients go, and the third one sends a request. -/
def twoGo : PollPass where
  revents i := ⟨decide (i = 3), decide (i = 1 ∨ i = 2)⟩
  conn := none
  read _ := .bytes [65]

/-- Three clients, and such a pass: the entry of the third one is moved. -/
theorem pollPass_packed_three : ∃ p p' : Poll, Poll.Reach (fun _ _ => True) p ∧
    pollPass p twoGo = some p' ∧ p'.conns = [(7, 300)] ∧
    ∃ fds, (inUse p').map Pollfd.fd = p'.listenfd :: fds ∧ fds.Perm (p'.conns.map Prod.fst) ∧
      (p'.listenfd :: fds).Nodup := by
  have hrun : (((Poll.init 3).bind (passes (fun _ _ => true)
      [connects 5 100, connects 6 200, connects 7 300])).any fun p => kernelOk p twoGo &&
        (pollPass p twoGo).any fun p' => decide (p'.conns = [(7, 300)])) = true := by decide +kernel
  obtain ⟨p, hp, hrun⟩ := (Option.any_eq_true _ _).mp hrun
  obtain ⟨hok, hrun⟩ := (Bool.and_eq_true ..).mp hrun
  obtain ⟨p', hs, hconns⟩ := (Option.any_eq_true _ _).mp hrun
  obtain ⟨p₀, hp₀, hp⟩ := Option.bind_eq_some_iff.mp hp
  have hreach : Poll.Reach (fun _ _ => True) p :=
    .passes (fun _ _ _ => trivial) (.init (by decide) hp₀) hp
  exact ⟨p, p', hreach, hs, of_decide_eq_true hconns,
    ((pollPass_packed hreach (.of_kernelOk hok)).2.2 p' hs).2.1⟩

end LearningNotes.Opend
