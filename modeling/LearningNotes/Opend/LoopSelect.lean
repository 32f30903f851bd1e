import Mathlib.Logic.Function.Basic
import LearningNotes.Opend.Client

/-!
# `loop.select.c`

The main loop with `select`. A pass either accepts one new connection, or goes through the array
of clients and reads from those that are ready. The invariant `Inv` ties the array to `allset`,
`maxi` and `maxfd` and to the connections that are open; `visit_inv` is for one entry,
`scan_inv` for the way through the array.

Mirroring notes:
- `select` looks at the descriptors up to `maxfd` only. Descriptors are small enough for `fd_set`.
- A call that fails ends the server (`log_sys`), and the pass has no result.
-/

namespace LearningNotes.Opend

open Function (update update_self update_of_ne)

/-- The variables of `loop`, the open connections, and what has been recorded. -/
structure Select where
  listenfd : Int
  client : List Client
  allset : Int → Bool
  maxfd : Int
  maxi : Int
  conns : Conns
  out : List Out

/-- What the calls of one pass answer: the descriptors that are ready, `serv_accept`, and `read`. -/
structure Pass where
  ready : Int → Bool
  conn : Option (Int × Uid)
  read : Int → Read

/-- Before the first pass. -/
def Select.init (listenfd : Int) : Select where
  listenfd := listenfd
  client := []
  allset := fun fd => decide (fd = listenfd)
  maxfd := listenfd
  maxi := -1
  conns := []
  out := []

/-- The body of the loop through the array. -/
def visit (rset : Int → Bool) (read : Int → Read) (s : Select) (i : Nat) : Option Select :=
  match s.client[i]? with
  | none => none
  | some c =>
    if c.fd < 0 then some s
    else if rset c.fd then
      match read c.fd with
      | .error => none
      | .bytes [] =>
        -- the client has closed the connection
        (clientDel s.client c.fd).map fun client => { s with
          client := client
          allset := update s.allset c.fd false
          conns := s.conns.close c.fd
          out := s.out ++ [.closed c.fd c.uid (s.conns.own c.fd)] }
      | .bytes buf => some { s with out := s.out ++ [.request c.fd c.uid (s.conns.own c.fd) buf] }
    else some s

/-- `rset` after `select` has returned. -/
def rset (s : Select) (ready : Int → Bool) (fd : Int) : Bool :=
  s.allset fd && decide (fd ≤ s.maxfd) && ready fd

/-- One pass. -/
def pass (s : Select) (x : Pass) : Option Select :=
  if rset s x.ready s.listenfd then
    match x.conn with
    | none => none
    | some (clifd, uid) =>
      (clientAdd s.client clifd uid).map fun (client, i) => { s with
        client := client
        allset := update s.allset clifd true
        maxfd := if clifd > s.maxfd then clifd else s.maxfd
        maxi := if i > s.maxi then i else s.maxi
        conns := s.conns ++ [(clifd, uid)]
        out := s.out ++ [.connected clifd uid] }
  else (List.range (s.maxi + 1).toNat).foldlM (visit (rset s x.ready) x.read) s

/-- The kernel hands out descriptors that are not open. -/
def KernelOk (s : Select) (x : Pass) : Prop :=
  ∀ fd uid, x.conn = some (fd, uid) → 0 ≤ fd ∧ fd ≠ s.listenfd ∧ fd ∉ s.conns.map Prod.fst

/-- The states between the passes. -/
inductive Select.Reach : Select → Prop where
  | init {listenfd : Int} (h : 0 ≤ listenfd) : Select.Reach (.init listenfd)
  | pass {s s' : Select} {x : Pass} (h : Select.Reach s) (hk : KernelOk s x)
      (hs : Opend.pass s x = some s') : Select.Reach s'

structure Inv (s : Select) : Prop where
  set : ∀ fd, s.allset fd = true ↔ fd = s.listenfd ∨ ∃ c ∈ active s.client, c.fd = fd
  pos : ∀ c ∈ active s.client, 0 ≤ c.fd ∧ c.fd ≠ s.listenfd
  nodup : ((active s.client).map Client.fd).Nodup
  maxi : ∀ (i : Nat) c, s.client[i]? = some c → c.fd ≠ -1 → i ≤ s.maxi
  length : s.maxi < s.client.length
  maxfd : ∀ fd, s.allset fd = true → fd ≤ s.maxfd
  own : ((active s.client).map fun c => (c.fd, c.uid)).Perm (s.conns.map fun x => (x.1, some x.2))

variable {s s' : Select} {x : Pass} {c : Client} {i : Nat} {fd : Int} {uid : Uid}
  {ready : Int → Bool} {read : Int → Read}

/-- The descriptors of the open connections. -/
theorem Inv.fds (h : Inv s) : ((active s.client).map Client.fd).Perm (s.conns.map Prod.fst) := by
  have hp := h.own.map Prod.fst
  rwa [List.map_map, List.map_map] at hp

/-- An entry has the user id of the connection that is open on its descriptor. -/
theorem Inv.own_eq (h : Inv s) (hc : c ∈ active s.client) :
    ∃ uid, c.uid = some uid ∧ (c.fd, uid) ∈ s.conns ∧ s.conns.own c.fd = some uid := by
  have hmem : (c.fd, c.uid) ∈ s.conns.map fun x => (x.1, some x.2) :=
    h.own.mem_iff.mp (List.mem_map_of_mem (f := fun c : Client => (c.fd, c.uid)) hc)
  obtain ⟨⟨fd, uid⟩, hx, he⟩ := List.mem_map.mp hmem
  obtain ⟨rfl, huid⟩ : fd = c.fd ∧ some uid = c.uid := Prod.mk.inj he
  exact ⟨uid, huid.symm, hx, Conns.own_of_mem (h.fds.nodup_iff.mp h.nodup) hx⟩

theorem Inv.init {listenfd : Int} : Inv (.init listenfd) := by
  refine ⟨fun fd => ?_, ?_, List.nodup_nil, ?_, ?_, ?_, .refl _⟩
  · show decide (fd = listenfd) = true ↔ _
    rw [decide_eq_true_eq]
    exact ⟨Or.inl, fun h => h.elim id fun ⟨c, hc, _⟩ => absurd hc List.not_mem_nil⟩
  · intro c hc
    exact absurd hc List.not_mem_nil
  · intro i c hc
    exact absurd hc (by simp [Select.init])
  · show (-1 : Int) < ((0 : Nat) : Int)
    omega
  · intro fd hfd
    exact Int.le_of_eq (of_decide_eq_true hfd)

/-- `rset` has what is ready. -/
theorem Inv.rset_eq (h : Inv s) (hfd : s.allset fd = true) : rset s ready fd = ready fd := by
  unfold rset
  rw [hfd, decide_eq_true (h.maxfd fd hfd)]
  rfl

/-! ## A new connection -/

theorem Inv.accept {client : List Client} (h : Inv s) (hadd : clientAdd s.client fd uid = some (client, i))
    (hfd : 0 ≤ fd) (hl : fd ≠ s.listenfd) (hnew : fd ∉ s.conns.map Prod.fst) (out : List Out) :
    Inv { s with
      client := client
      allset := update s.allset fd true
      maxfd := if fd > s.maxfd then fd else s.maxfd
      maxi := if i > s.maxi then i else s.maxi
      conns := s.conns ++ [(fd, uid)]
      out := out } := by
  obtain ⟨hperm, hlen, hget, hother⟩ := active_add hadd (by omega)
  have hmem : ∀ c, c ∈ active client ↔ c = ⟨fd, some uid⟩ ∨ c ∈ active s.client :=
    fun c => hperm.mem_iff.trans List.mem_cons
  have hfresh : fd ∉ (active s.client).map Client.fd := fun hin => hnew (h.fds.mem_iff.mp hin)
  refine ⟨fun fd' => ?_, fun c hc => ?_, ?_, fun k c hc hfree => ?_, ?_, fun fd' hfd' => ?_, ?_⟩
  · show update s.allset fd true fd' = true ↔ fd' = s.listenfd ∨ ∃ c ∈ active client, c.fd = fd'
    by_cases he : fd' = fd
    · subst he
      rw [update_self]
      exact iff_of_true rfl (Or.inr ⟨_, (hmem _).mpr (Or.inl rfl), rfl⟩)
    · rw [update_of_ne he, h.set fd']
      refine or_congr Iff.rfl ⟨fun ⟨c, hc, hcf⟩ => ⟨c, (hmem c).mpr (Or.inr hc), hcf⟩, ?_⟩
      rintro ⟨c, hc, rfl⟩
      rcases (hmem c).mp hc with rfl | hc
      · exact absurd rfl he
      · exact ⟨c, hc, rfl⟩
  · rcases (hmem c).mp hc with rfl | hc
    · exact ⟨hfd, hl⟩
    · exact h.pos c hc
  · rw [(hperm.map Client.fd).nodup_iff, List.map_cons, List.nodup_cons]
    exact ⟨hfresh, h.nodup⟩
  · -- the new entry may be the last one in use
    have hk : k = i ∨ (k : Int) ≤ s.maxi := by
      by_cases hki : k = i
      · exact Or.inl hki
      · exact Or.inr (h.maxi k c (hother k hki c hc hfree) hfree)
    show (k : Int) ≤ if (i : Int) > s.maxi then (i : Int) else s.maxi
    split <;> omega
  · have hi : i < client.length := (List.getElem?_eq_some_iff.mp hget).1
    have hmax := h.length
    show (if (i : Int) > s.maxi then (i : Int) else s.maxi) < client.length
    split <;> omega
  · have hle : fd' = fd ∨ fd' ≤ s.maxfd := by
      by_cases he : fd' = fd
      · exact Or.inl he
      · exact Or.inr (h.maxfd fd' ((update_of_ne he ..).symm.trans hfd'))
    show fd' ≤ if fd > s.maxfd then fd else s.maxfd
    split <;> omega
  · have hp := hperm.map fun c => (c.fd, c.uid)
    rw [List.map_cons] at hp
    show ((active client).map fun c => (c.fd, c.uid)).Perm ((s.conns ++ [(fd, uid)]).map _)
    rw [List.map_append]
    exact hp.trans ((h.own.cons _).trans (List.perm_append_singleton _ _).symm)

/-! ## One entry -/

/-- What is recorded when a client is read. -/
def handled (read : Int → Read) (c : Client) : Out :=
  match read c.fd with
  | .bytes (b :: buf) => .request c.fd c.uid c.uid (b :: buf)
  | _ => .closed c.fd c.uid c.uid

/-- The client closes its connection. -/
theorem Inv.close {l r : List Client} (h : Inv s) (hclient : s.client = l ++ c :: r)
    (hfree : c.fd ≠ -1) (out : List Out) :
    clientDel s.client c.fd = some (l ++ { c with fd := -1 } :: r) ∧
      Inv { s with
        client := l ++ { c with fd := -1 } :: r
        allset := update s.allset c.fd false
        conns := s.conns.close c.fd
        out := out } := by
  have hact : active s.client = active l ++ c :: active r := by
    rw [hclient]
    unfold active
    rw [List.filter_append, List.filter_cons_of_pos (by simpa using hfree)]
  have hact' : active (l ++ { c with fd := -1 } :: r) = active l ++ active r := by
    unfold active
    rw [List.filter_append, List.filter_cons_of_neg (by simp)]
  have hnodup := h.nodup
  rw [hact, List.map_append, List.map_cons, List.nodup_append, List.nodup_cons] at hnodup
  obtain ⟨hnl, ⟨hcr, hnr⟩, hdis⟩ := hnodup
  -- no other entry has the descriptor
  have hne : ∀ d ∈ active l ++ active r, d.fd ≠ c.fd := by
    intro d hd he
    rcases List.mem_append.mp hd with hd | hd
    · exact hdis d.fd (List.mem_map_of_mem hd) c.fd List.mem_cons_self he
    · exact hcr (he ▸ List.mem_map_of_mem hd)
  have hsub : ∀ d ∈ active l ++ active r, d ∈ active s.client := by
    intro d hd
    rw [hact]
    rcases List.mem_append.mp hd with hd | hd
    · exact List.mem_append_left _ hd
    · exact List.mem_append_right _ (List.mem_cons_of_mem _ hd)
  have hc : c ∈ active s.client := by
    rw [hact]
    exact List.mem_append_right _ List.mem_cons_self
  have hlen : (l ++ { c with fd := -1 } :: r).length = s.client.length := by
    rw [hclient]
    simp
  constructor
  · rw [hclient]
    refine clientDel_spec rfl fun d hd he => ?_
    by_cases hd' : d.fd = -1
    · exact hfree (he.symm.trans hd')
    · exact hne d (List.mem_append_left _ (mem_active.mpr ⟨hd, hd'⟩)) he
  · refine ⟨fun fd => ?_, fun d hd => ?_, ?_, fun k d hd hfree' => ?_, ?_, fun fd hfd => ?_, ?_⟩
    · show update s.allset c.fd false fd = true ↔
        fd = s.listenfd ∨ ∃ d ∈ active (l ++ { c with fd := -1 } :: r), d.fd = fd
      rw [hact']
      by_cases he : fd = c.fd
      · subst he
        rw [update_self]
        refine iff_of_false (by simp) ?_
        rintro (he | ⟨d, hd, he⟩)
        · exact (h.pos c hc).2 he
        · exact hne d hd he
      · rw [update_of_ne he, h.set fd]
        refine or_congr Iff.rfl ⟨?_, fun ⟨d, hd, hdf⟩ => ⟨d, hsub d hd, hdf⟩⟩
        rintro ⟨d, hd, rfl⟩
        rw [hact] at hd
        rcases List.mem_append.mp hd with hd | hd
        · exact ⟨d, List.mem_append_left _ hd, rfl⟩
        · rcases List.mem_cons.mp hd with rfl | hd
          · exact absurd rfl he
          · exact ⟨d, List.mem_append_right _ hd, rfl⟩
    · rw [hact'] at hd
      exact h.pos d (hsub d hd)
    · show ((active (l ++ { c with fd := -1 } :: r)).map Client.fd).Nodup
      rw [hact', List.map_append, List.nodup_append]
      exact ⟨hnl, hnr, fun a ha b hb => hdis a ha b (List.mem_cons_of_mem _ hb)⟩
    · by_cases hk : k = l.length
      · subst hk
        rw [show (l ++ { c with fd := -1 } :: r)[l.length]? = some { c with fd := -1 } by simp] at hd
        cases hd
        exact absurd rfl hfree'
      · refine h.maxi k d ?_ hfree'
        rw [hclient]
        rcases Nat.lt_or_gt_of_ne hk with hlt | hgt
        · rw [List.getElem?_append_left hlt] at hd ⊢
          exact hd
        · rw [List.getElem?_append_right (Nat.le_of_lt hgt)] at hd ⊢
          obtain ⟨m, hm⟩ : ∃ m, k - l.length = m + 1 := ⟨k - l.length - 1, by omega⟩
          rw [hm, List.getElem?_cons_succ] at hd ⊢
          exact hd
    · show s.maxi < (l ++ { c with fd := -1 } :: r).length
      rw [hlen]
      exact h.length
    · by_cases he : fd = c.fd
      · subst he
        exact absurd hfd (by simp)
      · exact h.maxfd fd ((update_of_ne he ..).symm.trans hfd)
    · -- the connection of this entry is the only one that is closed
      show ((active (l ++ { c with fd := -1 } :: r)).map fun c => (c.fd, c.uid)).Perm
        ((s.conns.close c.fd).map fun x => (x.1, some x.2))
      have hp := h.own.filter fun x => decide (x.1 ≠ c.fd)
      rw [List.filter_map, List.filter_map, hact, List.filter_append,
        List.filter_cons_of_neg (by simp), ← List.filter_append] at hp
      rw [hact', Conns.close]
      rw [List.filter_eq_self.mpr fun d hd => by simpa using hne d hd] at hp
      exact hp

theorem drop_middle (l r : List Client) (d : Client) : (l ++ d :: r).drop (l.length + 1) = r := by
  simp

/-- **One entry**: when the client is ready, it is read once, under its own user id. -/
theorem visit_inv (h : Inv s) (hc : s.client[i]? = some c) (rset : Int → Bool)
    (hread : c.fd ≠ -1 → rset c.fd = true → read c.fd ≠ .error) :
    ∃ s', visit rset read s i = some s' ∧ Inv s' ∧ s'.client.length = s.client.length ∧
      s'.client.drop (i + 1) = s.client.drop (i + 1) ∧
      s'.listenfd = s.listenfd ∧ s'.maxi = s.maxi ∧ s'.maxfd = s.maxfd ∧
      s'.out = s.out ++ if c.fd ≠ -1 ∧ rset c.fd = true then [handled read c] else [] := by
  have hclient : s.client = s.client.take i ++ c :: s.client.drop (i + 1) := by
    obtain ⟨hi, rfl⟩ := List.getElem?_eq_some_iff.mp hc
    rw [List.getElem_cons_drop, List.take_append_drop]
  -- what holds of an entry that is free or not ready
  have hskip : ∃ s', some s = some s' ∧ Inv s' ∧ s'.client.length = s.client.length ∧
      s'.client.drop (i + 1) = s.client.drop (i + 1) ∧
      s'.listenfd = s.listenfd ∧ s'.maxi = s.maxi ∧ s'.maxfd = s.maxfd ∧ s'.out = s.out ++ [] :=
    ⟨s, rfl, h, rfl, rfl, rfl, rfl, rfl, (List.append_nil _).symm⟩
  unfold visit
  rw [hc]
  dsimp only
  by_cases hfree : c.fd = -1
  · rw [if_pos (by omega), if_neg (fun hand => hand.1 hfree)]
    exact hskip
  · have hact : c ∈ active s.client := mem_active.mpr ⟨List.mem_of_getElem? hc, hfree⟩
    have hpos := (h.pos c hact).1
    obtain ⟨uid, huid, -, hown⟩ := h.own_eq hact
    rw [if_neg (by omega)]
    by_cases hr : rset c.fd = true
    · rw [if_pos hr, if_pos ⟨hfree, hr⟩]
      cases hb : read c.fd with
      | error => exact absurd hb (hread hfree hr)
      | bytes buf =>
        cases buf with
        | nil =>
          -- the client has closed its end: the entry is free again
          obtain ⟨hdel, hinv⟩ := h.close hclient hfree (s.out ++ [.closed c.fd c.uid c.uid])
          dsimp only
          rw [hdel, Option.map_some, hown, ← huid]
          have hlt : i < s.client.length := (List.getElem?_eq_some_iff.mp hc).1
          have hi : (s.client.take i).length = i := List.length_take_of_le (Nat.le_of_lt hlt)
          refine ⟨_, rfl, hinv, ?_, ?_, rfl, rfl, rfl, ?_⟩
          · show (s.client.take i ++ { c with fd := -1 } :: s.client.drop (i + 1)).length = _
            rw [List.length_append, List.length_cons, hi, List.length_drop]
            omega
          · have hdrop := drop_middle (s.client.take i) (s.client.drop (i + 1)) { c with fd := -1 }
            rw [hi] at hdrop
            exact hdrop
          · unfold handled
            rw [hb]
        | cons b buf =>
          dsimp only
          rw [hown, ← huid]
          refine ⟨_, rfl, ⟨h.set, h.pos, h.nodup, h.maxi, h.length, h.maxfd, h.own⟩, rfl, rfl, rfl, rfl,
            rfl, ?_⟩
          unfold handled
          rw [hb]
    · rw [if_neg hr, if_neg (fun hand => hr hand.2)]
      exact hskip

/-! ## The way through the array -/

/-- What is ready among the first `k` entries. -/
def readyLog (ready : Int → Bool) (read : Int → Read) (client : List Client) : List Out :=
  ((active client).filter fun c => ready c.fd).map (handled read)

theorem readyLog_append (l : List Client) (c : Client) :
    readyLog ready read (l ++ [c]) =
      readyLog ready read l ++ if c.fd ≠ -1 ∧ ready c.fd = true then [handled read c] else [] := by
  unfold readyLog active
  rw [List.filter_append, List.filter_append, List.map_append]
  congr 1
  by_cases hfree : c.fd = -1
  · rw [if_neg (fun h => h.1 hfree), List.filter_cons_of_neg (by simpa using hfree)]
    rfl
  · rw [List.filter_cons_of_pos (by simpa using hfree), List.filter_nil]
    by_cases hr : ready c.fd = true
    · rw [if_pos ⟨hfree, hr⟩, List.filter_cons_of_pos (by simpa using hr)]
      rfl
    · rw [if_neg (fun h => hr h.2), List.filter_cons_of_neg (by simpa using hr)]
      rfl

/-- An entry that is read without ending the server. -/
theorem visit_read (h : Inv s) (hc : s.client[i]? = some c) {rset : Int → Bool}
    (hs : visit rset read s i = some s') (hfree : c.fd ≠ -1) (hr : rset c.fd = true) :
    read c.fd ≠ .error := by
  have hpos := (h.pos c (mem_active.mpr ⟨List.mem_of_getElem? hc, hfree⟩)).1
  intro he
  unfold visit at hs
  rw [hc] at hs
  dsimp only at hs
  rw [if_neg (by omega), if_pos hr, he] at hs
  exact absurd hs (by simp)

/-- What the way through the first `k` entries has done. -/
structure Scanned (ready : Int → Bool) (read : Int → Read) (s s' : Select) (k : Nat) : Prop where
  inv : Inv s'
  length : s'.client.length = s.client.length
  drop : s'.client.drop k = s.client.drop k
  listenfd : s'.listenfd = s.listenfd
  maxi : s'.maxi = s.maxi
  out : s'.out = s.out ++ readyLog ready read (s.client.take k)

theorem Scanned.start (h : Inv s) : Scanned ready read s s 0 :=
  ⟨h, rfl, rfl, rfl, rfl, (List.append_nil _).symm⟩

/-- The next entry has not been touched yet. -/
theorem Scanned.next {k : Nat} (h : Scanned ready read s s' k) (hk : k < s.client.length) :
    s'.client[k]? = some s.client[k] := by
  have hhead := congrArg List.head? h.drop
  rw [List.head?_drop, List.head?_drop, List.getElem?_eq_getElem hk] at hhead
  exact hhead

/-- One more entry. -/
theorem Scanned.visit {k : Nat} {s'' : Select} (h : Scanned ready read s s' k) (hinv : Inv s)
    (hk : k < s.client.length) (hs : visit (rset s ready) read s' k = some s'') :
    Scanned ready read s s'' (k + 1) := by
  have hc := h.next hk
  obtain ⟨s₂, hs₂, h₂, hlen, hdrop, hl, hmaxi, -, hout⟩ :=
    visit_inv h.inv hc (rset s ready) (visit_read h.inv hc hs)
  obtain rfl : s'' = s₂ := Option.some.inj (hs.symm.trans hs₂)
  refine ⟨h₂, hlen.trans h.length, ?_, hl.trans h.listenfd, hmaxi.trans h.maxi, ?_⟩
  · rw [hdrop, ← List.drop_drop, h.drop, List.drop_drop]
  · rw [hout, h.out, List.append_assoc, List.take_succ_eq_append_getElem hk, readyLog_append]
    congr 2
    by_cases hfree : s.client[k].fd = -1
    · rw [if_neg (fun h => h.1 hfree), if_neg (fun h => h.1 hfree)]
    · have hset : s.allset s.client[k].fd = true :=
        (hinv.set _).mpr (Or.inr ⟨_, mem_active.mpr ⟨List.getElem_mem hk, hfree⟩, rfl⟩)
      rw [hinv.rset_eq hset]

/-- **The first `k` entries**: each client among them that is ready has been read once. The entries
behind them are as they were. -/
theorem scan_inv (h : Inv s) : ∀ (k : Nat) {s' : Select}, k ≤ s.client.length →
    (List.range k).foldlM (visit (rset s ready) read) s = some s' → Scanned ready read s s' k := by
  intro k
  induction k with
  | zero =>
    intro s' _ hs
    cases hs
    exact .start h
  | succ k ih =>
    intro s' hk hs
    rw [List.range_succ, List.foldlM_append] at hs
    obtain ⟨s₁, hs₁, hs⟩ := Option.bind_eq_some_iff.mp hs
    obtain ⟨s₂, hs₂, he⟩ := Option.bind_eq_some_iff.mp hs
    cases he
    exact (ih (Nat.le_of_succ_le hk) hs₁).visit h hk hs₂

theorem Inv.le (h : Inv s) : (s.maxi + 1).toNat ≤ s.client.length := by
  have hmax := h.length
  omega

/-- **What one pass preserves.** -/
theorem Inv.pass (h : Inv s) (hk : KernelOk s x) (hs : pass s x = some s') : Inv s' := by
  unfold Opend.pass at hs
  split at hs
  · split at hs
    · exact absurd hs (by simp)
    · next fd uid hx =>
      obtain ⟨⟨client, i⟩, hadd, he⟩ := Option.map_eq_some_iff.mp hs
      cases he
      obtain ⟨hfd, hl, hnew⟩ := hk fd uid hx
      exact h.accept hadd hfd hl hnew _
  · exact (scan_inv h _ h.le hs).inv

/-- **The invariant holds in every reachable state.** -/
theorem Select.Reach.inv (h : s.Reach) : Inv s := by
  induction h with
  | init => exact .init
  | pass _ hk hs ih => exact ih.pass hk hs

end LearningNotes.Opend
