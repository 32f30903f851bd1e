import LearningNotes.Opend.Client

/-!
# `loop.poll.c`

The main loop with `poll`. Two arrays are used with one index: `pollfd` is packed when a client has
closed its connection (the last entry moves into the hole), `client` keeps the hole until the next
connection. The loop takes the descriptor from the one and the user id from the other, where the
loop with `select` takes both from `client`.

The two arrays agree as long as no entry is moved, that is, as long as only the client in the last
entry goes (`loop_right`); after that a request may be handled under the user id of a client that
has left (`loop_wrong`).

Mirroring notes:
- A pass is in two parts: what `poll` returns and a new connection (`opened`), and the loop through
  the entries (`scanFrom`). That loop has at most as many rounds as there are entries.
- The entries that `grow_pollfd` adds are like those at the start.
- A call that fails ends the server, and an access outside an array is undefined; there is no
  result then.
-/

namespace LearningNotes.Opend

/-- `events` or `revents`. -/
structure Events where
  pollin : Bool
  pollhup : Bool

/-- `struct pollfd` -/
structure Pollfd where
  fd : Int
  events : Events
  revents : Events

/-- An entry that is not in use. -/
def Pollfd.unused : Pollfd := ⟨-1, ⟨true, false⟩, ⟨false, false⟩⟩

/-- The variables of `loop`, the open connections, and what has been recorded. `maxfd` is the length
of `pollfd`. -/
structure Poll where
  listenfd : Int
  pollfd : List Pollfd
  numfd : Nat
  client : List Client
  conns : Conns
  out : List Out

/-- What the calls of one pass answer: `poll`, for the entries that it looks at, `serv_accept`, and
`read`. -/
structure PollPass where
  revents : Nat → Events
  conn : Option (Int × Uid)
  read : Int → Read

/-- Before the first pass. -/
def Poll.init (listenfd : Int) : Option Poll :=
  (clientAdd [] listenfd 0).map fun (client, _) =>
    { listenfd := listenfd
      pollfd := (List.replicate NALLOC Pollfd.unused).modify 0 fun e => { e with fd := listenfd }
      numfd := 1
      client := client
      conns := []
      out := [] }

/-- `poll` sets `revents` of the first `numfd` entries. -/
def poll (p : Poll) (revents : Nat → Events) : Poll :=
  { p with pollfd := p.pollfd.mapIdx fun i e =>
      if i < p.numfd then { e with revents := revents i } else e }

/-- A new client. -/
def pollAccept (p : Poll) : Option (Int × Uid) → Option Poll
  | none => none
  | some (clifd, uid) =>
    (clientAdd p.client clifd uid).map fun (client, _) =>
      let pollfd :=
        if p.numfd = p.pollfd.length then p.pollfd ++ List.replicate NALLOC .unused else p.pollfd
      { p with
        client := client
        pollfd := pollfd.set p.numfd ⟨clifd, ⟨true, false⟩, ⟨false, false⟩⟩
        numfd := p.numfd + 1
        conns := p.conns ++ [(clifd, uid)]
        out := p.out ++ [.connected clifd uid] }

/-- From `poll` to the loop through the entries. -/
def opened (p : Poll) (x : PollPass) : Option Poll :=
  let p := poll p x.revents
  match p.pollfd[0]? with
  | none => none
  | some e => if e.revents.pollin then pollAccept p x.conn else some p

/-- `hungup`: the client in entry `i` has closed the connection; the next index. -/
def hungup (p : Poll) (i : Nat) (e : Pollfd) : Option (Nat × Poll) := do
  let c ← p.client[i]?
  let client ← clientDel p.client e.fd
  let p : Poll := { p with
    client := client
    conns := p.conns.close e.fd
    out := p.out ++ [.closed e.fd c.uid (p.conns.own e.fd)] }
  if i < p.numfd - 1 then do
    -- pack the array, and recheck this entry
    let last ← p.pollfd[p.numfd - 1]?
    some (i, { p with pollfd := p.pollfd.set i last, numfd := p.numfd - 1 })
  else some (i + 1, { p with numfd := p.numfd - 1 })

/-- The body of the loop through the entries; the next index. -/
def visitEntry (read : Int → Read) (p : Poll) (i : Nat) : Option (Nat × Poll) := do
  let e ← p.pollfd[i]?
  if e.revents.pollhup then hungup p i e
  else if e.revents.pollin then
    match read e.fd with
    | .error => none
    | .bytes [] => hungup p i e
    | .bytes buf => do
      let c ← p.client[i]?
      some (i + 1, { p with out := p.out ++ [.request e.fd c.uid (p.conns.own e.fd) buf] })
  else some (i + 1, p)

/-- The loop through the entries, with at most that many rounds. -/
def scanFrom (read : Int → Read) : Nat → Nat → Poll → Option Poll
  | rounds, i, p =>
    if i < p.numfd then
      match rounds with
      | 0 => none
      | rounds + 1 => (visitEntry read p i).bind fun (i, p) => scanFrom read rounds i p
    else some p

/-- One pass. -/
def pollPass (p : Poll) (x : PollPass) : Option Poll :=
  (opened p x).bind fun p => scanFrom x.read p.numfd 1 p

/-- The client is found to have gone. -/
def Gone (read : Int → Read) (e : Pollfd) : Prop :=
  e.revents.pollhup = true ∨ e.revents.pollin = true ∧ read e.fd = .bytes []

/-- When the loop through the entries starts, only the client in the last entry may have gone. -/
def LastGone (p : Poll) (x : PollPass) : Prop :=
  ∀ p', opened p x = some p' → ∀ i e, 1 ≤ i → i < p'.numfd → p'.pollfd[i]? = some e →
    Gone x.read e → i + 1 = p'.numfd

/-- The kernel hands out descriptors that are not open. -/
def PollKernelOk (p : Poll) (x : PollPass) : Prop :=
  ∀ fd uid, x.conn = some (fd, uid) → 0 ≤ fd ∧ fd ≠ p.listenfd ∧ fd ∉ p.conns.map Prod.fst

/-- The states between the passes that meet the condition `C`. -/
inductive Poll.Reach (C : Poll → PollPass → Prop) : Poll → Prop where
  | init {listenfd : Int} {p : Poll} (h : 0 ≤ listenfd) (hp : Poll.init listenfd = some p) :
      Poll.Reach C p
  | pass {p p' : Poll} {x : PollPass} (h : Poll.Reach C p) (hk : PollKernelOk p x) (hc : C p x)
      (hs : pollPass p x = some p') : Poll.Reach C p'

/-- The entries that `poll` looks at. -/
def inUse (p : Poll) : List Pollfd := p.pollfd.take p.numfd

theorem length_inUse {p : Poll} (h : p.numfd ≤ p.pollfd.length) : (inUse p).length = p.numfd :=
  List.length_take_of_le h

theorem pollAccept_some (p : Poll) (fd : Int) (uid : Uid) :
    ∃ p', pollAccept p (some (fd, uid)) = some p' := by
  obtain ⟨r, hr⟩ := clientAdd_some p.client fd uid
  exact ⟨_, congrArg (Option.map _) hr⟩

/-- A new client gets the entry behind the last one, in an array that is made longer if need be. -/
theorem pollAccept_spec {p p' : Poll} {fd : Int} {uid : Uid} (hnumfd : p.numfd ≤ p.pollfd.length)
    (hs : pollAccept p (some (fd, uid)) = some p') :
    ∃ client i, clientAdd p.client fd uid = some (client, i) ∧ p'.listenfd = p.listenfd ∧
      p'.client = client ∧ p'.conns = p.conns ++ [(fd, uid)] ∧
      p'.out = p.out ++ [.connected fd uid] ∧ p'.numfd = p.numfd + 1 ∧
      p'.numfd ≤ p'.pollfd.length ∧
      inUse p' = inUse p ++ [⟨fd, ⟨true, false⟩, ⟨false, false⟩⟩] := by
  obtain ⟨⟨client, i⟩, hadd, he⟩ := Option.map_eq_some_iff.mp hs
  obtain ⟨more, hmore, hroom⟩ : ∃ more : List Pollfd, (if p.numfd = p.pollfd.length then
      p.pollfd ++ List.replicate NALLOC .unused else p.pollfd) = p.pollfd ++ more ∧
      p.numfd < (p.pollfd ++ more).length := by
    split
    · refine ⟨_, rfl, ?_⟩
      rw [List.length_append, List.length_replicate]
      show p.numfd < p.pollfd.length + 10
      omega
    · refine ⟨[], (List.append_nil _).symm, ?_⟩
      rw [List.append_nil]
      omega
  dsimp only at he
  rw [hmore] at he
  subst he
  refine ⟨client, i, hadd, rfl, rfl, rfl, rfl, rfl, ?_, ?_⟩
  · show p.numfd + 1 ≤ ((p.pollfd ++ more).set _ _).length
    rw [List.length_set]
    omega
  · show ((p.pollfd ++ more).set p.numfd _).take (p.numfd + 1) = _
    rw [List.take_succ_eq_append_getElem (by rw [List.length_set]; exact hroom),
      List.getElem_set_self, List.take_set_of_le (Nat.le_refl _), List.take_append_of_le_length hnumfd]
    rfl

/-- The two arrays agree, entry by entry, and the open connections are in the same order. -/
structure Aligned (p : Poll) : Prop where
  numfd : p.numfd ≤ p.pollfd.length
  fds : (p.pollfd.take p.numfd).map Pollfd.fd = p.listenfd :: p.conns.map Prod.fst
  clients : p.client.take p.numfd =
    ⟨p.listenfd, some 0⟩ :: p.conns.map fun x => ⟨x.1, some x.2⟩
  free : ∀ c ∈ p.client.drop p.numfd, c.fd = -1
  nodup : (p.listenfd :: p.conns.map Prod.fst).Nodup
  pos : ∀ fd ∈ p.listenfd :: p.conns.map Prod.fst, 0 ≤ fd
  right : ∀ o ∈ p.out, o.Right

variable {p p' : Poll} {x : PollPass} {read : Int → Read} {e : Pollfd} {i : Nat} {fd : Int} {uid : Uid}

theorem Aligned.length (h : Aligned p) : p.numfd = p.conns.length + 1 := by
  have hlen := congrArg List.length h.fds
  have hle := h.numfd
  rw [List.length_map, List.length_take, List.length_cons, List.length_map] at hlen
  omega

/-- The entry of a client, in both arrays. -/
theorem Aligned.entry (h : Aligned p) (hi : i + 1 < p.numfd) (he : p.pollfd[i + 1]? = some e) :
    ∃ uid, p.conns[i]? = some (e.fd, uid) ∧ p.client[i + 1]? = some ⟨e.fd, some uid⟩ ∧
      p.conns.own e.fd = some uid := by
  have hlen := h.length
  have hlt : i < p.conns.length := by omega
  obtain ⟨⟨fd, uid⟩, hx⟩ : ∃ x, p.conns[i]? = some x := ⟨_, List.getElem?_eq_getElem hlt⟩
  have hfd : e.fd = fd := by
    have hget := congrArg (fun l => l[i + 1]?) h.fds
    simp only [List.getElem?_map, List.getElem?_cons_succ, List.getElem?_take, if_pos hi, he, hx] at hget
    simpa using hget
  subst hfd
  refine ⟨uid, hx, ?_, ?_⟩
  · have hget := congrArg (fun l => l[i + 1]?) h.clients
    simpa only [List.getElem?_map, List.getElem?_cons_succ, List.getElem?_take, if_pos hi, hx,
      Option.map_some] using hget
  · exact Conns.own_of_mem (List.nodup_cons.mp h.nodup).2 (List.mem_of_getElem? hx)

/-- At the start. -/
theorem Aligned.init {listenfd : Int} (hl : 0 ≤ listenfd) (h : Poll.init listenfd = some p) :
    Aligned p := by
  obtain ⟨⟨client, i⟩, hadd, he⟩ := Option.map_eq_some_iff.mp h
  cases he
  have hclient : client = ⟨listenfd, some 0⟩ :: List.replicate 9 ⟨-1, none⟩ :=
    congrArg Prod.fst (Option.some.inj (hadd.symm.trans rfl))
  subst hclient
  refine ⟨?_, rfl, rfl, fun c hc => ?_, by simp, fun fd hfd => ?_, ?_⟩
  · show 1 ≤ ((List.replicate NALLOC Pollfd.unused).modify 0 fun e => { e with fd := listenfd }).length
    rw [List.length_modify, List.length_replicate]
    exact Nat.le_of_ble_eq_true rfl
  · exact congrArg Client.fd (List.eq_of_mem_replicate hc)
  · rw [List.mem_singleton.mp hfd]
    exact hl
  · intro o ho
    exact absurd ho List.not_mem_nil

/-- `poll` touches `revents` only. -/
theorem Aligned.poll (h : Aligned p) (revents : Nat → Events) : Aligned (poll p revents) := by
  refine ⟨?_, ?_, h.clients, h.free, h.nodup, h.pos, h.right⟩
  · show p.numfd ≤ (p.pollfd.mapIdx _).length
    rw [List.length_mapIdx]
    exact h.numfd
  · refine Eq.trans ?_ h.fds
    apply List.ext_getElem?
    intro k
    simp only [Opend.poll, List.getElem?_map, List.getElem?_take, List.getElem?_mapIdx]
    split
    · cases p.pollfd[k]? <;> rfl
    · rfl

/-- A new client gets the entry behind the last one, in both arrays. -/
theorem Aligned.accept (h : Aligned p) (hfd : 0 ≤ fd) (hl : fd ≠ p.listenfd)
    (hnew : fd ∉ p.conns.map Prod.fst) (hs : pollAccept p (some (fd, uid)) = some p') :
    Aligned p' := by
  obtain ⟨client, i, hadd, hlisten, rfl, hconns, hout, hn, hle, huse⟩ := pollAccept_spec h.numfd hs
  have hlen := h.length
  have hclen : p.numfd ≤ p.client.length := by
    have hc := congrArg List.length h.clients
    rw [List.length_take, List.length_cons, List.length_map] at hc
    omega
  obtain ⟨htake, hfree⟩ := clientAdd_packed hadd hclen (fun c hc => by
    have hmem : c.fd ∈ p.listenfd :: p.conns.map Prod.fst := by
      rw [h.clients] at hc
      rcases List.mem_cons.mp hc with rfl | hc
      · exact List.mem_cons_self
      · obtain ⟨y, hy, rfl⟩ := List.mem_map.mp hc
        exact List.mem_cons_of_mem _ (List.mem_map_of_mem hy)
    have hpos := h.pos c.fd hmem
    omega) h.free
  refine ⟨hle, ?_, ?_, hn ▸ hfree, ?_, ?_, ?_⟩
  · have huse : p'.pollfd.take p'.numfd = _ := huse
    rw [huse, List.map_append, hlisten, hconns]
    show (p.pollfd.take p.numfd).map Pollfd.fd ++ _ = _
    rw [h.fds, List.map_append]
    rfl
  · rw [hn, htake, h.clients, hlisten, hconns, List.map_append]
    rfl
  · rw [hlisten, hconns, List.map_append, ← List.cons_append, List.nodup_append]
    refine ⟨h.nodup, List.pairwise_singleton .., fun a ha b hb => ?_⟩
    rw [List.mem_singleton.mp hb]
    rcases List.mem_cons.mp ha with rfl | ha
    · exact hl.symm
    · intro he
      have he : a = fd := he
      exact hnew (he ▸ ha)
  · intro fd' hfd'
    rw [hlisten, hconns, List.map_append, ← List.cons_append] at hfd'
    rcases List.mem_append.mp hfd' with hfd' | hfd'
    · exact h.pos fd' hfd'
    · rw [List.mem_singleton.mp hfd']
      exact hfd
  · intro o ho
    rw [hout] at ho
    rcases List.mem_append.mp ho with ho | ho
    · exact h.right o ho
    · rw [List.mem_singleton.mp ho]
      trivial

/-- The client in the last entry has gone. -/
theorem Aligned.hungup (h : Aligned p) (hi : i + 2 = p.numfd) (he : p.pollfd[i + 1]? = some e) :
    ∃ p', hungup p (i + 1) e = some (i + 2, p') ∧ Aligned p' ∧ p'.numfd = i + 1 := by
  obtain ⟨uid, hx, hc, hown⟩ := h.entry (by omega) he
  have hlen := h.length
  have hilen : i + 1 = p.conns.length := by omega
  have hclt : i + 1 < p.client.length := (List.getElem?_eq_some_iff.mp hc).1
  -- the connection is the last one
  have hconns : p.conns = p.conns.take i ++ [(e.fd, uid)] := by
    have hlt : i < p.conns.length := by omega
    have hx' : p.conns[i] = (e.fd, uid) := by
      rw [List.getElem?_eq_getElem hlt] at hx
      exact Option.some.inj hx
    rw [← hx', ← List.take_succ_eq_append_getElem hlt, List.take_of_length_le (by omega)]
  have hclient : p.client = p.client.take (i + 1) ++ ⟨e.fd, some uid⟩ :: p.client.drop (i + 2) := by
    obtain ⟨hlt, hc⟩ := List.getElem?_eq_some_iff.mp hc
    rw [← hc, List.getElem_cons_drop, List.take_append_drop]
  have htake : p.client.take (i + 1) =
      ⟨p.listenfd, some 0⟩ :: (p.conns.take i).map fun x => ⟨x.1, some x.2⟩ := by
    have ht := congrArg (List.take (i + 1)) h.clients
    rw [List.take_take, Nat.min_eq_left (by omega), List.take_succ_cons, ← List.map_take] at ht
    exact ht
  have hnodup := h.nodup
  rw [hconns, List.map_append, ← List.cons_append, List.nodup_append] at hnodup
  obtain ⟨hnd, -, hdis⟩ := hnodup
  have hne : ∀ fd ∈ p.listenfd :: (p.conns.take i).map Prod.fst, fd ≠ e.fd :=
    fun fd hfd => hdis fd hfd e.fd (by simp)
  have hdel : clientDel p.client e.fd =
      some (p.client.take (i + 1) ++ ⟨-1, some uid⟩ :: p.client.drop (i + 2)) := by
    conv_lhs => rw [hclient]
    refine clientDel_spec rfl fun d hd => ?_
    rw [htake] at hd
    rcases List.mem_cons.mp hd with rfl | hd
    · exact hne _ List.mem_cons_self
    · obtain ⟨y, hy, rfl⟩ := List.mem_map.mp hd
      exact hne _ (List.mem_cons_of_mem _ (List.mem_map_of_mem hy))
  have hclose : p.conns.close e.fd = p.conns.take i := by
    conv_lhs => rw [hconns]
    unfold Conns.close
    rw [List.filter_append, List.filter_cons_of_neg (by simp), List.filter_nil, List.append_nil]
    refine List.filter_eq_self.mpr fun y hy => ?_
    simpa using hne _ (List.mem_cons_of_mem _ (List.mem_map_of_mem hy))
  have htl : (p.client.take (i + 1)).length = i + 1 := List.length_take_of_le (Nat.le_of_lt hclt)
  have hnum : p.numfd - 1 = i + 1 := by omega
  refine ⟨{ p with
    client := p.client.take (i + 1) ++ ⟨-1, some uid⟩ :: p.client.drop (i + 2)
    conns := p.conns.take i
    numfd := i + 1
    out := p.out ++ [.closed e.fd (some uid) (some uid)] }, ?_, ⟨?_, ?_, ?_, ?_, hnd, ?_, ?_⟩, rfl⟩
  · unfold Opend.hungup
    simp only [hc, hdel, hclose, hown, Option.bind_eq_bind, Option.bind_some, hnum]
    rw [if_neg (by omega)]
  · show i + 1 ≤ p.pollfd.length
    have := h.numfd
    omega
  · show (p.pollfd.take (i + 1)).map Pollfd.fd = p.listenfd :: (p.conns.take i).map Prod.fst
    have ht := congrArg (List.take (i + 1)) h.fds
    rw [← List.map_take, List.take_take, Nat.min_eq_left (by omega), List.take_succ_cons,
      ← List.map_take] at ht
    exact ht
  · show (p.client.take (i + 1) ++ _).take (i + 1) = _
    rw [List.take_append_of_le_length (Nat.le_of_eq htl.symm), List.take_take, Nat.min_self, htake]
  · intro c hc
    have hdrop : (p.client.take (i + 1) ++ (⟨-1, some uid⟩ : Client) :: p.client.drop (i + 2)).drop
        (i + 1) = ⟨-1, some uid⟩ :: p.client.drop (i + 2) := by
      rw [List.drop_append, List.drop_of_length_le (Nat.le_of_eq htl), htl, Nat.sub_self]
      rfl
    change c ∈ (p.client.take (i + 1) ++ (⟨-1, some uid⟩ : Client) :: p.client.drop (i + 2)).drop
      (i + 1) at hc
    rw [hdrop] at hc
    rcases List.mem_cons.mp hc with rfl | hc
    · rfl
    · exact h.free c (by rw [← hi]; exact hc)
  · intro fd hfd
    refine h.pos fd ?_
    rcases List.mem_cons.mp hfd with rfl | hfd
    · exact List.mem_cons_self
    · obtain ⟨y, hy, rfl⟩ := List.mem_map.mp hfd
      exact List.mem_cons_of_mem _ (List.mem_map_of_mem (List.mem_of_mem_take hy))
  · intro o ho
    rcases List.mem_append.mp ho with ho | ho
    · exact h.right o ho
    · rw [List.mem_singleton.mp ho]
      exact ⟨Option.some_ne_none _, rfl⟩

/-- Only the client in the last entry may have gone, from entry `i` on. -/
def OnlyLast (read : Int → Read) (p : Poll) (i : Nat) : Prop :=
  ∀ k e, i ≤ k → k < p.numfd → p.pollfd[k]? = some e → Gone read e → k + 1 = p.numfd

/-- **One entry** of the loop. -/
theorem Aligned.visit {j : Nat} (h : Aligned p) (hi : i + 1 < p.numfd) (hlast : OnlyLast read p (i + 1))
    (hs : visitEntry read p (i + 1) = some (j, p')) :
    Aligned p' ∧ j = i + 2 ∧ OnlyLast read p' j := by
  have hlt : i + 1 < p.pollfd.length := Nat.lt_of_lt_of_le hi h.numfd
  obtain ⟨e, he⟩ : ∃ e, p.pollfd[i + 1]? = some e := ⟨_, List.getElem?_eq_getElem hlt⟩
  -- nothing to do, or a request
  have hnext : ∀ p'' : Poll, p''.pollfd = p.pollfd → p''.numfd = p.numfd → OnlyLast read p'' (i + 2) := by
    intro p'' hpollfd hnumfd k e' hk hkn he' hgone
    rw [hnumfd] at hkn ⊢
    rw [hpollfd] at he'
    exact hlast k e' (by omega) hkn he' hgone
  have hhup : Gone read e → Opend.hungup p (i + 1) e = some (j, p') →
      Aligned p' ∧ j = i + 2 ∧ OnlyLast read p' j := by
    intro hgone hs
    have hlast' := hlast (i + 1) e (Nat.le_refl _) hi he hgone
    obtain ⟨p'', hs', halign, hnumfd⟩ := h.hungup hlast' he
    rw [hs] at hs'
    cases hs'
    refine ⟨halign, rfl, fun k e' hk hkn => ?_⟩
    omega
  unfold visitEntry at hs
  rw [he] at hs
  simp only [Option.bind_eq_bind, Option.bind_some] at hs
  split at hs
  · next hr => exact hhup (Or.inl hr) hs
  · split at hs
    · next hr =>
      split at hs
      · exact absurd hs (by simp)
      · next hb => exact hhup (Or.inr ⟨hr, hb⟩) hs
      · next buf _ hb =>
        obtain ⟨uid, -, hc, hown⟩ := h.entry hi he
        rw [hc, Option.bind_some, hown] at hs
        cases hs
        refine ⟨⟨h.numfd, h.fds, h.clients, h.free, h.nodup, h.pos, fun o ho => ?_⟩, rfl,
          hnext _ rfl rfl⟩
        rcases List.mem_append.mp ho with ho | ho
        · exact h.right o ho
        · rw [List.mem_singleton.mp ho]
          exact ⟨Option.some_ne_none _, rfl⟩
    · cases hs
      exact ⟨h, rfl, hnext p rfl rfl⟩

/-- **The loop through the entries.** -/
theorem Aligned.scan {rounds : Nat} : ∀ {i : Nat} {p p' : Poll}, Aligned p →
    OnlyLast read p (i + 1) → scanFrom read rounds (i + 1) p = some p' → Aligned p' := by
  induction rounds with
  | zero =>
    intro i p p' h _ hs
    unfold scanFrom at hs
    split at hs
    · exact absurd hs (by simp)
    · cases hs
      exact h
  | succ rounds ih =>
    intro i p p' h hlast hs
    unfold scanFrom at hs
    split at hs
    · next hi =>
      obtain ⟨⟨j, p₁⟩, hv, hs⟩ := Option.bind_eq_some_iff.mp hs
      obtain ⟨h₁, rfl, hlast₁⟩ := h.visit hi hlast hv
      exact ih h₁ hlast₁ hs
    · cases hs
      exact h

/-- **What one pass preserves.** -/
theorem Aligned.pass (h : Aligned p) (hk : PollKernelOk p x) (hlast : LastGone p x)
    (hs : pollPass p x = some p') : Aligned p' := by
  obtain ⟨p₁, hopen, hscan⟩ := Option.bind_eq_some_iff.mp hs
  have h₁ : Aligned p₁ := by
    have hpoll := h.poll x.revents
    unfold opened at hopen
    dsimp only at hopen
    split at hopen
    · exact absurd hopen (by simp)
    · split at hopen
      · cases hx : x.conn with
        | none =>
          rw [hx] at hopen
          exact absurd hopen (by simp [pollAccept])
        | some c =>
          obtain ⟨fd, uid⟩ := c
          rw [hx] at hopen
          obtain ⟨hfd, hl, hnew⟩ := hk fd uid hx
          exact hpoll.accept hfd hl hnew hopen
      · cases hopen
        exact hpoll
  exact h₁.scan (fun k e hk hkn he => hlast p₁ hopen k e hk hkn he) hscan

/-- **Requests are handled under the user id of their client**, and the log names the right user, in
runs in which, whenever the loop through the entries starts, only the client in the last entry may
have gone. -/
theorem loop_right (h : Poll.Reach LastGone p) : ∀ o ∈ p.out, o.Right := by
  have halign : Aligned p := by
    induction h with
    | init hl hp => exact .init hl hp
    | pass _ hk hc hs ih => exact ih.pass hk hc hs
  exact halign.right

/-! ## Two runs -/

/-- A connection, and nothing else. -/
def connects (fd : Int) (uid : Uid) : PollPass where
  revents i := ⟨decide (i = 0), false⟩
  conn := some (fd, uid)
  read _ := .error

/-- The client in entry `i` sends a request. -/
def sends (i : Nat) (buf : List Byte) : PollPass where
  revents k := ⟨decide (k = i), false⟩
  conn := none
  read _ := .bytes buf

/-- The client in entry `i` closes its connection. -/
def hangsUp (i : Nat) : PollPass where
  revents k := ⟨false, decide (k = i)⟩
  conn := none
  read _ := .error

/-- The kernel is allowed to hand out this descriptor. -/
def kernelOk (p : Poll) (x : PollPass) : Bool :=
  x.conn.all fun c => decide (0 ≤ c.1 ∧ c.1 ≠ p.listenfd ∧ c.1 ∉ p.conns.map Prod.fst)

/-- There is one client at most. -/
def oneClient (p : Poll) (x : PollPass) : Bool := (opened p x).all fun p' => decide (p'.numfd ≤ 2)

/-- Some passes, each of which is checked. -/
def passes (check : Poll → PollPass → Bool) : List PollPass → Poll → Option Poll
  | [], p => some p
  | x :: xs, p => if kernelOk p x && check p x then (pollPass p x).bind (passes check xs) else none

theorem PollKernelOk.of_kernelOk (h : kernelOk p x = true) : PollKernelOk p x := by
  intro fd uid hx
  unfold kernelOk at h
  rw [hx] at h
  exact of_decide_eq_true h

/-- With one client there is only the last entry. -/
theorem LastGone.of_oneClient (h : oneClient p x = true) : LastGone p x := by
  intro p' hopen i e hi hn _ _
  unfold oneClient at h
  rw [hopen] at h
  have hle : p'.numfd ≤ 2 := of_decide_eq_true h
  omega

theorem Poll.Reach.passes {C : Poll → PollPass → Prop} {check : Poll → PollPass → Bool}
    (hcheck : ∀ p x, check p x = true → C p x) {xs : List PollPass} :
    ∀ {p : Poll}, Poll.Reach C p → Opend.passes check xs p = some p' → Poll.Reach C p' := by
  induction xs with
  | nil =>
    intro p h hs
    cases hs
    exact h
  | cons x xs ih =>
    intro p h hs
    unfold Opend.passes at hs
    split at hs
    · next hok =>
      obtain ⟨hk, hc⟩ := (Bool.and_eq_true ..).mp hok
      obtain ⟨p₁, hp₁, hs⟩ := Option.bind_eq_some_iff.mp hs
      exact ih (.pass h (.of_kernelOk hk) (hcheck p x hc) hp₁) hs
    · exact absurd hs (by simp)

theorem Poll.Reach.run {C : Poll → PollPass → Prop} {check : Poll → PollPass → Bool} {listenfd : Int}
    {xs : List PollPass} {out : List Out} (hcheck : ∀ p x, check p x = true → C p x)
    (hl : 0 ≤ listenfd)
    (h : ((Poll.init listenfd).bind (Opend.passes check xs)).map Poll.out = some out) :
    ∃ p : Poll, Poll.Reach C p ∧ p.out = out := by
  obtain ⟨p, hp, hout⟩ := Option.map_eq_some_iff.mp h
  obtain ⟨p₀, hp₀, hp⟩ := Option.bind_eq_some_iff.mp hp
  exact ⟨p, .passes hcheck (.init hl hp₀) hp, hout⟩

/-- A client sends a request and goes, and its descriptor is handed out to the next one. -/
theorem loop_right_one : ∃ p : Poll, Poll.Reach LastGone p ∧
    p.out = [.connected 5 100, .request 5 (some 100) (some 100) [65],
      .closed 5 (some 100) (some 100), .connected 5 200,
      .request 5 (some 200) (some 200) [66]] ∧
    ∀ o ∈ p.out, o.Right := by
  have hrun : ∃ p : Poll, Poll.Reach LastGone p ∧
      p.out = [.connected 5 100, .request 5 (some 100) (some 100) [65],
        .closed 5 (some 100) (some 100), .connected 5 200,
        .request 5 (some 200) (some 200) [66]] :=
    @Poll.Reach.run _ oneClient 3
      [connects 5 100, sends 1 [65], hangsUp 1, connects 5 200, sends 1 [66]] _
      (fun _ _ h => .of_oneClient h) (by decide) (by decide +kernel)
  obtain ⟨p, hreach, hout⟩ := hrun
  exact ⟨p, hreach, hout, loop_right hreach⟩

/-- Two clients connect, and the first one goes: the request of the second one is handled under the
user id of the first. -/
theorem loop_wrong : ∃ p : Poll, Poll.Reach (fun _ _ => True) p ∧ ∃ o ∈ p.out, ¬ o.Right := by
  have hrun : ∃ p : Poll, Poll.Reach (fun _ _ => True) p ∧
      p.out = [.connected 5 100, .connected 6 200, .closed 5 (some 100) (some 100),
        .request 6 (some 100) (some 200) [65]] :=
    @Poll.Reach.run _ (fun _ _ => true) 3
      [connects 5 100, connects 6 200, hangsUp 1, sends 1 [65]] _
      (fun _ _ _ => trivial) (by decide) (by decide +kernel)
  obtain ⟨p, hreach, hout⟩ := hrun
  refine ⟨p, hreach, .request 6 (some 100) (some 200) [65], ?_, fun h => ?_⟩
  · rw [hout]
    exact List.mem_of_getElem? (i := 3) rfl
  · exact absurd h.2 (by decide)

end LearningNotes.Opend
