import LearningNotes.Lib.CString
import Mathlib.Data.List.Nodup
import Mathlib.Data.List.Perm.Basic

/-!
# `client.c`

The array of clients of the open server. An entry is free when its `fd` is -1; `client_add` takes
the first free entry, and makes the array longer when there is none.

What the two main loops see of the world is here too: what `read` returns on a descriptor, the
connections that are open, each with the user id that `serv_accept` has obtained for it, and the
calls of `handle_request` and the log entries that are recorded.
-/

namespace LearningNotes.Opend

/-- `uid_t` -/
abbrev Uid := UInt32

@[simp, reducible] def NALLOC : Nat := 10

/-- `Client`; a `uid` that has not been written yet is what `malloc` has left there. -/
structure Client where
  fd : Int
  uid : Option Uid
  deriving DecidableEq

/-- `client_alloc`; the array is empty when `client` is the null pointer. -/
def clientAlloc (client : List Client) : List Client :=
  client ++ List.replicate NALLOC ⟨-1, none⟩

/-- The loop of `client_add`: the index of the entry, if there is a free one. -/
def clientPut (client : List Client) (fd : Int) (uid : Uid) : Option (List Client × Nat) :=
  (client.findIdx? (·.fd = -1)).map fun i => (client.set i ⟨fd, some uid⟩, i)

/-- `client_add` -/
def clientAdd (client : List Client) (fd : Int) (uid : Uid) : Option (List Client × Nat) :=
  let client := if client = [] then clientAlloc client else client
  match clientPut client fd uid with
  | some r => some r
  | none => clientPut (clientAlloc client) fd uid

/-- `client_del`; without an entry it ends the server. -/
def clientDel (client : List Client) (fd : Int) : Option (List Client) :=
  (client.findIdx? (·.fd = fd)).map fun i => client.modify i fun c => { c with fd := -1 }

/-- What `read` returns: -1, or the bytes, none at the end of the file. -/
inductive Read where
  | error
  | bytes (buf : List Byte)
  deriving DecidableEq

/-- What is recorded: a new connection, a call of `handle_request`, and that a client has closed its
connection. The `uid` is the one that the server uses; `own` is the one that `serv_accept` has
obtained for the connection that is open on the descriptor. -/
inductive Out where
  | connected (fd : Int) (uid : Uid)
  | request (fd : Int) (uid own : Option Uid) (buf : List Byte)
  | closed (fd : Int) (uid own : Option Uid)
  deriving DecidableEq

/-- The server has used the right user id. -/
def Out.Right : Out → Prop
  | .connected _ _ => True
  | .request _ uid own _ | .closed _ uid own => own ≠ none ∧ uid = own

/-- The open connections. -/
abbrev Conns := List (Int × Uid)

/-- The user id that `serv_accept` has obtained for the connection. -/
def Conns.own (conns : Conns) (fd : Int) : Option Uid := (conns.find? (·.1 = fd)).map Prod.snd

/-- `close` -/
def Conns.close (conns : Conns) (fd : Int) : Conns := conns.filter (·.1 ≠ fd)

theorem Conns.own_of_mem {conns : Conns} {fd : Int} {uid : Uid}
    (hnodup : (conns.map Prod.fst).Nodup) (h : (fd, uid) ∈ conns) : conns.own fd = some uid := by
  unfold own
  induction conns with
  | nil => exact absurd h List.not_mem_nil
  | cons c conns ih =>
    rw [List.map_cons, List.nodup_cons] at hnodup
    rcases List.mem_cons.mp h with rfl | h
    · rw [List.find?_cons_of_pos (by simp)]
      rfl
    · have hne : c.1 ≠ fd := fun he => hnodup.1 (he ▸ List.mem_map_of_mem h)
      rw [List.find?_cons_of_neg (by simpa using hne)]
      exact ih hnodup.2 h

/-! ## The entries in use -/

/-- The entries that are not free, in the order of the array. -/
def active (client : List Client) : List Client := client.filter (·.fd ≠ -1)

variable {client client' : List Client} {fd : Int} {uid : Uid} {c : Client} {i : Nat}

theorem mem_active : c ∈ active client ↔ c ∈ client ∧ c.fd ≠ -1 := by
  unfold active
  rw [List.mem_filter, decide_eq_true_eq]

/-- The first free entry is taken. -/
theorem clientPut_spec (h : clientPut client fd uid = some (client', i)) :
    ∃ l c r, client = l ++ c :: r ∧ i = l.length ∧ c.fd = -1 ∧ (∀ d ∈ l, d.fd ≠ -1) ∧
      client' = l ++ ⟨fd, some uid⟩ :: r := by
  obtain ⟨j, hj, he⟩ := Option.map_eq_some_iff.mp h
  cases he
  obtain ⟨hlt, hfree, hbefore⟩ := List.findIdx?_eq_some_iff_getElem.mp hj
  refine ⟨client.take i, client[i], client.drop (i + 1), ?_, ?_, of_decide_eq_true hfree, ?_, ?_⟩
  · rw [List.getElem_cons_drop, List.take_append_drop]
  · rw [List.length_take, Nat.min_eq_left (Nat.le_of_lt hlt)]
  · intro d hd
    obtain ⟨k, hk, rfl⟩ := List.mem_iff_getElem.mp hd
    rw [List.length_take] at hk
    rw [List.getElem_take]
    simpa using hbefore k (by omega)
  · rw [List.set_eq_take_append_cons_drop, if_pos hlt]

theorem clientPut_some (h : ∃ c ∈ client, c.fd = -1) (fd : Int) (uid : Uid) :
    ∃ r, clientPut client fd uid = some r := by
  obtain ⟨c, hc, hfd⟩ := h
  unfold clientPut
  cases hi : client.findIdx? (·.fd = -1) with
  | some i => exact ⟨_, rfl⟩
  | none =>
    have hnone := List.findIdx?_eq_none_iff.mp hi c hc
    exact absurd hfd (by simpa using hnone)

/-- What `client_add` does: after the array has been made longer, or not, a free entry is taken. -/
theorem clientAdd_spec (h : clientAdd client fd uid = some (client', i)) :
    ∃ l c r, (client = l ++ c :: r ∨ ∃ k, client ++ List.replicate k ⟨-1, none⟩ = l ++ c :: r) ∧
      i = l.length ∧ c.fd = -1 ∧ (∀ d ∈ l, d.fd ≠ -1) ∧ client' = l ++ ⟨fd, some uid⟩ :: r := by
  unfold clientAdd at h
  dsimp only at h
  have hput : ∀ k, clientPut (client ++ List.replicate k ⟨-1, none⟩) fd uid = some (client', i) →
      ∃ l c r, (client = l ++ c :: r ∨ ∃ k, client ++ List.replicate k ⟨-1, none⟩ = l ++ c :: r) ∧
        i = l.length ∧ c.fd = -1 ∧ (∀ d ∈ l, d.fd ≠ -1) ∧ client' = l ++ ⟨fd, some uid⟩ :: r := by
    intro k hk
    obtain ⟨l, c, r, he, hrest⟩ := clientPut_spec hk
    exact ⟨l, c, r, Or.inr ⟨k, he⟩, hrest⟩
  split at h
  · next hr =>
    cases h
    split at hr
    · exact hput NALLOC hr
    · obtain ⟨l, c, r, he, hrest⟩ := clientPut_spec hr
      exact ⟨l, c, r, Or.inl he, hrest⟩
  · split at h
    · refine hput (NALLOC + NALLOC) ?_
      unfold clientAlloc at h
      rwa [List.append_assoc, ← List.replicate_add] at h
    · exact hput NALLOC h

/-- `client_add` always finds an entry. -/
theorem clientAdd_some (client : List Client) (fd : Int) (uid : Uid) :
    ∃ r, clientAdd client fd uid = some r := by
  have halloc : ∀ l : List Client, ∃ r, clientPut (clientAlloc l) fd uid = some r := by
    intro l
    apply clientPut_some
    exact ⟨⟨-1, none⟩, List.mem_append_right _ (by simp), rfl⟩
  unfold clientAdd
  dsimp only
  split
  · exact ⟨_, rfl⟩
  · exact halloc _

/-- One more entry is in use. -/
theorem active_add (h : clientAdd client fd uid = some (client', i)) (hfd : fd ≠ -1) :
    (active client').Perm (⟨fd, some uid⟩ :: active client) ∧ client.length ≤ client'.length ∧
      client'[i]? = some ⟨fd, some uid⟩ ∧
      ∀ k, k ≠ i → ∀ c, client'[k]? = some c → c.fd ≠ -1 → client[k]? = some c := by
  obtain ⟨l, c, r, he, rfl, hc, -, rfl⟩ := clientAdd_spec h
  have hperm : (active (l ++ ⟨fd, some uid⟩ :: r)).Perm (⟨fd, some uid⟩ :: active (l ++ c :: r)) := by
    unfold active
    rw [List.filter_append, List.filter_append, List.filter_cons_of_pos (by simpa using hfd),
      List.filter_cons_of_neg (by simpa using hc)]
    exact List.perm_middle
  have hget : (l ++ (⟨fd, some uid⟩ : Client) :: r)[l.length]? = some ⟨fd, some uid⟩ := by simp
  have hother : ∀ k, k ≠ l.length → (l ++ (⟨fd, some uid⟩ : Client) :: r)[k]? = (l ++ c :: r)[k]? := by
    intro k hk
    rcases Nat.lt_or_gt_of_ne hk with hlt | hgt
    · rw [List.getElem?_append_left hlt, List.getElem?_append_left hlt]
    · rw [List.getElem?_append_right (Nat.le_of_lt hgt), List.getElem?_append_right (Nat.le_of_lt hgt)]
      obtain ⟨m, hm⟩ : ∃ m, k - l.length = m + 1 := ⟨k - l.length - 1, by omega⟩
      rw [hm, List.getElem?_cons_succ, List.getElem?_cons_succ]
  rcases he with he | ⟨n, he⟩
  · rw [he]
    exact ⟨hperm, by simp, hget, fun k hk d hd _ => (hother k hk).symm.trans hd⟩
  · have hact : active (l ++ c :: r) = active client := by
      rw [← he]
      unfold active
      rw [List.filter_append]
      simp
    refine ⟨hact ▸ hperm, ?_, hget, fun k hk d hd hfree => ?_⟩
    · have hlen := congrArg List.length he
      simp only [List.length_append, List.length_cons] at hlen ⊢
      omega
    · rw [hother k hk, ← he] at hd
      -- the new entries are free
      by_cases hlt : k < client.length
      · rwa [List.getElem?_append_left hlt] at hd
      · rw [List.getElem?_append_right (by omega), List.getElem?_replicate] at hd
        split at hd
        · cases hd
          exact absurd rfl hfree
        · exact absurd hd (by simp)

/-- When the first `n` entries are in use and no others, the next one is taken. -/
theorem clientAdd_packed {n : Nat} (h : clientAdd client fd uid = some (client', i))
    (hn : n ≤ client.length) (huse : ∀ c ∈ client.take n, c.fd ≠ -1)
    (hfree : ∀ c ∈ client.drop n, c.fd = -1) :
    client'.take (n + 1) = client.take n ++ [⟨fd, some uid⟩] ∧ ∀ c ∈ client'.drop (n + 1), c.fd = -1 := by
  obtain ⟨l, c, r, hcases, -, hc, hl, rfl⟩ := clientAdd_spec h
  obtain ⟨k, he⟩ : ∃ k, client ++ List.replicate k ⟨-1, none⟩ = l ++ c :: r := by
    rcases hcases with he | he
    · exact ⟨0, by rw [List.replicate_zero, List.append_nil, he]⟩
    · exact he
  have hfree' : ∀ d ∈ (l ++ c :: r).drop n, d.fd = -1 := by
    rw [← he, List.drop_append_of_le_length hn]
    intro d hd
    rcases List.mem_append.mp hd with hd | hd
    · exact hfree d hd
    · rw [List.eq_of_mem_replicate hd]
  have htake : (l ++ c :: r).take n = client.take n := by
    rw [← he, List.take_append_of_le_length hn]
  -- the entries in front of the free one are the ones in use
  have hlen : l.length = n := by
    rcases Nat.lt_trichotomy l.length n with hlt | heq | hgt
    · refine absurd hc (huse c ?_)
      rw [← htake, List.mem_take_iff_getElem]
      exact ⟨l.length, by simp; omega, by simp⟩
    · exact heq
    · refine absurd (hfree' l[n] ?_) (hl _ (List.getElem_mem hgt))
      rw [List.mem_drop_iff_getElem]
      exact ⟨0, by simp; omega, by simp [List.getElem_append_left hgt]⟩
  subst hlen
  rw [List.take_left] at htake
  refine ⟨?_, fun d hd => hfree' d ?_⟩
  · rw [← htake, List.take_length_add_append]
    rfl
  · rw [List.drop_left]
    refine List.mem_cons_of_mem _ ?_
    simpa using hd

/-- `client_del` frees the entry of the descriptor. -/
theorem clientDel_spec {l r : List Client} (hc : c.fd = fd) (hl : ∀ d ∈ l, d.fd ≠ fd) :
    clientDel (l ++ c :: r) fd = some (l ++ { c with fd := -1 } :: r) := by
  have hidx : (l ++ c :: r).findIdx? (·.fd = fd) = some l.length := by
    rw [List.findIdx?_append, List.findIdx?_eq_none_iff.mpr (by simpa using hl)]
    simp [List.findIdx?_cons, hc]
  unfold clientDel
  rw [hidx, Option.map_some]
  congr 1
  induction l with
  | nil => rfl
  | cons d l ih =>
    rw [List.cons_append, List.length_cons, List.modify_succ_cons]
    rw [ih (fun d hd => hl d (List.mem_cons_of_mem _ hd))]
    · rfl
    · rw [List.findIdx?_append,
        List.findIdx?_eq_none_iff.mpr (by simpa using fun d hd => hl d (List.mem_cons_of_mem _ hd))]
      simp [List.findIdx?_cons, hc]

end LearningNotes.Opend
