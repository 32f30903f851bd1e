import LearningNotes.Db.LockOrder

/-!
# No deadlock

Processes open, fetch, store, delete and scan, and their requests for locks come in any order.
`no_deadlock`: there are never some processes each of which waits for a lock that another one of
them holds. A process that is waited for and waits itself has the lock of a chain and asks for a
range apart from all chains, and the one that waits for it has asked for a chain, or for the whole
index file.
-/

namespace LearningNotes.Db

open Function (update)

variable {p q : Pid} {o : Op} {w w' : Locking} {r r' : Span} {s : Processes}

/-- The bytes of a span. -/
def Span.Has (r : Span) (n : Nat) : Prop := RangeLock.InRange r.off (lockStop r.off r.len) n

/-- A byte of a chain is in no range that is asked for below a chain. -/
theorem Span.IsChain.not_apart {n : Nat} (h : r.IsChain) (hn : r.Has n) (hfd : r'.fd = r.fd)
    (hn' : r'.Has n) : ¬ r'.Apart := by
  obtain ⟨hidx, hlen, hlo, hhi⟩ := h
  have hoff : n = r.off := by
    obtain ⟨hge, hlt⟩ := hn
    rw [hlen] at hlt
    have hlt : n < r.off + 1 := below_some.mp hlt
    omega
  rintro (hdat | ⟨hone, hfree⟩ | htail)
  · rw [hfd, hidx] at hdat
    exact absurd hdat (by decide)
  · -- the byte of the free list is in front of the chains
    obtain ⟨hge, hlt⟩ := hn'
    rw [hone, hfree] at hlt
    have hlt : n < FREE_OFF + 1 := below_some.mp hlt
    simp only [FREE_OFF, HASH_OFF, PTR_SZ] at hlt hlo
    omega
  · have hge := hn'.1
    simp only [tailOff, HASH_OFF, PTR_SZ, NHASH_DEF] at htail hhi
    omega

theorem below_lockStop (off len : Nat) : below off (lockStop off len) = true := by
  unfold lockStop
  split
  · rfl
  · exact below_some.mpr (by omega)

/-- The table of locks is what the processes have locked. -/
structure Locked (w : Locking) : Prop where
  proper : RangeLock.Proper w.os.locks
  held : ∀ p fd t n, RangeLock.Held w.os.locks p fd t n → ∃ r ∈ w.held p, r.fd = fd ∧ r.Has n

theorem Asks.other (h : Asks p o w w') (hq : q ≠ p) : w'.held q = w.held q := by
  rw [h.held, Function.update_of_ne hq]

/-- An operation that is no lock and no unlock. -/
theorem Locked.same (h : Locked w) (ha : Asks p o w w') (hlocks : w'.os.locks = w.os.locks)
    (hnext : next (w.held p) o = w.held p) : Locked w' := by
  have hheld : w'.held = w.held := by rw [ha.held, hnext, Function.update_eq_self]
  obtain ⟨hproper, hown⟩ := h
  refine ⟨hlocks ▸ hproper, fun q fd t n hh => ?_⟩
  rw [hlocks] at hh
  rw [hheld]
  exact hown q fd t n hh

/-- **One operation.** -/
theorem Locked.step (h : Locked w) (ha : Asks p o w w') : Locked w' := by
  obtain ⟨res, hst⟩ := ha.step
  cases o with
  | openf fd trunc =>
    simp only [sysStep, Option.some.injEq, Prod.mk.injEq, true_and] at hst
    refine h.same ha ?_ rfl
    rw [← hst]
    cases trunc <;> cases fd <;> rfl
  | size fd =>
    simp only [sysStep, Option.some.injEq, Prod.mk.injEq] at hst
    exact h.same ha (hst.2 ▸ rfl) rfl
  | read fd off n =>
    simp only [sysStep, Option.some.injEq, Prod.mk.injEq] at hst
    exact h.same ha (hst.2 ▸ rfl) rfl
  | write fd off bytes =>
    simp only [sysStep, Option.some.injEq, Prod.mk.injEq, true_and] at hst
    refine h.same ha ?_ rfl
    rw [← hst]
    cases fd <;> rfl
  | lock fd t off len =>
    cases hacq : RangeLock.acquire w.os.locks p fd t off (lockStop off len) with
    | none => exact absurd hst (by simp [sysStep, hacq])
    | some locks =>
      rw [sysStep_lock hacq] at hst
      have hos : w'.os.locks = locks := by rw [← (Prod.mk.inj (Option.some.inj hst)).2]
      have hmem : ∀ r, r = ⟨fd, off, len⟩ ∨ r ∈ w.held p → r ∈ w'.held p := by
        intro r hr
        rw [ha.held, Function.update_self]
        exact List.mem_cons.mpr hr
      refine ⟨hos ▸ RangeLock.proper_acquire h.proper (below_lockStop off len) hacq, ?_⟩
      intro q fd' t' n hh
      rw [hos, RangeLock.held_acquire hacq] at hh
      rcases hh with ⟨rfl, hfd, -, hin⟩ | ⟨hold, -⟩
      · exact ⟨⟨fd, off, len⟩, hmem _ (Or.inl rfl), hfd.symm, hin⟩
      · obtain ⟨r, hr, hrest⟩ := h.held q fd' t' n hold
        by_cases hq : q = p
        · subst hq
          exact ⟨r, hmem r (Or.inr hr), hrest⟩
        · exact ⟨r, ha.other hq ▸ hr, hrest⟩
  | unlock fd off len =>
    have hos : w'.os.locks = RangeLock.clip w.os.locks p fd off (lockStop off len) := by
      rw [← (Prod.mk.inj (Option.some.inj hst)).2]
    refine ⟨hos ▸ RangeLock.proper_clip h.proper p fd off (lockStop off len), ?_⟩
    intro q fd' t' n hh
    rw [hos, RangeLock.held_clip] at hh
    obtain ⟨hold, hout⟩ := hh
    obtain ⟨r, hr, hfd, hn⟩ := h.held q fd' t' n hold
    by_cases hq : q = p
    · subst hq
      -- the byte is not in the range that is given back, so it is in another one
      have hne : r ≠ ⟨fd, off, len⟩ := by
        rintro rfl
        exact hout ⟨rfl, hfd.symm, hn⟩
      refine ⟨r, ?_, hfd, hn⟩
      rw [ha.held, Function.update_self]
      exact (List.mem_erase_of_ne hne).mpr hr
    · exact ⟨r, ha.other hq ▸ hr, hfd, hn⟩

/-- A process ends, and its locks go. -/
theorem Locked.leave (h : Locked w) (p : Pid) :
    Locked ⟨library.leave p w.os, update w.held p []⟩ := by
  refine ⟨RangeLock.proper_releaseAll h.proper p, fun q fd t n hh => ?_⟩
  obtain ⟨hold, hq⟩ := RangeLock.held_releaseAll.mp hh
  obtain ⟨r, hr, hrest⟩ := h.held q fd t n hold
  refine ⟨r, ?_, hrest⟩
  show r ∈ update w.held p [] q
  rw [Function.update_of_ne hq]
  exact hr

/-- What holds of every process: it follows the order. -/
def ordered : Argument library (fun _ _ => True) Locking where
  erase := Locking.os
  rely := fun p w w' => w'.held p = w.held p
  guar := fun p _ => Asks p
  good := fun _ w => Locked w
  idle := fun p l w => AtRest l (w.held p)
  done := fun p _ a w => AtRest a.2 (w.held p)
  stopped := fun _ _ _ _ => True
  rely_refl := fun _ _ => rfl
  rely_trans := fun h h' => Eq.trans h' h
  idle_rely := fun hr h => hr.symm ▸ h
  done_rely := fun hr h => hr.symm ▸ h
  stopped_rely := fun _ _ => trivial
  call := fun h hidle _ _ => ⟨_, rfl, ⟨h, fun _ _ => rfl⟩, locks_call hidle _ _ rfl⟩
  op := fun h _ hg => ⟨h.step hg, fun _ hq => hg.other hq⟩
  ret := fun h _ hd => ⟨_, rfl, ⟨h, fun _ _ => rfl⟩, hd⟩
  stop := fun {_ w p _ _ _} h _ _ => ⟨⟨library.leave p w.os, update w.held p []⟩, rfl, h.leave p,
    fun _ hq => Function.update_of_ne hq ..⟩

/-- Process `p` has asked for a lock, and has not got it. -/
def Asked (s : Processes) (p : Pid) (t : LockType) (r : Span) : Prop :=
  ∃ c k, s.task p = .busy c (.op (.lock r.fd t r.off r.len) k)

/-- Process `p` waits for a lock of process `q`. -/
def Waits (s : Processes) (p q : Pid) : Prop :=
  ∃ t r, Asked s p t r ∧
    ∃ l ∈ s.state.locks, l.owner = q ∧ l.blocks p r.fd t r.off (lockStop r.off r.len) = true

variable {t : LockType}

/-- Every request is allowed. -/
theorem may_of_asked (h : ordered.Holds s w) (ha : Asked s p t r) :
    May (w.held p) (Op.lock r.fd t r.off r.len) := by
  obtain ⟨c, k, ht⟩ := ha
  have htask := h.task p
  rw [ht] at htask
  obtain ⟨-, hwp⟩ := htask
  -- if the others gave up their locks now, the request would be granted
  let free : Locking := ⟨{ w.os with locks := [] }, w.held⟩
  have halone : ∀ l ∈ free.os.locks, l.owner = p := by
    intro l hl
    exact absurd hl List.not_mem_nil
  obtain ⟨locks, hacq, -⟩ :=
    RangeLock.acquire_of_alone halone r.fd t r.off (lockStop r.off r.len)
  have hgrant : sysStep p (Op.lock r.fd t r.off r.len) free.os =
      some ((), { free.os with locks := locks }) := sysStep_lock hacq
  obtain ⟨w', -, hasks, -⟩ := hwp free rfl () _ hgrant
  have hmay : May (free.held p) (Op.lock r.fd t r.off r.len) := Asks.may hasks
  exact hmay

/-- A lock that is waited for has a byte of what is asked for. -/
theorem span_of_blocks {l : RangeLock Pid Fd} (h : Locked w) (hl : l ∈ w.os.locks)
    (hb : l.blocks p r.fd t r.off (lockStop r.off r.len) = true) :
    ∃ r' ∈ w.held l.owner, ∃ n, r'.fd = r.fd ∧ r'.Has n ∧ r.Has n := by
  obtain ⟨n, hin, hheld⟩ :=
    RangeLock.common_of_blocks h.proper hl (below_lockStop r.off r.len) hb
  obtain ⟨r', hr', hfd, hn⟩ := h.held _ _ _ n hheld
  exact ⟨r', hr', n, hfd, hn, hin⟩

/-- The process waits for a range that no chain has a byte of. -/
def AsksApart (s : Processes) (p : Pid) : Prop := ∃ t r, Asked s p t r ∧ r.Apart

/-- **The order.** A process that waits and is waited for has asked for a range apart from the
chains, and the one that waits for it has not. -/
theorem asksApart_of_waits {u : Pid} (h : ordered.Holds s w) (hpq : Waits s p q)
    (hqu : Waits s q u) : AsksApart s q ∧ ¬ AsksApart s p := by
  obtain ⟨t, r, hask, l, hl, rfl, hb⟩ := hpq
  obtain ⟨t', r', hask', -⟩ := hqu
  have hstate : w.os = s.state := h.state
  obtain ⟨held, hmem, n, hfd, hn, hn'⟩ := span_of_blocks h.good (hstate ▸ hl) hb
  rcases may_of_asked h hask' with hnone | ⟨hchains, hapart⟩
  · rw [hnone] at hmem
    exact absurd hmem List.not_mem_nil
  · refine ⟨⟨t', r', hask', hapart⟩, ?_⟩
    rintro ⟨t'', r'', hask'', hapart''⟩
    have hr : r'' = r := by
      obtain ⟨c, k, ht⟩ := hask
      obtain ⟨c', k', ht'⟩ := hask''
      have := ht.symm.trans ht'
      simp only [Task.busy.injEq, Prog.op.injEq, Op.lock.injEq] at this
      obtain ⟨-, ⟨hfd, -, hoff, hlen⟩, -⟩ := this
      cases r
      cases r''
      simp_all
    subst hr
    exact (hchains held hmem).not_apart hn hfd.symm hn' hapart''

/-- **No deadlock.** However the calls of the processes interleave, no non-empty set of processes is
such that each of them waits for a lock of another one. -/
theorem no_deadlock {os : OS} {db : Pid → DB} (hos : os.locks = []) (hdb : ∀ p, Opened (db p))
    (hr : Reached (fun _ => True) os db s) :
    ¬ ∃ S : Pid → Prop, (∃ p, S p) ∧ ∀ p, S p → ∃ q, S q ∧ Waits s p q := by
  have hlocked : Locked ⟨os, fun _ => []⟩ := by
    refine ⟨fun l hl => ?_, fun p fd t n hh => ?_⟩
    · rw [hos] at hl
      exact absurd hl List.not_mem_nil
    · obtain ⟨l, hl, -⟩ := hh
      rw [hos] at hl
      exact absurd hl List.not_mem_nil
  have hrest : ∀ p, AtRest (db p) [] := fun p => ⟨hdb p, rfl⟩
  obtain ⟨w, hw⟩ := (ordered.holds_start hlocked hrest).reach hr
  classical
  have htop : ∀ p, (if AsksApart s p then 1 else 0) ≤ 1 := by
    intro p
    split <;> omega
  refine no_wait_cycle htop fun p q u hpq hqu => ?_
  obtain ⟨hq, hp⟩ := asksApart_of_waits hw hpq hqu
  rw [if_pos hq, if_neg hp]
  exact Nat.zero_lt_one

/-- Whether process `p` waits for a lock of process `q`. -/
def waiting (s : Processes) (p q : Pid) : Bool :=
  match s.task p with
  | .busy _ (.op (.lock fd t off len) _) =>
    s.state.locks.any fun l => l.owner = q && l.blocks p fd t off (lockStop off len)
  | _ => false

theorem waits_of_waiting (h : waiting s p q = true) : Waits s p q := by
  unfold waiting at h
  split at h
  next c fd t off len k ht =>
    obtain ⟨l, hl, hb⟩ := List.any_eq_true.mp h
    simp only [Bool.and_eq_true, decide_eq_true_eq] at hb
    exact ⟨t, ⟨fd, off, len⟩, ⟨c, k, ht⟩, l, hl, hb⟩
  next => exact absurd h (by simp)

/-- Processes `0` and `1` create the database, and process `0` has the lock of the index file. -/
def bothReopen : List (Act Pid Call) :=
  [.call 0 (.open true true), .go 0, .go 0, .go 0, .call 1 (.open true true), .go 1, .go 1]

/-- Process `1` waits for process `0`, and that is no deadlock. -/
theorem no_deadlock_open : ∃ s : Processes,
    Reached (fun _ => True) ⟨[], [], []⟩ (fun _ => { nhash := NHASH_DEF, hashoff := HASH_OFF }) s ∧
      Waits s 1 0 ∧ ¬ ∃ S : Pid → Prop, (∃ p, S p) ∧ ∀ p, S p → ∃ q, S q ∧ Waits s p q := by
  have hrun : (library.perform bothReopen (Pool.start ⟨[], [], []⟩ fun _ =>
      { nhash := NHASH_DEF, hashoff := HASH_OFF })).any (waiting · 1 0) = true := by
    decide +kernel
  obtain ⟨s, hs, hwait⟩ := (Option.any_eq_true _ _).mp hrun
  have hok : ∀ a ∈ bothReopen, a.Ok (fun _ _ => True) := by
    intro a _
    cases a <;> trivial
  have hr : Reached (fun _ => True) ⟨[], [], []⟩
      (fun _ => { nhash := NHASH_DEF, hashoff := HASH_OFF }) s := Machine.reach_of_perform hok hs
  exact ⟨s, hr, waits_of_waiting hwait, no_deadlock rfl (fun _ => ⟨rfl, rfl⟩) hr⟩

end LearningNotes.Db
