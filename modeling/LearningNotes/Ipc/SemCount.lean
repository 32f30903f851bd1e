import LearningNotes.Ipc.Semaph

/-!
# The lock and the counter of `semaph.c`

Member `[2]` is a lock: it is 1 while one process stands between the calls that take it and give it
back, and that process has the adjustment -1 for it (`LockInv`). Member `[1]` counts down from
`BIGCOUNT` the processes that have the set open, each of which has its opens as adjustment
(`CountInv`). Each call of the library changes one of the two, or both one after the other, and an
exit at any point puts both right.

`act_inv` has one case for each system call; `run_inv` follows for all runs in which a `sem_create`
never takes a counter that has run down to 0 for a new set.
-/

namespace LearningNotes.Semaph

variable {s s' : State} {S : SemSet} {p q id : Nat} {a : Act} {pc : Nat → Pc} {new : Pc}
  {opens : List (Nat × Nat)} {v : Int} {adj : Nat → Int} {init? : Bool} {strict : Prop}

/-! ## The lock -/

/-- `v` is member `[2]`, `adj` the adjustments for it. -/
def LockInv (pc : Nat → Pc) (id : Nat) (v : Int) (adj : Nat → Int) : Prop :=
  ∃ o : Option Nat, (∀ p, (pc p).lock = some id ↔ o = some p) ∧ v = (if o.isSome then 1 else 0) ∧
    ∀ p, adj p = if o = some p then -1 else 0

/-- One process has the lock. -/
theorem LockInv.unique (h : LockInv pc id v adj) (hp : (pc p).lock = some id)
    (hq : (pc q).lock = some id) : p = q := by
  obtain ⟨o, ho, -⟩ := h
  have hp := (ho p).mp hp
  have hq := (ho q).mp hq
  rw [hp] at hq
  exact Option.some.inj hq

/-- The value 0 says that nobody has the lock. -/
theorem LockInv.free (h : LockInv pc id v adj) : v = 0 ↔ ∀ p, (pc p).lock ≠ some id := by
  obtain ⟨o, ho, hv, -⟩ := h
  cases o with
  | none => exact ⟨fun _ p hp => by simpa using (ho p).mp hp, fun _ => by simpa using hv⟩
  | some q =>
    have hq : (pc q).lock = some id := (ho q).mpr rfl
    exact ⟨fun h0 => by simp [hv] at h0, fun h => absurd hq (h q)⟩

/-- A step without the lock's operations. -/
theorem LockInv.move (h : LockInv pc id v adj) (hnew : new.lock = some id ↔ (pc p).lock = some id) :
    LockInv (Function.update pc p new) id v adj := by
  obtain ⟨o, ho, hv, ha⟩ := h
  refine ⟨o, fun q => ?_, hv, ha⟩
  by_cases hq : q = p
  · subst hq
    rw [Function.update_self, hnew, ho]
  · rw [Function.update_of_ne hq, ho]

/-- A process takes the lock. -/
theorem LockInv.acquire (h : LockInv pc id v adj) (hv : v = 0) (hnew : new.lock = some id) :
    LockInv (Function.update pc p new) id (v + 1) (Function.update adj p (adj p - 1)) := by
  have hfree := h.free.mp hv
  obtain ⟨o, ho, -, ha⟩ := h
  have hnone : ∀ q, o ≠ some q := by
    intro q hq
    exact hfree q ((ho q).mpr hq)
  refine ⟨some p, fun q => ?_, by simp [hv], fun q => ?_⟩
  · by_cases hq : q = p
    · subst hq
      simp [hnew]
    · rw [Function.update_of_ne hq]
      exact ⟨fun h => absurd h (hfree q), fun h => absurd (Option.some.inj h).symm hq⟩
  · by_cases hq : q = p
    · subst hq
      simp [ha, hnone]
    · have hpq : p ≠ q := Ne.symm hq
      simp [ha, hnone, hq, hpq]

/-- The holder gives the lock back. -/
theorem LockInv.release (h : LockInv pc id v adj) (hp : (pc p).lock = some id)
    (hnew : new.lock ≠ some id) :
    LockInv (Function.update pc p new) id (v - 1) (Function.update adj p (adj p + 1)) := by
  obtain ⟨o, ho, hv, ha⟩ := h
  cases (ho p).mp hp
  refine ⟨none, fun q => ?_, by simp [hv], fun q => ?_⟩
  · by_cases hq : q = p
    · subst hq
      simp [hnew]
    · rw [Function.update_of_ne hq, ho]
      simpa using Ne.symm hq
  · by_cases hq : q = p
    · subst hq
      simp [ha]
    · have hpq : p ≠ q := Ne.symm hq
      simp [ha, hq, hpq]

/-- A value in the range of a semaphore is not cut. -/
theorem clamp_of (h : 0 ≤ v) (h' : v ≤ SEMVMX) : clamp v = v := by
  rw [clamp]
  omega

/-- A process that exits gives the lock back, if it has it. -/
theorem LockInv.exit (h : LockInv pc id v adj) (hnew : new.lock ≠ some id) :
    LockInv (Function.update pc p new) id (clamp (v + adj p))
      (Function.update adj p 0) := by
  by_cases hp : (pc p).lock = some id
  · have hrel := h.release hp hnew
    obtain ⟨o, ho, hv, ha⟩ := h
    cases (ho p).mp hp
    have hv1 : v = 1 := by simpa using hv
    have hap : adj p = -1 := by simp [ha]
    rw [clamp_of (by omega) (by simp [hv1, hap, SEMVMX])]
    simpa [hv1, hap] using hrel
  · have hmove : LockInv (Function.update pc p new) id v adj := h.move (by simp [hnew, hp])
    obtain ⟨o, ho, hv, ha⟩ := h
    have hap : adj p = 0 := by
      rw [ha, if_neg fun ho' => hp ((ho p).mpr ho')]
    have hv01 : v = 0 ∨ v = 1 := by
      rw [hv]
      split <;> simp
    have hbound : 0 ≤ v ∧ v ≤ SEMVMX := by
      simp only [SEMVMX]
      omega
    rw [hap, Int.add_zero, clamp_of hbound.1 hbound.2, ← hap, Function.update_eq_self]
    exact hmove

/-! ## The counter -/

/-- `v` is member `[1]`, `adj` the adjustments for it. -/
structure CountInv (opens : List (Nat × Nat)) (id : Nat) (v : Int) (adj : Nat → Int)
    (init? : Bool) : Prop where
  adj : ∀ p, adj p = opens.count (p, id)
  val : init? = true → v = BIGCOUNT - outstanding id opens
  nonneg : 0 ≤ v
  unset : init? = false → v = 0 ∧ outstanding id opens = 0

/-- One more has opened the set. -/
theorem CountInv.open (h : CountInv opens id v adj init?) (hv : 1 ≤ v) (p : Nat) :
    CountInv ((p, id) :: opens) id (v - 1) (Function.update adj p (adj p + 1)) init? := by
  refine ⟨fun q => ?_, fun hi => ?_, by omega, fun hi => ?_⟩
  · by_cases hq : q = p
    · subst hq
      simp [h.adj]
    · have hpq : p ≠ q := Ne.symm hq
      simp [hq, hpq, h.adj]
  · rw [outstanding_cons, h.val hi]
    omega
  · have := h.unset hi
    omega

/-- One that had opened the set has closed it. -/
theorem CountInv.close (h : CountInv opens id v adj init?) (hp : (p, id) ∈ opens) :
    CountInv (opens.erase (p, id)) id (v + 1) (Function.update adj p (adj p - 1)) init? := by
  have hout := outstanding_erase hp
  have hcount : 0 < opens.count (p, id) := List.count_pos_iff.mpr hp
  refine ⟨fun q => ?_, fun hi => ?_, by have := h.nonneg; omega, fun hi => ?_⟩
  · by_cases hq : q = p
    · subst hq
      rw [Function.update_self, h.adj, List.count_erase_self]
      omega
    · rw [Function.update_of_ne hq, h.adj, List.count_erase_of_ne (by simp [hq])]
  · have := h.val hi
    omega
  · have := h.unset hi
    omega

/-- `SETVAL` on a new set. -/
theorem CountInv.setval (h : CountInv opens id v adj false) :
    CountInv opens id BIGCOUNT (fun _ => 0) true := by
  have hout := (h.unset rfl).2
  refine ⟨fun q => ?_, fun _ => ?_, by simp [BIGCOUNT], fun hi => by cases hi⟩
  · rw [List.count_eq_zero.mpr (outstanding_eq_zero.mp hout q)]
    rfl
  · rw [hout]
    simp

/-- A process that exits gives back what it has open. -/
theorem CountInv.exit (h : CountInv opens id v adj init?) (p : Nat) :
    CountInv (opens.filter (·.1 ≠ p)) id (clamp (v + adj p)) (Function.update adj p 0) init? := by
  have hout := outstanding_filter p id opens
  have hadj := h.adj p
  have hv := h.nonneg
  have hclamp : clamp (v + adj p) = v + adj p := by
    refine clamp_of (by omega) ?_
    simp only [SEMVMX]
    cases init? with
    | true =>
      have := h.val rfl
      simp only [BIGCOUNT] at this
      omega
    | false =>
      have := h.unset rfl
      omega
  rw [hclamp]
  refine ⟨fun q => ?_, fun hi => ?_, by omega, fun hi => ?_⟩
  · by_cases hq : q = p
    · subst hq
      rw [Function.update_self, List.count_eq_zero.mpr (by simp)]
      rfl
    · rw [Function.update_of_ne hq, h.adj, List.count_filter (by simp [hq])]
  · have := h.val hi
    omega
  · have := h.unset hi
    omega

/-! ## One set -/

/-- Whether the set is initialised, as far as the process that has the lock knows. -/
def Pc.known : Pc → Option Bool
  | .createSet0 _ _ => some false
  | .createSet1 _ => some false
  | .createEnd _ => some true
  | .closeGetval _ => some true
  | .closeRm _ => some true
  | .closeUnlock _ => some true
  | _ => none

/-- What a process knows under the lock, whether the set is initialised, is so. -/
def KnownInv (pc : Nat → Pc) (id : Nat) (init? : Bool) : Prop :=
  ∀ p b, (pc p).lock = some id → (pc p).known = some b → init? = b

/-- A step that changes nothing of it. -/
theorem KnownInv.move (h : KnownInv pc id init?)
    (hnew : ∀ b, new.lock = some id → new.known = some b → init? = b) :
    KnownInv (Function.update pc p new) id init? := by
  intro q b hl hk
  by_cases hq : q = p
  · subst hq
    rw [Function.update_self] at hl hk
    exact hnew b hl hk
  · rw [Function.update_of_ne hq] at hl hk
    exact h q b hl hk

/-- The one that removes the set has seen that nobody has it open. -/
def LastInv (pc : Nat → Pc) (opens : List (Nat × Nat)) (id : Nat) : Prop :=
  ∀ p, pc p = .closeRm id → outstanding id opens = 0

/-- Only a process that found nobody else goes on to `IPC_RMID`. -/
theorem LastInv.move (h : LastInv pc opens id)
    (hnew : new = .closeRm id → outstanding id opens = 0) :
    LastInv (Function.update pc p new) opens id := by
  intro q hq
  by_cases hqp : q = p
  · subst hqp
    rw [Function.update_self] at hq
    exact hnew hq
  · rw [Function.update_of_ne hqp] at hq
    exact h q hq

/-- Fewer processes have the set open. -/
theorem LastInv.mono {opens' : List (Nat × Nat)} (h : LastInv pc opens id)
    (hle : outstanding id opens' ≤ outstanding id opens) : LastInv pc opens' id := by
  intro p hp
  have := h p hp
  omega

/-- What holds of the set `S`; `last` only when nobody opens it while it is being removed. -/
structure SetInv (strict : Prop) (pc : Nat → Pc) (opens : List (Nat × Nat)) (S : SemSet) : Prop where
  lock : LockInv pc S.id (S.semval 2) fun p => S.semadj p 2
  count : CountInv opens S.id (S.semval 1) (fun p => S.semadj p 1) S.initialised
  known : KnownInv pc S.id S.initialised
  completed : S.completed = true → S.initialised = true
  last : strict → LastInv pc opens S.id

/-- What holds between two system calls. -/
structure Inv (strict : Prop) (s : State) : Prop where
  fresh : ∀ S, s.set = some S → S.id < s.next
  locks : ∀ p id, (s.proc p).pc.lock = some id → id < s.next
  opens : ∀ p id, (p, id) ∈ s.opens → id < s.next
  closing : ∀ p id, (s.proc p).pc = .closeOp id → (p, id) ∈ s.opens
  set : ∀ S, s.set = some S → SetInv strict (fun p => (s.proc p).pc) s.opens S

/-- There is no set at the start. -/
theorem init_inv (strict : Prop) : Inv strict init where
  fresh _ h := by cases h
  locks _ _ h := by cases h
  opens _ _ h := by cases h
  closing _ _ h := by cases h
  set _ h := by cases h

/-! ## One operation on a member -/

/-- One operation with `SEM_UNDO`. -/
def SemSet.add (S : SemSet) (p : Nat) (i : Fin 3) (op : Int) : SemSet :=
  { S with
    semval := Function.update S.semval i (S.semval i + op)
    semadj := Function.update S.semadj p (Function.update (S.semadj p) i (S.semadj p i - op)) }

/-- An operation is taken back in the adjustment of the process. -/
theorem add_semadj (S : SemSet) (p : Nat) (i : Fin 3) (op : Int) :
    (fun q => (S.add p i op).semadj q i) =
      Function.update (fun q => S.semadj q i) p (S.semadj p i - op) := by
  funext q
  by_cases hq : q = p
  · subst hq
    simp [SemSet.add]
  · simp [SemSet.add, hq]

/-- The other adjustments stay. -/
theorem add_semadj_ne (S : SemSet) (p : Nat) {i j : Fin 3} (op : Int) (h : j ≠ i) :
    (fun q => (S.add p i op).semadj q j) = fun q => S.semadj q j := by
  funext q
  by_cases hq : q = p
  · subst hq
    simp [SemSet.add, h]
  · simp [SemSet.add, hq]

/-- An operation changes the value. -/
theorem add_semval (S : SemSet) (p : Nat) (i : Fin 3) (op : Int) :
    (S.add p i op).semval i = S.semval i + op := by
  simp [SemSet.add]

/-- The other values stay. -/
theorem add_semval_ne (S : SemSet) (p : Nat) {i j : Fin 3} (op : Int) (h : j ≠ i) :
    (S.add p i op).semval j = S.semval j := by
  simp [SemSet.add, h]

/-- What `sem_op` changes matters to nobody else. -/
theorem SetInv.op (h : SetInv strict pc opens S) (p : Nat) (value : Int) :
    SetInv strict pc opens (S.add p 0 value) := by
  refine ⟨?_, ?_, h.known, h.completed, h.last⟩
  · rw [add_semval_ne S p value (by decide), add_semadj_ne S p value (by decide)]
    exact h.lock
  · rw [add_semval_ne S p value (by decide), add_semadj_ne S p value (by decide)]
    exact h.count

/-- A process takes the lock of the set. -/
theorem SetInv.acquire (h : SetInv strict pc opens S) (hv : S.semval 2 = 0)
    (hnew : new.lock = some S.id)
    (hk : ∀ b, new.known = some b → S.initialised = b) (hn : ∀ i, new ≠ .closeRm i) :
    SetInv strict (Function.update pc p new) opens (S.add p 2 1) := by
  refine ⟨?_, ?_, h.known.move fun b _ => hk b, h.completed,
    fun hs => (h.last hs).move fun he => absurd he (hn _)⟩
  · rw [add_semval, add_semadj]
    exact h.lock.acquire hv hnew
  · rw [add_semval_ne S p 1 (by decide), add_semadj_ne S p 1 (by decide)]
    exact h.count

/-- The holder gives the lock of the set back. -/
theorem SetInv.release (h : SetInv strict pc opens S) (hp : (pc p).lock = some S.id)
    (hnew : new.lock = none) : SetInv strict (Function.update pc p new) opens (S.add p 2 (-1)) := by
  refine ⟨?_, ?_, h.known.move fun b hl => by simp [hnew] at hl, h.completed,
    fun hs => (h.last hs).move fun he => by simp [he, Pc.lock] at hnew⟩
  · rw [add_semval, add_semadj]
    exact h.lock.release hp (by simp [hnew])
  · rw [add_semval_ne S p (-1) (by decide), add_semadj_ne S p (-1) (by decide)]
    exact h.count

/-- One more has opened the set; in a strict run nobody is about to remove it. -/
theorem SetInv.opened (h : SetInv strict pc opens S) (hv : 1 ≤ S.semval 1) (p : Nat)
    (hn : strict → ∀ q, pc q ≠ .closeRm S.id) :
    SetInv strict pc ((p, S.id) :: opens) { S.add p 1 (-1) with completed := true } := by
  refine ⟨?_, ?_, h.known, fun _ => ?_, fun hs q hq => absurd hq (hn hs q)⟩
  · change LockInv pc S.id ((S.add p 1 (-1)).semval 2) fun q => (S.add p 1 (-1)).semadj q 2
    rw [add_semval_ne S p (-1) (by decide), add_semadj_ne S p (-1) (by decide)]
    exact h.lock
  · change CountInv _ S.id ((S.add p 1 (-1)).semval 1) (fun q => (S.add p 1 (-1)).semadj q 1)
      S.initialised
    rw [add_semval, add_semadj]
    exact h.count.open hv p
  · change S.initialised = true
    by_contra hi
    have := (h.count.unset (Bool.eq_false_iff.mpr hi)).1
    omega

/-- One that had opened the set has closed it. -/
theorem SetInv.closed (h : SetInv strict pc opens S) (hp : (p, S.id) ∈ opens) :
    SetInv strict pc (opens.erase (p, S.id)) (S.add p 1 1) := by
  have hout := outstanding_erase hp
  refine ⟨?_, ?_, h.known, h.completed, fun hs => (h.last hs).mono (by omega)⟩
  · rw [add_semval_ne S p 1 (by decide), add_semadj_ne S p 1 (by decide)]
    exact h.lock
  · rw [add_semval, add_semadj]
    exact h.count.close hp

/-- A process moves and keeps the lock, or stays without it. -/
theorem SetInv.move (h : SetInv strict pc opens S) (hnew : new.lock = (pc p).lock)
    (hk : ∀ b, new.lock = some S.id → new.known = some b → S.initialised = b)
    (hr : strict → new = .closeRm S.id → outstanding S.id opens = 0) :
    SetInv strict (Function.update pc p new) opens S :=
  ⟨h.lock.move (by rw [hnew]), h.count, h.known.move hk, h.completed,
    fun hs => (h.last hs).move (hr hs)⟩

/-- What a process held goes back at its exit. -/
theorem SetInv.exit (h : SetInv strict pc opens S) (hnew : new.lock = none) :
    SetInv strict (Function.update pc p new) (opens.filter (·.1 ≠ p)) (S.exit p) := by
  have hadj : ∀ i, (fun q => (S.exit p).semadj q i) =
      Function.update (fun q => S.semadj q i) p 0 := by
    intro i
    funext q
    by_cases hq : q = p
    · subst hq
      simp [SemSet.exit]
    · simp [SemSet.exit, hq]
  have hout := outstanding_filter p S.id opens
  refine ⟨?_, ?_, h.known.move fun b hl => by simp [hnew] at hl, h.completed,
    fun hs => LastInv.mono ((h.last hs).move fun he => by simp [he, Pc.lock] at hnew) ?_⟩
  · rw [hadj]
    exact h.lock.exit (by simp [hnew])
  · rw [hadj]
    exact h.count.exit p
  · exact Nat.le.intro hout

/-- Nobody knows of a set that has just been made. -/
theorem new_inv (hl : ∀ p, (pc p).lock ≠ some id) (ho : ∀ p, (p, id) ∉ opens) :
    SetInv strict pc opens (SemSet.new id) := by
  have hout : outstanding id opens = 0 := outstanding_eq_zero.mpr ho
  refine ⟨⟨none, fun p => by simp [hl, SemSet.new], rfl, fun p => rfl⟩, ⟨fun p => ?_, ?_, ?_, ?_⟩,
    fun p b h => absurd h (hl p), (fun h => by cases h),
    fun _ p hp => absurd (congrArg Pc.lock hp : (pc p).lock = some id) (hl p)⟩
  · change (0 : Int) = opens.count (p, id)
    rw [List.count_eq_zero.mpr (ho p)]
    rfl
  · intro h
    cases h
  · exact Int.le_refl 0
  · intro _
    exact ⟨rfl, hout⟩

/-- `SETVAL` of `[0]`. -/
theorem SetInv.setval0 (h : SetInv strict pc opens S) (val : Int) : SetInv strict pc opens (S.setval 0 val) := by
  refine ⟨?_, ?_, h.known, h.completed, h.last⟩
  · simpa [SemSet.setval] using h.lock
  · simpa [SemSet.setval] using h.count

/-- `SETVAL` of `[1]`, by the process that has the lock. -/
theorem SetInv.setval1 (h : SetInv strict pc opens S) (hp : (pc p).lock = some S.id)
    (hi : S.initialised = false) (hnew : new.lock = some S.id) (hk : new.known = some true)
    (hn : ∀ i, new ≠ .closeRm i) :
    SetInv strict (Function.update pc p new) opens
      { S.setval 1 BIGCOUNT with initialised := true } := by
  refine ⟨?_, ?_, ?_, fun _ => rfl, fun hs => (h.last hs).move fun he => absurd he (hn _)⟩
  · exact h.lock.move (by rw [hnew, hp])
  · have hcount := h.count
    rw [hi] at hcount
    simpa [SemSet.setval] using hcount.setval
  · intro q b hl hb
    by_cases hq : q = p
    · subst hq
      rw [Function.update_self, hk] at hb
      exact Option.some.inj hb
    · rw [Function.update_of_ne hq] at hl
      exact absurd (h.lock.unique hl hp) hq

/-! ## The system calls -/

variable {ops : List Sembuf} {done : SemSet → State} {failed : Errno → State}
  {semval semadj semval' semadj' : Fin 3 → Int}

/-- An operation with `SEM_UNDO` that is done. -/
theorem applyOps_undo {i : Fin 3} {op : Int} (hop : op ≠ 0)
    (h : applyOps (⟨i, op, true⟩ :: ops) semval semadj = .done semval' semadj') :
    0 ≤ semval i + op ∧ applyOps ops (Function.update semval i (semval i + op))
      (Function.update semadj i (semadj i - op)) = .done semval' semadj' := by
  unfold applyOps at h
  simp only [if_neg hop, if_true] at h
  split at h
  · cases h
  split at h
  · cases h
  split at h
  · cases h
  exact ⟨by omega, h⟩

/-- Waiting for zero. -/
theorem applyOps_wait {i : Fin 3}
    (h : applyOps (⟨i, 0, false⟩ :: ops) semval semadj = .done semval' semadj') :
    semval i = 0 ∧ applyOps ops semval semadj = .done semval' semadj' := by
  unfold applyOps at h
  simp only [if_true] at h
  split at h
  · exact ⟨by assumption, h⟩
  · cases h

/-- What `semop` does. -/
theorem semop_cases (h : semop s p id ops done failed = some s') :
    (∃ S semval semadj, s.set = some S ∧ S.id = id ∧
      applyOps ops S.semval (S.semadj p) = .done semval semadj ∧
      s' = done { S with
        semval := semval, semadj := Function.update S.semadj p semadj }) ∨
    s' = s.sleep p ∨ ∃ e, s' = failed e := by
  unfold semop at h
  cases hS : s.set with
  | none =>
    simp only [hS, Option.some.injEq] at h
    exact .inr (.inr ⟨_, h.symm⟩)
  | some S =>
    simp only [hS] at h
    split at h
    next hid =>
      split at h
      next semval semadj hdone => exact .inl ⟨S, semval, semadj, rfl, hid, hdone, (Option.some.inj h).symm⟩
      next =>
        split at h
        · cases h
        · exact .inr (.inl (Option.some.inj h).symm)
      next => exact .inr (.inr ⟨_, (Option.some.inj h).symm⟩)
    next => exact .inr (.inr ⟨_, (Option.some.inj h).symm⟩)

/-- `op_lock`: the set is locked, the process sleeps, or the set is not there. -/
theorem semop_lock (h : semop s p id op_lock done failed = some s') :
    (∃ S, s.set = some S ∧ S.id = id ∧ S.semval 2 = 0 ∧ s' = done (S.add p 2 1)) ∨
    s' = s.sleep p ∨ ∃ e, s' = failed e := by
  refine (semop_cases h).imp_left fun ⟨S, semval, semadj, hS, hid, hops, hs⟩ => ?_
  obtain ⟨h0, hops⟩ := applyOps_wait hops
  obtain ⟨-, hops⟩ := applyOps_undo (by decide) hops
  cases hops
  exact ⟨S, hS, hid, h0, hs⟩

/-- `op_endcreate`: opened and unlocked in one operation. -/
theorem semop_endcreate (h : semop s p id op_endcreate done failed = some s') :
    (∃ S, s.set = some S ∧ S.id = id ∧ 1 ≤ S.semval 1 ∧
      s' = done ((S.add p 1 (-1)).add p 2 (-1))) ∨
    s' = s.sleep p ∨ ∃ e, s' = failed e := by
  refine (semop_cases h).imp_left fun ⟨S, semval, semadj, hS, hid, hops, hs⟩ => ?_
  obtain ⟨h1, hops⟩ := applyOps_undo (by decide) hops
  obtain ⟨-, hops⟩ := applyOps_undo (by decide) hops
  cases hops
  refine ⟨S, hS, hid, by omega, ?_⟩
  simpa [SemSet.add] using hs

/-- `op_open`: opened, without the lock. -/
theorem semop_open (h : semop s p id op_open done failed = some s') :
    (∃ S, s.set = some S ∧ S.id = id ∧ 1 ≤ S.semval 1 ∧ s' = done (S.add p 1 (-1))) ∨
    s' = s.sleep p ∨ ∃ e, s' = failed e := by
  refine (semop_cases h).imp_left fun ⟨S, semval, semadj, hS, hid, hops, hs⟩ => ?_
  obtain ⟨h1, hops⟩ := applyOps_undo (by decide) hops
  cases hops
  exact ⟨S, hS, hid, by omega, hs⟩

/-- `op_close`: locked and closed in one operation. -/
theorem semop_close (h : semop s p id op_close done failed = some s') :
    (∃ S, s.set = some S ∧ S.id = id ∧ S.semval 2 = 0 ∧
      s' = done ((S.add p 2 1).add p 1 1)) ∨
    s' = s.sleep p ∨ ∃ e, s' = failed e := by
  refine (semop_cases h).imp_left fun ⟨S, semval, semadj, hS, hid, hops, hs⟩ => ?_
  obtain ⟨h0, hops⟩ := applyOps_wait hops
  obtain ⟨-, hops⟩ := applyOps_undo (by decide) hops
  obtain ⟨-, hops⟩ := applyOps_undo (by decide) hops
  cases hops
  refine ⟨S, hS, hid, h0, ?_⟩
  simpa [SemSet.add] using hs

/-- `op_unlock` does not sleep. -/
theorem semop_unlock (h : semop s p id op_unlock done failed = some s') :
    (∃ S, s.set = some S ∧ S.id = id ∧ s' = done (S.add p 2 (-1))) ∨
    s' = s.sleep p ∨ ∃ e, s' = failed e := by
  refine (semop_cases h).imp_left fun ⟨S, semval, semadj, hS, hid, hops, hs⟩ => ?_
  obtain ⟨-, hops⟩ := applyOps_undo (by decide) hops
  cases hops
  exact ⟨S, hS, hid, hs⟩

/-- `op_op` changes the user's semaphore. -/
theorem semop_op {value : Int} (hvalue : value ≠ 0)
    (h : semop s p id (op_op value) done failed = some s') :
    (∃ S, s.set = some S ∧ S.id = id ∧ s' = done (S.add p 0 value)) ∨
    s' = s.sleep p ∨ ∃ e, s' = failed e := by
  refine (semop_cases h).imp_left fun ⟨S, semval, semadj, hS, hid, hops, hs⟩ => ?_
  obtain ⟨-, hops⟩ := applyOps_undo hvalue hops
  cases hops
  exact ⟨S, hS, hid, hs⟩

/-! ## One step -/

/-- The places in the program after a step of one process. -/
theorem pc_update (s : State) (p : Nat) (x : Proc) :
    (fun q => (Function.update s.proc p x q).pc) =
      Function.update (fun q => (s.proc q).pc) p x.pc := by
  funext q
  by_cases hq : q = p
  · subst hq
    simp
  · simp [hq]

/-- What has to be shown of a step in which `p` goes on. -/
theorem Inv.step {x : Proc} {set? : Option SemSet} {opens : List (Nat × Nat)} (h : Inv strict s)
    (hset : ∀ S, set? = some S → S.id < s.next ∧
      SetInv strict (Function.update (fun q => (s.proc q).pc) p x.pc) opens S)
    (hlock : ∀ id, x.pc.lock = some id → id < s.next)
    (hopens : ∀ q id, (q, id) ∈ opens → id < s.next)
    (hclosing : ∀ q id, q ≠ p → (q, id) ∈ s.opens → (q, id) ∈ opens)
    (hnot : ∀ id, x.pc = .closeOp id → (p, id) ∈ opens) :
    Inv strict ⟨set?, s.next, Function.update s.proc p x, opens⟩ := by
  have hproc : ∀ q, Function.update s.proc p x q = if q = p then x else s.proc q := by
    intro q
    simp [Function.update_apply]
  refine ⟨fun S hS => (hset S hS).1, fun q id hl => ?_, hopens, fun q id hc => ?_, fun S hS => ?_⟩
  · dsimp only at hl
    rw [hproc] at hl
    split at hl
    · exact hlock id hl
    · exact h.locks q id hl
  · dsimp only at hc
    rw [hproc] at hc
    split at hc
    next hq =>
      subst hq
      exact hnot id hc
    next hq => exact hclosing q id hq (h.closing q id hc)
  · dsimp only
    rw [pc_update]
    exact (hset S hS).2

/-- A step that changes nothing but where `p` stands. -/
theorem Inv.stay {x : Proc} (h : Inv strict s) (hlock : x.pc.lock = (s.proc p).pc.lock)
    (hk : ∀ S b, s.set = some S → x.pc.lock = some S.id → x.pc.known = some b →
      S.initialised = b)
    (hr : ∀ S, s.set = some S → strict → x.pc = .closeRm S.id → outstanding S.id s.opens = 0)
    (hnot : ∀ id, x.pc = .closeOp id → (p, id) ∈ s.opens) :
    Inv strict { s with proc := Function.update s.proc p x } :=
  h.step (fun S hS => ⟨h.fresh S hS, (h.set S hS).move hlock (hk S · hS) (hr S hS)⟩)
    (fun id hl => h.locks p id (hlock ▸ hl)) h.opens (fun _ _ _ hq => hq) hnot

/-- A call that fails leaves the set as it is. -/
theorem Inv.fail (h : Inv strict s) (p : Nat) : Inv strict (s.fail p) :=
  h.stay rfl (fun S b hS => (h.set S hS).known p b) (fun S hS hs => (h.set S hS).last hs p)
    (h.closing p)

/-- A process that sleeps has done nothing. -/
theorem Inv.sleep (h : Inv strict s) (p : Nat) : Inv strict (s.sleep p) :=
  h.stay rfl (fun S b hS => (h.set S hS).known p b) (fun S hS hs => (h.set S hS).last hs p)
    (h.closing p)

/-- `p` goes on, without a lock as before. -/
theorem Inv.goto (h : Inv strict s) (hp : (s.proc p).pc.lock = none) (hnew : new.lock = none)
    (hnot : ∀ id, new = .closeOp id → (p, id) ∈ s.opens) : Inv strict (s.goto p new) :=
  h.stay (hnew.trans hp.symm) (fun S b _ hl => by simp [hnew] at hl)
    (fun S _ _ he => by simp [show new = _ from he, Pc.lock] at hnew) hnot

/-- `p` goes on, with the lock as before. -/
theorem Inv.gotoLocked (h : Inv strict s) (hp : new.lock = (s.proc p).pc.lock)
    (hk : ∀ S b, s.set = some S → new.lock = some S.id → new.known = some b → S.initialised = b)
    (hr : ∀ S, s.set = some S → new = .closeRm S.id → outstanding S.id s.opens = 0)
    (hl : new.lock ≠ none) : Inv strict (s.goto p new) :=
  h.stay hp hk (fun S hS _ => hr S hS) fun id he => by
    dsimp only at he
    simp [he, Pc.lock] at hl

/-- A `semctl` call: what is left to show is the case in which the set exists. -/
theorem Inv.semctl (h : Inv strict s) (hdone : ∀ S, s.set = some S → S.id = id → Inv strict (done S)) :
    Inv strict (semctl s p id done) := by
  unfold Semaph.semctl
  split
  · exact h.fail p
  next S hS =>
    split
    next hid => exact hdone S hS hid
    next => exact h.fail p

/-- A `semop` call: what is left to show is the case in which it does its work. -/
theorem Inv.semop_fail (h : Inv strict s) {Done : Prop}
    (hs : Done ∨ s' = s.sleep p ∨ ∃ _ : Errno, s' = s.fail p) (hdone : Done → Inv strict s') : Inv strict s' := by
  rcases hs with hs | rfl | ⟨-, rfl⟩
  · exact hdone hs
  · exact h.sleep p
  · exact h.fail p

/-- `semget` of `sem_create`. -/
theorem createGet_inv {initval : Int} (h : Inv strict s) (hpc : (s.proc p).pc = .createGet initval) :
    Inv strict { s.goto p (.createLock initval s.next) with
      set := some (SemSet.new s.next), next := s.next + 1 } := by
  have hgoto : Inv strict (s.goto p (.createLock initval s.next)) :=
    h.goto (by simp [hpc, Pc.lock]) rfl fun id he => by cases he
  refine ⟨fun S hS => ?_, fun q id hl => ?_, fun q id ho => ?_, hgoto.closing, fun S hS => ?_⟩
  · cases hS
    exact Nat.lt_succ_self _
  · exact Nat.lt_succ_of_lt (hgoto.locks q id hl)
  · exact Nat.lt_succ_of_lt (hgoto.opens q id ho)
  · cases hS
    refine new_inv (fun q hl => ?_) fun q ho => ?_
    · exact Nat.lt_irrefl _ (hgoto.locks q _ hl)
    · exact Nat.lt_irrefl _ (hgoto.opens q _ ho)

/-- The lock is taken. -/
theorem createLock_inv {initval : Int} (h : Inv strict s) (hset : s.set = some S)
    (hv : S.semval 2 = 0) :
    Inv strict { s.goto p (.createGetval initval S.id) with set := some (S.add p 2 1) } := by
  refine h.step (fun S' hS => ?_) (fun id hl => ?_) h.opens (fun _ _ _ ho => ho) fun id he => by
    cases he
  · cases hS
    exact ⟨h.fresh S hset, (h.set S hset).acquire hv rfl (fun b hb => by cases hb) fun i he => by
      cases he⟩
  · cases hl
    exact h.fresh S hset

/-- Member `[1]` tells whether the set is initialised. -/
theorem createGetval_inv {initval : Int} (h : Inv strict s) (hset : s.set = some S)
    (hpc : (s.proc p).pc = .createGetval initval S.id)
    (hf : (outstanding S.id s.opens : Int) < BIGCOUNT) :
    Inv strict (if S.semval 1 = 0 then s.goto p (.createSet0 initval S.id)
      else s.goto p (.createEnd S.id)) := by
  have hcount := (h.set S hset).count
  split
  next h0 =>
    refine h.gotoLocked (by simp [hpc, Pc.lock]) (fun S' b hS _ hb => ?_)
      (fun _ _ he => by cases he) (by simp [Pc.lock])
    cases hset.symm.trans hS
    cases hb
    by_contra hi
    have := hcount.val (by simpa using hi)
    omega
  next h0 =>
    refine h.gotoLocked (by simp [hpc, Pc.lock]) (fun S' b hS _ hb => ?_)
      (fun _ _ he => by cases he) (by simp [Pc.lock])
    cases hset.symm.trans hS
    cases hb
    by_contra hi
    exact h0 (hcount.unset (by simpa using hi)).1

/-- `SETVAL` of `[0]`. -/
theorem createSet0_inv {initval : Int} (h : Inv strict s) (hset : s.set = some S)
    (hpc : (s.proc p).pc = .createSet0 initval S.id) :
    Inv strict { s.goto p (.createSet1 S.id) with set := some (S.setval 0 initval) } := by
  have hi : S.initialised = false :=
    (h.set S hset).known p false (by simp [hpc, Pc.lock]) (by simp [hpc, Pc.known])
  refine h.step (fun S' hS => ?_) (fun id hl => ?_) h.opens (fun _ _ _ ho => ho) fun id he => by
    cases he
  · cases hS
    refine ⟨h.fresh S hset, ((h.set S hset).setval0 initval).move (by simp [hpc, Pc.lock]) ?_
      fun _ he => by cases he⟩
    intro b _ hb
    cases hb
    exact hi
  · cases hl
    exact h.fresh S hset

/-- `SETVAL` of `[1]`: the set is initialised. -/
theorem createSet1_inv (h : Inv strict s) (hset : s.set = some S)
    (hpc : (s.proc p).pc = .createSet1 S.id) :
    Inv strict { s.goto p (.createEnd S.id) with
      set := some { S.setval 1 BIGCOUNT with initialised := true } } := by
  have hl : (s.proc p).pc.lock = some S.id := by simp [hpc, Pc.lock]
  have hi : S.initialised = false := (h.set S hset).known p false hl (by simp [hpc, Pc.known])
  refine h.step (fun S' hS => ?_) (fun id hl => ?_) h.opens (fun _ _ _ ho => ho) fun id he => by
    cases he
  · cases hS
    exact ⟨h.fresh S hset, (h.set S hset).setval1 hl hi rfl rfl fun i he => by cases he⟩
  · cases hl
    exact h.fresh S hset

/-- An open, with or without the lock. -/
theorem open_inv {S' : SemSet} (h : Inv strict s) (hset : s.set = some S) (hid : S'.id = S.id)
    (hinv : SetInv strict (Function.update (fun q => (s.proc q).pc) p .idle) ((p, S.id) :: s.opens) S') :
    Inv strict { s.goto p .idle with set := some S', opens := (p, S.id) :: s.opens } := by
  refine h.step (fun S'' hS => ?_) (fun id hl => by cases hl) (fun q id ho => ?_)
    (fun _ _ _ ho => .tail _ ho) fun id he => by cases he
  · cases hS
    exact ⟨hid ▸ h.fresh S hset, hinv⟩
  · cases ho with
    | head => exact h.fresh S hset
    | tail _ ho => exact h.opens q id ho

/-- The creator has opened the set and gives the lock back. -/
theorem createEnd_inv (h : Inv strict s) (hset : s.set = some S)
    (hpc : (s.proc p).pc = .createEnd S.id) (hv : 1 ≤ S.semval 1) :
    Inv strict { s.goto p .idle with
      set := some { (S.add p 1 (-1)).add p 2 (-1) with completed := true }
      opens := (p, S.id) :: s.opens } := by
  refine open_inv h hset rfl ?_
  have hl : (s.proc p).pc.lock = some S.id := by simp [hpc, Pc.lock]
  have hn : ∀ q, (s.proc q).pc ≠ .closeRm S.id := by
    intro q hq
    cases (h.set S hset).lock.unique hl (q := q) (by simp [hq, Pc.lock])
    rw [hpc] at hq
    cases hq
  have hopen := (h.set S hset).opened hv p fun _ => hn
  exact hopen.release hl rfl

/-- `sem_open` -/
theorem openOp_inv (h : Inv strict s) (hset : s.set = some S) (hpc : (s.proc p).pc = .openOp S.id)
    (hv : 1 ≤ S.semval 1) (hn : strict → ∀ q, (s.proc q).pc ≠ .closeRm S.id) :
    Inv strict { s.goto p .idle with
      set := some { S.add p 1 (-1) with completed := true }
      opens := (p, S.id) :: s.opens } := by
  refine open_inv h hset rfl ?_
  have hopen := (h.set S hset).opened hv p hn
  exact hopen.move (by simp [hpc, Pc.lock]) (fun b hl => by cases hl) fun _ he => by cases he

/-- The last one to close takes the lock as well. -/
theorem closeOp_inv (h : Inv strict s) (hset : s.set = some S) (hpc : (s.proc p).pc = .closeOp S.id)
    (hv : S.semval 2 = 0) :
    Inv strict { s.goto p (.closeGetval S.id) with
      set := some ((S.add p 2 1).add p 1 1), opens := s.opens.erase (p, S.id) } := by
  have hp : (p, S.id) ∈ s.opens := h.closing p S.id hpc
  have hinv := h.set S hset
  have hi : S.initialised = true := by
    by_contra hi
    have hout := (hinv.count.unset (by simpa using hi)).2
    exact outstanding_eq_zero.mp hout p hp
  refine h.step (fun S' hS => ?_) (fun id hl => ?_)
    (fun q id ho => h.opens q id (List.mem_of_mem_erase ho))
    (fun q id hq ho => (List.mem_erase_of_ne (by simp [hq])).mpr ho) fun id he => by cases he
  · cases hS
    refine ⟨h.fresh S hset, ?_⟩
    exact (hinv.acquire hv rfl (fun b hb => by cases hb; exact hi) fun i he => by cases he).closed hp
  · cases hl
    exact h.fresh S hset

/-- The lock is given back. -/
theorem closeUnlock_inv (h : Inv strict s) (hset : s.set = some S)
    (hpc : (s.proc p).pc = .closeUnlock S.id) :
    Inv strict { s.goto p .idle with set := some (S.add p 2 (-1)) } := by
  refine h.step (fun S' hS => ?_) (fun id hl => by cases hl) h.opens (fun _ _ _ ho => ho)
    fun id he => by cases he
  cases hS
  exact ⟨h.fresh S hset, (h.set S hset).release (by simp [hpc, Pc.lock]) rfl⟩

/-- `sem_op` -/
theorem opOp_inv {value : Int} (h : Inv strict s) (hset : s.set = some S)
    (hpc : (s.proc p).pc = .opOp S.id value) :
    Inv strict { s.goto p .idle with set := some (S.add p 0 value) } := by
  refine h.step (fun S' hS => ?_) (fun id hl => by cases hl) h.opens (fun _ _ _ ho => ho)
    fun id he => by cases he
  cases hS
  refine ⟨h.fresh S hset, ((h.set S hset).op p value).move (by simp [hpc, Pc.lock]) ?_
    fun _ he => by cases he⟩
  intro b hl
  cases hl

/-- One system call. -/
theorem runProc_inv (h : Inv strict s) (hf : FewAtCreate (.run p) s)
    (hn : strict → NotOpenedInClose (.run p) s) (hs : runProc p s = some s') : Inv strict s' := by
  unfold runProc at hs
  split at hs
  · cases hs
  cases hpc : (s.proc p).pc with
  | idle => simp [hpc] at hs
  | exited => simp [hpc] at hs
  | createGet initval =>
    simp only [hpc] at hs
    split at hs
    next S hS =>
      cases hs
      exact h.goto (by simp [hpc, Pc.lock]) rfl fun id he => by cases he
    next hS =>
      cases hs
      exact createGet_inv h hpc
  | createLock initval id =>
    simp only [hpc] at hs
    -- the lock is taken, waited for, or fails because the set is gone
    obtain ⟨S, hS, rfl, hv, rfl⟩ | rfl | ⟨e, rfl⟩ := semop_lock hs
    · exact createLock_inv h hS hv
    · exact h.sleep p
    · split
      · exact h.goto (by simp [hpc, Pc.lock]) rfl fun id he => by cases he
      · exact h.fail p
  | createGetval initval id =>
    simp only [hpc, Option.some.injEq] at hs
    subst hs
    refine h.semctl fun S hS hid => ?_
    subst hid
    exact createGetval_inv h hS hpc (hf S initval hS hpc)
  | createSet0 initval id =>
    simp only [hpc, Option.some.injEq] at hs
    subst hs
    refine h.semctl fun S hS hid => ?_
    subst hid
    split
    · exact createSet0_inv h hS hpc
    · exact h.fail p
  | createSet1 id =>
    simp only [hpc, Option.some.injEq] at hs
    subst hs
    refine h.semctl fun S hS hid => ?_
    subst hid
    exact createSet1_inv h hS hpc
  | createEnd id =>
    simp only [hpc] at hs
    refine h.semop_fail (semop_endcreate hs) ?_
    rintro ⟨S, hS, rfl, hv, rfl⟩
    exact createEnd_inv h hS hpc hv
  | openGet =>
    simp only [hpc] at hs
    split at hs
    · cases hs
      exact h.goto (by simp [hpc, Pc.lock]) rfl fun id he => by cases he
    · cases hs
      exact h.goto (by simp [hpc, Pc.lock]) rfl fun id he => by cases he
  | openOp id =>
    simp only [hpc] at hs
    refine h.semop_fail (semop_open hs) ?_
    rintro ⟨S, hS, rfl, hv, rfl⟩
    exact openOp_inv h hS hpc hv fun hstrict q => hn hstrict q _ hpc
  | opOp id value =>
    simp only [hpc] at hs
    split at hs
    · cases hs
      exact h.fail p
    next hvalue =>
      refine h.semop_fail (semop_op hvalue hs) ?_
      rintro ⟨S, hS, rfl, rfl⟩
      exact opOp_inv h hS hpc
  | closeOp id =>
    simp only [hpc] at hs
    refine h.semop_fail (semop_close hs) ?_
    rintro ⟨S, hS, rfl, hv, rfl⟩
    exact closeOp_inv h hS hpc hv
  | closeGetval id =>
    simp only [hpc, Option.some.injEq] at hs
    subst hs
    refine h.semctl fun S hS hid => ?_
    subst hid
    have hk : S.initialised = true :=
      (h.set S hS).known p true (by simp [hpc, Pc.lock]) (by simp [hpc, Pc.known])
    -- `p` has the lock, so what it reads of the count stays true
    have hgoto : ∀ new : Pc, new.lock = some S.id → new.known = some true →
        (new = .closeRm S.id → S.semval 1 = BIGCOUNT) → Inv strict (s.goto p new) := by
      intro new hl hnew hlast
      refine h.gotoLocked (by rw [hl, hpc]; rfl) (fun S' b hS' _ hb => ?_) (fun S' hS' he => ?_)
        (by simp [hl])
      · cases hS.symm.trans hS'
        cases hnew.symm.trans hb
        exact hk
      · cases hS.symm.trans hS'
        have := hlast he
        have := (h.set S hS).count.val hk
        omega
    split
    · exact h.fail p
    split
    next hbig => exact hgoto _ rfl rfl fun _ => hbig
    next => exact hgoto _ rfl rfl fun he => by cases he
  | closeRm id =>
    simp only [hpc, Option.some.injEq] at hs
    subst hs
    refine h.semctl fun S hS hid => ?_
    -- nothing is left to say of a set that has been removed
    exact h.step (fun S' hS' => by cases hS') (fun id hl => by cases hl) h.opens
      (fun _ _ _ ho => ho) fun id he => by cases he
  | closeUnlock id =>
    simp only [hpc] at hs
    refine h.semop_fail (semop_unlock hs) ?_
    rintro ⟨S, hS, rfl, rfl⟩
    exact closeUnlock_inv h hS hpc

/-- A process ends, wherever it is. -/
theorem exit_inv (h : Inv strict s) (p : Nat) :
    Inv strict { s.goto p .exited with
      set := s.set.map (·.exit p), opens := s.opens.filter (·.1 ≠ p) } := by
  refine h.step (fun S' hS => ?_) (fun id hl => by cases hl)
    (fun q id ho => h.opens q id ((List.mem_filter.mp ho).1))
    (fun q id hq ho => List.mem_filter.mpr ⟨ho, by simpa using hq⟩) fun id he => by cases he
  obtain ⟨S, hset, rfl⟩ := Option.map_eq_some_iff.mp hS
  exact ⟨h.fresh S hset, (h.set S hset).exit rfl⟩

/-- **One step**: a call begins, one system call, or an exit. -/
theorem act_inv (h : Inv strict s) (hf : FewAtCreate a s) (hn : strict → NotOpenedInClose a s)
    (hs : act a s = some s') : Inv strict s' := by
  cases a with
  | run p => exact runProc_inv h hf hn hs
  | call p c =>
    simp only [act] at hs
    split at hs
    next hc =>
      cases hs
      obtain ⟨hpc, hallowed⟩ := hc
      refine h.goto (by simp [hpc, Pc.lock]) (by cases c <;> rfl) fun id he => ?_
      cases c with
      | sem_close i =>
        cases he
        simpa [Call.allowed] using hallowed
      | sem_create _ => cases he
      | sem_open => cases he
      | sem_op _ _ => cases he
    next => cases hs
  | exit p =>
    simp only [act] at hs
    split at hs
    · cases hs
    · cases hs
      exact exit_inv h p

/-- **Runs.** -/
theorem run_inv {C : Act → State → Prop} (hf : ∀ a s, C a s → FewAtCreate a s)
    (hn : strict → ∀ a s, C a s → NotOpenedInClose a s) (h : Run act init C s) : Inv strict s :=
  h.inv (init_inv strict) fun a s _ _ hc hs hi =>
    act_inv hi (hf a s hc) (fun hstrict => hn hstrict a s hc) hs

/-! ## What the library keeps -/

/-- **The lock, the counter and the value.** As long as fewer than `BIGCOUNT` have the set open, at
most one process has the lock, `[2]` tells whether one has it, `[1]` counts the opens of a set that
is initialised, and a process that sets `[0]` does so before any call on the set has completed. -/
theorem lock_and_counter (h : Run act init Few s) (hS : s.set = some S) :
    (∀ p q, (s.proc p).pc.lock = some S.id → (s.proc q).pc.lock = some S.id → p = q) ∧
    (S.semval 2 = 0 ↔ ∀ p, (s.proc p).pc.lock ≠ some S.id) ∧
    (S.initialised = true → S.semval 1 = BIGCOUNT - outstanding S.id s.opens) ∧
    ∀ p initval, (s.proc p).pc = .createSet0 initval S.id → S.completed = false := by
  have hrun : Inv False s := run_inv (C := Few)
    (fun a s hf => by
      cases a with
      | run p => exact fun S initval hS _ => hf S hS
      | call p c => trivial
      | exit p => trivial) (fun h => h.elim) h
  have hinv := hrun.set S hS
  refine ⟨fun p q hp hq => hinv.lock.unique hp hq, hinv.lock.free, hinv.count.val,
    fun p initval hpc => ?_⟩
  have hi : S.initialised = false :=
    hinv.known p false (by simp [hpc, Pc.lock]) (by simp [hpc, Pc.known])
  by_contra hc
  have := hinv.completed (by simpa using hc)
  rw [hi] at this
  cases this

/-- A `semop` does not remove a set. -/
theorem semop_keeps (hS : s.set = some S) (hs : semop s p id ops done failed = some s')
    (hd : ∀ S', (done S').set ≠ none) (hf : ∀ e, (failed e).set = s.set) : s'.set ≠ none := by
  obtain ⟨S', _, _, -, -, -, rfl⟩ | rfl | ⟨e, rfl⟩ := semop_cases hs
  · exact hd _
  · simp [State.sleep, hS]
  · simp [hf, hS]

/-- Nor does a `semctl`, but for `IPC_RMID`. -/
theorem semctl_keeps (hS : s.set = some S) (hd : ∀ S', (done S').set ≠ none ∨ (done S').set = s.set) :
    (semctl s p id done).set ≠ none := by
  unfold semctl
  split
  · simp [State.fail, hS]
  · split
    · rcases hd _ with h | h
      · exact h
      · simp [h, hS]
    · simp [State.fail, hS]

/-- Only `sem_close` removes a set. -/
theorem closeRm_of_removed (hS : s.set = some S) (hs : runProc p s = some s')
    (hnone : s'.set = none) : (s.proc p).pc = .closeRm S.id := by
  unfold runProc at hs
  split at hs
  · cases hs
  cases hpc : (s.proc p).pc with
  | idle => simp [hpc] at hs
  | exited => simp [hpc] at hs
  | createGet initval =>
    simp only [hpc, hS, Option.some.injEq] at hs
    simp [← hs, State.goto, hS] at hnone
  | createLock initval id =>
    simp only [hpc] at hs
    refine absurd hnone (semop_keeps hS hs (by simp) fun e => ?_)
    split <;> rfl
  | createGetval initval id =>
    simp only [hpc, Option.some.injEq] at hs
    subst hs
    refine absurd hnone (semctl_keeps hS fun S' => .inr ?_)
    split <;> rfl
  | createSet0 initval id =>
    simp only [hpc, Option.some.injEq] at hs
    subst hs
    refine absurd hnone (semctl_keeps hS fun S' => ?_)
    split
    · exact .inl (by simp)
    · exact .inr rfl
  | createSet1 id =>
    simp only [hpc, Option.some.injEq] at hs
    subst hs
    exact absurd hnone (semctl_keeps hS fun S' => .inl (by simp))
  | createEnd id =>
    simp only [hpc] at hs
    exact absurd hnone (semop_keeps hS hs (by simp) fun _ => rfl)
  | openGet =>
    simp only [hpc, hS, Option.some.injEq] at hs
    simp [← hs, State.goto, hS] at hnone
  | openOp id =>
    simp only [hpc] at hs
    exact absurd hnone (semop_keeps hS hs (by simp) fun _ => rfl)
  | opOp id value =>
    simp only [hpc] at hs
    split at hs
    · cases hs
      simp [State.fail, hS] at hnone
    · exact absurd hnone (semop_keeps hS hs (by simp) fun _ => rfl)
  | closeOp id =>
    simp only [hpc] at hs
    exact absurd hnone (semop_keeps hS hs (by simp) fun _ => rfl)
  | closeGetval id =>
    simp only [hpc, Option.some.injEq] at hs
    subst hs
    refine absurd hnone (semctl_keeps hS fun S' => .inr ?_)
    split
    · rfl
    · split <;> rfl
  | closeRm id =>
    simp only [hpc, Option.some.injEq, semctl, hS] at hs
    split at hs
    -- the only `IPC_RMID`: the set is removed if the identifier is still its own
    next hid => rw [hid]
    next =>
      subst hs
      simp [State.fail, hS] at hnone
  | closeUnlock id =>
    simp only [hpc] at hs
    exact absurd hnone (semop_keeps hS hs (by simp) fun _ => rfl)

/-- One process creates a set, and another one opens it and waits. -/
def createOpen : List Act :=
  [.call 0 (.sem_create 1), .run 0, .run 0, .run 0, .run 0, .run 0, .run 0,
    .call 1 .sem_open, .run 1, .run 1, .call 1 (sem_wait 0), .run 1]

/-- `Few`, as a test. -/
def fewB (s : State) : Bool :=
  match s.set with
  | none => true
  | some S => decide ((outstanding S.id s.opens : Int) < BIGCOUNT)

/-- The test says so. -/
theorem few_of (a : Act) (h : fewB s = true) : Few a s := by
  intro S hS
  unfold fewB at h
  rw [hS] at h
  exact of_decide_eq_true h

/-- Two processes have the set open: the lock is free, and the counter says so. -/
theorem lock_and_counter_two : ∃ s S, performIf act (fun _ s => fewB s) createOpen init = some s ∧
    s.set = some S ∧ S.semval 0 = 0 ∧ S.semval 1 = 9998 ∧
    (∀ p q, (s.proc p).pc.lock = some S.id → (s.proc q).pc.lock = some S.id → p = q) := by
  have hrun : ((performIf act (fun _ s => fewB s) createOpen init).any fun s =>
      s.set.any fun S => S.semval 0 = 0 ∧ S.semval 1 = 9998) = true := by decide +kernel
  obtain ⟨s, hs, hset⟩ := (Option.any_eq_true _ _).mp hrun
  obtain ⟨S, hS, hval⟩ := (Option.any_eq_true _ _).mp hset
  obtain ⟨h0, h1⟩ := of_decide_eq_true hval
  exact ⟨s, S, hs, hS, h0, h1,
    (lock_and_counter (Run.of_performIf (fun a _ h => few_of a h) hs) hS).1⟩

/-- No `sem_create` takes a counter that has run down for that of a new set, and nobody opens a set
that is about to be removed. -/
def Orderly (a : Act) (s : State) : Prop := FewAtCreate a s ∧ NotOpenedInClose a s

/-- **The last one removes the set.** -/
theorem close_removes {a : Act} (h : Run act init Orderly s) (hs : act a s = some s') :
    SafeRemoval a s s' := by
  have hinv : Inv True s := run_inv (fun _ _ hc => hc.1) (fun _ _ _ hc => hc.2) h
  rintro p S rfl hS hnone q -
  have hpc := closeRm_of_removed hS hs hnone
  have hout := (hinv.set S hS).last trivial p hpc
  exact outstanding_eq_zero.mp hout q

/-- One process creates a set, and closes it up to the removal. -/
def createClose : List Act :=
  [.call 0 (.sem_create 1), .run 0, .run 0, .run 0, .run 0, .run 0, .run 0,
    .call 0 (.sem_close 0), .run 0, .run 0]

/-- `Orderly`, as a test. -/
def orderlyB (a : Act) (s : State) : Bool :=
  fewB s && match a with
    | .run p => (match (s.proc p).pc with
      | .openOp _ => false
      | _ => true)
    | _ => true

/-- The test says so. -/
theorem orderly_of (a : Act) (h : orderlyB a s = true) : Orderly a s := by
  simp only [orderlyB, Bool.and_eq_true] at h
  cases a with
  | call p c => exact ⟨trivial, trivial⟩
  | exit p => exact ⟨trivial, trivial⟩
  | run p =>
    refine ⟨fun S _ hS _ => few_of (.run p) h.1 S hS, fun q id hpc => ?_⟩
    simp [hpc] at h

/-- The set is removed, and nobody has it open. -/
theorem close_removes_one : ∃ s s', performIf act orderlyB createClose init = some s ∧
    act (.run 0) s = some s' ∧ s'.set = none ∧ SafeRemoval (.run 0) s s' := by
  have hrun : ((performIf act orderlyB createClose init).any fun s =>
      (act (.run 0) s).any fun s' => s'.set.isNone) = true := by decide +kernel
  obtain ⟨s, hs, hnext⟩ := (Option.any_eq_true _ _).mp hrun
  obtain ⟨s', hs', hnone⟩ := (Option.any_eq_true _ _).mp hnext
  exact ⟨s, s', hs, hs', Option.isNone_iff_eq_none.mp hnone,
    close_removes (Run.of_performIf (fun a _ h => orderly_of a h) hs) hs'⟩

/-- A process opens the set between the `GETVAL` and the `IPC_RMID` of the last `sem_close`. -/
def openedInClose : List Act :=
  [.call 0 (.sem_create 1), .run 0, .run 0, .run 0, .run 0, .run 0, .run 0,
    .call 1 .sem_open, .run 1, .call 0 (.sem_close 0), .run 0, .run 0, .run 1]

/-- Process 1 has the set open that is removed. -/
theorem opened_set_removed :
    ¬ ∀ (a : Act) (s s' : State), Run act init AnyStep s → act a s = some s' →
      SafeRemoval a s s' := by
  intro h
  have hrun : ∃ s s', perform act openedInClose init = some s ∧ act (.run 0) s = some s' ∧
      (∃ S, s.set = some S ∧ S.id = 0) ∧ s'.set = none ∧ (1, 0) ∈ s.opens :=
    ⟨_, _, rfl, rfl, ⟨_, rfl, rfl⟩, rfl, .head _⟩
  obtain ⟨s, s', hs, hs', ⟨S, hS, hid⟩, hnone, hmem⟩ := hrun
  exact h (.run 0) s s' (Run.of_perform hs) hs' 0 S rfl hS hnone 1 (by decide) (hid ▸ hmem)

end LearningNotes.Semaph
