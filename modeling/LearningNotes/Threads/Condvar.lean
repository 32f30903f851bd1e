import LearningNotes.Lib.Runs
import LearningNotes.Lib.Slist
import LearningNotes.Lib.Tally
import Mathlib.Algebra.GroupWithZero.Nat

/-!
# `condvar.c`

A list of messages under a lock, and a condition that is signalled after the lock has been released.
Some threads run `process_msg`, the others call `enqueue_msg`. An action is what a thread does from
one access to shared memory to the next.

As long as a thread is asleep, there are no more messages in the list than threads that will look at
the list again or are about to signal (`Inv.awake`); so a run that has come to a halt has processed
every message (`all_processed`), and it comes to a halt because each step is paid for (`work`).

Mirroring notes:
- A message is enqueued by its owner: not while it is in the list, or with another thread.
- `pthread_cond_signal` wakes one of the sleeping threads, if there is one. A thread may wake up
  without a signal (`spurious`).
- An access through the null pointer is a `fault`.
-/

namespace LearningNotes.Condvar

/-- Where a thread stands. -/
inductive Pc where
  /-- outside of `enqueue_msg` -/
  | idle
  /-- `pthread_mutex_lock(&qlock)` in `enqueue_msg` -/
  | lockIn (mp : Nat)
  /-- `mp->m_next = workq` -/
  | link (mp : Nat)
  /-- `workq = mp` -/
  | put (mp : Nat)
  /-- `pthread_mutex_unlock(&qlock)` in `enqueue_msg` -/
  | unlockIn
  /-- `pthread_cond_signal(&qready)` -/
  | signal
  /-- `pthread_mutex_lock(&qlock)` in `process_msg` -/
  | lockOut
  /-- `while (workq == NULL)` -/
  | test
  /-- in `pthread_cond_wait`, without the lock -/
  | asleep
  /-- in `pthread_cond_wait`, waiting for the lock -/
  | woken
  /-- `mp = workq` -/
  | take
  /-- `workq = mp->m_next` -/
  | advance (mp : Option Nat)
  /-- `pthread_mutex_unlock(&qlock)` in `process_msg` -/
  | unlockOut (mp : Nat)
  /-- `now process the message mp` -/
  | process (mp : Nat)
  deriving DecidableEq, Repr

variable {T : Type} [Fintype T] [DecidableEq T]

/-- The memory, the lock and the threads. `owned` are the messages that have been passed to
`enqueue_msg` and not yet processed; `sent` and `got` record those put into the list and those
processed. -/
structure State (T : Type) where
  m_next : Nat → Option Nat
  workq : Option Nat
  qlock : Option T
  pc : T → Pc
  fault : Bool
  owned : List Nat
  sent : List Nat
  got : List Nat

def State.goto (s : State T) (t : T) (p : Pc) : State T :=
  { s with pc := Function.update s.pc t p }

/-- The threads of `worker` run `process_msg`. -/
def start (worker : T → Bool) : State T where
  m_next := fun _ => none
  workq := none
  qlock := none
  pc t := if worker t then .lockOut else .idle
  fault := false
  owned := []
  sent := []
  got := []

inductive Act (T : Type) where
  /-- a call of `enqueue_msg` -/
  | call (t : T) (mp : Nat)
  | step (t : T)
  /-- the signal of `t` wakes `t'` -/
  | wake (t t' : T)
  | spurious (t : T)

/-- The next step of a thread that does not wake another one. -/
def step (t : T) (s : State T) : Option (State T) :=
  match s.pc t with
  | .idle => none
  | .lockIn mp =>
    if s.qlock = none then some ({ s with qlock := some t }.goto t (.link mp)) else none
  | .link mp => some ({ s with m_next := Function.update s.m_next mp s.workq }.goto t (.put mp))
  | .put mp => some ({ s with workq := some mp, sent := mp :: s.sent }.goto t .unlockIn)
  | .unlockIn => some ({ s with qlock := none }.goto t .signal)
  | .signal => if ∃ t', s.pc t' = .asleep then none else some (s.goto t .idle)
  | .lockOut => if s.qlock = none then some ({ s with qlock := some t }.goto t .test) else none
  | .test =>
    if s.workq = none then some ({ s with qlock := none }.goto t .asleep)
    else some (s.goto t .take)
  | .asleep => none
  | .woken => if s.qlock = none then some ({ s with qlock := some t }.goto t .test) else none
  | .take => some (s.goto t (.advance s.workq))
  | .advance none => some { s with fault := true }
  | .advance (some mp) => some ({ s with workq := s.m_next mp }.goto t (.unlockOut mp))
  | .unlockOut mp => some ({ s with qlock := none }.goto t (.process mp))
  | .process mp =>
    some ({ s with owned := s.owned.erase mp, got := mp :: s.got }.goto t .lockOut)

def act : Act T → State T → Option (State T)
  | .call t mp, s =>
    if s.pc t = .idle ∧ mp ∉ s.owned then
      some ({ s with owned := mp :: s.owned }.goto t (.lockIn mp))
    else none
  | .step t, s => step t s
  | .wake t t', s =>
    if s.pc t = .signal ∧ s.pc t' = .asleep then some ((s.goto t .idle).goto t' .woken) else none
  | .spurious t, s => if s.pc t = .asleep then some (s.goto t .woken) else none

/-- The thread has the lock. -/
def Pc.locked : Pc → Bool
  | .link _ | .put _ | .unlockIn | .test | .take | .advance _ | .unlockOut _ => true
  | _ => false

/-- The message that the thread has, and that is not in the list. -/
def Pc.msg : Pc → Option Nat
  | .lockIn mp | .link mp | .put mp | .unlockOut mp | .process mp => some mp
  | _ => none

def Pc.carries (m : Nat) (p : Pc) : Nat := if p.msg = some m then 1 else 0

/-- The message has been taken out of the list. -/
def Pc.took (m : Nat) : Pc → Nat
  | .unlockOut mp | .process mp => if mp = m then 1 else 0
  | _ => 0

/-- The thread will look at the list before it sleeps, or is about to signal. -/
def Pc.covers : Pc → Nat
  | .unlockIn | .signal | .lockOut | .test | .woken | .take | .advance _ | .unlockOut _
  | .process _ => 1
  | _ => 0

/-- The thread runs `process_msg`. -/
def Pc.worker : Pc → Bool
  | .lockOut | .test | .asleep | .woken | .take | .advance _ | .unlockOut _ | .process _ => true
  | _ => false

/-- What a thread can do before it calls `enqueue_msg` again, sleeps or takes the next message. -/
def Pc.work : Pc → Nat
  | .idle | .asleep => 0
  | .lockIn _ => 17
  | .link _ => 16
  | .put _ => 15
  | .unlockIn | .process _ => 6
  | .signal | .lockOut => 5
  | .woken => 4
  | .test => 3
  | .take => 2
  | .advance _ => 1
  | .unlockOut _ => 7

/-- A message in the list stands for eight steps. -/
def work (s : State T) (q : List Nat) : Nat := 8 * q.length + tally Pc.work s.pc

/-- What a thread has read or written under the lock is still so. -/
def Fits (m_next : Nat → Option Nat) (workq : Option Nat) : Pc → Prop
  | .put mp => m_next mp = workq
  | .take => workq ≠ none
  | .advance mp => mp = workq ∧ mp ≠ none
  | _ => True

/-- The list is `q`. -/
structure Inv (s : State T) (q : List Nat) : Prop where
  fault : s.fault = false
  chain : Follow s.m_next s.workq q
  lock : ∀ t, s.qlock = some t ↔ (s.pc t).locked = true
  fits : ∀ t, Fits s.m_next s.workq (s.pc t)
  owned : ∀ m, s.owned.count m = q.count m + tally (Pc.carries m) s.pc
  once : s.owned.Nodup
  sent : ∀ m, s.sent.count m = s.got.count m + q.count m + tally (Pc.took m) s.pc
  awake : ∀ t, s.pc t = .asleep → q.length ≤ tally Pc.covers s.pc

variable {s s' : State T} {q q' : List Nat} {t t' : T} {p : Pc} {mp : Nat}

theorem Fits.of_not_locked {m_next : Nat → Option Nat} {workq : Option Nat}
    (h : p.locked = false) : Fits m_next workq p := by
  cases p <;> trivial

omit [Fintype T] in
/-- A step by the thread that has the lock, or one that leaves the memory alone. -/
theorem fits_update (hfits : ∀ t, Fits s.m_next s.workq (s.pc t))
    (hlock : ∀ t, s.qlock = some t ↔ (s.pc t).locked)
    (hmem : s.qlock = some t ∨ s'.m_next = s.m_next ∧ s'.workq = s.workq)
    (hp : Fits s'.m_next s'.workq p) (t' : T) :
    Fits s'.m_next s'.workq (Function.update s.pc t p t') := by
  by_cases ht : t' = t
  · rw [ht, Function.update_self]
    exact hp
  · rw [Function.update_of_ne ht]
    rcases hmem with hlk | ⟨hn, hw⟩
    · refine Fits.of_not_locked (Bool.eq_false_iff.2 fun hl => ht ?_)
      have := (hlock t').2 hl
      rw [hlk] at this
      exact (Option.some.inj this).symm
    · rw [hn, hw]
      exact hfits t'

omit [Fintype T] in
theorem lock_acquire (hlock : ∀ t, s.qlock = some t ↔ (s.pc t).locked) (hfree : s.qlock = none)
    (hp : p.locked = true) (t' : T) : some t = some t' ↔ (Function.update s.pc t p t').locked := by
  by_cases ht : t' = t
  · simp [ht, hp]
  · have hno : (s.pc t').locked ≠ true := by
      intro hl
      have := (hlock t').2 hl
      simp [hfree] at this
    simp [ht, Ne.symm ht, hno]

omit [Fintype T] in
theorem lock_release (hlock : ∀ t, s.qlock = some t ↔ (s.pc t).locked) (ht : (s.pc t).locked = true)
    (hp : p.locked = false) (t' : T) : none = some t' ↔ (Function.update s.pc t p t').locked := by
  by_cases htt : t' = t
  · simp [htt, hp]
  · have hno : (s.pc t').locked ≠ true := by
      intro hl
      have h₁ := (hlock t').2 hl
      have h₂ := (hlock t).2 ht
      rw [h₂] at h₁
      exact htt (Option.some.inj h₁).symm
    simp [htt, hno]

omit [Fintype T] in
theorem lock_keep (hlock : ∀ t, s.qlock = some t ↔ (s.pc t).locked)
    (hp : p.locked = (s.pc t).locked) (t' : T) :
    s.qlock = some t' ↔ (Function.update s.pc t p t').locked := by
  by_cases htt : t' = t
  · rw [htt, Function.update_self, hp]
    exact hlock t
  · rw [Function.update_of_ne htt]
    exact hlock t'

/-- What a step of one thread has to keep. -/
theorem Inv.move (h : Inv s q) (hpc : s'.pc = Function.update s.pc t p)
    (hfault : s'.fault = false) (hchain : Follow s'.m_next s'.workq q')
    (hlock : ∀ t', s'.qlock = some t' ↔ (Function.update s.pc t p t').locked)
    (hmem : s.qlock = some t ∨ s'.m_next = s.m_next ∧ s'.workq = s.workq) (hfits : Fits s'.m_next s'.workq p)
    (howned : ∀ m, s'.owned.count m + q.count m + (s.pc t).carries m =
      s.owned.count m + q'.count m + p.carries m)
    (honce : s'.owned.Nodup)
    (hsent : ∀ m, s'.sent.count m + s.got.count m + q.count m + (s.pc t).took m =
      s.sent.count m + s'.got.count m + q'.count m + p.took m)
    (hsleep : p = .asleep → q' = [])
    (hcov : ∀ t', s.pc t' = .asleep →
      q'.length + (s.pc t).covers ≤ tally Pc.covers s.pc + p.covers) : Inv s' q' where
  fault := hfault
  chain := hchain
  lock t' := by
    rw [hpc]
    exact hlock t'
  fits t' := by
    rw [hpc]
    exact fits_update h.fits h.lock hmem hfits t'
  owned m := by
    have h₁ := h.owned m
    have h₂ := howned m
    have h₃ := tally_update (Pc.carries m) s.pc t p
    rw [hpc]
    omega
  once := honce
  sent m := by
    have h₁ := h.sent m
    have h₂ := hsent m
    have h₃ := tally_update (Pc.took m) s.pc t p
    rw [hpc]
    omega
  awake t' ht' := by
    rw [hpc] at ht' ⊢
    by_cases htt : t' = t
    · rw [htt, Function.update_self] at ht'
      simp [hsleep ht']
    · rw [Function.update_of_ne htt] at ht'
      have h₁ := hcov t' ht'
      have h₂ := tally_update Pc.covers s.pc t p
      omega

omit [DecidableEq T] in
theorem Inv.mem_owned (h : Inv s q) {m : Nat} (hm : m ∈ q ∨ (s.pc t).msg = some m) :
    m ∈ s.owned := by
  have h₁ := h.owned m
  have h₂ := le_tally (Pc.carries m) s.pc t
  rw [← List.count_pos_iff]
  rcases hm with hm | hm
  · have := List.count_pos_iff.2 hm
    omega
  · have : (s.pc t).carries m = 1 := if_pos hm
    omega

omit [DecidableEq T] in
/-- A message that a thread has is not in the list. -/
theorem Inv.not_mem (h : Inv s q) {m : Nat} (hm : (s.pc t).msg = some m) : m ∉ q := fun hq => by
  have h₁ := h.owned m
  have h₂ := le_tally (Pc.carries m) s.pc t
  have h₃ : (s.pc t).carries m = 1 := if_pos hm
  have h₄ := List.count_pos_iff.2 hq
  have h₅ := List.nodup_iff_count_le_one.1 h.once m
  omega

/-- A step that moves no message. -/
theorem Inv.goto (h : Inv s q) {l : Option T}
    (hlock : ∀ t', l = some t' ↔ (Function.update s.pc t p t').locked)
    (hfits : Fits s.m_next s.workq p) (hmsg : p.msg = (s.pc t).msg)
    (htook : ∀ m, p.took m = (s.pc t).took m) (hsleep : p ≠ .asleep)
    (hcov : (s.pc t).covers ≤ p.covers) : Inv ({ s with qlock := l }.goto t p) q := by
  refine h.move rfl h.fault h.chain hlock (.inr ⟨rfl, rfl⟩) hfits (fun m => ?_) h.once (fun m => ?_)
    (fun he => absurd he hsleep) fun t' ht' => ?_
  · simp [State.goto, Pc.carries, hmsg]
  · simp [State.goto, htook]
  · have := h.awake t' ht'
    omega

/-- What a step of a thread keeps, and what it costs. -/
theorem Inv.step (h : Inv s q) (hs : step t s = some s') :
    ∃ q' p, Inv s' q' ∧ s'.pc = Function.update s.pc t p ∧ p.worker = (s.pc t).worker ∧
      8 * q'.length + p.work < 8 * q.length + (s.pc t).work := by
  have hlk : (s.pc t).locked = true → s.qlock = some t := (h.lock t).2
  have hfit := h.fits t
  have hcov := h.awake
  unfold Condvar.step at hs
  cases hpc : s.pc t with
  | idle => simp [hpc] at hs
  | asleep => simp [hpc] at hs
  | lockIn mp =>
    simp only [hpc, Option.ite_none_right_eq_some, Option.some.injEq] at hs
    obtain ⟨hfree, rfl⟩ := hs
    exact ⟨q, _, h.goto (lock_acquire h.lock hfree rfl) trivial (by rw [hpc]; rfl)
      (fun m => by rw [hpc]; rfl) (by simp) (by simp [hpc, Pc.covers]), rfl, rfl, by simp [Pc.work]⟩
  | link mp =>
    simp only [hpc, Option.some.injEq] at hs
    obtain rfl := hs
    have hmp : mp ∉ q := h.not_mem (by rw [hpc]; rfl)
    have hchain : Follow (Function.update s.m_next mp s.workq) s.workq q :=
      h.chain.congr fun b hb => Function.update_of_ne (ne_of_mem_of_not_mem hb hmp) ..
    refine ⟨q, _, h.move rfl h.fault hchain (lock_keep h.lock (by rw [hpc]; rfl))
      (.inl (hlk (by rw [hpc]; rfl))) (Function.update_self ..)
      (fun m => ?_) h.once (fun m => ?_) (by simp) fun t' ht' => ?_,
      rfl, rfl, by simp [Pc.work]⟩
    · simp [hpc, Pc.carries, Pc.msg, State.goto]
    · simp [hpc, Pc.took, State.goto]
    · have := hcov t' ht'
      simp [hpc, Pc.covers, this]
  | put mp =>
    simp only [hpc, Option.some.injEq] at hs
    obtain rfl := hs
    rw [hpc] at hfit
    have hchain : Follow s.m_next (some mp) (mp :: q) := ⟨rfl, hfit.symm ▸ h.chain⟩
    refine ⟨mp :: q, _, h.move rfl h.fault hchain (lock_keep h.lock (by rw [hpc]; rfl))
      (.inl (hlk (by rw [hpc]; rfl))) trivial
      (fun m => ?_) h.once (fun m => ?_) (by simp) fun t' ht' => ?_,
      rfl, rfl, by simp only [Pc.work, List.length_cons]; omega⟩
    · simp only [hpc, Pc.carries, Pc.msg, State.goto, List.count_cons, beq_iff_eq,
        Option.some.injEq]
      simp
      omega
    · simp only [hpc, Pc.took, State.goto, List.count_cons]
      omega
    · have := hcov t' ht'
      simp only [hpc, Pc.covers, List.length_cons]
      omega
  | unlockIn =>
    simp only [hpc, Option.some.injEq] at hs
    obtain rfl := hs
    exact ⟨q, _, h.goto (lock_release h.lock (by rw [hpc]; rfl) rfl) trivial (by rw [hpc]; rfl)
      (fun m => by rw [hpc]; rfl) (by simp) (by simp [hpc, Pc.covers]), rfl, rfl, by simp [Pc.work]⟩
  | signal =>
    -- nobody sleeps, so nobody needs to be covered
    simp only [hpc, Option.ite_none_left_eq_some, Option.some.injEq] at hs
    obtain ⟨hno, rfl⟩ := hs
    refine ⟨q, _, h.move rfl h.fault h.chain (lock_keep h.lock (by rw [hpc]; rfl))
      (.inr ⟨rfl, rfl⟩) trivial (fun m => ?_) h.once (fun m => ?_) (by simp) fun t' ht' => ?_,
      rfl, rfl, by simp [Pc.work]⟩
    · simp [hpc, Pc.carries, Pc.msg, State.goto]
    · simp [hpc, Pc.took, State.goto]
    · exact absurd ⟨t', ht'⟩ hno
  | lockOut =>
    simp only [hpc, Option.ite_none_right_eq_some, Option.some.injEq] at hs
    obtain ⟨hfree, rfl⟩ := hs
    exact ⟨q, _, h.goto (lock_acquire h.lock hfree rfl) trivial (by rw [hpc]; rfl)
      (fun m => by rw [hpc]; rfl) (by simp) (by simp [hpc, Pc.covers]), rfl, rfl, by simp [Pc.work]⟩
  | test =>
    simp only [hpc] at hs
    split at hs
    next hempty =>
      -- the thread only goes to sleep when the list is empty
      obtain rfl := Option.some.inj hs
      have hq : q = [] := by
        have := h.chain.head
        rw [hempty] at this
        exact List.head?_eq_none_iff.1 this.symm
      subst hq
      refine ⟨[], _, h.move rfl h.fault h.chain (lock_release h.lock (by rw [hpc]; rfl) rfl)
        (.inr ⟨rfl, rfl⟩) trivial (fun m => ?_) h.once (fun m => ?_) (fun _ => rfl)
        fun t' ht' => ?_,
      rfl, rfl, by simp [Pc.work]⟩
      · simp [hpc, Pc.carries, Pc.msg, State.goto]
      · simp [hpc, Pc.took, State.goto]
      · have := le_tally Pc.covers s.pc t
        simp only [List.length_nil]
        omega
    next hne =>
      obtain rfl := Option.some.inj hs
      exact ⟨q, _, h.goto (lock_keep h.lock (by rw [hpc]; rfl)) hne (by rw [hpc]; rfl)
        (fun m => by rw [hpc]; rfl) (by simp) (by simp [hpc, Pc.covers]), rfl, rfl, by simp [Pc.work]⟩
  | woken =>
    simp only [hpc, Option.ite_none_right_eq_some, Option.some.injEq] at hs
    obtain ⟨hfree, rfl⟩ := hs
    exact ⟨q, _, h.goto (lock_acquire h.lock hfree rfl) trivial (by rw [hpc]; rfl)
      (fun m => by rw [hpc]; rfl) (by simp) (by simp [hpc, Pc.covers]), rfl, rfl, by simp [Pc.work]⟩
  | take =>
    simp only [hpc, Option.some.injEq] at hs
    obtain rfl := hs
    rw [hpc] at hfit
    exact ⟨q, _, h.goto (lock_keep h.lock (by rw [hpc]; rfl)) ⟨rfl, hfit⟩ (by rw [hpc]; rfl)
      (fun m => by rw [hpc]; rfl) (by simp) (by simp [hpc, Pc.covers]), rfl, rfl, by simp [Pc.work]⟩
  | advance o =>
    rw [hpc] at hfit
    obtain ⟨ho, hne⟩ := hfit
    cases o with
    | none => exact absurd rfl hne
    | some mp =>
      simp only [hpc, Option.some.injEq] at hs
      obtain rfl := hs
      -- the message is the first one of the list
      cases q with
      | nil =>
        have hnull : s.workq = none := h.chain
        rw [hnull] at ho
        cases ho
      | cons m₀ q =>
        obtain ⟨hhead, hrest⟩ := h.chain
        rw [hhead, Option.some.injEq] at ho
        subst ho
        refine ⟨q, _, h.move rfl h.fault hrest (lock_keep h.lock (by rw [hpc]; rfl))
          (.inl (hlk (by rw [hpc]; rfl))) trivial (fun m => ?_) h.once (fun m => ?_) (by simp)
          fun t' ht' => ?_,
      rfl, rfl, by simp only [Pc.work, List.length_cons]; omega⟩
        · simp only [hpc, Pc.carries, Pc.msg, State.goto, List.count_cons, beq_iff_eq,
            Option.some.injEq]
          simp
          omega
        · simp only [hpc, Pc.took, State.goto, List.count_cons, beq_iff_eq]
          omega
        · have := hcov t' ht'
          simp only [List.length_cons] at this
          simp only [hpc, Pc.covers]
          omega
  | unlockOut mp =>
    simp only [hpc, Option.some.injEq] at hs
    obtain rfl := hs
    exact ⟨q, _, h.goto (lock_release h.lock (by rw [hpc]; rfl) rfl) trivial (by rw [hpc]; rfl)
      (fun m => by rw [hpc]; rfl) (by simp) (by simp [hpc, Pc.covers]), rfl, rfl, by simp [Pc.work]⟩
  | process mp =>
    simp only [hpc, Option.some.injEq] at hs
    obtain rfl := hs
    have hmem : mp ∈ s.owned := h.mem_owned (t := t) (.inr (by rw [hpc]; rfl))
    refine ⟨q, _, h.move rfl h.fault h.chain (lock_keep h.lock (by rw [hpc]; rfl))
      (.inr ⟨rfl, rfl⟩) trivial (fun m => ?_) (h.once.erase mp) (fun m => ?_) (by simp)
      fun t' ht' => ?_,
      rfl, rfl, by simp [Pc.work]⟩
    · have h₁ := List.count_pos_iff.2 hmem
      simp only [hpc, Pc.carries, Pc.msg, State.goto, List.count_erase, beq_iff_eq,
        Option.some.injEq]
      by_cases hm : mp = m
      · subst hm
        simp
        omega
      · simp [hm]
    · simp only [hpc, Pc.took, State.goto, List.count_cons, beq_iff_eq]
      omega
    · have := hcov t' ht'
      simp [hpc, Pc.covers, this]

/-- A thread that sleeps wakes up: there is one more that looks at the list. -/
theorem Inv.woken (h : Inv s q) (ht : s.pc t = .asleep) :
    Inv (s.goto t .woken) q ∧ q.length + 1 ≤ tally Pc.covers (s.goto t .woken).pc := by
  have hinv : Inv ({ s with qlock := s.qlock }.goto t .woken) q :=
    h.goto (lock_keep h.lock (by rw [ht]; rfl)) trivial (by rw [ht]; rfl)
      (fun m => by rw [ht]; rfl) (by simp) (by simp [ht, Pc.covers])
  refine ⟨hinv, ?_⟩
  have h₁ := h.awake t ht
  have h₂ := tally_update Pc.covers s.pc t .woken
  simp only [ht, Pc.covers] at h₂
  simp only [State.goto]
  omega

/-- What an action costs: nothing for a step, or for a signal, of a thread. -/
def Act.cost : Act T → Nat
  | .call _ _ => 18
  | .spurious _ => 5
  | _ => 0

theorem work_update (q q' : List Nat) (hpc : s'.pc = Function.update s.pc t p) :
    work s' q' + (s.pc t).work + 8 * q.length = work s q + p.work + 8 * q'.length := by
  have := tally_update Pc.work s.pc t p
  unfold work
  rw [hpc]
  omega

/-- What an action keeps, and what it costs. -/
theorem Inv.act {a : Act T} (h : Inv s q) (hs : act a s = some s') :
    ∃ q', Inv s' q' ∧ work s' q' + 1 ≤ work s q + a.cost ∧
      ∀ t, (s'.pc t).worker = (s.pc t).worker := by
  have hworker : ∀ {s : State T} {t p}, p.worker = (s.pc t).worker →
      ∀ t', (Function.update s.pc t p t').worker = (s.pc t').worker := by
    intro s t p hp t'
    by_cases ht : t' = t
    · rw [ht, Function.update_self, hp]
    · rw [Function.update_of_ne ht]
  cases a with
  | step t =>
    obtain ⟨q', p, hinv, hpc, hp, hlt⟩ := h.step hs
    have hw := work_update q q' hpc
    refine ⟨q', hinv, by simp only [Act.cost]; omega, ?_⟩
    rw [hpc]
    exact hworker hp
  | call t mp =>
    simp only [Condvar.act, Option.ite_none_right_eq_some, Option.some.injEq] at hs
    obtain ⟨⟨hpc, hmp⟩, rfl⟩ := hs
    refine ⟨q, h.move rfl h.fault h.chain (lock_keep h.lock (by rw [hpc]; rfl))
      (.inr ⟨rfl, rfl⟩) trivial (fun m => ?_) (List.nodup_cons.2 ⟨hmp, h.once⟩) (fun m => ?_)
      (by simp) fun t' ht' => ?_, ?_, hworker (by rw [hpc]; rfl)⟩
    · simp only [hpc, Pc.carries, Pc.msg, State.goto, List.count_cons, beq_iff_eq,
        Option.some.injEq]
      simp
      omega
    · simp [hpc, Pc.took, State.goto]
    · have := h.awake t' ht'
      simp [hpc, Pc.covers, this]
    · have hw := work_update q q (show ({ s with owned := mp :: s.owned }.goto t (.lockIn mp)).pc =
        Function.update s.pc t (.lockIn mp) from rfl)
      simp only [hpc, Pc.work] at hw
      simp only [Act.cost]
      omega
  | spurious t =>
    simp only [Condvar.act, Option.ite_none_right_eq_some, Option.some.injEq] at hs
    obtain ⟨hpc, rfl⟩ := hs
    refine ⟨q, (h.woken hpc).1, ?_, hworker (by rw [hpc]; rfl)⟩
    have hw := work_update q q (show (s.goto t .woken).pc = Function.update s.pc t .woken from rfl)
    simp only [hpc, Pc.work] at hw
    simp only [Act.cost]
    omega
  | wake t t' =>
    simp only [Condvar.act, Option.ite_none_right_eq_some, Option.some.injEq] at hs
    obtain ⟨⟨hpc, hpc'⟩, rfl⟩ := hs
    have hne : t ≠ t' := fun he => by simp [he, hpc'] at hpc
    obtain ⟨hw, hle⟩ := h.woken hpc'
    have hpcw : (s.goto t' .woken).pc t = .signal := by simp [State.goto, hne, hpc]
    have hcomm : (s.goto t .idle).goto t' .woken = (s.goto t' .woken).goto t .idle := by
      simp [State.goto, Function.update_comm hne.symm]
    rw [hcomm]
    refine ⟨q, hw.move rfl hw.fault hw.chain (lock_keep hw.lock (by rw [hpcw]; rfl))
      (.inr ⟨rfl, rfl⟩) trivial (fun m => ?_) hw.once (fun m => ?_) (by simp)
      fun t'' ht'' => ?_, ?_, fun t'' => ?_⟩
    · rw [hpcw]
      simp [Pc.carries, Pc.msg, State.goto]
    · rw [hpcw]
      simp [Pc.took, State.goto]
    · rw [hpcw]
      simp only [Pc.covers]
      omega
    · have h₁ := work_update q q (show (s.goto t' .woken).pc = Function.update s.pc t' .woken from rfl)
      have h₂ := work_update q q (show ((s.goto t' .woken).goto t .idle).pc =
        Function.update (s.goto t' .woken).pc t .idle from rfl)
      simp only [hpc', Pc.work] at h₁
      simp only [hpcw, Pc.work] at h₂
      simp only [Act.cost]
      omega
    · exact (hworker (s := s.goto t' .woken) (by rw [hpcw]; rfl) t'').trans
        (hworker (by rw [hpc']; rfl) t'')

omit [DecidableEq T] in
theorem Inv.start (worker : T → Bool) : Inv (start worker) [] where
  fault := rfl
  chain := rfl
  lock t := by
    cases hw : worker t <;> simp [Condvar.start, hw, Pc.locked]
  fits t := by
    cases hw : worker t <;> simp [Condvar.start, hw, Fits]
  owned m := by
    have hnone : tally (Pc.carries m) (Condvar.start worker).pc = 0 := tally_eq_zero.2 fun t => by
      cases hw : worker t <;> simp [Condvar.start, hw, Pc.carries, Pc.msg]
    rw [hnone]
    rfl
  once := List.nodup_nil
  sent m := by
    have hnone : tally (Pc.took m) (Condvar.start worker).pc = 0 := tally_eq_zero.2 fun t => by
      cases hw : worker t <;> simp [Condvar.start, hw, Pc.took]
    rw [hnone]
    rfl
  awake t _ := Nat.zero_le _

/-- What a run keeps, and what it costs. -/
theorem Inv.run {as : List (Act T)} (h : Inv s q) (hs : perform Condvar.act as s = some s') :
    ∃ q', Inv s' q' ∧ work s' q' + as.length ≤ work s q + (as.map Act.cost).sum ∧
      ∀ t, (s'.pc t).worker = (s.pc t).worker := by
  induction as generalizing s q with
  | nil =>
    obtain rfl := Option.some.inj hs
    exact ⟨q, h, Nat.le_refl _, fun _ => rfl⟩
  | cons a as ih =>
    obtain ⟨s₁, h₁, h₂⟩ := Option.bind_eq_some_iff.1 hs
    obtain ⟨q₁, hinv, hwork, hw⟩ := h.act h₁
    obtain ⟨q', hinv', hwork', hw'⟩ := ih hinv h₂
    refine ⟨q', hinv', ?_, fun t => (hw' t).trans (hw t)⟩
    rw [List.length_cons, List.map_cons, List.sum_cons]
    omega

/-- No thread can go on by itself. -/
def Halted (s : State T) : Prop :=
  (∀ t, step t s = none) ∧ ∀ t t', act (.wake t t') s = none

/-- The thread that has the lock can go on. -/
theorem step_locked (ht : (s.pc t).locked = true) : Condvar.step t s ≠ none := by
  unfold Condvar.step
  cases hpc : s.pc t with
  | link mp => simp
  | put mp => simp
  | unlockIn => simp
  | test =>
    simp only
    split <;> simp
  | take => simp
  | advance o => cases o <;> simp
  | unlockOut mp => simp
  | _ => simp [hpc, Pc.locked] at ht

/-- Then every thread is outside of `enqueue_msg` or asleep. -/
theorem Inv.halted (h : Inv s q) (hh : Halted s) (t : T) : s.pc t = .idle ∨ s.pc t = .asleep := by
  -- the thread that has the lock could go on, so nobody has it
  have hfree : s.qlock = none := Option.eq_none_iff_forall_ne_some.2 fun t' ht' =>
    step_locked ((h.lock t').1 ht') (hh.1 t')
  have hstep := hh.1 t
  unfold Condvar.step at hstep
  cases hpc : s.pc t with
  | idle => exact .inl rfl
  | asleep => exact .inr rfl
  | signal =>
    simp only [hpc, ite_eq_left_iff, reduceCtorEq, imp_false, not_not] at hstep
    obtain ⟨t', ht'⟩ := hstep
    have := hh.2 t t'
    simp [Condvar.act, hpc, ht'] at this
  | advance o => cases o <;> simp [hpc] at hstep
  | test =>
    simp only [hpc] at hstep
    split at hstep <;> simp at hstep
  | _ => simp [hpc, hfree] at hstep

/-- Every run of any threads is safe: no null pointer is followed, and no message is processed more
often than it has been put into the list. A run is no longer than its calls of `enqueue_msg` and its
spurious wakeups pay for, and when no thread can go on by itself, every message has been processed:
no wakeup is lost. -/
theorem messages_processed (worker : T → Bool) (as : List (Act T))
    (h : perform act as (start worker) = some s) :
    s.fault = false ∧ (∀ m, s.got.count m ≤ s.sent.count m) ∧
      as.length ≤ 5 * Fintype.card T + (as.map Act.cost).sum ∧
      ((∃ t, worker t = true) → Halted s →
        s.workq = none ∧ ∀ m, s.got.count m = s.sent.count m) := by
  obtain ⟨q, hinv, hwork, hw⟩ := (Inv.start worker).run h
  have hstart : work (start worker) [] ≤ 5 * Fintype.card T := by
    have hsum : tally Pc.work (start worker).pc ≤ ∑ _t : T, 5 :=
      Finset.sum_le_sum fun t _ => by cases hwt : worker t <;> simp [start, hwt, Pc.work]
    rw [Finset.sum_const_nat fun _ _ => rfl, Finset.card_univ, Nat.mul_comm] at hsum
    simpa [work] using hsum
  refine ⟨hinv.fault, fun m => ?_, by omega, fun hex hh => ?_⟩
  · have := hinv.sent m
    omega
  · obtain ⟨t, ht⟩ := hex
    have hidle := hinv.halted hh
    -- a thread that runs `process_msg` is asleep, and no thread is there to cover a message
    have hasleep : s.pc t = .asleep := by
      refine (hidle t).resolve_left fun hi => ?_
      have := hw t
      simp [hi, start, ht, Pc.worker] at this
    have hcov : tally Pc.covers s.pc = 0 := tally_eq_zero.2 fun t => by
      rcases hidle t with hi | hi <;> simp [hi, Pc.covers]
    have hq : q = [] := by
      have := hinv.awake t hasleep
      rw [hcov] at this
      exact List.eq_nil_of_length_eq_zero (Nat.le_zero.1 this)
    subst hq
    refine ⟨hinv.chain, fun m => ?_⟩
    have htook : tally (Pc.took m) s.pc = 0 := tally_eq_zero.2 fun t => by
      rcases hidle t with hi | hi <;> simp [hi, Pc.took]
    have := hinv.sent m
    rw [htook] at this
    simpa using this.symm

/-- Two threads go to sleep. The third one enqueues two messages, with a signal to each of the two; they
process one message each and go to sleep again. -/
def twoMessages : List (Act (Option Bool)) :=
  let sleep (t : Bool) : List (Act (Option Bool)) := [.step t, .step t]
  let enqueue (mp : Nat) : List (Act (Option Bool)) :=
    [.call none mp, .step none, .step none, .step none, .step none]
  let process (t : Bool) : List (Act (Option Bool)) := List.replicate 6 (.step t)
  sleep false ++ sleep true ++ enqueue 7 ++ [.wake none false] ++ enqueue 8 ++ [.wake none true] ++
    process true ++ process false ++ sleep false ++ sleep true

/-- The run of `twoMessages` has come to a halt, and both messages have been processed. -/
theorem messages_processed_two :
    ∃ s, perform act twoMessages (start Option.isSome) = some s ∧ Halted s ∧
      s.workq = none ∧ ∀ m, s.got.count m = [7, 8].count m := by
  have hrun : (perform act twoMessages (start Option.isSome)).any (fun s =>
      s.sent = [8, 7] ∧ (∀ t, step t s |>.isNone) ∧ ∀ t t', act (.wake t t') s |>.isNone) = true := by
    decide +kernel
  obtain ⟨s, hs, hend⟩ := (Option.any_eq_true _ _).1 hrun
  obtain ⟨hsent, hstep, hwake⟩ := of_decide_eq_true hend
  have hh : Halted s := ⟨fun t => Option.isNone_iff_eq_none.1 (hstep t),
    fun t t' => Option.isNone_iff_eq_none.1 (hwake t t')⟩
  obtain ⟨hworkq, hgot⟩ := (messages_processed _ twoMessages hs).2.2.2 ⟨some true, rfl⟩ hh
  refine ⟨s, hs, hh, hworkq, fun m => ?_⟩
  rw [hgot, hsent]
  exact (List.Perm.swap 7 8 []).count_eq m

end LearningNotes.Condvar
