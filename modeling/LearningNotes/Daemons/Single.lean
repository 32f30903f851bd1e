import LearningNotes.Lib.Decimal
import LearningNotes.Lib.RangeLock
import LearningNotes.Lib.Runs

/-!
# One copy of a daemon

Any number of processes call `already_running`, and each of them may end at any point. At most one of
them has been told to go on and is still there, a process is told that there is another one only when
there is, and a process that has ended is in nobody's way (`one_copy`). When `ftruncate` and `write`
do what they are asked to, the file has the process id of the copy that runs (`pid_file`).

Mirroring notes:
- `lockfile` is a request for all bytes of the file; `fcntl` without waiting either grants it or
  fails with `EACCES` or `EAGAIN`. `close`, as the end of a process, gives up its locks.
- `already_running` ignores what `ftruncate` and `write` return: `ftruncate` may do nothing, and
  `write` may write any part of the text.
- `buf` has 16 bytes; there is no result when the text and its null need more.
- `open` and `lockfile` may also fail for other reasons, which ends the process.
-/

namespace LearningNotes.Daemon

variable {P : Type} [DecidableEq P]

/-- Where a process is in `already_running`: before each call, or told `0` or `1`, or gone. -/
inductive Pc where
  | open
  | lock
  | ftruncate
  | write
  | running
  | already
  | gone
  deriving DecidableEq, Repr

structure State (P : Type) where
  pc : P → Pc
  locks : List (RangeLock P Unit)
  file : Option (List UInt8)

/-- No process has done anything; the file may be there from before. -/
def init (file : Option (List UInt8)) : State P := ⟨fun _ => .open, [], file⟩

/-- The calls, with what the system answers. -/
inductive Act (P : Type) where
  | open (p : P) (ok : Bool)
  | lock (p : P) (error : Bool)
  | ftruncate (p : P) (ok : Bool)
  | write (p : P) (n : Nat)
  | kill (p : P)

def State.goto (s : State P) (p : P) (pc : Pc) : State P :=
  { s with pc := Function.update s.pc p pc }

def State.exit (s : State P) (p : P) (pc : Pc) : State P :=
  { s.goto p pc with locks := RangeLock.releaseAll s.locks p }

/-- `sprintf(buf, "%ld", (long)getpid())`, with its null. -/
def pidText (pid : Nat) : List UInt8 := decimal pid ++ [0]

/-- `fcntl(fd, F_SETLK, &fl)` -/
def lockfile (locks : List (RangeLock P Unit)) (p : P) : Option (List (RangeLock P Unit)) :=
  RangeLock.acquire locks p () .wrlck 0 none

def act (pid : P → Nat) : Act P → State P → Option (State P)
  | .open p ok, s =>
    if s.pc p = .open then
      some (if ok then { s.goto p .lock with file := some (s.file.getD []) } else s.exit p .gone)
    else none
  | .lock p error, s =>
    if s.pc p = .lock then
      if error then some (s.exit p .gone)
      else
        match lockfile s.locks p with
        | some locks => some { s.goto p .ftruncate with locks }
        | none => some (s.exit p .already)
    else none
  | .ftruncate p ok, s =>
    if s.pc p = .ftruncate then
      some { s.goto p .write with file := if ok then some [] else s.file }
    else none
  | .write p n, s =>
    let buf := pidText (pid p)
    if s.pc p = .write ∧ buf.length ≤ 16 ∧ n ≤ buf.length then
      some { s.goto p .running with file := s.file.map fun old => buf.take n ++ old.drop n }
    else none
  | .kill p, s => if s.pc p = .gone then none else some (s.exit p .gone)

/-- The process has the lock. -/
def Pc.holds : Pc → Bool
  | .ftruncate | .write | .running => true
  | _ => false

variable {pid : P → Nat} {s s' : State P} {p q : P} {pc : Pc} {a : Act P}
  {file : Option (List UInt8)} {locks : List (RangeLock P Unit)}

/-- The lock table says which process has the lock, and there is at most one. -/
structure Inv (s : State P) : Prop where
  proper : RangeLock.Proper s.locks
  held : ∀ p t n, RangeLock.Held s.locks p () t n ↔ (s.pc p).holds = true ∧ t = .wrlck
  one : ∀ p q, (s.pc p).holds = true → (s.pc q).holds = true → p = q

omit [DecidableEq P] in
theorem Inv.init (file : Option (List UInt8)) : Inv (init file : State P) where
  proper l hl := absurd hl List.not_mem_nil
  held p t n := by simp [RangeLock.Held, Daemon.init, Pc.holds]
  one p q hp := by simp [Daemon.init, Pc.holds] at hp

/-- A step that leaves it open who has the lock. -/
theorem Inv.goto (h : Inv s) (hpc : pc.holds = (s.pc p).holds) (file : Option (List UInt8)) :
    Inv { s.goto p pc with file } := by
  have hsame : ∀ q, (Function.update s.pc p pc q).holds = (s.pc q).holds := by
    intro q
    by_cases hq : q = p
    · rw [hq, Function.update_self, hpc]
    · rw [Function.update_of_ne hq]
  refine ⟨h.proper, fun q t n => ?_, fun q r hq hr => ?_⟩
  · rw [State.goto, hsame]
    exact h.held q t n
  · simp only [State.goto, hsame] at hq hr
    exact h.one q r hq hr

/-- The end of a process, or of its descriptor. -/
theorem Inv.exit (h : Inv s) (hpc : pc.holds = false) : Inv (s.exit p pc) := by
  have hsame : ∀ q, (Function.update s.pc p pc q).holds = true ↔ (s.pc q).holds = true ∧ q ≠ p := by
    intro q
    by_cases hq : q = p
    · simp [hq, hpc]
    · simp [hq]
  refine ⟨RangeLock.proper_releaseAll h.proper p, fun q t n => ?_, fun q r hq hr => ?_⟩
  · simp only [State.exit, State.goto, RangeLock.held_releaseAll, h.held, hsame]
    tauto
  · simp only [State.exit, State.goto, hsame] at hq hr
    exact h.one q r hq.1 hr.1

/-- A request that is granted. -/
theorem Inv.granted (h : Inv s) (hl : lockfile s.locks p = some locks) :
    Inv { s.goto p .ftruncate with locks } := by
  have hnone : ∀ q, q ≠ p → (s.pc q).holds ≠ true := by
    intro q hq hh
    have hheld : RangeLock.Held s.locks q () .wrlck 0 := (h.held q _ 0).2 ⟨hh, rfl⟩
    have := RangeLock.exclusive_of_acquire hl hq ⟨Nat.le_refl 0, rfl⟩ hheld
    simp at this
  have hsame : ∀ q, (Function.update s.pc p Pc.ftruncate q).holds = true ↔ q = p := by
    intro q
    by_cases hq : q = p
    · simp [hq, Pc.holds]
    · simp [hq, hnone q hq]
  refine ⟨RangeLock.proper_acquire h.proper rfl hl, fun q t n => ?_, fun q r hq hr => ?_⟩
  · rw [RangeLock.held_acquire hl, h.held]
    simp only [State.goto, hsame]
    have hrange : RangeLock.InRange 0 none n := ⟨Nat.zero_le n, rfl⟩
    constructor
    · rintro (⟨hq, -, ht, -⟩ | ⟨⟨hq, -⟩, hne⟩)
      · exact ⟨hq, ht⟩
      · exact absurd hq (hnone q fun he => hne ⟨he, trivial, hrange⟩)
    · rintro ⟨hq, ht⟩
      exact .inl ⟨hq, trivial, ht, hrange⟩
  · simp only [State.goto, hsame] at hq hr
    rw [hq, hr]

/-- A request that is refused: another process has the lock. -/
theorem Inv.refused (h : Inv s) (hl : lockfile s.locks p = none) : ∃ q, q ≠ p ∧ (s.pc q).holds = true := by
  unfold lockfile RangeLock.acquire at hl
  split at hl
  next hany =>
    obtain ⟨l, hmem, hb⟩ := List.any_eq_true.1 hany
    obtain ⟨n, -, hheld⟩ := RangeLock.common_of_blocks h.proper hmem rfl hb
    refine ⟨l.owner, fun he => ?_, ((h.held _ _ n).1 hheld).1⟩
    simp [RangeLock.blocks, he] at hb
  next => simp at hl

theorem Inv.act (h : Inv s) (hs : act pid a s = some s') : Inv s' := by
  cases a with
  | «open» p ok =>
    simp only [Daemon.act, Option.ite_none_right_eq_some, Option.some.injEq] at hs
    obtain ⟨hpc, rfl⟩ := hs
    split
    · exact h.goto (by rw [hpc]; rfl) _
    · exact h.exit rfl
  | lock p error =>
    simp only [Daemon.act, Option.ite_none_right_eq_some] at hs
    obtain ⟨hpc, hs⟩ := hs
    split at hs
    next => exact Option.some.inj hs ▸ h.exit rfl
    next =>
      cases hl : lockfile s.locks p with
      | some locks =>
        rw [hl] at hs
        exact Option.some.inj hs ▸ h.granted hl
      | none =>
        rw [hl] at hs
        exact Option.some.inj hs ▸ h.exit rfl
  | ftruncate p ok =>
    simp only [Daemon.act, Option.ite_none_right_eq_some, Option.some.injEq] at hs
    obtain ⟨hpc, rfl⟩ := hs
    exact h.goto (by rw [hpc]; rfl) _
  | write p n =>
    simp only [Daemon.act, Option.ite_none_right_eq_some, Option.some.injEq] at hs
    obtain ⟨⟨hpc, -⟩, rfl⟩ := hs
    exact h.goto (by rw [hpc]; rfl) _
  | kill p =>
    simp only [Daemon.act, Option.ite_none_left_eq_some, Option.some.injEq] at hs
    obtain ⟨hpc, rfl⟩ := hs
    exact h.exit rfl

/-- Nobody is in the way of a request. -/
theorem Inv.grants (h : Inv s) (hp : s.pc p = .lock) (hfree : ∀ q, (s.pc q).holds = false) :
    ∃ s', Daemon.act pid (.lock p false) s = some s' ∧ s'.pc p = .ftruncate := by
  cases hl : lockfile s.locks p with
  | some locks =>
    refine ⟨{ s.goto p .ftruncate with locks }, by simp [Daemon.act, hp, hl], ?_⟩
    exact Function.update_self ..
  | none =>
    obtain ⟨q, -, hq⟩ := h.refused hl
    rw [hfree q] at hq
    simp at hq

/-- The process has the file open. -/
def Pc.opened : Pc → Bool
  | .open | .gone => false
  | _ => true

/-- What the file has, when nothing fails. -/
structure Named (pid : P → Nat) (s : State P) : Prop where
  exists_file : ∀ p, (s.pc p).opened = true → s.file.isSome
  empty : ∀ p, s.pc p = .write → s.file = some []
  text : ∀ p, s.pc p = .running → s.file = some (pidText (pid p))

/-- `ftruncate` and `write` do what they are asked to. -/
def Works (pid : P → Nat) : Act P → State P → Prop
  | .ftruncate _ ok, _ => ok = true
  | .write p n, _ => n = (pidText (pid p)).length
  | _, _ => True

instance (a : Act P) (s : State P) : Decidable (Works pid a s) :=
  match a with
  | .ftruncate _ ok => inferInstanceAs (Decidable (ok = true))
  | .write p n => inferInstanceAs (Decidable (n = (pidText (pid p)).length))
  | .open _ _ | .lock _ _ | .kill _ => .isTrue trivial

omit [DecidableEq P] in
theorem Named.init (file : Option (List UInt8)) : Named pid (init file) where
  exists_file p hp := by simp [Daemon.init, Pc.opened] at hp
  empty p hp := by simp [Daemon.init] at hp
  text p hp := by simp [Daemon.init] at hp

/-- The file stays as it is, and nobody has come behind `ftruncate`. -/
theorem Named.goto (h : Named pid s) (hpc : pc ≠ .write ∧ pc ≠ .running)
    (hopened : pc.opened = true → s.file.isSome) (locks : List (RangeLock P Unit)) :
    Named pid { s.goto p pc with locks } := by
  refine ⟨fun q hq => ?_, fun q hq => ?_, fun q hq => ?_⟩
  all_goals
    by_cases hqp : q = p
    · subst hqp
      simp only [State.goto, Function.update_self] at hq
      first
        | exact hopened hq
        | exact absurd hq hpc.1
        | exact absurd hq hpc.2
    · simp only [State.goto, Function.update_of_ne hqp] at hq
      first
        | exact h.exists_file q hq
        | exact h.empty q hq
        | exact h.text q hq

theorem Named.act (h : Named pid s) (hinv : Inv s) (hc : Works pid a s) (hs : act pid a s = some s') :
    Named pid s' := by
  cases a with
  | «open» p ok =>
    simp only [Daemon.act, Option.ite_none_right_eq_some, Option.some.injEq] at hs
    obtain ⟨hpc, rfl⟩ := hs
    split
    next =>
      have hold : ∀ text, s.file = some text → some (s.file.getD []) = some text := by
        intro text ht
        rw [ht, Option.getD_some]
      refine ⟨fun q _ => rfl, fun q hq => ?_, fun q hq => ?_⟩
      all_goals
        have hqp : q ≠ p := fun he => by simp [State.goto, he] at hq
        simp only [State.goto, Function.update_of_ne hqp] at hq
      · exact hold _ (h.empty q hq)
      · exact hold _ (h.text q hq)
    next => exact h.goto (by simp) (by simp [Pc.opened]) _
  | lock p error =>
    simp only [Daemon.act, Option.ite_none_right_eq_some] at hs
    obtain ⟨hpc, hs⟩ := hs
    have hfile : s.file.isSome := h.exists_file p (by rw [hpc]; rfl)
    split at hs
    next => exact Option.some.inj hs ▸ h.goto (by simp) (by simp [Pc.opened]) _
    next =>
      cases hl : lockfile s.locks p with
      | some locks =>
        rw [hl] at hs
        exact Option.some.inj hs ▸ h.goto (by simp) (fun _ => hfile) _
      | none =>
        rw [hl] at hs
        exact Option.some.inj hs ▸ h.goto (by simp) (fun _ => hfile) _
  | ftruncate p ok =>
    simp only [Daemon.act, Option.ite_none_right_eq_some, Option.some.injEq] at hs
    obtain ⟨hpc, rfl⟩ := hs
    obtain rfl : ok = true := hc
    refine ⟨fun q _ => rfl, fun q _ => rfl, fun q hq => ?_⟩
    -- the process that runs is another one, and has the lock
    have hqp : q ≠ p := fun he => by simp [State.goto, he] at hq
    simp only [State.goto, Function.update_of_ne hqp] at hq
    exact absurd (hinv.one q p (by rw [hq]; rfl) (by rw [hpc]; rfl)) hqp
  | write p n =>
    simp only [Daemon.act, Option.ite_none_right_eq_some, Option.some.injEq] at hs
    obtain ⟨⟨hpc, -⟩, rfl⟩ := hs
    obtain rfl : n = (pidText (pid p)).length := hc
    have hempty := h.empty p hpc
    have hother : ∀ q, q ≠ p → (s.pc q).holds = false := by
      intro q hq
      rw [← Bool.not_eq_true]
      exact fun hh => hq (hinv.one q p hh (by rw [hpc]; rfl))
    refine ⟨fun q _ => by simp [hempty], fun q hq => ?_, fun q hq => ?_⟩
    · have hqp : q ≠ p := fun he => by simp [State.goto, he] at hq
      simp only [State.goto, Function.update_of_ne hqp] at hq
      have := hother q hqp
      simp [hq, Pc.holds] at this
    · by_cases hqp : q = p
      · simp [hempty, hqp]
      · simp only [State.goto, Function.update_of_ne hqp] at hq
        have := hother q hqp
        simp [hq, Pc.holds] at this
  | kill p =>
    simp only [Daemon.act, Option.ite_none_left_eq_some, Option.some.injEq] at hs
    obtain ⟨-, rfl⟩ := hs
    exact h.goto (by simp) (by simp [Pc.opened]) _

theorem run_inv {C : Act P → State P → Prop} (h : Run (act pid) (init file) C s) : Inv s :=
  h.inv (.init file) fun _ _ _ _ _ hs hinv => hinv.act hs

/-- **One copy.** However the processes take turns and wherever they end, at most one of them is
beyond the lock. A process is told that there is another copy only when there is one, and when there
is none the next request for the lock is granted. -/
theorem one_copy (h : Run (act pid) (init file) AnyStep s) :
    (∀ p q, (s.pc p).holds = true → (s.pc q).holds = true → p = q) ∧
      (∀ p s', act pid (.lock p false) s = some s' → s'.pc p = .already →
        ∃ q, q ≠ p ∧ (s'.pc q).holds = true) ∧
      ∀ p, s.pc p = .lock → (∀ q, (s.pc q).holds = false) →
        ∃ s', act pid (.lock p false) s = some s' ∧ s'.pc p = .ftruncate := by
  have hinv := run_inv h
  refine ⟨hinv.one, fun p s' hs hp => ?_, fun p hp hfree => hinv.grants hp hfree⟩
  simp only [act, Option.ite_none_right_eq_some, Bool.false_eq_true, if_false] at hs
  obtain ⟨hpc, hs⟩ := hs
  cases hl : lockfile s.locks p with
  | some locks =>
    rw [hl] at hs
    cases hs
    simp [State.goto] at hp
  | none =>
    rw [hl] at hs
    cases hs
    obtain ⟨q, hqp, hq⟩ := hinv.refused hl
    exact ⟨q, hqp, by simpa [State.exit, State.goto, hqp] using hq⟩

/-- The second process is told that there is another copy. -/
theorem one_copy_two : ∃ s : State Bool,
    perform (act fun _ => 7) [.open true true, .lock true false, .open false true, .lock false false]
      (init none) = some s ∧
      (∀ p q, (s.pc p).holds = true → (s.pc q).holds = true → p = q) ∧ s.pc false = .already := by
  let acts : List (Act Bool) :=
    [.open true true, .lock true false, .open false true, .lock false false]
  let s : State Bool := (perform (act fun _ => 7) acts (init none)).get rfl
  have hs : perform (act fun _ => 7) acts (init none) = some s := rfl
  exact ⟨s, hs, (one_copy (Run.of_perform hs)).1, rfl⟩

/-- **The process id.** When `ftruncate` and `write` do not fail, the file has the process id of the
copy that runs, with a null behind it, whatever was in it before. -/
theorem pid_file (h : Run (act pid) (init file) (Works pid) s) :
    ∀ p, s.pc p = .running → s.file = some (pidText (pid p)) := by
  have hboth : Inv s ∧ Named pid s := by
    refine h.inv (I := fun s => Inv s ∧ Named pid s) ⟨.init file, .init file⟩ ?_
    intro a s s' _ hc hs hi
    exact ⟨hi.1.act hs, hi.2.act hi.1 hc hs⟩
  exact hboth.2.text

/-- Three processes and an old file. The first one runs, the second one is told that there is another
copy, the first one ends, and the third one runs, whose process id is shorter. -/
theorem pid_file_three : ∃ s : State (Fin 3), s.pc 0 = .gone ∧ s.pc 1 = .already ∧ s.pc 2 = .running ∧
    s.file = some ['7'.toUInt8, 0] := by
  let pid : Fin 3 → Nat := fun p => if p = 0 then 1234 else if p = 1 then 56 else 7
  let copy (p : Fin 3) (n : Nat) : List (Act (Fin 3)) :=
    [.open p true, .lock p false, .ftruncate p true, .write p n]
  let acts : List (Act (Fin 3)) := copy 0 5 ++ [.open 1 true, .lock 1 false, .kill 0] ++ copy 2 2
  have hcheck : (performIf (act pid) (fun a s => decide (Works pid a s)) acts
      (init (some [1, 2, 3, 4]))).any (fun s =>
        s.pc 0 = .gone ∧ s.pc 1 = .already ∧ s.pc 2 = .running) = true := by decide +kernel
  obtain ⟨s, hs, hend⟩ := (Option.any_eq_true _ _).mp hcheck
  obtain ⟨h₀, h₁, h₂⟩ := of_decide_eq_true hend
  have hfile := pid_file (Run.of_performIf (fun _ _ => of_decide_eq_true) hs) 2 h₂
  exact ⟨s, h₀, h₁, h₂, hfile.trans (by decide)⟩

end LearningNotes.Daemon
