import LearningNotes.Ipc.Turns

/-!
# `tellwait.c` with pipes

The two processes of `devzero.c` with the pipes of `ipc1/tellwait.c`. A byte stays in its pipe until
it is read, so that the pipes count: what is in a pipe is what has been told and not yet been waited
for (`Counted.act`), for any programs of the two processes. In the loops of `devzero.c` just one of the
two can go on at any time (`Turn.act`), so that the work strictly alternates and nobody is stuck.

Mirroring notes:
- Both ends of both pipes stay open in both processes, so that `read` on an empty pipe blocks, also
  when the other process has ended.
- A pipe holds `cap` bytes, and `write` blocks when it is full.
- `failed` stands for `err_quit`: a wrong byte, or a wrong value of the counter.
-/

namespace LearningNotes.TellwaitPipe

open Tellwait (Who Alternates)

/-- A call in the program of a process: `update` with the value that is expected, `TELL_*` and
`WAIT_*`. -/
inductive Op where
  | update (i : Nat)
  | tell
  | wait
  deriving DecidableEq, Repr

/-- The byte that a process writes. -/
def byte : Who → Char
  | .parent => 'p'
  | .child => 'c'

/-- What is left of the programs, and the pipes by the process that reads from them: `pfd2` for the
parent and `pfd1` for the child. -/
structure State where
  prog : Who → List Op
  pipe : Who → List Char
  area : Nat
  failed : Bool
  log : List Who

def init (prog : Who → List Op) : State where
  prog
  pipe := fun _ => []
  area := 0
  failed := false
  log := []

/-- The next call of a process. -/
def act (cap : Nat) (p : Who) (s : State) : Option State :=
  match s.prog p with
  | [] => none
  | .update i :: ops =>
    some { s with
      prog := Function.update s.prog p ops
      area := s.area + 1
      failed := s.failed || s.area != i
      log := s.log ++ [p] }
  | .tell :: ops =>
    if (s.pipe p.other).length < cap then
      some { s with
        prog := Function.update s.prog p ops
        pipe := Function.update s.pipe p.other (s.pipe p.other ++ [byte p]) }
    else none
  | .wait :: ops =>
    match s.pipe p with
    | [] => none
    | c :: rest =>
      some { s with
        prog := Function.update s.prog p ops
        pipe := Function.update s.pipe p rest
        failed := s.failed || c != byte p.other }

/-- `for (i = 0; i < NLOOPS; i += 2)` from `i` on, with `k` rounds to go. -/
def parentLoop : Nat → Nat → List Op
  | 0, _ => []
  | k + 1, i => .update i :: .tell :: .wait :: parentLoop k (i + 2)

/-- `for (i = 1; i < NLOOPS + 1; i += 2)` from `i` on, with `k` rounds to go. -/
def childLoop : Nat → Nat → List Op
  | 0, _ => []
  | k + 1, i => .wait :: .update i :: .tell :: childLoop k (i + 2)

/-- The programs, with `NLOOPS` as `2 * n`. -/
def devzero (n : Nat) : Who → List Op
  | .parent => parentLoop n 0
  | .child => childLoop n 1

variable {cap n k i : Nat} {p q : Who} {s s' : State} {prog : Who → List Op}

/-- What the calls of a process are. -/
theorem act_cases (hs : act cap p s = some s') :
    (∃ i ops, s.prog p = .update i :: ops ∧ s' = { s with
      prog := Function.update s.prog p ops
      area := s.area + 1
      failed := s.failed || s.area != i
      log := s.log ++ [p] }) ∨
    (∃ ops, s.prog p = .tell :: ops ∧ s' = { s with
      prog := Function.update s.prog p ops
      pipe := Function.update s.pipe p.other (s.pipe p.other ++ [byte p]) }) ∨
    ∃ ops c rest, s.prog p = .wait :: ops ∧ s.pipe p = c :: rest ∧ s' = { s with
      prog := Function.update s.prog p ops
      pipe := Function.update s.pipe p rest
      failed := s.failed || c != byte p.other } := by
  unfold act at hs
  split at hs
  next => simp at hs
  next i ops hp => exact .inl ⟨i, ops, hp, (Option.some.inj hs).symm⟩
  next ops hp =>
    simp only [Option.ite_none_right_eq_some, Option.some.injEq] at hs
    exact .inr (.inl ⟨ops, hp, hs.2.symm⟩)
  next ops hp =>
    split at hs
    next => simp at hs
    next c rest hpipe => exact .inr (.inr ⟨ops, c, rest, hp, hpipe, (Option.some.inj hs).symm⟩)

/-- What has been told to `p` and not been waited for is in the pipe, and nothing else. -/
structure Counted (prog : Who → List Op) (s : State) : Prop where
  bytes : ∀ p, ∀ c ∈ s.pipe p, c = byte p.other
  count : ∀ p, (s.pipe p).length + (s.prog p.other).count .tell + (prog p).count .wait =
    (prog p.other).count .tell + (s.prog p).count .wait

@[simp] theorem other_other (p : Who) : p.other.other = p := by
  cases p <;> rfl

theorem eq_or_eq_other (q p : Who) : q = p ∨ q = p.other := by
  cases q <;> cases p <;> simp [Who.other]

theorem Counted.init (prog : Who → List Op) : Counted prog (init prog) where
  bytes _ _ hc := absurd hc List.not_mem_nil
  count p := by simp [TellwaitPipe.init]

/-- The pipes count, whatever the two processes do. -/
theorem Counted.act (h : Counted prog s) (hs : act cap p s = some s') : Counted prog s' := by
  rcases act_cases hs with ⟨i, ops, hp, rfl⟩ | ⟨ops, hp, rfl⟩ | ⟨ops, c, rest, hp, hpipe, rfl⟩
  · refine ⟨h.bytes, fun q => ?_⟩
    have hcount := h.count q
    rcases eq_or_eq_other q p with rfl | rfl
    · simp [hp] at hcount ⊢
      omega
    · simp [hp] at hcount ⊢
      omega
  · refine ⟨fun q c hc => ?_, fun q => ?_⟩
    · rcases eq_or_eq_other q p with rfl | rfl
      · exact h.bytes q c (by simpa [q.other_ne.symm] using hc)
      · simp only [Function.update_self, List.mem_append, List.mem_singleton] at hc
        rcases hc with hc | hc
        · exact h.bytes _ c hc
        · rw [hc, other_other]
    · have hcount := h.count q
      rcases eq_or_eq_other q p with rfl | rfl
      · simp [hp, q.other_ne.symm] at hcount ⊢
        omega
      · simp [hp] at hcount ⊢
        omega
  · refine ⟨fun q c' hc => ?_, fun q => ?_⟩
    · rcases eq_or_eq_other q p with rfl | rfl
      · simp only [Function.update_self] at hc
        exact h.bytes q c' (hpipe ▸ List.mem_cons_of_mem c hc)
      · exact h.bytes _ c' (by simpa using hc)
    · have hcount := h.count q
      rcases eq_or_eq_other q p with rfl | rfl
      · simp [hp, hpipe] at hcount ⊢
        omega
      · simp [hp] at hcount ⊢
        omega

/-- Every `WAIT_*` that has returned had its own `TELL_*` before, for any two programs. -/
theorem waits_le_tells (h : Run (act cap) (init prog) AnyStep s) (p : Who) :
    (prog p).count .wait - (s.prog p).count .wait ≤
      (prog p.other).count .tell - (s.prog p.other).count .tell := by
  have hc : Counted prog s := h.inv (.init prog) fun _ _ _ _ _ hs hc => hc.act hs
  have hcount := hc.count p
  omega

/-! ## The loops of `devzero.c` -/

/-- What is left of the programs of the parent and of the child in the round with index `i`, with `k`
rounds to go afterwards and `len` works done, and what each of them finds in its pipe. One of the two
has the turn, and the other one waits or is done. -/
inductive Round (n len : Nat) : List Op → List Op → List Char → List Char → Prop where
  | parentWork (i k : Nat) (hk : i + k + 1 = n) (hl : len = 2 * i) :
      Round n len (parentLoop (k + 1) (2 * i)) (childLoop (k + 1) (2 * i + 1)) [] []
  | parentTell (i k : Nat) (hk : i + k + 1 = n) (hl : len = 2 * i + 1) :
      Round n len (.tell :: .wait :: parentLoop k (2 * i + 2)) (childLoop (k + 1) (2 * i + 1)) [] []
  | childTold (i k : Nat) (hk : i + k + 1 = n) (hl : len = 2 * i + 1) :
      Round n len (.wait :: parentLoop k (2 * i + 2)) (childLoop (k + 1) (2 * i + 1)) [] ['p']
  | childWork (i k : Nat) (hk : i + k + 1 = n) (hl : len = 2 * i + 1) :
      Round n len (.wait :: parentLoop k (2 * i + 2))
        (.update (2 * i + 1) :: .tell :: childLoop k (2 * i + 3)) [] []
  | childTell (i k : Nat) (hk : i + k + 1 = n) (hl : len = 2 * i + 2) :
      Round n len (.wait :: parentLoop k (2 * i + 2)) (.tell :: childLoop k (2 * i + 3)) [] []
  | parentTold (i k : Nat) (hk : i + k + 1 = n) (hl : len = 2 * i + 2) :
      Round n len (.wait :: parentLoop k (2 * i + 2)) (childLoop k (2 * i + 3)) ['c'] []
  | done (hl : len = 2 * n) : Round n len [] [] [] []

/-- The state of a run of `devzero n`. -/
structure Turn (n : Nat) (s : State) : Prop where
  round : Round n s.log.length (s.prog .parent) (s.prog .child) (s.pipe .parent) (s.pipe .child)
  ok : s.failed = false
  area : s.area = s.log.length
  alternates : Alternates s.log

/-- Between two rounds. -/
theorem Round.next (h : i + k = n) :
    Round n (2 * i) (parentLoop k (2 * i)) (childLoop k (2 * i + 1)) [] [] := by
  cases k with
  | zero => exact .done (by omega)
  | succ k => exact .parentWork i k (by omega) rfl

theorem Turn.init (n : Nat) : Turn n (init (devzero n)) where
  round := Round.next (i := 0) (Nat.zero_add n)
  ok := rfl
  area := rfl
  alternates i w hw := by simp [TellwaitPipe.init] at hw

/-- One call goes on with the round, or with the next one. -/
theorem Turn.act (h : Turn n s) (hs : act cap p s = some s') : Turn n s' := by
  obtain ⟨hround, hok, harea, halt⟩ := h
  generalize hP : s.prog .parent = P, hC : s.prog .child = C, hp : s.pipe .parent = a,
    hc : s.pipe .child = b at hround
  cases hround with
  | parentWork i k hk hl =>
    cases p with
    | parent =>
      simp only [TellwaitPipe.act, hP, parentLoop, Option.some.injEq] at hs
      obtain rfl := hs
      refine ⟨?_, ?_, ?_, Tellwait.alternates_snoc halt ?_⟩
      · simpa [hC, hp, hc] using Round.parentTell i k hk (by simp [hl])
      · simp [hok, harea, hl]
      · simp [harea]
      · simp [hl]
    | child => simp [TellwaitPipe.act, hC, hc, childLoop] at hs
  | parentTell i k hk hl =>
    cases p with
    | parent =>
      simp only [TellwaitPipe.act, hP, Option.ite_none_right_eq_some, Option.some.injEq] at hs
      obtain ⟨-, rfl⟩ := hs
      refine ⟨?_, hok, harea, halt⟩
      simpa [hC, hp, hc, Who.other, byte] using Round.childTold i k hk hl
    | child => simp [TellwaitPipe.act, hC, hc, childLoop] at hs
  | childTold i k hk hl =>
    cases p with
    | parent => simp [TellwaitPipe.act, hP, hp] at hs
    | child =>
      simp only [TellwaitPipe.act, hC, hc, childLoop, Option.some.injEq] at hs
      obtain rfl := hs
      refine ⟨?_, by simp [hok, byte, Who.other], harea, halt⟩
      simpa [hP, hp] using Round.childWork i k hk hl
  | childWork i k hk hl =>
    cases p with
    | parent => simp [TellwaitPipe.act, hP, hp] at hs
    | child =>
      simp only [TellwaitPipe.act, hC, Option.some.injEq] at hs
      obtain rfl := hs
      refine ⟨?_, ?_, ?_, Tellwait.alternates_snoc halt ?_⟩
      · simpa [hP, hp, hc] using Round.childTell i k hk (by simp [hl])
      · simp [hok, harea, hl]
      · simp [harea]
      · rw [if_neg (by omega)]
  | childTell i k hk hl =>
    cases p with
    | parent => simp [TellwaitPipe.act, hP, hp] at hs
    | child =>
      simp only [TellwaitPipe.act, hC, Option.ite_none_right_eq_some, Option.some.injEq] at hs
      obtain ⟨-, rfl⟩ := hs
      refine ⟨?_, hok, harea, halt⟩
      simpa [hP, hp, hc, Who.other, byte] using Round.parentTold i k hk hl
  | parentTold i k hk hl =>
    cases p with
    | parent =>
      simp only [TellwaitPipe.act, hP, hp, Option.some.injEq] at hs
      obtain rfl := hs
      refine ⟨?_, by simp [hok, byte, Who.other], harea, halt⟩
      have hnext : i + 1 + k = n := by omega
      simpa [hC, hc, hl, Nat.mul_add] using Round.next hnext
    | child => cases k <;> simp [TellwaitPipe.act, hC, hc, childLoop] at hs
  | done hl => cases p <;> simp [TellwaitPipe.act, hP, hC] at hs

/-- Somebody can go on, as long as the two are not done. -/
theorem Turn.progress (h : Turn n s) (hcap : 0 < cap)
    (hstuck : ∀ p, TellwaitPipe.act cap p s = none) :
    (∀ p, s.prog p = []) ∧ s.area = 2 * n := by
  obtain ⟨hround, -, harea, -⟩ := h
  have hparent := hstuck .parent
  have hchild := hstuck .child
  generalize hP : s.prog .parent = P, hC : s.prog .child = C, hp : s.pipe .parent = a,
    hc : s.pipe .child = b at hround
  cases hround with
  | parentWork i k hk hl => simp [TellwaitPipe.act, hP, parentLoop] at hparent
  | parentTell i k hk hl => simp [TellwaitPipe.act, hP, Who.other, hc, hcap] at hparent
  | childTold i k hk hl => simp [TellwaitPipe.act, hC, hc, childLoop] at hchild
  | childWork i k hk hl => simp [TellwaitPipe.act, hC] at hchild
  | childTell i k hk hl => simp [TellwaitPipe.act, hC, Who.other, hp, hcap] at hchild
  | parentTold i k hk hl => simp [TellwaitPipe.act, hP, hp] at hparent
  | done hl =>
    refine ⟨fun p => ?_, by omega⟩
    cases p with
    | parent => exact hP
    | child => exact hC

/-- The calls that are left. -/
def State.calls (s : State) : Nat := (s.prog .parent).length + (s.prog .child).length

theorem act_calls (hs : act cap p s = some s') : s'.calls + 1 = s.calls := by
  rcases act_cases hs with ⟨i, ops, hp, rfl⟩ | ⟨ops, hp, rfl⟩ | ⟨ops, c, rest, hp, hpipe, rfl⟩ <;>
    cases p <;> simp [State.calls, hp] <;> omega

theorem perform_calls {ps : List Who} (hs : perform (act cap) ps s = some s') :
    s'.calls + ps.length = s.calls := by
  induction ps generalizing s with
  | nil =>
    cases hs
    simp
  | cons p ps ih =>
    obtain ⟨s₁, h₁, h₂⟩ := Option.bind_eq_some_iff.mp hs
    have hact := act_calls h₁
    have hrest := ih h₂
    rw [List.length_cons]
    omega

theorem parentLoop_length (k i : Nat) : (parentLoop k i).length = 3 * k := by
  induction k generalizing i with
  | zero => rfl
  | succ k ih => simp [parentLoop, ih, Nat.mul_add]

theorem childLoop_length (k i : Nat) : (childLoop k i).length = 3 * k := by
  induction k generalizing i with
  | zero => rfl
  | succ k ih => simp [childLoop, ih, Nat.mul_add]

/-- **The pipes take turns.** In every run of the two loops the works strictly alternate, neither
process quits, and when neither of them can go on they are both done and the counter is `NLOOPS`.
A run ends after at most six calls for each round, and no `WAIT_*` returns before its own `TELL_*`. -/
theorem devzero_completes (n : Nat) (hcap : 0 < cap) {ps : List Who}
    (hs : perform (act cap) ps (init (devzero n)) = some s) :
    s.failed = false ∧ Alternates s.log ∧ s.area = s.log.length ∧ ps.length ≤ 6 * n ∧
      ((∀ p, act cap p s = none) → (∀ p, s.prog p = []) ∧ s.area = 2 * n ∧ ps.length = 6 * n) ∧
      ∀ p, (devzero n p).count .wait - (s.prog p).count .wait ≤
        (devzero n p.other).count .tell - (s.prog p.other).count .tell := by
  have hturn : Turn n s :=
    (Run.of_perform hs).inv (.init n) fun _ _ _ _ _ hs hturn => hturn.act hs
  have hcalls := perform_calls hs
  have hinit : (init (devzero n)).calls = 6 * n := by
    simp only [State.calls, init, devzero, parentLoop_length, childLoop_length]
    omega
  refine ⟨hturn.ok, hturn.alternates, hturn.area, by omega, fun hstuck => ?_,
    waits_le_tells (Run.of_perform hs)⟩
  obtain ⟨hdone, harea⟩ := hturn.progress hcap hstuck
  have hnone : s.calls = 0 := by simp [State.calls, hdone]
  exact ⟨hdone, harea, by omega⟩

/-- One round, with pipes of one byte. -/
theorem devzero_completes_one :
    ∃ s, perform (act 1) [.parent, .parent, .child, .child, .child, .parent]
        (init (devzero 1)) = some s ∧ s.area = 2 ∧ Alternates s.log := by
  have hs : perform (act 1) [.parent, .parent, .child, .child, .child, .parent]
      (init (devzero 1)) = some _ := rfl
  have h := devzero_completes 1 (by decide) hs
  exact ⟨_, hs, (h.2.2.2.2.1 fun p => by cases p <;> rfl).2.1, h.2.1⟩

end LearningNotes.TellwaitPipe
