import LearningNotes.Lib.Runs
import Mathlib.Logic.Function.Basic

/-!
# `tellwait.c`

Two processes that take turns by signals, as in `devzero.c`: the parent works, tells the
child and waits for it; the child waits, works and tells the parent. A process is where it
stands between two system calls, with its copy of `sigflag`, its masks and the signals that
are pending for it. An action is one test or system call of a process, or the delivery of a
pending signal that is not blocked, which may happen at any point.

Mirroring notes:
- Both functions `WAIT_PARENT` and `WAIT_CHILD` are the same text, and `TELL_PARENT` and
  `TELL_CHILD` differ in the signal only.
- `sigsuspend` is two steps: it replaces the mask and waits (`suspended`), and the delivery of
  a signal ends it and puts the mask back.
- `NLOOPS` is `2 * n`, `area` the shared counter, and `failed` stands for `err_quit`.
- A mask is the set of blocked signals. Only the two signals of `tellwait.c` matter.
-/

namespace LearningNotes.Tellwait

inductive Who where
  | parent
  | child
  deriving DecidableEq, Repr

def Who.other : Who → Who
  | .parent => .child
  | .child => .parent

inductive Sig where
  | usr1
  | usr2
  deriving DecidableEq, Repr

/-- The signal that tells a process. -/
def Who.sig : Who → Sig
  | .parent => .usr2
  | .child => .usr1

/-- Where a process stands. -/
inductive Pc where
  /-- at `update` -/
  | work
  /-- at `kill` -/
  | tell
  /-- at the test of `sigflag` -/
  | test
  /-- in the loop, at `sigsuspend` -/
  | suspend
  /-- in `sigsuspend` -/
  | suspended
  /-- at `sigflag = 0` -/
  | clear
  /-- at `sigprocmask` -/
  | restore
  | done
  | failed
  deriving DecidableEq, Repr

/-- A process. `i` is the loop counter, halved and rounded down. -/
structure Proc where
  pc : Pc
  i : Nat
  sigflag : Bool
  mask : Sig → Bool
  oldmask : Sig → Bool
  pending : Sig → Bool

structure State where
  proc : Who → Proc
  area : Nat
  /-- who has worked so far -/
  log : List Who

/-- A signal may be delivered: `sigsuspend` has emptied the mask. -/
def Proc.delivers (x : Proc) (sig : Sig) : Bool :=
  x.pending sig && (x.pc == .suspended || !x.mask sig)

/-- `TELL_WAIT`: the new mask and the saved one. -/
def tellWait (mask : Sig → Bool) : (Sig → Bool) × (Sig → Bool) := (fun _ => true, mask)

/-- The two processes after the fork, when `mask` was the mask before `TELL_WAIT`. -/
def init (n : Nat) (mask : Sig → Bool) : State where
  proc
    | .parent => ⟨if 0 < n then .work else .done, 0, false, (tellWait mask).1, (tellWait mask).2,
        fun _ => false⟩
    | .child => ⟨if 0 < n then .test else .done, 0, false, (tellWait mask).1, (tellWait mask).2,
        fun _ => false⟩
  area := 0
  log := []

/-- The head of the loop, for the next round. -/
def Proc.next (x : Proc) (n : Nat) (pc : Pc) : Proc :=
  { x with i := x.i + 1, pc := if x.i + 1 < n then pc else .done }

/-- The value of the loop counter. -/
def counter (p : Who) (i : Nat) : Nat :=
  match p with
  | .parent => 2 * i
  | .child => 2 * i + 1

inductive Act where
  | run (p : Who)
  | deliver (p : Who) (sig : Sig)
  deriving DecidableEq, Repr

/-- Change a process. -/
def State.set (s : State) (p : Who) (x : Proc) : State :=
  { s with proc := Function.update s.proc p x }

/-- `kill(pid, sig)`. -/
def State.kill (s : State) (q : Who) : State :=
  s.set q { s.proc q with pending := Function.update (s.proc q).pending q.sig true }

/-- One step of a process. -/
def runProc (n : Nat) (p : Who) (s : State) : Option State :=
  let x := s.proc p
  match x.pc with
  | .work =>
    -- `if ((counter = update(area)) != i) err_quit(...)`
    if s.area = counter p x.i then
      some { s.set p { x with pc := .tell } with area := s.area + 1, log := s.log ++ [p] }
    else
      some { s.set p { x with pc := .failed } with area := s.area + 1, log := s.log ++ [p] }
  | .tell =>
    match p with
    | .parent => some ((s.set p { x with pc := .test }).kill .child)
    | .child => some ((s.set p (x.next n .test)).kill .parent)
  | .test => some (s.set p { x with pc := if x.sigflag then .clear else .suspend })
  | .suspend => some (s.set p { x with pc := .suspended })
  | .suspended => none
  | .clear => some (s.set p { x with sigflag := false, pc := .restore })
  | .restore =>
    match p with
    | .parent => some (s.set p ({ x with mask := x.oldmask }.next n .work))
    | .child => some (s.set p { x with mask := x.oldmask, pc := .work })
  | .done => none
  | .failed => none

/-- The handler runs. -/
def deliver (p : Who) (sig : Sig) (s : State) : Option State :=
  let x := s.proc p
  if x.delivers sig then
    some (s.set p { x with
      sigflag := true
      pending := Function.update x.pending sig false
      pc := if x.pc = .suspended then .test else x.pc })
  else none

def act (n : Nat) : Act → State → Option State
  | .run p, s => runProc n p s
  | .deliver p sig, s => deliver p sig s

/-! ## What the processes do for each other -/

/-- The processes take turns, the parent first. -/
def Alternates (log : List Who) : Prop :=
  ∀ i w, log[i]? = some w → w = if i % 2 = 0 then .parent else .child

/-- Both processes wait and nothing will wake them. -/
def Stuck (s : State) : Prop :=
  ∀ p, (s.proc p).pc = .suspended ∧ ∀ sig, (s.proc p).pending sig = false

/-- No signal is delivered between the test of `sigflag` and `sigsuspend`. -/
def NotBetween : Act → State → Prop
  | .run _, _ => True
  | .deliver p _, s => (s.proc p).pc ≠ .suspend

end LearningNotes.Tellwait
