import LearningNotes.Lib.Handles
import LearningNotes.Lib.Runs
import Mathlib.Logic.Function.Basic

/-!
# `semaph.c`

The library of `sem_create`, `sem_open`, `sem_op` and `sem_close` over the semaphores of System V,
for any number of processes and one key. At any time there is at most one set with the key; a set
that is removed is gone, and a new one has a new identifier. A process is where it stands between
two system calls, and an action is one system call, or that the process exits, which it may do at
any point.

`opens` records which process has completed `sem_create` or `sem_open` on which set without a later
`sem_close` (`outstanding` counts them), and a set records whether `[1]` has been initialised and whether a call has completed
on it. No call of the program reads these records.

Mirroring notes:
- A `semop` that cannot go on puts the process to sleep, and goes on when it can. The set may be
  removed first: a sleeping process gets `EIDRM`, one that calls later `EINVAL`.
- `SETVAL` clears the adjustments of the member in all processes; at exit the adjustments of a
  process are added, within the bounds of a value.
- After `err_sys` or `err_dump` (`failed`) a process only exits.
- `key` is valid, `semget` finds room, and calls that a signal interrupts are left out: then the
  process returns -1 having done nothing, or exits.
- `sem_wait` and `sem_signal` are `sem_op` with -1 and 1. A process uses an identifier while it has
  the set open.
-/

namespace LearningNotes.Semaph

/-- `initial value of process counter` -/
def BIGCOUNT : Int := 10000

/-- The largest value, and the largest adjustment, of a member. -/
def SEMVMX : Int := 32767

/-- `struct sembuf`; `undo` is `SEM_UNDO`. -/
structure Sembuf where
  sem_num : Fin 3
  sem_op : Int
  undo : Bool

def op_lock : List Sembuf := [⟨2, 0, false⟩, ⟨2, 1, true⟩]

def op_endcreate : List Sembuf := [⟨1, -1, true⟩, ⟨2, -1, true⟩]

def op_open : List Sembuf := [⟨1, -1, true⟩]

def op_close : List Sembuf := [⟨2, 0, false⟩, ⟨2, 1, true⟩, ⟨1, 1, true⟩]

def op_unlock : List Sembuf := [⟨2, -1, true⟩]

def op_op (value : Int) : List Sembuf := [⟨0, value, true⟩]

/-- A set, with the adjustments of each process. -/
structure SemSet where
  id : Nat
  semval : Fin 3 → Int
  semadj : Nat → Fin 3 → Int
  /-- `[1]` has been set -/
  initialised : Bool
  /-- a `sem_create` or `sem_open` has completed -/
  completed : Bool

/-- What `semget` makes. -/
def SemSet.new (id : Nat) : SemSet := ⟨id, fun _ => 0, fun _ _ => 0, false, false⟩

inductive Errno where
  | EINVAL
  | EIDRM
  | ERANGE
  deriving DecidableEq, Repr

/-- The outcome of the operations of one `semop`. -/
inductive Outcome where
  | done (semval semadj : Fin 3 → Int)
  | blocks
  | erange

/-- The operations in order, all or none. -/
def applyOps : List Sembuf → (Fin 3 → Int) → (Fin 3 → Int) → Outcome
  | [], semval, semadj => .done semval semadj
  | b :: bs, semval, semadj =>
    let val := semval b.sem_num + b.sem_op
    let adj := semadj b.sem_num - b.sem_op
    if b.sem_op = 0 then
      if semval b.sem_num = 0 then applyOps bs semval semadj else .blocks
    else if val < 0 then .blocks
    else if SEMVMX < val then .erange
    else if b.undo then
      if adj < -SEMVMX - 1 ∨ SEMVMX < adj then .erange
      else applyOps bs (Function.update semval b.sem_num val) (Function.update semadj b.sem_num adj)
    else applyOps bs (Function.update semval b.sem_num val) semadj

/-- `semctl(id, i, SETVAL, val)` -/
def SemSet.setval (S : SemSet) (i : Fin 3) (val : Int) : SemSet :=
  { S with
    semval := Function.update S.semval i val
    semadj := fun p => Function.update (S.semadj p) i 0 }

/-- A value within its bounds. -/
def clamp (val : Int) : Int := min SEMVMX (max 0 val)

/-- The kernel at the exit of process `p`. -/
def SemSet.exit (S : SemSet) (p : Nat) : SemSet :=
  { S with
    semval := fun i => clamp (S.semval i + S.semadj p i)
    semadj := Function.update S.semadj p fun _ => 0 }

/-- Where a process stands: at the system call of that name. -/
inductive Pc where
  | idle
  | createGet (initval : Int)
  | createLock (initval : Int) (id : Nat)
  | createGetval (initval : Int) (id : Nat)
  | createSet0 (initval : Int) (id : Nat)
  | createSet1 (id : Nat)
  | createEnd (id : Nat)
  | openGet
  | openOp (id : Nat)
  | opOp (id : Nat) (value : Int)
  | closeOp (id : Nat)
  | closeGetval (id : Nat)
  | closeRm (id : Nat)
  | closeUnlock (id : Nat)
  | exited
  deriving DecidableEq, Repr

structure Proc where
  pc : Pc
  /-- asleep in `semop` -/
  asleep : Bool
  failed : Bool

structure State where
  /-- the set with the key -/
  set : Option SemSet
  /-- the identifier of the next set -/
  next : Nat
  proc : Nat → Proc
  opens : List (Nat × Nat)

def init : State := ⟨none, 0, fun _ => ⟨.idle, false, false⟩, []⟩

/-- Process `p` goes on at `pc`. -/
def State.goto (s : State) (p : Nat) (pc : Pc) : State :=
  { s with proc := Function.update s.proc p ⟨pc, false, false⟩ }

def State.fail (s : State) (p : Nat) : State :=
  { s with proc := Function.update s.proc p { s.proc p with asleep := false, failed := true } }

def State.sleep (s : State) (p : Nat) : State :=
  { s with proc := Function.update s.proc p { s.proc p with asleep := true } }

/-- `semop(id, ops, n)`: `done` is the rest of the step with the changed set, `failed` with the
error. -/
def semop (s : State) (p id : Nat) (ops : List Sembuf) (done : SemSet → State)
    (failed : Errno → State) : Option State :=
  let x := s.proc p
  -- a process that waits learns that the set has been removed
  let removed := failed (if x.asleep then .EIDRM else .EINVAL)
  match s.set with
  | none => some removed
  | some S =>
    if S.id = id then
      match applyOps ops S.semval (S.semadj p) with
      | .done semval semadj =>
        some (done { S with semval := semval, semadj := Function.update S.semadj p semadj })
      | .blocks => if x.asleep then none else some (s.sleep p)
      | .erange => some (failed .ERANGE)
    else some removed

/-- `semctl(id, ...)` -/
def semctl (s : State) (p id : Nat) (done : SemSet → State) : State :=
  match s.set with
  | none => s.fail p
  | some S => if S.id = id then done S else s.fail p

/-- One system call of process `p`. -/
def runProc (p : Nat) (s : State) : Option State :=
  if (s.proc p).failed then none else
  match (s.proc p).pc with
  | .idle => none
  | .createGet initval =>
    match s.set with
    | some S => some (s.goto p (.createLock initval S.id))
    | none => some { s.goto p (.createLock initval s.next) with
        set := some (SemSet.new s.next), next := s.next + 1 }
  | .createLock initval id =>
    semop s p id op_lock (fun S => { s.goto p (.createGetval initval id) with set := some S })
      fun e => if e = .EINVAL then s.goto p (.createGet initval) else s.fail p
  | .createGetval initval id =>
    some (semctl s p id fun S =>
      if S.semval 1 = 0 then s.goto p (.createSet0 initval id) else s.goto p (.createEnd id))
  | .createSet0 initval id =>
    some (semctl s p id fun S =>
      if 0 ≤ initval ∧ initval ≤ SEMVMX then
        { s.goto p (.createSet1 id) with set := some (S.setval 0 initval) }
      else s.fail p)
  | .createSet1 id =>
    some (semctl s p id fun S => { s.goto p (.createEnd id) with
      set := some { S.setval 1 BIGCOUNT with initialised := true } })
  | .createEnd id =>
    semop s p id op_endcreate (fun S => { s.goto p .idle with
      set := some { S with completed := true }, opens := (p, id) :: s.opens }) fun _ => s.fail p
  | .openGet =>
    match s.set with
    | some S => some (s.goto p (.openOp S.id))
    -- `doesn't exist`
    | none => some (s.goto p .idle)
  | .openOp id =>
    semop s p id op_open (fun S => { s.goto p .idle with
      set := some { S with completed := true }, opens := (p, id) :: s.opens }) fun _ => s.fail p
  | .opOp id value =>
    -- `can't have value == 0`
    if value = 0 then some (s.fail p)
    else semop s p id (op_op value) (fun S => { s.goto p .idle with set := some S })
      fun _ => s.fail p
  | .closeOp id =>
    semop s p id op_close (fun S => { s.goto p (.closeGetval id) with
      set := some S, opens := s.opens.erase (p, id) }) fun _ => s.fail p
  | .closeGetval id =>
    some (semctl s p id fun S =>
      if BIGCOUNT < S.semval 1 then s.fail p
      else if S.semval 1 = BIGCOUNT then s.goto p (.closeRm id)
      else s.goto p (.closeUnlock id))
  | .closeRm id => some (semctl s p id fun _ => { s.goto p .idle with set := none })
  | .closeUnlock id =>
    semop s p id op_unlock (fun S => { s.goto p .idle with set := some S }) fun _ => s.fail p
  | .exited => none

/-- The calls of the library. -/
inductive Call where
  | sem_create (initval : Int)
  | sem_open
  | sem_op (id : Nat) (value : Int)
  | sem_close (id : Nat)

def sem_wait (id : Nat) : Call := .sem_op id (-1)

def sem_signal (id : Nat) : Call := .sem_op id 1

/-- The first system call. -/
def Call.start : Call → Pc
  | .sem_create initval => .createGet initval
  | .sem_open => .openGet
  | .sem_op id value => .opOp id value
  | .sem_close id => .closeOp id

/-- A process uses sets that it has open. -/
def Call.allowed (p : Nat) (opens : List (Nat × Nat)) : Call → Bool
  | .sem_create _ => true
  | .sem_open => true
  | .sem_op id _ => opens.contains (p, id)
  | .sem_close id => opens.contains (p, id)

inductive Act where
  | call (p : Nat) (c : Call)
  | run (p : Nat)
  | exit (p : Nat)

def act : Act → State → Option State
  | .call p c, s =>
    if (s.proc p).pc = .idle ∧ c.allowed p s.opens = true then some (s.goto p c.start) else none
  | .run p, s => runProc p s
  | .exit p, s =>
    if (s.proc p).pc = .exited then none
    else some { s.goto p .exited with
      set := s.set.map (·.exit p), opens := s.opens.filter (·.1 ≠ p) }

/-! ## What is promised -/

/-- The set whose lock a process has, between the calls that take it and give it back. -/
def Pc.lock : Pc → Option Nat
  | .createGetval _ id => some id
  | .createSet0 _ id => some id
  | .createSet1 id => some id
  | .createEnd id => some id
  | .closeGetval id => some id
  | .closeRm id => some id
  | .closeUnlock id => some id
  | _ => none

/-- Fewer than `BIGCOUNT` have the set open. -/
def Few : Act → State → Prop := fun _ s =>
  ∀ S, s.set = some S → (outstanding S.id s.opens : Int) < BIGCOUNT

/-- When a `sem_create` reads the counter, fewer than `BIGCOUNT` have the set open. -/
def FewAtCreate : Act → State → Prop
  | .run p, s => ∀ S initval, s.set = some S → (s.proc p).pc = .createGetval initval S.id →
      (outstanding S.id s.opens : Int) < BIGCOUNT
  | _, _ => True

/-- When the action removes the set, no other process has it open. -/
def SafeRemoval (a : Act) (s s' : State) : Prop :=
  ∀ p S, a = .run p → s.set = some S → s'.set = none → ∀ q, q ≠ p → (q, S.id) ∉ s.opens

/-- No `semop` of `sem_open` comes between the `GETVAL` with which a `sem_close` finds that it is
the last, and its `IPC_RMID`. -/
def NotOpenedInClose : Act → State → Prop
  | .run p, s => ∀ q id, (s.proc p).pc = .openOp id → (s.proc q).pc ≠ .closeRm id
  | _, _ => True

end LearningNotes.Semaph
