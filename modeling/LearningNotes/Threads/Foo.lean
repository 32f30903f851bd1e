import LearningNotes.Lib.CInt
import LearningNotes.Lib.Handles
import LearningNotes.Lib.Runs
import LearningNotes.Lib.Slist

/-!
# `mutex2.c` and `mutex3.c`

Objects with a reference count in a hash table, for any number of threads. In `mutex2.c` the count
is protected by the lock of the object and the table by `hashlock`; in `mutex3.c` `hashlock`
protects both. An action is what a thread does from one lock operation to the next, or one round of
a loop; loops only run under `hashlock`. Both versions share `Memory`; `Pc` is the type of the points
at which a thread stands.

`refs` records who holds a reference to which object, and `log` what has become of the objects.

Mirroring notes:
- Memory is a function from addresses for each member of `struct foo`. `malloc` gives any address
  that is not allocated, and an access to one that is not allocated, or through the null pointer,
  is a `fault`.
- A thread calls `foo_hold` and `foo_rele` on objects to which it holds a reference. The creator's
  reference counts from when the object is in the table.
- `f_count` is an `int`: to count beyond `INT_MAX` is a `fault`, too. `Counts` is the condition on a
  step that it does not.
- A `foo_alloc` that returns `NULL` has changed nothing and is left out.
-/

namespace LearningNotes.Foo

def NHASH : Nat := 29

/-- `((unsigned long)id)%NHASH` -/
@[irreducible] def HASH (id : Int) : Nat := (id % 18446744073709551616).toNat % NHASH

/-- What happens to an object. -/
inductive Event where
  | malloc
  | link
  | unlink
  | free
  deriving DecidableEq, Repr

/-- The objects and the table, and the records. -/
structure Memory where
  allocated : Nat → Bool
  f_count : Nat → Int
  f_id : Nat → Int
  f_next : Nat → Option Nat
  fh : Nat → Option Nat
  fault : Bool
  /-- thread, object -/
  refs : List (Nat × Nat)
  log : List (Event × Nat)

namespace Memory

/-- Before the first call. -/
def start : Memory where
  allocated _ := false
  f_count _ := 0
  f_id _ := 0
  f_next _ := none
  fh _ := none
  fault := false
  refs := []
  log := []

/-- `malloc` and the initialisation before the object is in the table. -/
def malloc (m : Memory) (fp : Nat) (id : Int) : Memory :=
  { m with
    allocated := Function.update m.allocated fp true
    f_count := Function.update m.f_count fp 1
    f_id := Function.update m.f_id fp id
    log := m.log ++ [(.malloc, fp)] }

/-- `fp->f_next = fh[idx]; fh[idx] = fp;` -/
def link (m : Memory) (t fp : Nat) : Memory :=
  { m with
    f_next := Function.update m.f_next fp (m.fh (HASH (m.f_id fp)))
    fh := Function.update m.fh (HASH (m.f_id fp)) (some fp)
    refs := (t, fp) :: m.refs
    log := m.log ++ [(.link, fp)] }

/-- `fp->f_count++`: `t` has a new reference. -/
def incr (m : Memory) (t fp : Nat) : Memory :=
  { m with
    f_count := Function.update m.f_count fp (m.f_count fp + 1)
    refs := (t, fp) :: m.refs }

/-- `fp->f_count--`: `t` gives up a reference. -/
def decr (m : Memory) (t fp : Nat) : Memory :=
  { m with
    f_count := Function.update m.f_count fp (m.f_count fp - 1)
    refs := m.refs.erase (t, fp) }

/-- `t` gives up the last reference, which is not counted any more. -/
def giveUp (m : Memory) (t fp : Nat) : Memory := { m with refs := m.refs.erase (t, fp) }

/-- `fh[idx] = fp->f_next;` -/
def unlinkFirst (m : Memory) (fp : Nat) : Memory :=
  { m with
    fh := Function.update m.fh (HASH (m.f_id fp)) (m.f_next fp)
    log := m.log ++ [(.unlink, fp)] }

/-- `tfp->f_next = fp->f_next;` -/
def unlinkNext (m : Memory) (tfp fp : Nat) : Memory :=
  { m with
    f_next := Function.update m.f_next tfp (m.f_next fp)
    log := m.log ++ [(.unlink, fp)] }

/-- `free(fp);` -/
def free (m : Memory) (fp : Nat) : Memory :=
  { m with
    allocated := Function.update m.allocated fp false
    log := m.log ++ [(.free, fp)] }

end Memory

/-- The memory, the locks and the threads. -/
structure State (Pc : Type) extends Memory where
  f_lock : Nat → Option Nat
  hashlock : Option Nat
  thread : Nat → Pc

variable {Pc : Type}

namespace State

def start (idle : Pc) : State Pc := ⟨.start, fun _ => none, none, fun _ => idle⟩

/-- The memory changes to `m`. -/
def on (s : State Pc) (m : Memory) : State Pc := { s with toMemory := m }

/-- Thread `t` goes on at `pc`. -/
def goto (s : State Pc) (t : Nat) (pc : Pc) : State Pc :=
  { s with thread := Function.update s.thread t pc }

def crash (s : State Pc) : State Pc := { s with fault := true }

/-- An access to `fp->...`. -/
def access (s : State Pc) (fp : Nat) (next : State Pc) : State Pc :=
  if s.allocated fp then next else s.crash

/-- `pthread_mutex_lock(&hashlock)` -/
def lockHash (s : State Pc) (t : Nat) (next : State Pc → State Pc) : Option (State Pc) :=
  if s.hashlock = none then some (next { s with hashlock := some t }) else none

/-- `pthread_mutex_unlock(&hashlock)` -/
def unlockHash (s : State Pc) : State Pc := { s with hashlock := none }

/-- `pthread_mutex_lock(&fp->f_lock)` -/
def lock (s : State Pc) (t fp : Nat) (next : State Pc → State Pc) : Option (State Pc) :=
  if s.allocated fp = true ∧ s.f_lock fp ≠ none then none
  else some (s.access fp (next { s with f_lock := Function.update s.f_lock fp (some t) }))

/-- `pthread_mutex_unlock(&fp->f_lock)` -/
def unlock (s : State Pc) (fp : Nat) : State Pc :=
  { s with f_lock := Function.update s.f_lock fp none }

/-- `fp->f_count++` -/
def hold (s : State Pc) (t fp : Nat) (next : State Pc → State Pc) : State Pc :=
  s.access fp (if s.f_count fp < (INT_MAX : Int) then next (s.on (s.incr t fp)) else s.crash)

/-- `malloc` and `pthread_mutex_init`. -/
def create (s : State Pc) (fp : Nat) (id : Int) : State Pc :=
  { s.on (s.malloc fp id) with f_lock := Function.update s.f_lock fp none }

end State

inductive Call where
  | foo_hold (fp : Nat)
  | foo_find (id : Int)
  | foo_rele (fp : Nat)

/-- A thread uses objects to which it holds a reference. -/
def Call.allowed (t : Nat) (refs : List (Nat × Nat)) : Call → Bool
  | .foo_hold fp => refs.contains (t, fp)
  | .foo_find _ => true
  | .foo_rele fp => refs.contains (t, fp)

inductive Act where
  /-- `foo_alloc` is called, and `malloc` returns `fp` -/
  | alloc (t : Nat) (id : Int) (fp : Nat)
  | call (t : Nat) (c : Call)
  | run (t : Nat)

/-! ## `mutex2.c` -/

/-- Where a thread stands in `mutex2.c`. -/
inductive Pc2 where
  | idle
  /-- `foo_alloc`, at the lock of `hashlock` -/
  | alloc1 (fp : Nat)
  /-- with `hashlock`, up to the lock of `f_lock` -/
  | alloc2 (fp : Nat)
  /-- at the unlock of `hashlock` -/
  | alloc3 (fp : Nat)
  /-- at the unlock of `f_lock` -/
  | alloc4 (fp : Nat)
  /-- `foo_hold`, at the lock of `f_lock` -/
  | hold1 (fp : Nat)
  | hold2 (fp : Nat)
  /-- `foo_find`, at the lock of `hashlock` -/
  | find1 (id : Int)
  /-- at the head of the loop -/
  | find2 (id : Int) (fp : Option Nat)
  /-- in `foo_hold`, at the lock of `f_lock` -/
  | find3 (id : Int) (fp : Nat)
  | find4 (id : Int) (fp : Nat)
  /-- at the unlock of `hashlock` -/
  | find5
  /-- `foo_rele`, at the first lock of `f_lock` -/
  | rele1 (fp : Nat)
  /-- at the first test of `f_count` -/
  | rele2 (fp : Nat)
  /-- at the lock of `hashlock` -/
  | rele3 (fp : Nat)
  /-- at the second lock of `f_lock` -/
  | rele4 (fp : Nat)
  /-- at the recheck -/
  | rele5 (fp : Nat)
  /-- after the recheck has failed, at the unlock of `hashlock` -/
  | rele6
  /-- at the head of the loop -/
  | rele7 (fp : Nat) (tfp : Option Nat)
  /-- off the list, at the unlock of `hashlock` -/
  | rele8 (fp : Nat)
  /-- at the unlock of `f_lock` -/
  | rele9 (fp : Nat)
  /-- at `free` -/
  | rele10 (fp : Nat)
  deriving DecidableEq, Repr

/-- One step of a thread of `mutex2.c`. -/
def run2 (t : Nat) (s : State Pc2) : Option (State Pc2) :=
  match s.thread t with
  | .idle => none
  | .alloc1 fp => s.lockHash t fun s => s.goto t (.alloc2 fp)
  | .alloc2 fp => (s.on (s.link t fp)).lock t fp fun s => s.goto t (.alloc3 fp)
  | .alloc3 fp => some (s.unlockHash.goto t (.alloc4 fp))
  | .alloc4 fp => some (s.access fp ((s.unlock fp).goto t .idle))
  | .hold1 fp => s.lock t fp fun s => s.goto t (.hold2 fp)
  | .hold2 fp => some (s.hold t fp fun s => (s.unlock fp).goto t .idle)
  | .find1 id => s.lockHash t fun s => s.goto t (.find2 id (s.fh (HASH id)))
  | .find2 _ none => some (s.unlockHash.goto t .idle)
  | .find2 id (some fp) =>
    some (s.access fp (s.goto t
      (if s.f_id fp = id then .find3 id fp else .find2 id (s.f_next fp))))
  | .find3 id fp => s.lock t fp fun s => s.goto t (.find4 id fp)
  | .find4 _ fp => some (s.hold t fp fun s => (s.unlock fp).goto t .find5)
  | .find5 => some (s.unlockHash.goto t .idle)
  | .rele1 fp => s.lock t fp fun s => s.goto t (.rele2 fp)
  | .rele2 fp =>
    some (s.access fp (
      if s.f_count fp = 1 then (s.unlock fp).goto t (.rele3 fp)
      else ((s.on (s.decr t fp)).unlock fp).goto t .idle))
  | .rele3 fp => s.lockHash t fun s => s.goto t (.rele4 fp)
  | .rele4 fp => s.lock t fp fun s => s.goto t (.rele5 fp)
  | .rele5 fp =>
    some (s.access fp (
      -- the condition is checked again, now with both locks
      if s.f_count fp ≠ 1 then ((s.on (s.decr t fp)).unlock fp).goto t .rele6
      else if s.fh (HASH (s.f_id fp)) = some fp then
        (s.on ((s.unlinkFirst fp).giveUp t fp)).goto t (.rele8 fp)
      else s.goto t (.rele7 fp (s.fh (HASH (s.f_id fp))))))
  | .rele6 => some (s.unlockHash.goto t .idle)
  | .rele7 _ none => some s.crash
  | .rele7 fp (some tfp) =>
    some (s.access tfp (
      if s.f_next tfp ≠ some fp then s.goto t (.rele7 fp (s.f_next tfp))
      else s.access fp ((s.on ((s.unlinkNext tfp fp).giveUp t fp)).goto t (.rele8 fp))))
  | .rele8 fp => some (s.unlockHash.goto t (.rele9 fp))
  | .rele9 fp => some (s.access fp ((s.unlock fp).goto t (.rele10 fp)))
  | .rele10 fp => some (s.access fp ((s.on (s.free fp)).goto t .idle))

/-- Where a call starts. -/
def Call.start2 : Call → Pc2
  | .foo_hold fp => .hold1 fp
  | .foo_find id => .find1 id
  | .foo_rele fp => .rele1 fp

def act2 : Act → State Pc2 → Option (State Pc2)
  | .alloc t id fp, s =>
    if s.thread t = .idle ∧ s.allocated fp = false then some ((s.create fp id).goto t (.alloc1 fp))
    else none
  | .call t c, s =>
    if s.thread t = .idle ∧ c.allowed t s.refs = true then some (s.goto t c.start2) else none
  | .run t, s => run2 t s

/-- The object whose count is about to be raised. -/
def Pc2.counts : Pc2 → Option Nat
  | .hold2 fp | .find4 _ fp => some fp
  | _ => none

/-- No thread takes one more reference to an object to which `INT_MAX` references are held. -/
def Counts : Act → State Pc2 → Prop
  | .run t, s => ∀ fp, (s.thread t).counts = some fp → outstanding fp s.refs < INT_MAX
  | _, _ => True

instance (x : Act) (s : State Pc2) : Decidable (Counts x s) :=
  match x with
  | .run t => inferInstanceAs (Decidable (∀ fp ∈ (s.thread t).counts, outstanding fp s.refs < INT_MAX))
  | .alloc _ _ _ | .call _ _ => .isTrue trivial

/-! ## `mutex3.c` -/

/-- Where a thread stands in `mutex3.c`. -/
inductive Pc3 where
  | idle
  /-- `foo_alloc`, as in `mutex2.c` -/
  | alloc1 (fp : Nat)
  | alloc2 (fp : Nat)
  | alloc3 (fp : Nat)
  | alloc4 (fp : Nat)
  /-- `foo_hold`, at the lock of `hashlock` -/
  | hold1 (fp : Nat)
  | hold2 (fp : Nat)
  /-- `foo_find`, at the lock of `hashlock` -/
  | find1 (id : Int)
  /-- at the head of the loop -/
  | find2 (id : Int) (fp : Option Nat)
  /-- at the unlock of `hashlock` -/
  | find3
  /-- `foo_rele`, at the lock of `hashlock` -/
  | rele1 (fp : Nat)
  /-- at `--fp->f_count == 0` -/
  | rele2 (fp : Nat)
  /-- at the head of the loop -/
  | rele3 (fp : Nat) (tfp : Option Nat)
  /-- off the list, at the unlock of `hashlock` -/
  | rele4 (fp : Nat)
  /-- at `free` -/
  | rele5 (fp : Nat)
  /-- not the last reference, at the unlock of `hashlock` -/
  | rele6
  deriving DecidableEq, Repr

/-- One step of a thread of `mutex3.c`. -/
def run3 (t : Nat) (s : State Pc3) : Option (State Pc3) :=
  match s.thread t with
  | .idle => none
  | .alloc1 fp => s.lockHash t fun s => s.goto t (.alloc2 fp)
  | .alloc2 fp => (s.on (s.link t fp)).lock t fp fun s => s.goto t (.alloc3 fp)
  | .alloc3 fp => some (s.unlockHash.goto t (.alloc4 fp))
  | .alloc4 fp => some (s.access fp ((s.unlock fp).goto t .idle))
  | .hold1 fp => s.lockHash t fun s => s.goto t (.hold2 fp)
  | .hold2 fp => some (s.hold t fp fun s => s.unlockHash.goto t .idle)
  | .find1 id => s.lockHash t fun s => s.goto t (.find2 id (s.fh (HASH id)))
  | .find2 _ none => some (s.unlockHash.goto t .idle)
  | .find2 id (some fp) =>
    if s.f_id fp = id then some (s.hold t fp fun s => s.goto t .find3)
    else some (s.access fp (s.goto t (.find2 id (s.f_next fp))))
  | .find3 => some (s.unlockHash.goto t .idle)
  | .rele1 fp => s.lockHash t fun s => s.goto t (.rele2 fp)
  | .rele2 fp =>
    let s' := s.on (s.decr t fp)
    some (s.access fp (
      if s'.f_count fp ≠ 0 then s'.goto t .rele6
      else if s'.fh (HASH (s'.f_id fp)) = some fp then (s'.on (s'.unlinkFirst fp)).goto t (.rele4 fp)
      else s'.goto t (.rele3 fp (s'.fh (HASH (s'.f_id fp))))))
  | .rele3 _ none => some s.crash
  | .rele3 fp (some tfp) =>
    some (s.access tfp (
      if s.f_next tfp ≠ some fp then s.goto t (.rele3 fp (s.f_next tfp))
      else s.access fp ((s.on (s.unlinkNext tfp fp)).goto t (.rele4 fp))))
  | .rele4 fp => some (s.unlockHash.goto t (.rele5 fp))
  | .rele5 fp => some (s.access fp ((s.on (s.free fp)).goto t .idle))
  | .rele6 => some (s.unlockHash.goto t .idle)

def Call.start3 : Call → Pc3
  | .foo_hold fp => .hold1 fp
  | .foo_find id => .find1 id
  | .foo_rele fp => .rele1 fp

def act3 : Act → State Pc3 → Option (State Pc3)
  | .alloc t id fp, s =>
    if s.thread t = .idle ∧ s.allocated fp = false then some ((s.create fp id).goto t (.alloc1 fp))
    else none
  | .call t c, s =>
    if s.thread t = .idle ∧ c.allowed t s.refs = true then some (s.goto t c.start3) else none
  | .run t, s => run3 t s

end LearningNotes.Foo
