import LearningNotes.Lib.Bytes
import LearningNotes.Lib.CString
import LearningNotes.Lib.Prog
import LearningNotes.Lib.RangeLock

/-!
# The operating system `db.c` runs on

The state shared by all processes that have the database open: the bytes of the
index file and of the data file, and the table of record locks. The operations are
the system calls of `db.c` on that state. A file offset belongs to a descriptor and
a descriptor to one process, so `lseek` is no operation here: the offsets live in
the process's `DB` (`Source.lean`), and `read` and `write` carry the offset they
act at. `size` is what `lseek(fd, 0, SEEK_END)` and `fstat` ask for.

Each operation is atomic. `lock` is `fcntl(F_SETLKW)` through `readw_lock` and
`writew_lock`, and has to wait while another process holds a conflicting lock;
everything else succeeds. A `len` of `0` is a range up to the end of the file.
-/

namespace LearningNotes.Db

abbrev Pid := Nat

/-- The two descriptors of a handle. -/
inductive Fd where
  | idxfd
  | datfd
  deriving DecidableEq, Repr

/-- The files and the locks. -/
structure OS where
  idx : List Byte
  dat : List Byte
  locks : List (RangeLock Pid Fd)

/-- The system calls. -/
inductive Op where
  /-- `open`, with or without `O_TRUNC`. -/
  | openf (fd : Fd) (trunc : Bool)
  | size (fd : Fd)
  | read (fd : Fd) (off n : Nat)
  | write (fd : Fd) (off : Nat) (bytes : List Byte)
  | lock (fd : Fd) (type : LockType) (off len : Nat)
  | unlock (fd : Fd) (off len : Nat)

/-- What a system call answers. -/
@[reducible] def Res : Op → Type
  | .openf _ _ => Unit
  | .size _ => Nat
  | .read _ _ _ => List Byte
  | .write _ _ _ => Unit
  | .lock _ _ _ _ => Unit
  | .unlock _ _ _ => Unit

/-- The end of a locked range; `len = 0` means no end. -/
def lockStop (off len : Nat) : Option Nat := if len = 0 then none else some (off + len)

namespace OS

/-- The contents of a file. -/
def file (os : OS) : Fd → List Byte
  | .idxfd => os.idx
  | .datfd => os.dat

/-- Replace the contents of a file. -/
def setFile (os : OS) (fd : Fd) (bytes : List Byte) : OS :=
  match fd with
  | .idxfd => { os with idx := bytes }
  | .datfd => { os with dat := bytes }

@[simp] theorem file_idxfd (os : OS) : os.file .idxfd = os.idx := rfl
@[simp] theorem file_datfd (os : OS) : os.file .datfd = os.dat := rfl
@[simp] theorem setFile_idxfd (os : OS) (b : List Byte) :
    os.setFile .idxfd b = { os with idx := b } := rfl
@[simp] theorem setFile_datfd (os : OS) (b : List Byte) :
    os.setFile .datfd b = { os with dat := b } := rfl

end OS

/-- One system call of process `p`; `none` while it has to wait. -/
def sysStep (p : Pid) : (o : Op) → OS → Option (Res o × OS)
  | .openf fd trunc, os => some ((), if trunc then os.setFile fd [] else os)
  | .size fd, os => some ((os.file fd).length, os)
  | .read fd off n, os => some (slice (os.file fd) off n, os)
  | .write fd off bytes, os => some ((), os.setFile fd (overwrite 0 (os.file fd) off bytes))
  | .lock fd type off len, os =>
    match RangeLock.acquire os.locks p fd type off (lockStop off len) with
    | none => none
    | some locks => some ((), { os with locks := locks })
  | .unlock fd off len, os =>
    some ((), { os with locks := RangeLock.clip os.locks p fd off (lockStop off len) })

theorem sysStep_lock {p : Pid} {fd : Fd} {type : LockType} {off len : Nat} {os : OS}
    {locks : List (RangeLock Pid Fd)}
    (h : RangeLock.acquire os.locks p fd type off (lockStop off len) = some locks) :
    sysStep p (.lock fd type off len) os = some ((), { os with locks := locks }) := by
  simp only [sysStep, h]

/-- A process is alone: every lock is its own. -/
def Alone (p : Pid) (os : OS) : Prop := ∀ l ∈ os.locks, l.owner = p

/-- Alone, a process never waits and stays alone. -/
theorem alone_step {p : Pid} (o : Op) (os : OS) (h : Alone p os) :
    ∃ r os', sysStep p o os = some (r, os') ∧ Alone p os' := by
  have hclip : ∀ fd start stop, ∀ l ∈ RangeLock.clip os.locks p fd start stop, l.owner = p := by
    intro fd start stop l hl
    obtain ⟨l₀, hl₀, ho⟩ := RangeLock.owner_of_mem_clip hl
    exact ho.trans (h l₀ hl₀)
  cases o with
  | openf fd trunc =>
    refine ⟨_, _, rfl, ?_⟩
    cases trunc <;> cases fd <;> exact h
  | size fd => exact ⟨_, _, rfl, h⟩
  | read fd off n => exact ⟨_, _, rfl, h⟩
  | write fd off bytes =>
    refine ⟨_, _, rfl, ?_⟩
    cases fd <;> exact h
  | lock fd type off len =>
    obtain ⟨locks, hacq, halone⟩ := RangeLock.acquire_of_alone h fd type off (lockStop off len)
    exact ⟨_, _, sysStep_lock hacq, halone⟩
  | unlock fd off len => exact ⟨_, _, rfl, hclip _ _ _⟩

end LearningNotes.Db
