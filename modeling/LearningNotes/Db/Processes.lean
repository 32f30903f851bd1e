import LearningNotes.Db.Source
import LearningNotes.Lib.Pool

/-!
# Processes that use the library

Any number of processes, each with a handle of its own, that call the library one call after the
other. Their system calls interleave in any way the locks allow.
-/

namespace LearningNotes.Db

/-- The library as a machine. A process that ends loses its locks. -/
def library : Machine Pid Op Res Fatal OS Call Ret DB where
  step := sysStep
  code := fun c db => c.prog.run db
  leave := fun p os => { os with locks := RangeLock.releaseAll os.locks p }

/-- What happens when processes use the library. -/
abbrev Happening := Event Pid Op Fatal Call Ret

/-- Processes that use the library. -/
abbrev Processes := Pool Pid Op Res Fatal OS Call Ret DB

/-- The configurations that are reached when the processes, with the handles `db`, start on the
files `os` and make the calls that `ok` admits for each of them. -/
def ReachedBy (ok : Pid → Call → Prop) (os : OS) (db : Pid → DB) (s : Processes) : Prop :=
  library.Reach ok (Pool.start os db) s

/-- The same when all of them may make the same calls. -/
def Reached (ok : Call → Prop) (os : OS) (db : Pid → DB) (s : Processes) : Prop :=
  library.Reach (fun _ => ok) (Pool.start os db) s

end LearningNotes.Db
