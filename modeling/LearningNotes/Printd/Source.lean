import LearningNotes.Lib.Bytes
import LearningNotes.Lib.CString
import LearningNotes.Lib.Decimal
import LearningNotes.Lib.Dlist

/-!
# `printd.c`

The print daemon as threads that take steps: the main thread (`init_request`, `build_qonstart`,
the accept loop), `printer_thread`, and a `client_thread` for each connection. A step is one
system call, one operation on the mutex or the condition variable, or what a thread does between
two of them. `Ans` is what the call answers.

Mirroring notes:
- A section under `joblock` is a step of its own between the steps that lock and unlock.
- `malloc` answers any address that is free. A call that ends the daemon when it fails
  (`log_sys`, `log_quit`) has no failing answer here: the daemon may be terminated at any point
  anyway (`Daemon.lean`).
- Files are known by their path. `write` goes to the offset of the descriptor, a local variable.
- `buf` of `client_thread` is on the stack: a new thread finds arbitrary bytes in it.
- A little-endian host.
- What `printer_thread` says to the printer is left out here, as are the configuration file, the
  list of workers (`Workers.lean`) and the texts of the log and of `res.msg`. The printer either
  takes the job (`printer_status` returns 1) or the job is deferred.
-/

namespace LearningNotes.Printd

@[simp, reducible] def USERNM_MAX : Nat := 64
@[simp, reducible] def JOBNM_MAX : Nat := 256
@[simp, reducible] def FILENMSZ : Nat := 64
@[simp, reducible] def IOBUFSZ : Nat := 8192
@[reducible] def PR_TEXT : UInt32 := 1
@[reducible] def EIO : UInt32 := 5

/-- `SPOOLDIR/JOBFILE`. -/
def jobPath : List Byte := str "/var/spool/printer/jobno"

/-! ## The request structure -/

/-- The four bytes of a `uint32_t` in memory. -/
def hostBytes (n : UInt32) : List Byte :=
  [UInt8.ofNat n.toNat, UInt8.ofNat (n.toNat / 256), UInt8.ofNat (n.toNat / 65536),
    UInt8.ofNat (n.toNat / 16777216)]

/-- The `uint32_t` that four bytes in memory are. -/
def ofHostBytes : List Byte → UInt32
  | [a, b, c, d] =>
    UInt32.ofNat (a.toNat + 256 * b.toNat + 65536 * c.toNat + 16777216 * d.toNat)
  | _ => 0

/-- `ntohl` and `htonl`. -/
def ntohl (n : UInt32) : UInt32 := ofHostBytes (hostBytes n).reverse

/-- `struct printreq`. -/
structure PrintReq where
  size : UInt32
  flags : UInt32
  usernm : { s : List Byte // s.length = USERNM_MAX }
  jobnm : { s : List Byte // s.length = JOBNM_MAX }
  deriving DecidableEq

/-- `sizeof(struct printreq)`. -/
@[simp, reducible] def REQSZ : Nat := 4 + 4 + USERNM_MAX + JOBNM_MAX

/-- The structure in memory. -/
def PrintReq.bytes (r : PrintReq) : List Byte :=
  hostBytes r.size ++ hostBytes r.flags ++ r.usernm.val ++ r.jobnm.val

/-- The structure that bytes in memory are. -/
def PrintReq.ofBytes (b : List Byte) : Option PrintReq :=
  if h : b.length = REQSZ then
    some
      { size := ofHostBytes (slice b 0 4)
        flags := ofHostBytes (slice b 4 4)
        usernm := ⟨slice b 8 USERNM_MAX, length_slice_of_le (by simp [h])⟩
        jobnm := ⟨slice b (8 + USERNM_MAX) JOBNM_MAX, length_slice_of_le (by simp [h])⟩ }
  else none

/-! ## The spool directory -/

/-- The files of a directory. -/
abbrev Dir := List (List Byte × List Byte)

namespace Dir

def get (d : Dir) (name : List Byte) : Option (List Byte) := (d.find? (·.1 = name)).map Prod.snd

/-- `unlink`. -/
def remove (d : Dir) (name : List Byte) : Dir := d.filter (·.1 ≠ name)

/-- The file has these contents. -/
def set (d : Dir) (name bytes : List Byte) : Dir := (name, bytes) :: d.remove name

/-- `write` at an offset, to a file that is open. It does not create the file. -/
def write (d : Dir) (name : List Byte) (off : Nat) (bytes : List Byte) : Dir :=
  match d.get name with
  | none => d
  | some old => d.set name (overwrite 0 old off bytes)

end Dir

/-- The name of the files of a job, `"%d"`. -/
def fileName (jobid : Int) : List Byte := decimalInt jobid

/-- `SPOOLDIR`: the directories `DATADIR` and `REQDIR` and the file `JOBFILE`. -/
structure Spool where
  data : Dir
  reqs : Dir
  jobno : List Byte

/-! ## Shared memory -/

/-- The conversion to `int32_t`. -/
def int32 (n : Int) : Int := Int.bmod n (2 ^ 32)

/-- `struct job`, without its pointers. -/
structure Job where
  jobid : Int
  req : PrintReq
  deriving DecidableEq

/-- The threads. -/
inductive Who where
  | main
  | printer
  | client (t : Nat)
  deriving DecidableEq

/-- The global variables, and whether the printer thread is blocked in `pthread_cond_wait`.
The last three fields record what has happened: the jobs that `add_job` has linked, the jobs that
`printer_thread` has freed, and the jobs that `build_qonstart` has added. -/
structure Mem where
  nextjob : Int
  jobs : Dlist Job
  joblock : Option Who
  blocked : Bool
  arrived : List Job
  gone : List Job
  requeued : List Job

/-- What is recorded of a run: that `get_newjobno` has returned a number, the response with
`retcode` 0 for a job, with the data that is in the spool then (also when it does not get through),
any other response, and that `printer_status` has returned 1 for a job. -/
inductive Out where
  | numbered (jobid : Int)
  | accepted (jobid : Int) (req : PrintReq) (data : Option (List Byte))
  | rejected (retcode : UInt32)
  | printed (jobid : Int)
  deriving DecidableEq

/-- What the threads share. -/
structure Sys where
  spool : Spool
  mem : Mem
  out : List Out

/-- `errno` after a call that has failed. -/
abbrev Errno := { e : UInt32 // e ≠ 0 }

/-- What a call answers. -/
inductive Ans where
  /-- The call does all it should. -/
  | ok
  /-- The call returns -1, or the null pointer. -/
  | fail (e : Errno)
  /-- `read` returns the next `n` bytes, or `write` writes only `n` bytes. -/
  | count (n : Nat)
  /-- `read` returns 0, or `readdir` the null pointer. -/
  | eof
  /-- `malloc` -/
  | addr (a : Nat)
  /-- `readdir` -/
  | entry (name : List Byte)
  /-- `printer_status` returns 1. -/
  | printed
  /-- The job goes to `defer`. -/
  | deferred
  /-- `pthread_cond_wait` returns without a signal. -/
  | spurious

/-! ## The job number -/

/-- The value of the counter that `init_request` reads from the job file: it reads into the
buffer that holds the path. -/
def readJobno (jobno : List Byte) : Int :=
  let bytes := jobno.take FILENMSZ
  if bytes = [] then 1 else int32 (atol (bytes ++ jobPath.drop bytes.length))

/-- `nextjob++`, and the wrap-around. -/
def Mem.bumpJobno (m : Mem) : Mem :=
  let next := int32 (m.nextjob + 1)
  { m with nextjob := if next ≤ 0 then 1 else next }

/-! ## `add_job` -/

/-- Where a thread is in `add_job`. -/
inductive Adding where
  /-- `malloc`, and the fields that are set before the lock. -/
  | malloc (job : Job)
  | lock (a : Nat)
  /-- The section: the job becomes the last one. -/
  | link (a : Nat)
  | unlock
  | signal

/-- A step of `add_job`; `none` is its end. -/
def addJob (who : Who) : Adding → Mem → Ans → Option (Option Adding × Mem)
  | .malloc job, m, .addr a =>
    if m.jobs.heap a = none then
      some (some (.lock a), { m with jobs.heap := m.jobs.heap.set a ⟨none, none, job⟩ })
    else none
  | .lock a, m, .ok =>
    if m.joblock = none then some (some (.link a), { m with joblock := some who }) else none
  | .link a, m, .ok =>
    match m.jobs.heap a, m.jobs.pushBack a with
    | some n, some jobs => some (some .unlock, { m with jobs := jobs, arrived := m.arrived ++ [n.val] })
    | _, _ => none
  | .unlock, m, .ok => some (some .signal, { m with joblock := none })
  | .signal, m, .ok => some (none, { m with blocked := false })
  | _, _, _ => none

/-! ## `client_thread` -/

/-- `tread` on a connection on which `stream` is still to come; the bytes that it returns, or
`errno` after a timeout or another error, and the rest of the stream. -/
def tread (stream : List Byte) (nbytes : Nat) : Ans → Option (Except Errno (List Byte) × List Byte)
  | .count n =>
    if 0 < n ∧ n ≤ nbytes ∧ n ≤ stream.length then
      some (.ok (stream.take n), stream.drop n)
    else none
  | .eof => some (.ok [], stream)
  | .fail e => some (.error e, stream)
  | _ => none

/-- The first block decides: a file that does not start with `%!PS` is text. -/
def PrintReq.setText (r : PrintReq) (first : Bool) (buf : List Byte) : PrintReq :=
  if first ∧ buf.take 4 ≠ str "%!PS" then { r with flags := r.flags ||| PR_TEXT } else r

/-- What a client thread unlinks after it has sent an error. -/
inductive Cleanup where
  | nothing
  | data (jobid : Int)
  | both (jobid : Int)

/-- Where a client thread is. -/
inductive Client where
  /-- `treadn` of the request, of which `got` has arrived -/
  | header (got : List Byte)
  /-- `get_newjobno` -/
  | jobLock (req : PrintReq)
  | jobInc (req : PrintReq)
  | jobUnlock (req : PrintReq) (jobid : Int)
  /-- `creat` of the data file -/
  | creatData (req : PrintReq) (jobid : Int)
  /-- the loop: `tread`, and `write` of `nr` bytes of the buffer at the offset `off` -/
  | readData (req : PrintReq) (jobid : Int) (first : Bool) (off : Nat)
  | writeData (req : PrintReq) (jobid : Int) (nr : Nat) (off : Nat)
  /-- the control file -/
  | creatReq (req : PrintReq) (jobid : Int)
  | writeReq (req : PrintReq) (jobid : Int)
  /-- the response with `retcode` 0 -/
  | reply (req : PrintReq) (jobid : Int)
  | adding (x : Adding)
  /-- a response with another `retcode`, and the cleanup -/
  | reject (retcode : UInt32) (k : Cleanup)
  | unlinkReq (jobid : Int)
  | unlinkData (jobid : Int)

/-- A connection and the buffer of its thread. -/
structure Conn where
  stream : List Byte
  buf : List Byte

/-- After the error response. -/
def Cleanup.client : Cleanup → Option Client
  | .nothing => none
  | .data jobid => some (.unlinkData jobid)
  | .both jobid => some (.unlinkReq jobid)

/-- `res.retcode` after a call has failed, or has done too little. -/
def Ans.retcode : Ans → UInt32
  | .fail e => ntohl e.val
  | _ => ntohl EIO

/-- A step of `client_thread`; the thread ends with `none`. -/
def clientThread (who : Who) (c : Client) (k : Conn) (s : Sys) (a : Ans) :
    Option (Option Client × Conn × Sys) :=
  match c with
  | .header got =>
    match tread k.stream (REQSZ - got.length) a with
    | none => none
    | some (.error e, rest) =>
      let retcode := if got = [] then ntohl e.val else ntohl EIO
      some (some (.reject retcode .nothing), { k with stream := rest }, s)
    | some (.ok new, rest) =>
      if new = [] then some (some (.reject (ntohl EIO) .nothing), { k with stream := rest }, s)
      else
        match PrintReq.ofBytes (got ++ new) with
        | none => some (some (.header (got ++ new)), { k with stream := rest }, s)
        | some req =>
          -- the request is complete, and its integers are converted
          let req := { req with size := ntohl req.size, flags := ntohl req.flags }
          some (some (.jobLock req), { k with stream := rest }, s)
  | .jobLock req =>
    if s.mem.joblock = none then
      some (some (.jobInc req), k, { s with mem.joblock := some who })
    else none
  | .jobInc req =>
    some (some (.jobUnlock req s.mem.nextjob), k,
      { s with mem := s.mem.bumpJobno, out := s.out ++ [.numbered s.mem.nextjob] })
  | .jobUnlock req jobid => some (some (.creatData req jobid), k, { s with mem.joblock := none })
  | .creatData req jobid =>
    match a with
    | .ok =>
      some (some (.readData req jobid true 0), k,
        { s with spool.data := s.spool.data.set (fileName jobid) [] })
    | .fail e => some (some (.reject (ntohl e.val) .nothing), k, s)
    | _ => none
  | .readData req jobid first off =>
    match tread k.stream IOBUFSZ a with
    | none => none
    -- an error ends the data, as its end does
    | some (.error _, rest) => some (some (.creatReq req jobid), { k with stream := rest }, s)
    | some (.ok new, rest) =>
      if new = [] then some (some (.creatReq req jobid), { k with stream := rest }, s)
      else
        -- the old bytes stay behind the new ones
        let buf := new ++ k.buf.drop new.length
        some (some (.writeData (req.setText first buf) jobid new.length off), ⟨rest, buf⟩, s)
  | .writeData req jobid nr off =>
    match a with
    | .ok =>
      some (some (.readData req jobid false (off + nr)), k,
        { s with spool.data := s.spool.data.write (fileName jobid) off (k.buf.take nr) })
    | .count n =>
      if n < nr then
        some (some (.reject (ntohl EIO) (.data jobid)), k,
          { s with spool.data := s.spool.data.write (fileName jobid) off (k.buf.take n) })
      else none
    | .fail e => some (some (.reject (ntohl e.val) (.data jobid)), k, s)
    | _ => none
  | .creatReq req jobid =>
    match a with
    | .ok =>
      some (some (.writeReq req jobid), k,
        { s with spool.reqs := s.spool.reqs.set (fileName jobid) [] })
    | .fail e => some (some (.reject (ntohl e.val) (.data jobid)), k, s)
    | _ => none
  | .writeReq req jobid =>
    match a with
    | .ok =>
      some (some (.reply req jobid), k,
        { s with spool.reqs := s.spool.reqs.write (fileName jobid) 0 req.bytes })
    | .count n =>
      if n < REQSZ then
        some (some (.reject (ntohl EIO) (.both jobid)), k,
          { s with spool.reqs := s.spool.reqs.write (fileName jobid) 0 (req.bytes.take n) })
      else none
    | .fail e => some (some (.reject (ntohl e.val) (.both jobid)), k, s)
    | _ => none
  | .reply req jobid =>
    -- whatever `writen` returns
    some (some (.adding (.malloc ⟨jobid, req⟩)), k,
      { s with out := s.out ++ [.accepted jobid req (s.spool.data.get (fileName jobid))] })
  | .adding x => (addJob who x s.mem a).map fun (x', m) => (x'.map .adding, k, { s with mem := m })
  | .reject retcode u => some (u.client, k, { s with out := s.out ++ [.rejected retcode] })
  | .unlinkReq jobid =>
    some (some (.unlinkData jobid), k,
      { s with spool.reqs := s.spool.reqs.remove (fileName jobid) })
  | .unlinkData jobid =>
    some (none, k, { s with spool.data := s.spool.data.remove (fileName jobid) })

/-! ## `printer_thread` -/

/-- Where the printer thread is; `jp` is the job it has taken from the list. -/
inductive Printer where
  | lock
  /-- the loop condition `jobhead == NULL` -/
  | test
  | waiting
  | woken
  | unlock (jp : Nat)
  /-- `update_jobno` -/
  | update (jp : Nat)
  | updateWrite (jp : Nat) (buf : List Byte)
  | openData (jp : Nat)
  | talk (jp : Nat)
  | unlinkData (jp : Nat)
  | unlinkReq (jp : Nat)
  | free (jp : Nat)
  /-- `replace_job` -/
  | deferLock (jp : Nat)
  | deferLink (jp : Nat)
  | deferUnlock
  | sleep
  deriving DecidableEq

/-- A step of `printer_thread`, which never ends. -/
def printerThread (p : Printer) (s : Sys) (a : Ans) : Option (Printer × Sys) :=
  match p with
  | .lock =>
    if s.mem.joblock = none then some (.test, { s with mem.joblock := some .printer }) else none
  | .test =>
    match s.mem.jobs.head with
    | none => some (.waiting, { s with mem.joblock := none, mem.blocked := true })
    | some jp =>
      match s.mem.jobs.erase jp with
      | none => none
      | some jobs => some (.unlock jp, { s with mem.jobs := jobs })
  | .waiting =>
    match a with
    | .ok => if s.mem.blocked then none else some (.woken, s)
    | .spurious => some (.woken, { s with mem.blocked := false })
    | _ => none
  | .woken =>
    if s.mem.joblock = none then some (.test, { s with mem.joblock := some .printer }) else none
  | .unlock jp => some (.update jp, { s with mem.joblock := none })
  | .update jp => some (.updateWrite jp (decimalInt s.mem.nextjob), s)
  | .updateWrite jp buf =>
    some (.openData jp, { s with spool.jobno := overwrite 0 s.spool.jobno 0 buf })
  | .openData jp =>
    match s.mem.jobs.heap jp, a with
    | some n, .ok => if s.spool.data.get (fileName n.val.jobid) = none then none else some (.talk jp, s)
    -- `open` or `fstat` has failed, and the job is canceled
    | some _, .fail _ => some (.free jp, s)
    | _, _ => none
  | .talk jp =>
    match s.mem.jobs.heap jp, a with
    | some n, .printed => some (.unlinkData jp, { s with out := s.out ++ [.printed n.val.jobid] })
    -- the job goes back to the front of the queue
    | some _, .deferred => some (.deferLock jp, s)
    | _, _ => none
  | .unlinkData jp =>
    match s.mem.jobs.heap jp with
    | none => none
    | some n =>
      some (.unlinkReq jp, { s with spool.data := s.spool.data.remove (fileName n.val.jobid) })
  | .unlinkReq jp =>
    match s.mem.jobs.heap jp with
    | none => none
    | some n => some (.free jp, { s with spool.reqs := s.spool.reqs.remove (fileName n.val.jobid) })
  | .free jp =>
    match s.mem.jobs.heap jp with
    | none => none
    | some n =>
      some (.lock, { s with
        mem := { s.mem with
          jobs.heap := s.mem.jobs.heap.free jp
          gone := s.mem.gone ++ [n.val] } })
  | .deferLock jp =>
    if s.mem.joblock = none then some (.deferLink jp, { s with mem.joblock := some .printer })
    else none
  | .deferLink jp =>
    match s.mem.jobs.pushFront jp with
    | none => none
    | some jobs => some (.deferUnlock, { s with mem.jobs := jobs })
  | .deferUnlock => some (.sleep, { s with mem.joblock := none })
  | .sleep => some (.lock, s)

/-! ## The main thread -/

/-- `init_request`, before there is another thread. -/
def initRequest (spool : Spool) : Mem where
  nextjob := readJobno spool.jobno
  jobs := { heap := fun _ => none, head := none, tail := none }
  joblock := none
  blocked := false
  arrived := []
  gone := []
  requeued := []

/-- Where the main thread is. In `build_qonstart`, `seen` are the entries that `readdir` has
returned, and `bytes` is what is in the file that is open. -/
inductive Main where
  | opendir
  | readdir (seen : List (List Byte))
  | openReq (seen : List (List Byte)) (name : List Byte)
  | readReq (seen : List (List Byte)) (name bytes : List Byte)
  | unlinkReq (seen : List (List Byte)) (name : List Byte)
  | unlinkData (seen : List (List Byte)) (name : List Byte)
  | adding (seen : List (List Byte)) (x : Adding)
  /-- the accept loop -/
  | accept

/-- A step of the main thread. `readdir` returns every entry once that is in the directory as
long as it is read. -/
def mainThread (p : Main) (s : Sys) (a : Ans) : Option (Main × Sys) :=
  match p with
  | .opendir =>
    match a with
    | .ok => some (.readdir [], s)
    -- no directory, no jobs
    | .fail _ => some (.accept, s)
    | _ => none
  | .readdir seen =>
    match a with
    | .entry name => if name ∈ seen then none else some (.openReq (name :: seen) name, s)
    | .eof => if s.spool.reqs.all (·.1 ∈ seen) then some (.accept, s) else none
    | _ => none
  | .openReq seen name =>
    match s.spool.reqs.get name, a with
    | some bytes, .ok => some (.readReq seen name bytes, s)
    | _, .fail _ => some (.readdir seen, s)
    | _, _ => none
  | .readReq seen name bytes =>
    match a, PrintReq.ofBytes (bytes.take REQSZ) with
    | .ok, some req =>
      -- the number of the job is the name of its file
      let job : Job := ⟨int32 (atol name), req⟩
      some (.adding seen (.malloc job), { s with mem.requeued := s.mem.requeued ++ [job] })
    -- not a whole request: the job is given up
    | .ok, none => some (.unlinkReq seen name, s)
    | .fail _, _ => some (.unlinkReq seen name, s)
    | _, _ => none
  | .unlinkReq seen name =>
    some (.unlinkData seen name, { s with spool.reqs := s.spool.reqs.remove name })
  | .unlinkData seen name =>
    some (.readdir seen, { s with spool.data := s.spool.data.remove name })
  | .adding seen x => (addJob .main x s.mem a).map fun (x', m) =>
    (match x' with | none => .readdir seen | some x => .adding seen x, { s with mem := m })
  | .accept => none

end LearningNotes.Printd
