import LearningNotes.Lib.Bytes
import LearningNotes.Lib.CString
import LearningNotes.Lib.Runs

/-!
# `rot13c2.c`

A file is translated with asynchronous I/O: eight buffers, each of which is read into, translated,
and written from. An action is one round of the loop through the buffers, what follows that loop,
or that the kernel completes a request that is pending, in any order.

`reads`, `translated` and `written` record the offsets of the blocks whose read has been asked for,
that have been translated, and whose write has been found complete.

Mirroring notes:
- A read of a regular file gives as many bytes as there are, up to `aio_nbytes`; a write may be
  short; both may fail. The kernel fills and reads a buffer when it completes the request, as the
  program does not touch it before.
- The exits of `err_sys`, `err_exit` and `err_quit` are `failed`. The calls that only start a
  request, `aio_suspend` and `aio_return` succeed.
- `off` is an `off_t`: there is no next step when it would overflow.
- What follows the main loop is left out; `finished` is where the program leaves it.
-/

namespace LearningNotes.Advio

@[reducible] def BSZ : Nat := 4096
@[reducible] def NBUF : Nat := 8

/-- The largest `off_t`. -/
@[irreducible] def OFF_MAX : Nat := 9223372036854775807

/-- `isalpha`, in the C locale. -/
def isalpha (c : Byte) : Bool := 65 ≤ c && c ≤ 90 || 97 ≤ c && c ≤ 122

def translate (c : Byte) : Byte :=
  if isalpha c then
    if 110 ≤ c then c - 13
    else if 97 ≤ c then c + 13
    else if 78 ≤ c then c - 13
    else c + 13
  else c

/-- `enum rwop` -/
inductive Rwop where
  | UNUSED
  | READ_PENDING
  | WRITE_PENDING
  deriving DecidableEq, Repr

/-- What `aio_error` and `aio_return` tell. -/
inductive Status where
  | inProgress
  | error
  | done (n : Nat)
  deriving DecidableEq, Repr

/-- `struct buf`, with its request. -/
structure Buf where
  op : Rwop
  last : Bool
  aio_offset : Nat
  aio_nbytes : Nat
  status : Status
  data : List Byte

inductive Failure where
  | read
  | write
  | shortRead
  | shortWrite
  deriving DecidableEq, Repr

inductive Pc where
  /-- at buffer `i` -/
  | sweep (i : Nat)
  /-- behind the loop through the buffers -/
  | behind
  /-- in `aio_suspend` -/
  | suspended
  | finished
  | failed (f : Failure)
  deriving DecidableEq, Repr

structure State where
  pc : Pc
  off : Nat
  bufs : List Buf
  numop : Int
  /-- which entries of `aiolist` are not null -/
  aiolist : List Bool
  /-- the output file -/
  out : List Byte
  reads : List Nat
  translated : List Nat
  written : List Nat

/-- Before the main loop; what is in `data` is of no matter. -/
def init : State where
  pc := .sweep 0
  off := 0
  bufs := List.replicate NBUF ⟨.UNUSED, false, 0, 0, .inProgress, List.replicate BSZ 0⟩
  numop := 0
  aiolist := List.replicate NBUF false
  out := []
  reads := []
  translated := []
  written := []

/-- The next round of the loop through the buffers. -/
def nextBuf (i : Nat) : Pc := if i + 1 < NBUF then .sweep (i + 1) else .behind

def State.fail (s : State) (f : Failure) : State := { s with pc := .failed f }

/-- `case UNUSED` -/
def startRead (size : Nat) (s : State) (i : Nat) (b : Buf) : Option State :=
  if s.off < size then
    if s.off + BSZ ≤ OFF_MAX then
      some { s with
        pc := nextBuf i
        off := s.off + BSZ
        bufs := s.bufs.set i { b with
          op := .READ_PENDING
          aio_offset := s.off
          last := b.last || size ≤ s.off + BSZ
          aio_nbytes := BSZ
          status := .inProgress }
        aiolist := s.aiolist.set i true
        numop := s.numop + 1
        reads := s.reads ++ [s.off] }
    -- `off` overflows
    else none
  else some { s with pc := nextBuf i }

/-- `case READ_PENDING` -/
def readDone (s : State) (i : Nat) (b : Buf) : State :=
  match b.status with
  | .inProgress => { s with pc := nextBuf i }
  | .error => s.fail .read
  | .done n =>
    -- only the last block may be short
    if n ≠ BSZ ∧ b.last = false then s.fail .shortRead
    else { s with
      pc := nextBuf i
      bufs := s.bufs.set i { b with
        data := (b.data.take n).map translate ++ b.data.drop n
        op := .WRITE_PENDING
        aio_nbytes := n
        status := .inProgress }
      translated := s.translated ++ [b.aio_offset] }

/-- `case WRITE_PENDING` -/
def writeDone (s : State) (i : Nat) (b : Buf) : State :=
  match b.status with
  | .inProgress => { s with pc := nextBuf i }
  | .error => s.fail .write
  | .done n =>
    if n ≠ b.aio_nbytes then s.fail .shortWrite
    else { s with
      pc := nextBuf i
      bufs := s.bufs.set i { b with op := .UNUSED }
      aiolist := s.aiolist.set i false
      numop := s.numop - 1
      written := s.written ++ [b.aio_offset] }

/-- One round of the loop through the buffers. -/
def visit (size : Nat) (s : State) (i : Nat) : Option State :=
  (s.bufs[i]?).bind fun b =>
    match b.op with
    | .UNUSED => startRead size s i b
    | .READ_PENDING => some (readDone s i b)
    | .WRITE_PENDING => some (writeDone s i b)

/-- A request in `aiolist` is complete. -/
def someDone (s : State) : Bool :=
  (s.bufs.zip s.aiolist).any fun x => x.2 && x.1.status ≠ .inProgress

/-- One step of the program. -/
def run (size : Nat) (s : State) : Option State :=
  match s.pc with
  | .sweep i => visit size s i
  | .behind =>
    if s.numop = 0 then some { s with pc := if size ≤ s.off then .finished else .sweep 0 }
    else some { s with pc := .suspended }
  | .suspended => if someDone s then some { s with pc := .sweep 0 } else none
  | .finished => none
  | .failed _ => none

/-- `write` at an offset. -/
def pwrite (out : List Byte) (off : Nat) (data : List Byte) : List Byte :=
  if data = [] then out else overwrite 0 out off data

inductive Act where
  | run
  /-- the kernel completes the request of buffer `i`; a write has written `n` bytes -/
  | complete (i n : Nat)
  /-- the request of buffer `i` fails -/
  | error (i : Nat)

/-- The request of buffer `i` is completed. -/
def complete (input : List Byte) (s : State) (i n : Nat) (b : Buf) : Option State :=
  match b.op with
  | .UNUSED => none
  | .READ_PENDING =>
    let bytes := slice input b.aio_offset b.aio_nbytes
    some { s with bufs := s.bufs.set i { b with
      data := overwrite 0 b.data 0 bytes, status := .done bytes.length } }
  | .WRITE_PENDING =>
    if n ≤ b.aio_nbytes then
      some { s with
        bufs := s.bufs.set i { b with status := .done n }
        out := pwrite s.out b.aio_offset (b.data.take n) }
    else none

def act (input : List Byte) : Act → State → Option State
  | .run, s => run input.length s
  | .complete i n, s =>
    (s.bufs[i]?).bind fun b => if b.status = .inProgress then complete input s i n b else none
  | .error i, s =>
    (s.bufs[i]?).bind fun b =>
      if b.op ≠ .UNUSED ∧ b.status = .inProgress then
        some { s with bufs := s.bufs.set i { b with status := .error } }
      else none

/-! ## What is promised -/

/-- The other letter of the pair, 13 places further in the alphabet. -/
def rot13 (c : Byte) : Byte :=
  if 97 ≤ c ∧ c ≤ 122 then 97 + (c - 97 + 13) % 26
  else if 65 ≤ c ∧ c ≤ 90 then 65 + (c - 65 + 13) % 26
  else c

/-- The offsets of the blocks of a file. -/
def blocks (size : Nat) : List Nat := (List.range ((size + (BSZ - 1)) / BSZ)).map (· * BSZ)

/-- How many buffers are not `UNUSED`. -/
def busy (bufs : List Buf) : Nat := bufs.countP (·.op ≠ .UNUSED)

end LearningNotes.Advio
