import LearningNotes.Lib.Bytes
import LearningNotes.Lib.CInt
import LearningNotes.Lib.CString

/-!
# `fmemopen.c`

A stream whose contents are a buffer in memory, function by function.

Mirroring notes:
- `buf` is the memory behind the pointer. An access outside of it is no result at all
  (`none`); the theorems show that it never happens.
- `rsize`, `vsize` and `curpos` are `size_t` and `off`, `nr` and `nw` are `int`, with the
  conversions written out.
- Whether `malloc` and `funopen` succeed, and what is in memory that `malloc` returns, is a
  parameter (`Sys`).
- `mstream_close` only frees and has no counterpart.
-/

namespace LearningNotes.Stream

/-- `struct memstream`. -/
structure Memstream where
  buf : List Byte
  rsize : Nat
  vsize : Nat
  curpos : Nat
  flags : Nat

@[reducible] def MS_READ : Nat := 0x01
@[reducible] def MS_WRITE : Nat := 0x02
@[reducible] def MS_APPEND : Nat := 0x04
@[reducible] def MS_TRUNCATE : Nat := 0x08
@[reducible] def MS_MYBUF : Nat := 0x10

inductive Errno where
  | EINVAL
  | ENOMEM
  | EBADF
  deriving DecidableEq, Repr

/-! ## Memory -/

/-- `n` bytes at `off`. -/
def load (mem : List Byte) (off : Int) (n : Nat) : Option (List Byte) :=
  if 0 ≤ off ∧ off + n ≤ mem.length then some (slice mem off.toNat n) else none

/-- Put bytes at `off`. -/
def store (mem : List Byte) (off : Int) (bytes : List Byte) : Option (List Byte) :=
  if 0 ≤ off ∧ off + bytes.length ≤ mem.length then some (overwrite 0 mem off.toNat bytes)
  else none

/-! ## Opening -/

/-- The loop of `type_to_flags`. -/
def typeLoop (flags : Nat) : List Byte → Nat
  | [] => flags
  | c :: cp =>
    if c = 'r'.toUInt8 then
      if flags ≠ 0 then 0 else typeLoop (flags ||| MS_READ) cp
    else if c = 'w'.toUInt8 then
      if flags ≠ 0 then 0 else typeLoop (flags ||| (MS_WRITE ||| MS_TRUNCATE)) cp
    else if c = 'a'.toUInt8 then
      if flags ≠ 0 then 0 else typeLoop (flags ||| MS_APPEND) cp
    else if c = '+'.toUInt8 then
      if flags = 0 then 0 else typeLoop (flags ||| (MS_READ ||| MS_WRITE)) cp
    else if c = 'b'.toUInt8 then
      if flags = 0 then 0 else typeLoop flags cp
    else
      0

/-- `type_to_flags`; `0` is an error. -/
def typeToFlags (type : CString) : Nat := typeLoop 0 type.val

/-- The loop of `find_end`, at offset `off`. -/
def findEnd : Nat → List Byte → Nat
  | off, [] => off
  | off, c :: buf => if c = 0 then off else findEnd (off + 1) buf

/-- What the system does for `fmemopen`: `malloc` of the structure, `malloc` of the buffer,
and `funopen`. -/
structure Sys where
  ms : Bool
  buf : Option (List Byte)
  funopen : Bool

/-- `fmemopen`: the stream behind the `FILE`. If `funopen` fails, nobody has set `errno` here. -/
def fmemopen (sys : Sys) (buf : Option (List Byte)) (size : Nat) (type : CString) :
    Except (Option Errno) Memstream :=
  if size = 0 then .error (some .EINVAL)
  else if ¬ sys.ms then .error (some .ENOMEM)
  else
    let flags := typeToFlags type
    if flags = 0 then .error (some .EINVAL)
    else
      let opened (mem : List Byte) (curpos flags : Nat) : Except (Option Errno) Memstream :=
        let vsize :=
          if flags &&& MS_APPEND ≠ 0 then curpos
          else if flags &&& MS_TRUNCATE ≠ 0 then 0
          else size
        if sys.funopen then .ok ⟨mem, size, vsize, curpos, flags⟩ else .error none
      match buf with
      | none =>
        if flags &&& (MS_READ ||| MS_WRITE) ≠ (MS_READ ||| MS_WRITE) then .error (some .EINVAL)
        else
          match sys.buf with
          | none => .error (some .ENOMEM)
          | some mem => opened mem 0 (flags ||| MS_MYBUF)
      | some mem => opened mem (if flags &&& MS_APPEND ≠ 0 then findEnd 0 mem else 0) flags

/-! ## Reading, writing and seeking -/

/-- What a call returns: the `int` or the position, the bytes it has put into the caller's
buffer, and `errno` if it has set it. -/
structure Ret where
  ret : Int
  data : List Byte := []
  errno : Option Errno := none
  deriving DecidableEq

/-- The third argument of `mstream_seek`. -/
inductive Whence where
  | seekSet
  | seekEnd
  | seekCur
  deriving DecidableEq, Repr

/-- `mstream_read`. -/
def mstreamRead (ms : Memstream) (len : Int) : Option (Ret × Memstream) :=
  if ms.flags &&& MS_READ = 0 then some ({ ret := -1, errno := some .EBADF }, ms)
  else if ms.curpos ≥ ms.vsize then some ({ ret := 0 }, ms)
  else do
    let nr := cint (min (csize len) (ms.vsize - ms.curpos) : Nat)
    let bytes ← load ms.buf ms.curpos (csize nr)
    return ({ ret := nr, data := bytes }, { ms with curpos := csize (ms.curpos + nr) })

/-- The zero byte of `mstream_write` behind data that has made the stream longer. -/
def endUpdate (ms : Memstream) (buf : List Byte) (curpos vsize : Nat) : Option (List Byte) :=
  if curpos > ms.vsize ∧
      ms.flags &&& (MS_READ ||| MS_WRITE) = (MS_READ ||| MS_WRITE) ∧ vsize < ms.rsize then
    store buf vsize [0]
  else some buf

/-- The zero byte of `mstream_write` in a stream that cannot be read. -/
def endWrite (ms : Memstream) (buf : List Byte) (curpos : Nat) : Option (List Byte) :=
  if ms.flags &&& (MS_WRITE ||| MS_APPEND) ≠ 0 ∧ ms.flags &&& MS_READ = 0 then
    if curpos < ms.rsize then store buf curpos [0] else store buf (csize (ms.rsize - 1)) [0]
  else some buf

/-- `mstream_write` of all of `data`. -/
def mstreamWrite (ms : Memstream) (data : List Byte) : Option (Ret × Memstream) :=
  if ms.flags &&& (MS_APPEND ||| MS_WRITE) = 0 then some ({ ret := -1, errno := some .EBADF }, ms)
  else do
    let off := cint (if ms.flags &&& MS_APPEND ≠ 0 then ms.vsize else ms.curpos : Nat)
    let nw := cint (min (csize data.length) (csize (ms.rsize - off)) : Nat)
    let bytes ← load data 0 (csize nw)
    let buf ← store ms.buf off bytes
    let curpos := csize (off + nw)
    let vsize := if curpos > ms.vsize then curpos else ms.vsize
    let buf ← endUpdate ms buf curpos vsize
    let buf ← endWrite ms buf curpos
    return ({ ret := nw }, { ms with buf := buf, vsize := vsize, curpos := curpos })

/-- The `switch` of `mstream_seek`: `off`. -/
def Memstream.off (ms : Memstream) (pos : Int) : Whence → Int
  | .seekSet => cint pos
  | .seekEnd => cint (csize (ms.vsize + pos))
  | .seekCur => cint (csize (ms.curpos + pos))

/-- `mstream_seek`. -/
def mstreamSeek (ms : Memstream) (pos : Int) (whence : Whence) : Ret × Memstream :=
  let off := ms.off pos whence
  if off < 0 ∨ csize off > ms.vsize then ({ ret := -1, errno := some .EINVAL }, ms)
  else ({ ret := off }, { ms with curpos := csize off })

/-! ## Calls -/

/-- A call that `stdio` makes. -/
inductive Call where
  | read (len : Int)
  | write (data : List Byte)
  | seek (pos : Int) (whence : Whence)
  deriving DecidableEq

def Call.exec (ms : Memstream) : Call → Option (Ret × Memstream)
  | .read len => mstreamRead ms len
  | .write data => mstreamWrite ms data
  | .seek pos whence => some (mstreamSeek ms pos whence)

/-- The calls one after the other. -/
def run : List Call → Memstream → Option (List Ret × Memstream)
  | [], ms => some ([], ms)
  | c :: cs, ms => do
    let (r, ms) ← c.exec ms
    let (rs, ms) ← run cs ms
    return (r :: rs, ms)

end LearningNotes.Stream
