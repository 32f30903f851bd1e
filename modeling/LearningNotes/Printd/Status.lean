import LearningNotes.Printd.Source
import LearningNotes.Lib.CString
import LearningNotes.Lib.Decimal

/-!
# `printer_status` and `readmore`

The answer of the printer is read into a buffer that grows, and is looked through in place. A state
is one of the three places that the program comes back to: the `while` that reads a response, the
`for (;;)` that looks for the `Content-Length`, and the `while (!found)` that looks for the end of
the header; `round` is one round of the loop that it is in.

Mirroring notes:
- Offsets into the buffer stand for pointers. `cp` is always `&bp[i]` where both are in use, and is
  `i` here.
- A buffer is in memory, which has other bytes behind it, up to `limit`; what is behind `limit`
  cannot be accessed, and ends the program (`fault`). What a new buffer and the memory behind it
  hold is not known.
- The printer's bytes come in pieces, of which a read gives no more than was asked for; behind the
  last one `tread` gives 0 or -1, which is the same to its callers. `bsz-off` is a `size_t` to
  `tread`, and a huge one when it is negative.
- The arithmetic of `int` does not overflow: `i` and `datsz` are below 2³¹ when less than 2²⁹ bytes
  of memory can be accessed from `bp` on (`rounds_counters`). What `atoi` returns is an `int`.
- `log_msg(bp)` has the response as its format. With a conversion in it, `vsnprintf` has no argument,
  and it is not known whether it returns; if it does, it has left the buffer alone.
- `malloc` and `realloc` succeed. The other messages to the log are left out; `reason` is a string
  that ends where the loop for it has stopped.
-/

namespace LearningNotes.Printd

/-- What the program finds in memory that it has not written: at the `k`-th place where the buffer
has been, and how much there is behind the buffer there. -/
structure Junk where
  byte : Nat → Nat → Byte
  extra : Nat → Nat
  /-- Whether `vsnprintf` returns when it has no arguments for its format; there is at most one such
  call with the same pieces still to come. -/
  returns : List (List Byte) → Bool

structure Buf where
  mem : Nat → Byte
  bufsz : Nat
  limit : Nat
  /-- how often the buffer has been moved -/
  moves : Nat

/-- `bp = malloc(IOBUFSZ)` -/
def Junk.malloc (e : Junk) : Buf := ⟨e.byte 0, IOBUFSZ, IOBUFSZ + e.extra 0, 0⟩

/-- `realloc`, with `IOBUFSZ` bytes more. -/
def Junk.grow (e : Junk) (b : Buf) : Buf where
  mem j := if j < b.bufsz then b.mem j else e.byte (b.moves + 1) j
  bufsz := b.bufsz + IOBUFSZ
  limit := b.bufsz + IOBUFSZ + e.extra (b.moves + 1)
  moves := b.moves + 1

namespace Buf

variable (b : Buf)

/-- `bp[j]` -/
def get (j : Nat) : Option Byte := if j < b.limit then some (b.mem j) else none

/-- `bp[j] = c` -/
def set (j : Nat) (c : Byte) : Option Buf :=
  if j < b.limit then some { b with mem := fun k => if k = j then c else b.mem k } else none

/-- The bytes that a read puts at `off`. -/
def store (off : Nat) (bytes : List Byte) : Option Buf :=
  if off + bytes.length ≤ b.limit then
    some { b with mem := fun k =>
      if off ≤ k ∧ k < off + bytes.length then bytes.getD (k - off) 0 else b.mem k }
  else none

/-- The bytes from `p` up to `q`. -/
def bytes (p q : Nat) : List Byte := (List.range' p (q - p)).map b.mem

/-- From `j` on, to the first byte that does not pass the test, among the next `n`. -/
def skipFrom (pass : Nat → Byte → Bool) : Nat → Nat → Option Nat
  | 0, _ => none
  | n + 1, j => if pass j (b.mem j) then skipFrom pass n (j + 1) else some j

/-- `while (pass) cp++` -/
def skip (pass : Nat → Byte → Bool) (j : Nat) : Option Nat := b.skipFrom pass (b.limit - j) j

/-- `strncasecmp(cp, s, strlen(s)) == 0`, for a lower-case `s`; up to the first difference. -/
def startsWith : Nat → List Byte → Option Bool
  | _, [] => some true
  | j, c :: s => do
    let x ← b.get j
    if (if 65 ≤ x ∧ x ≤ 90 then x + 32 else x) = c then startsWith (j + 1) s else some false

/-- `*cp == '\n' && *(cp + 1) == '\r' && *(cp + 2) == '\n'` -/
def isEnd (j : Nat) : Option Bool := do
  let x ← b.get j
  if x ≠ 10 then some false
  else do
    let y ← b.get (j + 1)
    if y ≠ 13 then some false
    else do
      let z ← b.get (j + 2)
      some (z = 10)

end Buf

/-- `tread` of at most `n` bytes, or of any number. -/
def recv : List (List Byte) → Option Nat → Option (List Byte × List (List Byte))
  | [], _ => none
  | [] :: cs, n => recv cs n
  | (c :: bs) :: cs, none => some (c :: bs, cs)
  | (_ :: _) :: _, some 0 => none
  | (c :: bs) :: cs, some (n + 1) => some (c :: bs.take n, bs.drop n :: cs)

/-- The buffer, what the printer will send, the offset `i`, and where the data ends. -/
structure View where
  b : Buf
  chunks : List (List Byte)
  i : Nat
  datsz : Nat

/-- `readmore` at `i`, and `datsz += nr`; no view if it has failed. -/
def readmore (e : Junk) (v : View) : Option (Option View) :=
  let b := if v.b.bufsz ≤ v.i then e.grow v.b else v.b
  match recv v.chunks (if v.i ≤ b.bufsz then some (b.bufsz - v.i) else none) with
  | none => some none
  | some (bytes, chunks) =>
    (b.store v.i bytes).map fun b => some ⟨b, chunks, v.i, v.datsz + (v.i + bytes.length)⟩

/-- `if (i >= datsz)`: get more header. -/
def moreHeader (e : Junk) (v : View) : Option (Option View) :=
  if v.datsz ≤ v.i then readmore e v else some (some v)

inductive State where
  /-- `while ((nr = tread(sfd, bp, bufsz, 5)) > 0)` -/
  | reading (b : Buf) (chunks : List (List Byte))
  /-- `for (;;)` -/
  | searching (v : View)
  /-- `while (!found)`, with `found` 0 -/
  | ending (v : View) (len : Int)
  | done (success : Bool)
  | fault

def HTTP_INFO (x : Int) : Bool := 100 ≤ x && x ≤ 199
def HTTP_SUCCESS (x : Int) : Bool := 200 ≤ x && x ≤ 299
def STATCLASS_OK (x : Nat) : Bool := x ≤ 255

/-- The rest of a round, if readmore has not failed. -/
def orOut (f : View → Option State) : Option View → Option State
  | none => some (.done false)
  | some v => f v

/-- `log_msg(bp)` -/
def logMsg (e : Junk) (b : Buf) (chunks : List (List Byte)) : Option Unit := do
  let nul ← b.skip (fun _ c => c ≠ 0) 0
  if plainFormat (b.bytes 0 nul) || e.returns chunks then some () else none

/-- The status line, of a response of which `datsz` bytes have been read. -/
def statusLine (e : Junk) (b : Buf) (chunks : List (List Byte)) (datsz : Nat) : Option State := do
  let statcode ← b.skip (fun _ c => isSpace c) 8
  let cp ← b.skip (fun _ c => isDigit c) statcode
  if cp = statcode then (logMsg e b chunks).map fun _ => .reading b chunks
  else do
    let code := (atoi (b.bytes statcode cp)).toInt
    let b ← b.set cp 0
    let cp ← b.skip (fun _ c => c ≠ 13 && c ≠ 10) (cp + 1)
    let b ← b.set cp 0
    if HTTP_INFO code then some (.reading b chunks)
    else if HTTP_SUCCESS code then some (.searching ⟨b, chunks, cp, datsz⟩)
    else do
      let _ ← b.set datsz 0
      some (.done false)

/-- The header has been found: its number, and more of the header if that was at the end. -/
def contentLength (e : Junk) (v : View) : Option State := do
  let contentlen ← v.b.skip (fun _ c => isSpace c) (v.i + 15)
  let cp ← v.b.skip (fun _ c => isDigit c) contentlen
  let len := (atoi (v.b.bytes contentlen cp)).toInt
  let b ← v.b.set cp 0
  let m ← moreHeader e { v with b := b, i := cp + 1 }
  orOut (fun v => some (.ending v len)) m

def search (e : Junk) (v : View) : Option State := do
  let i ← v.b.skip (fun i c => c ≠ 67 && c ≠ 99 && i < v.datsz) v.i
  let m ← moreHeader e { v with i := i }
  orOut (fun v => do
    let hit ← v.b.startsWith v.i (str "content-length:")
    if hit then contentLength e v else some (.searching { v with i := v.i + 1 })) m

/-- `while (i < datsz - 2)`, for at most `n` rounds: whether the end has been found, and `i`. -/
def scanEnd (b : Buf) (datsz : Nat) : Nat → Nat → Option (Bool × Nat)
  | 0, i => some (false, i)
  | n + 1, i =>
    if i + 2 < datsz then do
      let found ← b.isEnd i
      if found then some (true, i + 3) else scanEnd b datsz n (i + 1)
    else some (false, i)

/-- The IPP header is at `i`: the job it is about, and its status. -/
def ippStatus (jobid : Int) (v : View) : Option State := do
  let s ← (List.range' (v.i + 2) 2).mapM v.b.get
  let r ← (List.range' (v.i + 4) 4).mapM v.b.get
  let be := fun bytes : List Byte => bytes.foldl (fun n c => 256 * n + c.toNat) 0
  if (BitVec.ofNat 32 (be r)).toInt ≠ jobid then some (.done false)
  else some (.done (STATCLASS_OK (be s)))

/-- Behind the header: `if (datsz - i < len)`, and the IPP header. -/
def body (e : Junk) (jobid : Int) (len : Int) (v : View) : Option State :=
  if (v.datsz : Int) - v.i < len then (readmore e v).bind (orOut (ippStatus jobid))
  else ippStatus jobid v

def findEnd (e : Junk) (jobid : Int) (v : View) (len : Int) : Option State := do
  let r ← scanEnd v.b v.datsz (v.datsz - v.i) v.i
  let m ← moreHeader e { v with i := r.2 }
  orOut (fun v => if r.1 then body e jobid len v else some (.ending v len)) m

/-- A response is read. -/
def await (e : Junk) (b : Buf) (chunks : List (List Byte)) : Option State :=
  match recv chunks (some b.bufsz) with
  | none => some (.done false)
  | some (bytes, chunks) => (b.store 0 bytes).bind fun b => statusLine e b chunks bytes.length

/-- One round of the loop that the program is in. -/
def round (e : Junk) (jobid : Int) : State → State
  | .reading b chunks => (await e b chunks).getD .fault
  | .searching v => (search e v).getD .fault
  | .ending v len => (findEnd e jobid v len).getD .fault
  | .done success => .done success
  | .fault => .fault

/-- The call, when the printer sends these pieces. -/
def start (e : Junk) (chunks : List (List Byte)) : State := .reading e.malloc chunks

/-- The program has returned, or has been ended by an access outside of its memory. -/
def State.Ended : State → Prop
  | .done _ => True
  | .fault => True
  | _ => False

end LearningNotes.Printd
