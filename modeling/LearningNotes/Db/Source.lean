import LearningNotes.Db.Machine
import LearningNotes.Lib.CString
import LearningNotes.Lib.Decimal

/-!
# `db.c`

The database library, function by function. `DbM` is the monad of a process that
has a handle: the mutable `DB` structure over programs of system calls, and `Fatal`
for the places where `err_dump` or `err_quit` ends the process.

Mirroring notes:
- An `off_t` is an `Int`; `atol` may read a negative one, and `lseek` then fails.
  `size_t` fields are `Nat`, with the conversion of a negative `atol` written out
  (`toSize`).
- `idxbuf` and `datbuf` are the C strings in the buffers. The buffers are long
  enough for every record that passes the length checks; a key too long for
  `idxbuf` is written behind it by `sprintf` before `_db_writeidx` aborts, which is
  not modelled.
- `sprintf("%s…", idxbuf)` into `idxbuf` itself, as `_db_dodelete` does, copies the
  key correctly.
- `keylen` and `datlen` are `int`s in the source and `Nat` here: keys and data have fewer
  than `2^31` bytes.
- `char` is signed in `_db_hash`.
- The counters of the handle are never read and have no counterpart.
- The two loops over a chain and the loop over deleted records have fuel. The fuel
  is more than the number of offsets a pointer field can hold, `Fatal.hang` stands
  for a loop that has not ended by then, and the theorems show that it never shows.
-/

namespace LearningNotes.Db

/-! ## Constants -/

@[simp, reducible] def IDXLEN_SZ : Nat := 4
@[simp, reducible] def PTR_SZ : Nat := 7
@[simp, reducible] def PTR_MAX : Nat := 9999999
@[simp, reducible] def NHASH_DEF : Nat := 137
@[simp, reducible] def FREE_OFF : Nat := 0
@[simp, reducible] def HASH_OFF : Nat := PTR_SZ
@[simp, reducible] def IDXLEN_MIN : Nat := 6
@[simp, reducible] def IDXLEN_MAX : Nat := 1024
@[simp, reducible] def DATLEN_MIN : Nat := 2
@[simp, reducible] def DATLEN_MAX : Nat := 1024

@[reducible] def SEP : Byte := ':'.toUInt8
@[reducible] def SPACE : Byte := ' '.toUInt8
@[reducible] def NEWLINE : Byte := '\n'.toUInt8

/-- The flags of `db_store`. -/
@[reducible] def DB_INSERT : Int := 1
@[reducible] def DB_REPLACE : Int := 2
@[reducible] def DB_STORE : Int := 3

/-! ## The handle -/

/-- `struct DB`, with the file offsets of its two descriptors. -/
structure DB where
  idxbuf : List Byte := []
  datbuf : List Byte := []
  idxoff : Int := 0
  idxlen : Nat := 0
  datoff : Int := 0
  datlen : Nat := 0
  ptrval : Int := 0
  ptroff : Int := 0
  chainoff : Int := 0
  hashoff : Int := 0
  nhash : Nat := 0
  idxpos : Nat := 0
  datpos : Nat := 0

/-- The file offset of a descriptor. -/
def DB.pos (db : DB) : Fd → Nat
  | .idxfd => db.idxpos
  | .datfd => db.datpos

def DB.setPos (db : DB) (fd : Fd) (n : Nat) : DB :=
  match fd with
  | .idxfd => { db with idxpos := n }
  | .datfd => { db with datpos := n }

/-- Where the process ends itself. -/
inductive Fatal where
  | readptrLseek
  | readptrRead
  | readidxLseek
  | readidxReadv
  | readidxInvalidIdxlen
  | readidxRead
  | readidxMissingNewline
  | readidxMissingFirstSep
  | readidxMissingSecondSep
  | readidxTooManySeps
  | readidxNegativeOffset
  | readidxInvalidDatlen
  | readdatLseek
  | readdatRead
  | readdatMissingNewline
  | writedatLseek
  | writeidxInvalidPtr
  | writeidxInvalidLength
  | writeidxLseek
  | writeptrInvalidPtr
  | writeptrLseek
  | storeInvalidLength
  | rewindLseek
  | hang
  deriving DecidableEq, Repr

/-- The text of the message. -/
def Fatal.message : Fatal → String
  | .readptrLseek => "_db_readptr: lseek error to ptr field"
  | .readptrRead => "_db_readptr: read error of ptr field"
  | .readidxLseek => "_db_readidx: lseek error"
  | .readidxReadv => "_db_readidx: readv error of index record"
  | .readidxInvalidIdxlen => "_db_readidx: invalid length"
  | .readidxRead => "_db_readidx: read error of index record"
  | .readidxMissingNewline => "_db_readidx: missing newline"
  | .readidxMissingFirstSep => "_db_readidx: missing first separator"
  | .readidxMissingSecondSep => "_db_readidx: missing second separator"
  | .readidxTooManySeps => "_db_readidx: too many separators"
  | .readidxNegativeOffset => "_db_readidx: starting offset < 0"
  | .readidxInvalidDatlen => "_db_readidx: invalid length"
  | .readdatLseek => "_db_readdat: lseek error"
  | .readdatRead => "_db_readdat: read error"
  | .readdatMissingNewline => "_db_readdat: missing newline"
  | .writedatLseek => "_db_writedat: lseek error"
  | .writeidxInvalidPtr => "_db_writeidx: invalid ptr: %d"
  | .writeidxInvalidLength => "_db_writeidx: invalid length"
  | .writeidxLseek => "_db_writeidx: lseek error"
  | .writeptrInvalidPtr => "_db_writeptr: invalid ptr: %d"
  | .writeptrLseek => "_db_writeptr: lseek error to ptr field"
  | .storeInvalidLength => "db_store: invalid data length"
  | .rewindLseek => "db_rewind: lseek error"
  | .hang => ""

abbrev DbM := StateT DB (Prog Op Res Fatal)

/-- A system call. -/
def sys (o : Op) : DbM (Res o) := fun db => .op o fun r => .ret (r, db)

/-- `err_dump` and `err_quit`: the process ends here. -/
def err {α : Type} (e : Fatal) : DbM α := fun _ => .halt e

/-- `if (c) err_dump(...)`. -/
def errIf (c : Prop) [Decidable c] (e : Fatal) : DbM Unit := if c then err e else pure ()

/-- The third argument of `lseek`. -/
inductive Whence where
  | seekSet
  | seekCur
  | seekEnd
  deriving DecidableEq, Repr

/-- `lseek`: `-1` if the new offset would be negative. -/
def lseek (fd : Fd) (offset : Int) (whence : Whence) : DbM Int := do
  let base : Nat ← match whence with
    | .seekSet => pure 0
    | .seekCur => (·.pos fd) <$> get
    | .seekEnd => sys (.size fd)
  if base + offset < 0 then
    return -1
  modify (·.setPos fd (base + offset).toNat)
  return base + offset

/-- `read` and `readv`, at the file offset of the descriptor. -/
def read (fd : Fd) (n : Nat) : DbM (List Byte) := do
  let pos := (← get).pos fd
  let bytes : List Byte ← sys (.read fd pos n)
  modify (·.setPos fd (pos + bytes.length))
  return bytes

/-- `write` and `writev`. -/
def write (fd : Fd) (bytes : List Byte) : DbM Unit := do
  let pos := (← get).pos fd
  sys (.write fd pos bytes)
  modify (·.setPos fd (pos + bytes.length))

def readwLock (fd : Fd) (offset : Int) (len : Nat) : DbM Unit :=
  sys (.lock fd .rdlck offset.toNat len)

def writewLock (fd : Fd) (offset : Int) (len : Nat) : DbM Unit :=
  sys (.lock fd .wrlck offset.toNat len)

def unLock (fd : Fd) (offset : Int) (len : Nat) : DbM Unit :=
  sys (.unlock fd offset.toNat len)

/-- The conversion of a signed number to `size_t`. -/
def toSize (i : Int) : Nat := (i % 2 ^ 64).toNat

/-- More steps than there are offsets for a pointer field. -/
def loopFuel : Nat := PTR_MAX + 1

/-! ## Hashing -/

/-- A `char` as a number. -/
def schar (c : Byte) : Int := if c.toNat < 128 then c.toNat else c.toNat - 256

/-- The loop of `_db_hash`; `hval` is an `unsigned long`. -/
def hashLoop : Nat → Nat → List Byte → Nat
  | _, hval, [] => hval
  | i, hval, c :: key => hashLoop (i + 1) (((hval : Int) + schar c * i) % 2 ^ 64).toNat key

/-- `_db_hash`. -/
def dbHash (nhash : Nat) (key : List Byte) : Nat := hashLoop 1 0 key % nhash

/-! ## Reading -/

/-- `_db_readptr`. -/
def dbReadptr (offset : Int) : DbM Int := do
  let off ← lseek .idxfd offset .seekSet
  errIf (off = -1) .readptrLseek
  let asciiptr ← read .idxfd PTR_SZ
  errIf (asciiptr.length ≠ PTR_SZ) .readptrRead
  return atol asciiptr

/-- The part of `_db_readidx` that splits the record in `idxbuf`. -/
def splitIdx (buf : List Byte) : DbM Unit := do
  match strchr SEP (cstr buf) with
  | none => err .readidxMissingFirstSep
  | some (key, ptr1) =>
    match strchr SEP ptr1 with
    | none => err .readidxMissingSecondSep
    | some (ptr1, ptr2) =>
      errIf ((strchr SEP ptr2).isSome) .readidxTooManySeps
      modify ({ · with idxbuf := key, datoff := atol ptr1 })
      errIf (atol ptr1 < 0) .readidxNegativeOffset
      modify ({ · with datlen := toSize (atol ptr2) })
      errIf (toSize (atol ptr2) = 0 ∨ toSize (atol ptr2) > DATLEN_MAX) .readidxInvalidDatlen

/-- `_db_readidx`: at offset `0` it reads at the file offset, for `db_nextrec`. -/
def dbReadidx (offset : Int) : DbM Int := do
  let idxoff ← lseek .idxfd offset (if offset = 0 then .seekCur else .seekSet)
  modify ({ · with idxoff := idxoff })
  errIf (idxoff = -1) .readidxLseek
  let head ← read .idxfd (PTR_SZ + IDXLEN_SZ)
  if head.length = 0 ∧ offset = 0 then
    -- the end of the file, for `db_nextrec`
    return -1
  errIf (head.length ≠ PTR_SZ + IDXLEN_SZ) .readidxReadv
  let ptrval := atol (head.take PTR_SZ)
  let idxlen := toSize (atol (head.drop PTR_SZ))
  modify ({ · with ptrval := ptrval, idxlen := idxlen })
  errIf (idxlen < IDXLEN_MIN ∨ idxlen > IDXLEN_MAX) .readidxInvalidIdxlen
  let buf ← read .idxfd idxlen
  errIf (buf.length ≠ idxlen) .readidxRead
  errIf (buf.getLast? ≠ some NEWLINE) .readidxMissingNewline
  -- key, offset and length of the data
  splitIdx buf.dropLast
  return ptrval

/-- `_db_readdat`. -/
def dbReaddat : DbM (List Byte) := do
  let off ← lseek .datfd (← get).datoff .seekSet
  errIf (off = -1) .readdatLseek
  let datlen := (← get).datlen
  let buf ← read .datfd datlen
  errIf (buf.length ≠ datlen) .readdatRead
  errIf (buf.getLast? ≠ some NEWLINE) .readdatMissingNewline
  modify ({ · with datbuf := cstr buf.dropLast })
  return cstr buf.dropLast

/-! ## Finding a record -/

/-- The loop of `_db_find_and_lock`: the offset of the record with the key, or `0`. -/
def findLoop (key : List Byte) : Nat → Int → DbM Int
  | 0, _ => err .hang
  | fuel + 1, offset =>
    if offset = 0 then
      return 0
    else do
      let nextoffset ← dbReadidx offset
      if (← get).idxbuf = key then
        return offset
      else do
        modify ({ · with ptroff := offset })
        findLoop key fuel nextoffset

/-- `_db_find_and_lock`. -/
def dbFindAndLock (key : List Byte) (writelock : Bool) : DbM Int := do
  let db ← get
  let chainoff : Int := dbHash db.nhash key * PTR_SZ + db.hashoff
  modify ({ · with chainoff := chainoff, ptroff := chainoff })
  if writelock then
    writewLock .idxfd chainoff 1
  else
    readwLock .idxfd chainoff 1
  let offset ← dbReadptr chainoff
  let offset ← findLoop key loopFuel offset
  return if offset = 0 then -1 else 0

/-- `db_fetch`. -/
def dbFetch (key : CString) : DbM (Option (List Byte)) := do
  let found ← dbFindAndLock key.val false
  let ptr ← if found < 0 then pure none else some <$> dbReaddat
  unLock .idxfd (← get).chainoff 1
  return ptr

/-! ## Writing -/

/-- `_db_writedat`. -/
def dbWritedat (data : List Byte) (offset : Int) (whence : Whence) : DbM Unit := do
  if whence = .seekEnd then
    writewLock .datfd 0 0
  let datoff ← lseek .datfd offset whence
  modify ({ · with datoff := datoff })
  errIf (datoff = -1) .writedatLseek
  modify ({ · with datlen := data.length + 1 })
  write .datfd (data ++ [NEWLINE])
  if whence = .seekEnd then
    unLock .datfd 0 0

/-- `_db_writeidx`. -/
def dbWriteidx (key : List Byte) (offset : Int) (whence : Whence) (ptrval : Int) : DbM Unit := do
  modify ({ · with ptrval := ptrval })
  errIf (ptrval < 0 ∨ ptrval > PTR_MAX) .writeidxInvalidPtr
  let db ← get
  let idxbuf := key ++ [SEP] ++ decimalInt db.datoff ++ [SEP] ++ decimal db.datlen ++ [NEWLINE]
  modify ({ · with idxbuf := idxbuf })
  let len := idxbuf.length
  errIf (len < IDXLEN_MIN ∨ len > IDXLEN_MAX) .writeidxInvalidLength
  let asciiptrlen := padLeft PTR_SZ (decimalInt ptrval) ++ padLeft IDXLEN_SZ (decimal len)
  let tail : Int := (db.nhash + 1) * PTR_SZ + 1
  if whence = .seekEnd then
    -- an append locks everything behind the table
    writewLock .idxfd tail 0
  let idxoff ← lseek .idxfd offset whence
  modify ({ · with idxoff := idxoff })
  errIf (idxoff = -1) .writeidxLseek
  write .idxfd (asciiptrlen ++ idxbuf)
  if whence = .seekEnd then
    unLock .idxfd tail 0

/-- `_db_writeptr`. -/
def dbWriteptr (offset : Int) (ptrval : Int) : DbM Unit := do
  errIf (ptrval < 0 ∨ ptrval > PTR_MAX) .writeptrInvalidPtr
  let off ← lseek .idxfd offset .seekSet
  errIf (off = -1) .writeptrLseek
  write .idxfd (padLeft PTR_SZ (decimalInt ptrval))

/-- `_db_dodelete`. -/
def dbDodelete : DbM Unit := do
  modify fun db => { db with datbuf := List.replicate (db.datlen - 1) SPACE }
  modify fun db => { db with idxbuf := List.replicate db.idxbuf.length SPACE }
  writewLock .idxfd FREE_OFF 1
  let db ← get
  dbWritedat db.datbuf db.datoff .seekSet
  let freeptr ← dbReadptr FREE_OFF
  let db ← get
  let saveptr := db.ptrval
  dbWriteidx db.idxbuf db.idxoff .seekSet freeptr
  dbWriteptr FREE_OFF (← get).idxoff
  dbWriteptr (← get).ptroff saveptr
  unLock .idxfd FREE_OFF 1

/-- `db_delete`. -/
def dbDelete (key : CString) : DbM Int := do
  let found ← dbFindAndLock key.val true
  let rc ← if found = 0 then do dbDodelete; pure 0 else pure (-1)
  unLock .idxfd (← get).chainoff 1
  return rc

/-- The loop of `_db_findfree`: the offset of a free record of the right sizes, or
`0`, and the offset of the pointer to it. -/
def findfreeLoop (keylen datlen : Nat) : Nat → Int → Int → DbM (Int × Int)
  | 0, _, _ => err .hang
  | fuel + 1, saveoffset, offset =>
    if offset = 0 then
      return (0, saveoffset)
    else do
      let nextoffset ← dbReadidx offset
      let db ← get
      if db.idxbuf.length = keylen ∧ db.datlen = datlen then
        return (offset, saveoffset)
      else
        findfreeLoop keylen datlen fuel offset nextoffset

/-- `_db_findfree`. -/
def dbFindfree (keylen datlen : Nat) : DbM Int := do
  writewLock .idxfd FREE_OFF 1
  let offset ← dbReadptr FREE_OFF
  let (offset, saveoffset) ← findfreeLoop keylen datlen loopFuel FREE_OFF offset
  let rc ← if offset = 0 then pure (-1) else do
    dbWriteptr saveoffset (← get).ptrval
    pure 0
  unLock .idxfd FREE_OFF 1
  return rc

/-- The path of `db_store` for a key that is not in the database. -/
def storeNew (key data : List Byte) : DbM Unit := do
  let chainoff := (← get).chainoff
  let ptrval ← dbReadptr chainoff
  let found ← dbFindfree key.length (data.length + 1)
  if found < 0 then do
    dbWritedat data 0 .seekEnd
    dbWriteidx key 0 .seekEnd ptrval
    dbWriteptr chainoff (← get).idxoff
  else do
    dbWritedat data (← get).datoff .seekSet
    dbWriteidx key (← get).idxoff .seekSet ptrval
    dbWriteptr chainoff (← get).idxoff

/-- The path of `db_store` for a key that is in the database. -/
def storeOld (key data : List Byte) : DbM Unit := do
  let db ← get
  if data.length + 1 ≠ db.datlen then do
    dbDodelete
    let ptrval ← dbReadptr db.chainoff
    dbWritedat data 0 .seekEnd
    dbWriteidx key 0 .seekEnd ptrval
    dbWriteptr db.chainoff (← get).idxoff
  else
    dbWritedat data db.datoff .seekSet

/-- `db_store`: `0` if OK, `1` if the record exists and `DB_INSERT` was given, `-1` on
error. -/
def dbStore (key data : CString) (flag : Int) : DbM Int := do
  if flag ≠ DB_INSERT ∧ flag ≠ DB_REPLACE ∧ flag ≠ DB_STORE then
    return -1
  else do
    let datlen := data.val.length + 1
    errIf (datlen < DATLEN_MIN ∨ datlen > DATLEN_MAX) .storeInvalidLength
    -- the chain stays locked up to the end
    let found ← dbFindAndLock key.val true
    let rc ←
      if found < 0 then
        if flag = DB_REPLACE then pure (-1) else do storeNew key.val data.val; pure 0
      else
        if flag = DB_INSERT then pure 1 else do storeOld key.val data.val; pure 0
    unLock .idxfd (← get).chainoff 1
    return rc

/-! ## Opening and scanning -/

/-- `db_rewind`. -/
def dbRewind : DbM Unit := do
  let offset : Int := ((← get).nhash + 1) * PTR_SZ
  let idxoff ← lseek .idxfd (offset + 1) .seekSet
  modify ({ · with idxoff := idxoff })
  errIf (idxoff = -1) .rewindLseek

/-- The hash table of a new index file: all pointers `0`, then a newline. -/
def emptyTable : List Byte :=
  (List.replicate (NHASH_DEF + 1) (padLeft PTR_SZ (decimal 0))).flatten ++ [NEWLINE]

/-- `db_open` with the `O_CREAT` and `O_TRUNC` bits of `oflag`. -/
def dbOpen (creat trunc : Bool) : DbM Unit := do
  set ({ nhash := NHASH_DEF, hashoff := HASH_OFF } : DB)
  sys (.openf .idxfd trunc)
  sys (.openf .datfd trunc)
  if creat && trunc then
    writewLock .idxfd 0 0
    let size : Nat ← sys (.size .idxfd)
    if size = 0 then
      write .idxfd emptyTable
    unLock .idxfd 0 0
  dbRewind

/-- The loop of `db_nextrec`: the next record with a key that is not all blank. -/
def nextrecLoop : Nat → DbM Bool
  | 0 => err .hang
  | fuel + 1 => do
    if (← dbReadidx 0) < 0 then
      return false
    else if (← get).idxbuf.all (· = SPACE) then
      nextrecLoop fuel
    else
      return true

/-- `db_nextrec`: the key and the data of the next record, or `NULL`. -/
def dbNextrec : DbM (Option (List Byte × List Byte)) := do
  readwLock .idxfd FREE_OFF 1
  let more ← nextrecLoop loopFuel
  let rec? ← if more then do
      let key := (← get).idxbuf
      let data ← dbReaddat
      pure (some (key, data))
    else pure none
  unLock .idxfd FREE_OFF 1
  return rec?

/-! ## Calls -/

/-- A call of a library function. -/
inductive Call where
  | open (creat trunc : Bool)
  | fetch (key : CString)
  | store (key data : CString) (flag : Int)
  | delete (key : CString)
  | rewind
  | nextrec
  deriving DecidableEq

/-- What a call returns. -/
inductive Ret where
  | unit
  | data (d : Option (List Byte))
  | rc (rc : Int)
  | pair (p : Option (List Byte × List Byte))
  deriving DecidableEq

/-- The program of a call. -/
def Call.prog : Call → DbM Ret
  | .open creat trunc => do dbOpen creat trunc; return .unit
  | .fetch key => return .data (← dbFetch key)
  | .store key data flag => return .rc (← dbStore key data flag)
  | .delete key => return .rc (← dbDelete key)
  | .rewind => do dbRewind; return .unit
  | .nextrec => return .pair (← dbNextrec)

end LearningNotes.Db
