import LearningNotes.Db.Reads

/-!
# Functions run to their end

`Runs p m db os a db' os'`: process `p`, which nobody disturbs, runs `m` with the handle `db` on
the files `os`, and gets to its end. One rule for each statement; the rules for the functions of
the library ask of the files what the function reads, byte by byte, and nothing else.
-/

namespace LearningNotes.Db

open Prog (exec)

variable {α β : Type} {p : Pid} {db db₁ db₂ : DB} {os os₁ os₂ : OS} {fd : Fd}

/-- The program comes back with the answer `a`. -/
def Runs (p : Pid) (m : DbM α) (db : DB) (os : OS) (a : α) (db' : DB) (os' : OS) : Prop :=
  exec (sysStep p) (m.run db) os = .done (a, db') os'

/-- What a function returns that runs to its end. -/
def returned (p : Pid) (m : DbM α) (db : DB) (os : OS) : Option α :=
  match exec (sysStep p) (m.run db) os with
  | .done r _ => some r.1
  | _ => none

namespace Runs

/-- What comes back is the answer. -/
theorem returned {a : α} {m : DbM α} (h : Runs p m db os a db₁ os₁) :
    Db.returned p m db os = some a := by
  unfold Runs at h
  rw [Db.returned, h]

/-- An answer comes from a run. -/
theorem of_returned {a : α} {m : DbM α} (h : Db.returned p m db os = some a) :
    ∃ db' os', Runs p m db os a db' os' := by
  unfold Db.returned at h
  cases hrun : exec (sysStep p) (m.run db) os with
  | done r os' =>
    rw [hrun] at h
    exact ⟨r.2, os', hrun.trans (by rw [← Option.some.inj h])⟩
  | halted e os' =>
    rw [hrun] at h
    exact absurd h (by simp)
  | blocked os' =>
    rw [hrun] at h
    exact absurd h (by simp)

/-- One program after the other. -/
theorem bind {m : DbM β} {f : β → DbM α} {b : β} {a : α} (h₁ : Runs p m db os b db₁ os₁)
    (h₂ : Runs p (f b) db₁ os₁ a db₂ os₂) : Runs p (m >>= f) db os a db₂ os₂ := by
  unfold Runs at h₁ h₂ ⊢
  rw [StateT.run_bind, Prog.exec_bind, h₁]
  exact h₂

/-- Nothing is done. -/
theorem pure (a : α) : Runs p (pure a) db os a db os := rfl

/-- The handle is read. -/
theorem get : Runs p get db os db db os := rfl

/-- The handle is changed. -/
theorem modify (f : DB → DB) : Runs p (modify f) db os ⟨⟩ (f db) os := rfl

/-- A check that passes. -/
theorem errIf {c : Prop} [Decidable c] {e : Fatal} (hc : ¬ c) :
    Runs p (errIf c e) db os () db os := by
  unfold Db.errIf
  rw [if_neg hc]
  rfl

/-- `lseek` to a place. -/
theorem lseek_set (fd : Fd) (n : Nat) :
    Runs p (lseek fd (n : Int) .seekSet) db os n (db.setPos fd n) os := by
  have hn : ¬ ((0 : Nat) : Int) + (n : Int) < 0 := by omega
  have hv : ((0 : Nat) : Int) + (n : Int) = n := by omega
  unfold lseek
  refine (pure _).bind ?_
  beta_reduce
  rw [if_neg hn, hv]
  exact (modify _).bind rfl

/-- `lseek` that asks for the place. -/
theorem lseek_cur (fd : Fd) :
    Runs p (lseek fd 0 .seekCur) db os (db.pos fd) (db.setPos fd (db.pos fd)) os := by
  have hn : ¬ ((db.pos fd : Nat) : Int) + 0 < 0 := by omega
  unfold lseek
  refine bind (b := db.pos fd) rfl ?_
  beta_reduce
  rw [if_neg hn, Int.add_zero]
  exact (modify _).bind rfl

/-- `lseek` to the end of the file. -/
theorem lseek_end (fd : Fd) : Runs p (lseek fd 0 .seekEnd) db os (os.file fd).length
    (db.setPos fd (os.file fd).length) os := by
  have hn : ¬ (((os.file fd).length : Nat) : Int) + 0 < 0 := by omega
  unfold lseek
  refine bind (b := (os.file fd).length) rfl ?_
  beta_reduce
  rw [if_neg hn, Int.add_zero]
  exact (modify _).bind rfl

/-- `read` gives what is there. -/
theorem read {n : Nat} {bytes : List Byte} (h : slice (os.file fd) (db.pos fd) n = bytes) :
    Runs p (read fd n) db os bytes (db.setPos fd (db.pos fd + bytes.length)) os := by
  subst h
  rfl

/-- `write` overwrites, or goes on behind the end. -/
theorem write (fd : Fd) (bytes : List Byte) :
    Runs p (write fd bytes) db os () (db.setPos fd (db.pos fd + bytes.length))
      (os.setFile fd (overwrite 0 (os.file fd) (db.pos fd) bytes)) := rfl

/-- A lock that is granted. -/
theorem lock {type : LockType} {off len : Nat} {locks : List (RangeLock Pid Fd)}
    (h : RangeLock.acquire os.locks p fd type off (lockStop off len) = some locks) :
    Runs p (sys (.lock fd type off len)) db os () db { os with locks := locks } := by
  change exec (sysStep p) (.op _ _) os = _
  rw [exec, sysStep_lock h]
  rfl

/-- An unlock never waits. -/
theorem unlock (fd : Fd) (off len : Nat) : Runs p (sys (.unlock fd off len)) db os () db
    { os with locks := RangeLock.clip os.locks p fd off (lockStop off len) } := rfl

end Runs

/-! ## Index records -/

/-- The record passes the checks of `_db_readidx`. -/
structure Rec.Readable (r : Rec) : Prop where
  nul : (0 : Byte) ∉ r.key
  sep : SEP ∉ r.key
  ptr : r.ptr ≤ PTR_MAX
  lo : IDXLEN_MIN ≤ r.text.length
  hi : r.text.length ≤ IDXLEN_MAX
  datlo : 1 ≤ r.datlen
  dathi : r.datlen ≤ DATLEN_MAX

/-- A record whose key is without separators is read back. -/
theorem Rec.Ok.readable {r : Rec} (h : r.Ok) (hs : SEP ∉ r.key) : r.Readable :=
  ⟨h.nul, hs, h.ptr, h.lo, h.hi, Nat.le_of_succ_le h.datlo, h.dathi⟩

variable {r : Rec} {o : Nat} {off : Int}

/-- The fields of a record are found. -/
theorem Runs.splitIdx (hr : r.Readable) : Runs p (splitIdx r.text.dropLast) db os ()
    { db with idxbuf := r.key, datoff := r.datoff, datlen := r.datlen } os := by
  have hlo := hr.datlo
  have hhi := hr.dathi
  have hlen : toSize (atol (decimal r.datlen)) = r.datlen := by
    rw [atol_decimal]
    exact toSize_natCast (Nat.lt_of_le_of_lt hhi (by decide))
  have hdat : ¬ (toSize (atol (decimal r.datlen)) = 0 ∨
      toSize (atol (decimal r.datlen)) > DATLEN_MAX) := by
    rw [hlen]
    omega
  have hoff : ¬ atol (decimal r.datoff) < 0 := by
    rw [atol_decimal]
    omega
  unfold Db.splitIdx
  rw [cstr_text hr.nul, dropLast_text, strchr_append hr.sep]
  dsimp only
  rw [strchr_append (not_mem_decimal SEP_not_digit _)]
  dsimp only
  rw [strchr_eq_none (not_mem_decimal SEP_not_digit _)]
  refine (errIf (by simp)).bind ?_
  refine (modify _).bind ?_
  refine (errIf hoff).bind ?_
  refine (modify _).bind ?_
  rw [hlen, atol_decimal]
  exact errIf (by rw [hlen] at hdat; exact hdat)

/-- **`_db_readidx`**, at an offset or (with offset `0`) at the file offset, where the bytes of a
record are. -/
theorem Runs.readidx (hseek : (off = (o : Int) ∧ o ≠ 0) ∨ (off = 0 ∧ db.idxpos = o))
    (hr : r.Readable) (hbytes : slice os.idx o r.bytes.length = r.bytes) :
    Runs p (dbReadidx off) db os r.ptr (db.load o r.ptr r) os := by
  have hptr := length_ptrText hr.ptr
  have hlenText := Rec.length_lenText hr.hi
  have hlo := hr.lo
  have hhi := hr.hi
  have hsize : r.bytes.length = PTR_SZ + IDXLEN_SZ + r.text.length := by
    rw [Rec.bytes, List.length_append, List.length_append, hptr, hlenText, Nat.add_assoc]
  -- `readv` gets the pointer and the length, and `read` the rest
  have hhead : slice os.idx o (PTR_SZ + IDXLEN_SZ) = ptrText r.ptr ++ r.lenText := by
    have hcut := congrArg (List.take (PTR_SZ + IDXLEN_SZ)) hbytes
    rw [slice, List.take_take, hsize, Nat.min_eq_left (Nat.le_add_right ..), Rec.bytes,
      ← List.append_assoc] at hcut
    rw [slice, hcut]
    exact List.take_left' (by rw [List.length_append, hptr, hlenText])
  have htext : slice os.idx (o + (PTR_SZ + IDXLEN_SZ)) r.text.length = r.text := by
    have hcut := congrArg (List.drop (PTR_SZ + IDXLEN_SZ)) hbytes
    rw [slice, hsize, List.drop_take, List.drop_drop, Nat.add_sub_cancel_left, Rec.bytes,
      ← List.append_assoc] at hcut
    rw [slice, hcut]
    exact List.drop_left' (by rw [List.length_append, hptr, hlenText])
  have hlseek : Runs p (lseek .idxfd off (if off = 0 then .seekCur else .seekSet)) db os o
      (db.setPos .idxfd o) os := by
    rcases hseek with ⟨rfl, ho⟩ | ⟨rfl, rfl⟩
    · rw [if_neg (by omega)]
      exact lseek_set .idxfd o
    · exact lseek_cur .idxfd
  -- the length that is read is the one that was written
  have hidxlen : toSize (atol r.lenText) = r.text.length := by
    rw [Rec.lenText, atol_padLeft_decimal]
    exact toSize_natCast (Nat.lt_of_le_of_lt hhi (by decide))
  have hlen : (ptrText r.ptr ++ r.lenText).length = PTR_SZ + IDXLEN_SZ := by
    rw [List.length_append, hptr, hlenText]
  unfold dbReadidx
  refine hlseek.bind ?_
  refine (modify _).bind ?_
  refine (errIf (by omega)).bind ?_
  refine bind (read hhead) ?_
  rw [if_neg (by rw [hlen]; simp)]
  refine (errIf (by rw [hlen]; simp)).bind ?_
  rw [List.take_left' hptr, List.drop_left' hptr, hidxlen, atol_ptrText, hlen]
  refine (modify _).bind ?_
  refine (errIf (by omega)).bind ?_
  refine bind (read htext) ?_
  refine (errIf (by simp)).bind ?_
  refine (errIf (by rw [getLast?_text]; simp)).bind ?_
  refine (splitIdx hr).bind ?_
  rw [DB.load, Rec.size, ← Nat.add_assoc o]
  exact pure _

/-- The record passes the checks of `_db_writeidx`. -/
structure Rec.Writable (r : Rec) : Prop where
  ptr : r.ptr ≤ PTR_MAX
  lo : IDXLEN_MIN ≤ r.text.length
  hi : r.text.length ≤ IDXLEN_MAX

/-- What is read back can be written. -/
theorem Rec.Readable.writable (h : r.Readable) : r.Writable := ⟨h.ptr, h.lo, h.hi⟩

/-- The bytes that are written. -/
theorem Rec.Writable.length_bytes (h : r.Writable) : r.bytes.length = r.size := by
  rw [Rec.bytes, Rec.size, List.length_append, List.length_append, length_ptrText h.ptr,
    Rec.length_lenText h.hi, Nat.add_assoc]

/-- The handle behind `_db_writeidx`. -/
def DB.wroteIdx (db : DB) (o : Nat) (r : Rec) : DB :=
  { db with ptrval := r.ptr, idxbuf := r.text, idxoff := o, idxpos := o + r.size }

/-- The checks of `_db_writeidx` pass, and the text is that of the record. -/
theorem Rec.Writable.text_eq (hoff : db.datoff = r.datoff) (hlen : db.datlen = r.datlen) :
    r.key ++ [SEP] ++ decimalInt db.datoff ++ [SEP] ++ decimal db.datlen ++ [NEWLINE] = r.text := by
  rw [hoff, hlen, decimalInt_natCast]
  rfl

/-- **`_db_writeidx`** at an offset. -/
theorem Runs.writeidx_set (hr : r.Writable) (hoff : db.datoff = r.datoff)
    (hlen : db.datlen = r.datlen) (o : Nat) :
    Runs p (dbWriteidx r.key o .seekSet r.ptr) db os () (db.wroteIdx o r)
      (os.setFile .idxfd (overwrite 0 os.idx o r.bytes)) := by
  have hptr := hr.ptr
  have hlo := hr.lo
  have hhi := hr.hi
  have hset : ¬ (Whence.seekSet = Whence.seekEnd) := by decide
  unfold dbWriteidx
  simp only [if_neg hset]
  refine (modify _).bind ?_
  refine (errIf (by omega)).bind ?_
  refine get.bind ?_
  rw [Rec.Writable.text_eq (by exact hoff) (by exact hlen)]
  refine (modify _).bind ?_
  refine (errIf (by omega)).bind ?_
  refine (lseek_set .idxfd o).bind ?_
  refine (modify _).bind ?_
  refine (errIf (by omega)).bind ?_
  rw [decimalInt_natCast, bytes_writeidx]
  refine (write .idxfd _).bind ?_
  rw [hr.length_bytes]
  exact pure ()

/-- The offset of the first record, as the handle says. -/
def DB.tail (db : DB) : Nat := (db.nhash + 1) * PTR_SZ + 1

/-- **`_db_writeidx`** at the end of the file, when the lock of the tail is granted. -/
theorem Runs.writeidx_end (hr : r.Writable) (hoff : db.datoff = r.datoff)
    (hlen : db.datlen = r.datlen) {locks : List (RangeLock Pid Fd)}
    (hlock : RangeLock.acquire os.locks p .idxfd .wrlck db.tail none = some locks) :
    Runs p (dbWriteidx r.key 0 .seekEnd r.ptr) db os () (db.wroteIdx os.idx.length r)
      ⟨overwrite 0 os.idx os.idx.length r.bytes, os.dat,
        RangeLock.clip locks p .idxfd db.tail none⟩ := by
  have hptr := hr.ptr
  have hlo := hr.lo
  have hhi := hr.hi
  have htail : ((db.nhash : Nat) + 1 : Int) * PTR_SZ + 1 = (db.tail : Nat) := by
    rw [DB.tail]
    push_cast
    rfl
  unfold dbWriteidx
  simp only [if_pos]
  refine (modify _).bind ?_
  refine (errIf (by omega)).bind ?_
  refine get.bind ?_
  rw [Rec.Writable.text_eq (by exact hoff) (by exact hlen)]
  dsimp only
  rw [htail]
  refine (modify _).bind ?_
  refine (errIf (by omega)).bind ?_
  refine bind (lock hlock) ?_
  refine (lseek_end .idxfd).bind ?_
  refine (modify _).bind ?_
  refine (errIf (by omega)).bind ?_
  rw [decimalInt_natCast, bytes_writeidx]
  refine (write .idxfd _).bind ?_
  rw [hr.length_bytes]
  exact unlock .idxfd db.tail 0

/-! ## Pointers and data -/

/-- **`_db_readptr`**, where a pointer is. -/
theorem Runs.readptr {v : Nat} (hv : v ≤ PTR_MAX) (h : slice os.idx o PTR_SZ = ptrText v) :
    Runs p (dbReadptr o) db os v { db with idxpos := o + PTR_SZ } os := by
  have hlen := length_ptrText hv
  unfold dbReadptr
  refine (lseek_set .idxfd o).bind ?_
  refine (errIf (by omega)).bind ?_
  refine bind (read h) ?_
  rw [hlen, atol_ptrText]
  exact (errIf (by simp)).bind (pure _)

/-- **`_db_writeptr`**. -/
theorem Runs.writeptr {v : Nat} (hv : v ≤ PTR_MAX) (o : Nat) :
    Runs p (dbWriteptr o v) db os () { db with idxpos := o + PTR_SZ }
      { os with idx := overwrite 0 os.idx o (ptrText v) } := by
  have hlen := length_ptrText hv
  unfold dbWriteptr
  refine (errIf (by omega)).bind ?_
  refine (lseek_set .idxfd o).bind ?_
  refine (errIf (by omega)).bind ?_
  have hwrite : Runs p (Db.write .idxfd (ptrText v)) (db.setPos .idxfd o) os () _ _ :=
    write .idxfd (ptrText v)
  rw [hlen] at hwrite
  rw [decimalInt_natCast]
  exact hwrite

/-- **`_db_writedat`** at an offset. -/
theorem Runs.writedat_set (data : List Byte) (o : Nat) :
    Runs p (dbWritedat data o .seekSet) db os ()
      { db with datoff := o, datlen := data.length + 1, datpos := o + (data.length + 1) }
      { os with dat := overwrite 0 os.dat o (data ++ [NEWLINE]) } := by
  have hset : ¬ (Whence.seekSet = Whence.seekEnd) := by decide
  have hlen : (data ++ [NEWLINE]).length = data.length + 1 := by simp
  unfold dbWritedat
  simp only [if_neg hset]
  refine (lseek_set .datfd o).bind ?_
  refine (modify _).bind ?_
  refine (errIf (by omega)).bind ?_
  refine (modify _).bind ?_
  refine (write .datfd _).bind ?_
  rw [hlen]
  exact pure ()

/-! ## Reading back what was written -/

/-- The record as `_db_writeidx` formats it, behind the two fields in front. -/
def idxText (key : List Byte) (db : DB) : List Byte :=
  key ++ [SEP] ++ decimalInt db.datoff ++ [SEP] ++ decimal db.datlen ++ [NEWLINE]

/-- Where `_db_writeidx` writes: at an offset, or, with the lock of the tail, at the end. -/
inductive WritesAt (p : Pid) (os : OS) (db : DB) : Whence → Int → Nat → Prop where
  | set (o : Nat) : WritesAt p os db .seekSet o o
  | atEnd {locks : List (RangeLock Pid Fd)}
      (hlock : RangeLock.acquire os.locks p .idxfd .wrlck db.tail none = some locks) :
      WritesAt p os db .seekEnd 0 os.idx.length

/-- What the handle says of the record that `_db_readidx` has read at `o`. -/
structure ReadBack (db : DB) (key : List Byte) (datoff : Int) (datlen : Nat) (ptrval : Int)
    (len o : Nat) : Prop where
  key : db.idxbuf = key
  datoff : db.datoff = datoff
  datlen : db.datlen = datlen
  ptrval : db.ptrval = ptrval
  idxlen : db.idxlen = len
  idxpos : db.idxpos = o + (PTR_SZ + IDXLEN_SZ + len)

/-- **The round trip.** What `_db_writeidx` has written at an offset, `_db_readidx` reads there:
by any process, with any handle, at the offset or (with offset `0`) at the file offset. -/
theorem readidx_writeidx (p q : Pid) (os : OS) (db : DB) (key : CString) (ptrval : Int)
    (whence : Whence) (offset : Int) (o : Nat) (hsep : SEP ∉ key.val) (hoff : 0 ≤ db.datoff)
    (hlen : 1 ≤ db.datlen ∧ db.datlen ≤ DATLEN_MAX) (hptr : 0 ≤ ptrval ∧ ptrval ≤ (PTR_MAX : Nat))
    (hidx : IDXLEN_MIN ≤ (idxText key.val db).length ∧ (idxText key.val db).length ≤ IDXLEN_MAX)
    (hat : WritesAt p os db whence offset o) :
    ∃ db₁ os₁, Runs p (dbWriteidx key.val offset whence ptrval) db os () db₁ os₁ ∧
      ∀ (db₂ : DB) (off : Int), (off = (o : Int) ∧ o ≠ 0) ∨ (off = 0 ∧ db₂.idxpos = o) →
        ∃ db₃, Runs q (dbReadidx off) db₂ os₁ ptrval db₃ os₁ ∧
          ReadBack db₃ key.val db.datoff db.datlen ptrval (idxText key.val db).length o := by
  obtain ⟨ptr, rfl⟩ := Int.eq_ofNat_of_zero_le hptr.1
  obtain ⟨datoff, hdatoff⟩ := Int.eq_ofNat_of_zero_le hoff
  have hle : ptr ≤ PTR_MAX := Int.ofNat_le.mp hptr.2
  have htext : idxText key.val db = (Rec.mk ptr key.val datoff db.datlen).text := by
    rw [idxText, hdatoff]
    rfl
  rw [htext] at hidx
  have hr : (Rec.mk ptr key.val datoff db.datlen).Readable :=
    ⟨key.property, hsep, hle, hidx.1, hidx.2, hlen.1, hlen.2⟩
  -- the bytes of the record are in the file
  have hread : ∀ (os₁ : OS) (db₂ : DB) (off : Int),
      os₁.idx = overwrite 0 os.idx o (Rec.mk ptr key.val datoff db.datlen).bytes →
      (off = (o : Int) ∧ o ≠ 0) ∨ (off = 0 ∧ db₂.idxpos = o) →
        ∃ db₃, Runs q (dbReadidx off) db₂ os₁ ptr db₃ os₁ ∧
          ReadBack db₃ key.val db.datoff db.datlen ptr (idxText key.val db).length o := by
    intro os₁ db₂ off hos hseek
    refine ⟨_, Runs.readidx hseek hr ?_, ⟨rfl, hdatoff.symm, rfl, rfl, ?_, ?_⟩⟩
    · rw [hos]
      exact slice_overwrite_self 0 _ _ _
    · rw [htext]
      rfl
    · rw [htext]
      rfl
  cases hat with
  | set o => exact ⟨_, _, Runs.writeidx_set hr.writable hdatoff rfl o, fun db₂ off => hread _ db₂ off rfl⟩
  | atEnd hlock =>
    exact ⟨_, _, Runs.writeidx_end hr.writable hdatoff rfl hlock, fun db₂ off => hread _ db₂ off rfl⟩

/-- A key with digits, a blank and a newline, behind the end of an empty file. -/
theorem readidx_writeidx_blank : ∃ db₁ os₁,
    Runs 0 (dbWriteidx [49, SPACE, NEWLINE] 20 .seekSet 7) { datoff := 12, datlen := 1 }
      ⟨[], [], []⟩ () db₁ os₁ ∧
      ∀ (db₂ : DB) (off : Int), (off = ((20 : Nat) : Int) ∧ 20 ≠ 0) ∨ (off = 0 ∧ db₂.idxpos = 20) →
        ∃ db₃, Runs 1 (dbReadidx off) db₂ os₁ 7 db₃ os₁ ∧
          ReadBack db₃ [49, SPACE, NEWLINE] 12 1 7
            (idxText [49, SPACE, NEWLINE] { datoff := 12, datlen := 1 }).length 20 :=
  readidx_writeidx 0 1 ⟨[], [], []⟩ { datoff := 12, datlen := 1 }
    ⟨[49, SPACE, NEWLINE], by decide⟩ 7 .seekSet 20 20 (by decide) (by decide) (by decide)
    (by decide) (by decide) (.set 20)

end LearningNotes.Db
