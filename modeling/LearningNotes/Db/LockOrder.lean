import LearningNotes.Db.Find
import LearningNotes.Db.Processes

/-!
# Which locks are asked for when

Up to two locks are held at once, and the second one is asked for by another function than the first.
The order is nowhere written down. It is: the byte of a chain first, then one of the free-list byte,
the end of the index file and the data file; and the whole index file, in `db_open`, only with no
lock at all.

`Locking` follows the ranges a process has locked, and `May` is the order. Nothing is assumed of the
files: `db_open` may truncate them below a process that works on them. So only the text of the
functions counts, and `wpM_locks` goes through all of them.
-/

namespace LearningNotes.Db

open Function (update)

variable {p : Pid} {α β : Type} {db db' : DB}

/-- A range that was locked in one go. -/
structure Span where
  fd : Fd
  off : Nat
  len : Nat
  deriving DecidableEq

/-- The byte of a hash chain. -/
def Span.IsChain (r : Span) : Prop :=
  r.fd = .idxfd ∧ r.len = 1 ∧ HASH_OFF ≤ r.off ∧ r.off < HASH_OFF + NHASH_DEF * PTR_SZ

/-- The first byte of the end of the index file. -/
@[simp, reducible] def tailOff : Nat := (NHASH_DEF + 1) * PTR_SZ + 1

/-- The free-list byte, the end of the index file, or the data file. -/
def Span.Apart (r : Span) : Prop :=
  r.fd = .datfd ∨ (r.len = 1 ∧ r.off = FREE_OFF) ∨ tailOff ≤ r.off

/-- What a process holds, in the order of its requests. -/
def next (held : List Span) : Op → List Span
  | .lock fd _ off len => ⟨fd, off, len⟩ :: held
  | .unlock fd off len => held.erase ⟨fd, off, len⟩
  | _ => held

/-- What a process may ask for. -/
def May (held : List Span) : Op → Prop
  | .lock fd _ off len => held = [] ∨ ((∀ r ∈ held, r.IsChain) ∧ Span.Apart ⟨fd, off, len⟩)
  | _ => True

/-- The machine, with what each process holds. -/
structure Locking where
  os : OS
  held : Pid → List Span

/-- An operation of process `p`. -/
structure Asks (p : Pid) (o : Op) (w w' : Locking) : Prop where
  may : May (w.held p) o
  held : w'.held = update w.held p (next (w.held p) o)
  step : ∃ r, sysStep p o w.os = some (r, w'.os)

/-- The others may do anything to the files, and to the locks of their own. -/
def lockRules (p : Pid) : Prog.Rules Op OS Locking :=
  ⟨Locking.os, fun w w' => w'.held p = w.held p, Asks p⟩

/-- `m` follows the order from the locks `held`, and ends with locks and a handle in `Q`. -/
def Locks (p : Pid) (m : DbM α) (held : List Span) (db : DB) (Q : α → DB → List Span → Prop) :
    Prop :=
  ∀ w : Locking, w.held p = held →
    wpM (lockRules p) p m (fun a db w => Q a db (w.held p)) (fun _ _ => True) db w

variable {held : List Span} {Q : α → DB → List Span → Prop}

/-- One part after the other. -/
theorem Locks.bind {m : DbM β} {f : β → DbM α} {Q' : β → DB → List Span → Prop}
    (h : Locks p m held db Q') (hf : ∀ b db' held', Q' b db' held' → Locks p (f b) held' db' Q) :
    Locks p (m >>= f) held db Q := by
  intro w hw
  rw [wpM_bind]
  exact wpM_mono (h w hw) (fun b db' w₁ hq => hf b db' _ hq w₁ rfl) fun _ _ _ => trivial

theorem Locks.pure {a : α} (h : Q a db held) : Locks p (pure a) held db Q := by
  intro w hw
  rw [wpM_pure, hw]
  exact h

/-- Less is to be shown. -/
theorem Locks.mono {m : DbM α} {Q' : α → DB → List Span → Prop} (h : Locks p m held db Q')
    (hq : ∀ a db' held', Q' a db' held' → Q a db' held') : Locks p m held db Q :=
  fun w hw => wpM_mono (h w hw) (fun a db' _ hq' => hq a db' _ hq') fun _ _ _ => trivial

/-- A system call. -/
theorem Locks.sys {o : Op} {Q : Res o → DB → List Span → Prop} (hmay : May held o)
    (hq : ∀ r, Q r db (next held o)) : Locks p (sys o) held db Q := by
  intro w hw w₁ hw₁ r os hst
  have hheld : w₁.held p = held := Eq.trans hw₁ hw
  refine ⟨⟨os, update w₁.held p (next held o)⟩, rfl, ⟨hheld ▸ hmay, by rw [hheld], r, hst⟩, ?_⟩
  show Q r db (update w₁.held p (next held o) p)
  rw [Function.update_self]
  exact hq r

/-! ## Functions that take no lock -/

/-- The fields that say where the locks are. -/
structure Fixed (db db' : DB) : Prop where
  nhash : db'.nhash = db.nhash
  hashoff : db'.hashoff = db.hashoff
  chainoff : db'.chainoff = db.chainoff

theorem Fixed.refl (db : DB) : Fixed db db := ⟨rfl, rfl, rfl⟩

theorem Fixed.trans {db'' : DB} (h : Fixed db db') (h' : Fixed db' db'') : Fixed db db'' :=
  ⟨h'.nhash.trans h.nhash, h'.hashoff.trans h.hashoff, h'.chainoff.trans h.chainoff⟩

/-- A file position is not one of the fixed members. -/
theorem Fixed.setPos (db : DB) (fd : Fd) (n : Nat) : Fixed db (db.setPos fd n) := by
  cases fd with
  | idxfd => exact ⟨rfl, rfl, rfl⟩
  | datfd => exact ⟨rfl, rfl, rfl⟩

/-- `m` takes no lock and gives none back. -/
structure Quiet (m : DbM α) : Prop where
  locks : ∀ (p : Pid) (held : List Span) (db : DB), Locks p m held db fun _ db' held' =>
    Fixed db db' ∧ held' = held

/-- One part after the other. -/
theorem Quiet.bind {m : DbM β} {f : β → DbM α} (h : Quiet m) (hf : ∀ b, Quiet (f b)) :
    Quiet (m >>= f) := by
  refine ⟨fun p held db => ?_⟩
  refine (h.locks p held db).bind fun b db₁ held₁ h₁ => ?_
  refine ((hf b).locks p held₁ db₁).mono fun a db₂ held₂ h₂ => ?_
  exact ⟨h₁.1.trans h₂.1, h₂.2.trans h₁.2⟩

theorem Quiet.pure (a : α) : Quiet (pure a : DbM α) :=
  ⟨fun _ _ db => Locks.pure ⟨.refl db, rfl⟩⟩

theorem Quiet.get : Quiet (get : DbM DB) := ⟨fun _ _ db _ hw => ⟨.refl db, hw⟩⟩

theorem Quiet.modify {f : DB → DB} (h : ∀ db, Fixed db (f db)) : Quiet (modify f : DbM Unit) :=
  ⟨fun _ _ db _ hw => ⟨h db, hw⟩⟩

theorem Quiet.err (e : Fatal) : Quiet (err e : DbM α) := ⟨fun _ _ _ _ _ => trivial⟩

/-- Either branch. -/
theorem Quiet.ite {c : Prop} [Decidable c] {m m' : DbM α} (h : Quiet m) (h' : Quiet m') :
    Quiet (if c then m else m') := by
  split
  · exact h
  · exact h'

theorem Quiet.errIf (c : Prop) [Decidable c] (e : Fatal) : Quiet (errIf c e) :=
  .ite (.err e) (.pure ())

/-- A system call that is none of the two. -/
theorem Quiet.sys {o : Op} (hmay : ∀ held, May held o) (hnext : ∀ held, next held o = held) :
    Quiet (sys o) :=
  ⟨fun _ held db => Locks.sys (hmay held) fun _ => ⟨.refl db, hnext held⟩⟩

/-- The calls on a file are quiet. -/
theorem quiet_lseek (fd : Fd) (offset : Int) (whence : Whence) : Quiet (lseek fd offset whence) := by
  have hrest : ∀ base : Nat, Quiet (if (base : Int) + offset < 0 then pure (-1) else do
      modify (·.setPos fd ((base : Int) + offset).toNat)
      pure ((base : Int) + offset) : DbM Int) :=
    fun base => .ite (.pure _) (.bind (.modify fun db => .setPos db fd _) fun _ => .pure _)
  unfold lseek
  cases whence with
  | seekSet => exact .bind (.pure 0) hrest
  | seekCur =>
    rw [map_eq_pure_bind]
    exact .bind (.bind .get fun _ => .pure _) hrest
  | seekEnd => exact .bind (.sys (fun _ => trivial) fun _ => rfl) hrest

theorem quiet_read (fd : Fd) (n : Nat) : Quiet (read fd n) := by
  unfold read
  refine .bind .get fun db => .bind (.sys (fun _ => trivial) fun _ => rfl) fun bytes => ?_
  exact .bind (.modify fun db => .setPos db fd _) fun _ => .pure _

theorem quiet_write (fd : Fd) (bytes : List Byte) : Quiet (write fd bytes) := by
  unfold write
  refine .bind .get fun db => .bind (.sys (fun _ => trivial) fun _ => rfl) fun _ => ?_
  exact .modify fun db => .setPos db fd _

theorem quiet_readptr (offset : Int) : Quiet (dbReadptr offset) := by
  unfold dbReadptr
  exact .bind (quiet_lseek ..) fun _ => .bind (.errIf ..) fun _ => .bind (quiet_read ..) fun _ =>
    .bind (.errIf ..) fun _ => .pure _

theorem quiet_splitIdx (buf : List Byte) : Quiet (splitIdx buf) := by
  unfold splitIdx
  cases strchr SEP (cstr buf) with
  | none => exact .err _
  | some s =>
    obtain ⟨key, ptr1⟩ := s
    dsimp only
    cases strchr SEP ptr1 with
    | none => exact .err _
    | some s =>
      obtain ⟨ptr1, ptr2⟩ := s
      refine .bind (.errIf ..) fun _ => .bind (.modify fun db => ⟨rfl, rfl, rfl⟩) fun _ => ?_
      refine .bind (.errIf ..) fun _ => .bind (.modify fun db => ⟨rfl, rfl, rfl⟩) fun _ => ?_
      exact .errIf ..

theorem quiet_readidx (offset : Int) : Quiet (dbReadidx offset) := by
  unfold dbReadidx
  refine .bind (quiet_lseek ..) fun _ => .bind (.modify fun db => ⟨rfl, rfl, rfl⟩) fun _ => ?_
  refine .bind (.errIf ..) fun _ => .bind (quiet_read ..) fun _ => .ite (.pure _) ?_
  refine .bind (.errIf ..) fun _ => .bind (.modify fun db => ⟨rfl, rfl, rfl⟩) fun _ => ?_
  refine .bind (.errIf ..) fun _ => .bind (quiet_read ..) fun _ => .bind (.errIf ..) fun _ => ?_
  exact .bind (.errIf ..) fun _ => .bind (quiet_splitIdx _) fun _ => .pure _

theorem quiet_readdat : Quiet dbReaddat := by
  unfold dbReaddat
  refine .bind .get fun _ => .bind (quiet_lseek ..) fun _ => .bind (.errIf ..) fun _ => ?_
  refine .bind .get fun _ => .bind (quiet_read ..) fun _ => .bind (.errIf ..) fun _ => ?_
  exact .bind (.errIf ..) fun _ => .bind (.modify fun db => ⟨rfl, rfl, rfl⟩) fun _ => .pure _

/-- The search along a chain takes no lock of its own. -/
theorem quiet_findLoop (key : List Byte) (fuel : Nat) : ∀ offset, Quiet (findLoop key fuel offset) := by
  induction fuel with
  | zero => exact fun _ => .err _
  | succ fuel ih =>
    intro offset
    unfold findLoop
    refine .ite (.pure _) (.bind (quiet_readidx _) fun _ => .bind .get fun _ => ?_)
    exact .ite (.pure _) (.bind (.modify fun db => ⟨rfl, rfl, rfl⟩) fun _ => ih _)

/-- The search on the free list takes no lock of its own. -/
theorem quiet_findfreeLoop (keylen datlen : Nat) (fuel : Nat) :
    ∀ saveoffset offset, Quiet (findfreeLoop keylen datlen fuel saveoffset offset) := by
  induction fuel with
  | zero => exact fun _ _ => .err _
  | succ fuel ih =>
    intro saveoffset offset
    unfold findfreeLoop
    refine .ite (.pure _) (.bind (quiet_readidx _) fun _ => .bind .get fun _ => ?_)
    exact .ite (.pure _) (ih _ _)

theorem quiet_nextrecLoop (fuel : Nat) : Quiet (nextrecLoop fuel) := by
  induction fuel with
  | zero => exact .err _
  | succ fuel ih =>
    unfold nextrecLoop
    refine .bind (quiet_readidx _) fun _ => .ite (.pure _) (.bind .get fun _ => ?_)
    exact .ite ih (.pure _)

theorem quiet_writeptr (offset ptrval : Int) : Quiet (dbWriteptr offset ptrval) := by
  unfold dbWriteptr
  exact .bind (.errIf ..) fun _ => .bind (quiet_lseek ..) fun _ => .bind (.errIf ..) fun _ =>
    quiet_write ..

theorem quiet_rewind : Quiet dbRewind := by
  unfold dbRewind
  exact .bind .get fun _ => .bind (quiet_lseek ..) fun _ =>
    .bind (.modify fun db => ⟨rfl, rfl, rfl⟩) fun _ => .errIf ..

/-! ## Functions that lock -/

/-- The next statement is quiet. -/
theorem Locks.thenQuiet {m : DbM β} {f : β → DbM α} (h : Quiet m)
    (hf : ∀ b db', Fixed db db' → Locks p (f b) held db' Q) : Locks p (m >>= f) held db Q := by
  refine (h.locks p held db).bind fun b db' held' hd => ?_
  rw [hd.2]
  exact hf b db' hd.1

theorem Locks.thenGet {f : DB → DbM α} (hf : Locks p (f db) held db Q) :
    Locks p (get >>= f) held db Q := hf

theorem Locks.thenModify {g : DB → DB} {f : Unit → DbM α} (hf : Locks p (f ()) held (g db) Q) :
    Locks p (modify g >>= f) held db Q := hf

theorem Locks.thenSet {f : PUnit → DbM α} (hf : Locks p (f ⟨⟩) held db' Q) :
    Locks p (set db' >>= f) held db Q := hf

/-- The next statement is a system call. -/
theorem Locks.thenSys {o : Op} {f : Res o → DbM α} (hmay : May held o)
    (hf : ∀ r, Locks p (f r) (next held o) db Q) : Locks p (Db.sys o >>= f) held db Q := by
  have hsys : Locks p (Db.sys o) held db fun _ db' held' => db' = db ∧ held' = next held o :=
    Locks.sys hmay fun _ => ⟨rfl, rfl⟩
  refine hsys.bind fun r db' held' hd => ?_
  rw [hd.1, hd.2]
  exact hf r

/-- A lock that may be taken with those that are held. -/
theorem Locks.thenLock {fd : Fd} {t : LockType} {off len : Nat} {f : Unit → DbM α}
    (hmay : May held (Op.lock fd t off len)) (hf : Locks p (f ()) (⟨fd, off, len⟩ :: held) db Q) :
    Locks p (Db.sys (Op.lock fd t off len) >>= f) held db Q :=
  Locks.thenSys hmay fun _ => hf

/-- The lock that was taken last is given back. -/
theorem Locks.thenUnlock {fd : Fd} {off len : Nat} {f : Unit → DbM α}
    (hf : Locks p (f ()) held db Q) :
    Locks p (Db.sys (Op.unlock fd off len) >>= f) (⟨fd, off, len⟩ :: held) db Q := by
  refine Locks.thenSys (o := Op.unlock fd off len) trivial fun _ => ?_
  show Locks p (f ()) ((⟨fd, off, len⟩ :: held).erase ⟨fd, off, len⟩) db Q
  rw [List.erase_cons_head]
  exact hf

/-- The lock that was taken last is given back. -/
theorem Locks.unlock {fd : Fd} {off len : Nat} {Q : Unit → DB → List Span → Prop}
    (hq : Q () db held) :
    Locks p (Db.sys (Op.unlock fd off len)) (⟨fd, off, len⟩ :: held) db Q := by
  refine Locks.sys (o := Op.unlock fd off len) trivial fun _ => ?_
  show Q () db ((⟨fd, off, len⟩ :: held).erase ⟨fd, off, len⟩)
  rw [List.erase_cons_head]
  exact hq

/-- The lock of a chain. -/
def chainSpan (offset : Int) : Span := ⟨.idxfd, offset.toNat, 1⟩

/-- A call is at work on a chain, and holds that one lock. -/
structure Below (db : DB) (held : List Span) : Prop extends Opened db where
  chain : (chainSpan db.chainoff).IsChain
  held : held = [chainSpan db.chainoff]

/-- The fixed members decide which locks are below. -/
theorem Below.fixed (h : Below db held) (hd : Fixed db db') : Below db' held where
  nhash := hd.nhash.trans h.nhash
  hashoff := hd.hashoff.trans h.hashoff
  chain := hd.chainoff.symm ▸ h.chain
  held := hd.chainoff.symm ▸ h.held

/-- The index records and the free list come behind the chains. -/
theorem Below.may (h : Below db held) {fd : Fd} {t : LockType} {off len : Nat}
    (hr : Span.Apart ⟨fd, off, len⟩) : May held (Op.lock fd t off len) := by
  refine Or.inr ⟨fun r hmem => ?_, hr⟩
  rw [h.held] at hmem
  rw [List.mem_singleton.mp hmem]
  exact h.chain

/-- `m` may take more locks below a chain, and gives them back. -/
structure Nested (m : DbM α) : Prop where
  locks : ∀ (p : Pid) (held : List Span) (db : DB), Below db held →
    Locks p m held db fun _ db' held' => Fixed db db' ∧ held' = held

/-- What takes no lock at all is nested. -/
theorem Quiet.nested {m : DbM α} (h : Quiet m) : Nested m := ⟨fun p held db _ => h.locks p held db⟩

/-- One part after the other. -/
theorem Nested.bind {m : DbM β} {f : β → DbM α} (h : Nested m) (hf : ∀ b, Nested (f b)) :
    Nested (m >>= f) := by
  refine ⟨fun p held db hb => ?_⟩
  refine (h.locks p held db hb).bind fun b db₁ held₁ h₁ => ?_
  have hb₁ : Below db₁ held₁ := h₁.2 ▸ hb.fixed h₁.1
  refine ((hf b).locks p held₁ db₁ hb₁).mono fun a db₂ held₂ h₂ => ?_
  exact ⟨h₁.1.trans h₂.1, h₂.2.trans h₁.2⟩

/-- Either branch. -/
theorem Nested.ite {c : Prop} [Decidable c] {m m' : DbM α} (h : Nested m) (h' : Nested m') :
    Nested (if c then m else m') := by
  split
  · exact h
  · exact h'

/-- The next statement is one below a chain. -/
theorem Locks.thenNested {m : DbM β} {f : β → DbM α} (h : Nested m) (hb : Below db held)
    (hf : ∀ b db', Below db' held → Locks p (f b) held db' Q) : Locks p (m >>= f) held db Q := by
  refine (h.locks p held db hb).bind fun b db' held' hd => ?_
  rw [hd.2]
  exact hf b db' (hb.fixed hd.1)

/-- A data record that is overwritten needs no lock. -/
theorem quiet_writedat_set (data : List Byte) (offset : Int) :
    Quiet (dbWritedat data offset .seekSet) := by
  have hset : ¬ Whence.seekSet = Whence.seekEnd := by decide
  unfold dbWritedat
  simp only [if_neg hset]
  exact .bind (quiet_lseek ..) fun _ => .bind (.modify fun db => ⟨rfl, rfl, rfl⟩) fun _ =>
    .bind (.errIf ..) fun _ => .bind (.modify fun db => ⟨rfl, rfl, rfl⟩) fun _ =>
    .bind (quiet_write ..) fun _ => .pure _

/-- The whole data file, while it grows. -/
theorem nested_writedat_end (data : List Byte) (offset : Int) :
    Nested (dbWritedat data offset .seekEnd) := by
  refine ⟨fun p held db hb => ?_⟩
  unfold dbWritedat
  simp only [if_pos]
  refine Locks.thenLock (hb.may (Or.inl rfl)) ?_
  refine Locks.thenQuiet (quiet_lseek ..) fun off db₁ h₁ => ?_
  refine Locks.thenQuiet (.modify fun db => ⟨rfl, rfl, rfl⟩) fun _ db₂ h₂ => ?_
  refine Locks.thenQuiet (.errIf ..) fun _ db₃ h₃ => ?_
  refine Locks.thenQuiet (.modify fun db => ⟨rfl, rfl, rfl⟩) fun _ db₄ h₄ => ?_
  refine Locks.thenQuiet (quiet_write ..) fun _ db₅ h₅ => ?_
  exact Locks.unlock ⟨h₁.trans (h₂.trans (h₃.trans (h₄.trans h₅))), rfl⟩

/-- An index record that is overwritten needs no lock. -/
theorem quiet_writeidx_set (key : List Byte) (offset ptrval : Int) :
    Quiet (dbWriteidx key offset .seekSet ptrval) := by
  have hset : ¬ Whence.seekSet = Whence.seekEnd := by decide
  unfold dbWriteidx
  simp only [if_neg hset]
  exact .bind (.modify fun db => ⟨rfl, rfl, rfl⟩) fun _ => .bind (.errIf ..) fun _ =>
    .bind .get fun _ => .bind (.modify fun db => ⟨rfl, rfl, rfl⟩) fun _ => .bind (.errIf ..) fun _ =>
    .bind (quiet_lseek ..) fun _ => .bind (.modify fun db => ⟨rfl, rfl, rfl⟩) fun _ =>
    .bind (.errIf ..) fun _ => .bind (quiet_write ..) fun _ => .pure _

/-- The end of the index file, while it grows. -/
theorem nested_writeidx_end (key : List Byte) (offset ptrval : Int) :
    Nested (dbWriteidx key offset .seekEnd ptrval) := by
  refine ⟨fun p held db hb => ?_⟩
  unfold dbWriteidx
  simp only [if_pos]
  refine Locks.thenQuiet (.modify fun db => ⟨rfl, rfl, rfl⟩) fun _ db₁ h₁ => ?_
  refine Locks.thenQuiet (.errIf ..) fun _ db₂ h₂ => ?_
  refine Locks.thenGet ?_
  refine Locks.thenQuiet (.modify fun db => ⟨rfl, rfl, rfl⟩) fun _ db₃ h₃ => ?_
  refine Locks.thenQuiet (.errIf ..) fun _ db₄ h₄ => ?_
  -- the offset of the lock is made of the handle as it was three statements before
  have htail : (((db₂.nhash : Int) + 1) * PTR_SZ + 1).toNat = tailOff := by
    rw [h₂.nhash, h₁.nhash, hb.nhash]
    rfl
  unfold writewLock unLock
  rw [htail]
  refine Locks.thenLock (hb.may (Or.inr (Or.inr (Nat.le_refl _)))) ?_
  refine Locks.thenQuiet (quiet_lseek ..) fun off db₅ h₅ => ?_
  refine Locks.thenQuiet (.modify fun db => ⟨rfl, rfl, rfl⟩) fun _ db₆ h₆ => ?_
  refine Locks.thenQuiet (.errIf ..) fun _ db₇ h₇ => ?_
  refine Locks.thenQuiet (quiet_write ..) fun _ db₈ h₈ => ?_
  have h₄ : Fixed db db₄ := h₁.trans (h₂.trans (h₃.trans h₄))
  exact Locks.unlock ⟨h₄.trans (h₅.trans (h₆.trans (h₇.trans h₈))), rfl⟩

/-- The byte of the free list, while a record is put on it. -/
theorem nested_dodelete : Nested dbDodelete := by
  refine ⟨fun p held db hb => ?_⟩
  unfold dbDodelete
  refine Locks.thenQuiet (.modify fun db => ⟨rfl, rfl, rfl⟩) fun _ db₁ h₁ => ?_
  refine Locks.thenQuiet (.modify fun db => ⟨rfl, rfl, rfl⟩) fun _ db₂ h₂ => ?_
  refine Locks.thenLock (hb.may (Or.inr (Or.inl ⟨rfl, rfl⟩))) ?_
  refine Locks.thenQuiet .get fun _ db₃ h₃ => ?_
  refine Locks.thenQuiet (quiet_writedat_set ..) fun _ db₄ h₄ => ?_
  refine Locks.thenQuiet (quiet_readptr ..) fun _ db₅ h₅ => ?_
  refine Locks.thenQuiet .get fun _ db₆ h₆ => ?_
  refine Locks.thenQuiet (quiet_writeidx_set ..) fun _ db₇ h₇ => ?_
  refine Locks.thenQuiet .get fun _ db₈ h₈ => Locks.thenQuiet (quiet_writeptr ..) fun _ db₉ h₉ => ?_
  have hd : Fixed db db₉ :=
    h₁.trans (h₂.trans (h₃.trans (h₄.trans (h₅.trans (h₆.trans (h₇.trans (h₈.trans h₉)))))))
  refine Locks.thenQuiet .get fun _ db₁₀ h₁₀ => ?_
  refine Locks.thenQuiet (quiet_writeptr ..) fun _ db₁₁ h₁₁ => ?_
  exact Locks.unlock ⟨hd.trans (h₁₀.trans h₁₁), rfl⟩

/-- The byte of the free list, while a record is taken from it. -/
theorem nested_findfree (keylen datlen : Nat) : Nested (dbFindfree keylen datlen) := by
  refine ⟨fun p held db hb => ?_⟩
  unfold dbFindfree
  refine Locks.thenLock (hb.may (Or.inr (Or.inl ⟨rfl, rfl⟩))) ?_
  refine Locks.thenQuiet (quiet_readptr ..) fun _ db₁ h₁ => ?_
  refine Locks.thenQuiet (quiet_findfreeLoop ..) fun found db₂ h₂ => ?_
  obtain ⟨offset, saveoffset⟩ := found
  dsimp only
  split
  · exact Locks.thenUnlock (Locks.pure ⟨h₁.trans h₂, rfl⟩)
  · refine Locks.thenGet (Locks.thenQuiet (quiet_writeptr ..) fun _ db₃ h₃ => ?_)
    exact Locks.thenUnlock (Locks.pure ⟨h₁.trans (h₂.trans h₃), rfl⟩)

/-- The locks of `storeNew` are taken and given back. -/
theorem nested_storeNew (key data : List Byte) : Nested (storeNew key data) := by
  have hget : Nested (get : DbM DB) := Quiet.get.nested
  unfold storeNew
  refine hget.bind fun _ => (quiet_readptr _).nested.bind fun _ => ?_
  refine (nested_findfree ..).bind fun _ => .ite ?_ ?_
  · refine (nested_writedat_end ..).bind fun _ => (nested_writeidx_end ..).bind fun _ => ?_
    exact hget.bind fun _ => (quiet_writeptr ..).nested
  · refine hget.bind fun _ => (quiet_writedat_set ..).nested.bind fun _ => ?_
    refine hget.bind fun _ => (quiet_writeidx_set ..).nested.bind fun _ => ?_
    exact hget.bind fun _ => (quiet_writeptr ..).nested

theorem nested_storeOld (key data : List Byte) : Nested (storeOld key data) := by
  have hget : Nested (get : DbM DB) := Quiet.get.nested
  unfold storeOld
  refine hget.bind fun _ => .ite ?_ (quiet_writedat_set ..).nested
  refine nested_dodelete.bind fun _ => (quiet_readptr _).nested.bind fun _ => ?_
  refine (nested_writedat_end ..).bind fun _ => (nested_writeidx_end ..).bind fun _ => ?_
  exact hget.bind fun _ => (quiet_writeptr ..).nested

/-! ## Calls -/

/-- A chain in the hash table of a new database. -/
theorem isChain_hash (key : List Byte) :
    (chainSpan (dbHash NHASH_DEF key * PTR_SZ + HASH_OFF)).IsChain := by
  have hlt : dbHash NHASH_DEF key < NHASH_DEF := Nat.mod_lt _ (by decide)
  simp only [NHASH_DEF] at hlt
  unfold Span.IsChain chainSpan
  simp only [HASH_OFF, PTR_SZ, NHASH_DEF, true_and]
  omega

/-- The lock of a chain is in front of all that is locked with it. -/
theorem below_chain (h : Opened db) (key : List Byte) :
    Below { db with
      chainoff := dbHash db.nhash key * PTR_SZ + db.hashoff
      ptroff := dbHash db.nhash key * PTR_SZ + db.hashoff }
      [chainSpan (dbHash db.nhash key * PTR_SZ + db.hashoff)] where
  nhash := h.nhash
  hashoff := h.hashoff
  chain := by
    dsimp only
    rw [h.nhash, h.hashoff]
    exact isChain_hash key
  held := rfl

/-- The chain of the key is locked first. -/
theorem locks_findAndLock (h : Opened db) (key : List Byte) (writelock : Bool) :
    Locks p (dbFindAndLock key writelock) [] db fun _ db' held' => Below db' held' := by
  have hb := below_chain h key
  unfold dbFindAndLock
  refine Locks.thenGet (Locks.thenModify ?_)
  generalize (dbHash db.nhash key * PTR_SZ + db.hashoff : Int) = chainoff at hb ⊢
  have hfind : Locks p (do
      let offset ← dbReadptr chainoff
      let offset ← findLoop key loopFuel offset
      pure (if offset = 0 then -1 else 0 : Int)) [chainSpan chainoff]
      { db with chainoff := chainoff, ptroff := chainoff }
      fun _ db' held' => Below db' held' := by
    refine Locks.thenQuiet (quiet_readptr ..) fun _ db₁ h₁ => ?_
    exact Locks.thenQuiet (quiet_findLoop ..) fun _ db₂ h₂ => Locks.pure (hb.fixed (h₁.trans h₂))
  cases writelock with
  | true => exact Locks.thenLock (Or.inl rfl) hfind
  | false => exact Locks.thenLock (Or.inl rfl) hfind

/-- A process between two calls: it has opened the database, and has no locks. -/
structure AtRest (db : DB) (held : List Span) : Prop extends Opened db where
  held : held = []

theorem AtRest.fixed (h : AtRest db held) (hd : Fixed db db') : AtRest db' held :=
  ⟨⟨hd.nhash.trans h.nhash, hd.hashoff.trans h.hashoff⟩, h.held⟩

/-- The lock of the chain is given back. -/
theorem Below.finish (h : Below db held) (a : α) :
    Locks p (do unLock .idxfd (← get).chainoff 1; pure a) held db
      fun _ db' held' => AtRest db' held' := by
  rw [h.held]
  exact Locks.thenGet (Locks.thenUnlock (Locks.pure ⟨h.toOpened, rfl⟩))

/-- `db_fetch` keeps the order. -/
theorem locks_fetch (h : Opened db) (key : CString) :
    Locks p (dbFetch key) [] db fun _ db' held' => AtRest db' held' := by
  unfold dbFetch
  refine (locks_findAndLock h key.val false).bind fun found db₁ held₁ hb => ?_
  dsimp only
  split
  · exact hb.finish none
  · rw [map_eq_pure_bind, bind_assoc]
    refine Locks.thenQuiet quiet_readdat fun d db₂ h₂ => ?_
    exact (hb.fixed h₂).finish (some d)

/-- `db_delete` keeps the order. -/
theorem locks_delete (h : Opened db) (key : CString) :
    Locks p (dbDelete key) [] db fun _ db' held' => AtRest db' held' := by
  unfold dbDelete
  refine (locks_findAndLock h key.val true).bind fun found db₁ held₁ hb => ?_
  dsimp only
  split
  · exact Locks.thenNested nested_dodelete hb fun _ db₂ hb₂ => hb₂.finish 0
  · exact hb.finish (-1)

/-- `db_store` keeps the order. -/
theorem locks_store (h : Opened db) (key data : CString) (flag : Int) :
    Locks p (dbStore key data flag) [] db fun _ db' held' => AtRest db' held' := by
  unfold dbStore
  split
  · exact Locks.pure ⟨h, rfl⟩
  · refine Locks.thenQuiet (.errIf ..) fun _ db₁ h₁ => ?_
    have hopen : Opened db₁ := ⟨h₁.nhash.trans h.nhash, h₁.hashoff.trans h.hashoff⟩
    refine (locks_findAndLock hopen key.val true).bind fun found db₂ held₂ hb => ?_
    dsimp only
    split
    · split
      · exact hb.finish (-1)
      · exact Locks.thenNested (nested_storeNew ..) hb fun _ db₃ hb₃ => hb₃.finish 0
    · split
      · exact hb.finish 1
      · exact Locks.thenNested (nested_storeOld ..) hb fun _ db₃ hb₃ => hb₃.finish 0

/-- `db_nextrec` keeps the order. -/
theorem locks_nextrec (h : AtRest db held) :
    Locks p dbNextrec held db fun _ db' held' => AtRest db' held' := by
  unfold dbNextrec
  refine Locks.thenLock (Or.inl h.held) ?_
  refine Locks.thenQuiet (quiet_nextrecLoop _) fun more db₁ h₁ => ?_
  split
  · refine Locks.thenGet (Locks.thenQuiet quiet_readdat fun d db₂ h₂ => ?_)
    exact Locks.thenUnlock (Locks.pure (h.fixed (h₁.trans h₂)))
  · exact Locks.thenUnlock (Locks.pure (h.fixed h₁))

/-- `db_rewind` takes no lock. -/
theorem locks_rewind (h : AtRest db held) :
    Locks p dbRewind held db fun _ db' held' => AtRest db' held' :=
  (quiet_rewind.locks p held db).mono fun _ _ _ hd => hd.2 ▸ h.fixed hd.1

/-- `db_open` makes a new handle, and may lock the whole index file. -/
theorem locks_open (creat trunc : Bool) :
    Locks p (dbOpen creat trunc) [] db fun _ db' held' => AtRest db' held' := by
  generalize hnew : ({ nhash := NHASH_DEF, hashoff := HASH_OFF } : DB) = new
  have hrest : AtRest new [] := ⟨⟨hnew ▸ rfl, hnew ▸ rfl⟩, rfl⟩
  have hopenf : ∀ fd, Quiet (Db.sys (.openf fd trunc)) := by
    intro fd
    exact .sys (fun _ => trivial) fun _ => rfl
  have hsize : Quiet (Db.sys (.size .idxfd)) := .sys (fun _ => trivial) fun _ => rfl
  unfold dbOpen
  rw [hnew]
  refine Locks.thenSet (Locks.thenQuiet (hopenf .idxfd) fun _ db₁ h₁ => ?_)
  refine Locks.thenQuiet (hopenf .datfd) fun _ db₂ h₂ => ?_
  have hrest₂ : AtRest db₂ [] := hrest.fixed (h₁.trans h₂)
  split
  · -- a new database: the table is written under the lock of the whole file
    refine Locks.thenLock (Or.inl rfl) (Locks.thenQuiet hsize fun size db₃ h₃ => ?_)
    have hrest₃ : AtRest db₃ [] := hrest₂.fixed h₃
    dsimp only
    split
    · refine Locks.thenQuiet (quiet_write ..) fun _ db₄ h₄ => ?_
      exact Locks.thenUnlock (locks_rewind (hrest₃.fixed h₄))
    · exact Locks.thenUnlock (locks_rewind hrest₃)
  · exact locks_rewind hrest₂

/-- **Every call follows the order**, and gives back what it has locked. -/
theorem locks_call (h : AtRest db held) (c : Call) :
    Locks p c.prog held db fun _ db' held' => AtRest db' held' := by
  obtain ⟨hopen, rfl⟩ := h
  unfold Call.prog
  cases c with
  | «open» creat trunc => exact (locks_open creat trunc).bind fun _ _ _ hr => Locks.pure hr
  | fetch key => exact (locks_fetch hopen key).bind fun _ _ _ hr => Locks.pure hr
  | store key data flag =>
    exact (locks_store hopen key data flag).bind fun _ _ _ hr => Locks.pure hr
  | delete key => exact (locks_delete hopen key).bind fun _ _ _ hr => Locks.pure hr
  | rewind => exact (locks_rewind ⟨hopen, rfl⟩).bind fun _ _ _ hr => Locks.pure hr
  | nextrec => exact (locks_nextrec ⟨hopen, rfl⟩).bind fun _ _ _ hr => Locks.pure hr

end LearningNotes.Db
