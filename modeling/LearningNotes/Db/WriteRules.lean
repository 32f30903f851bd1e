import LearningNotes.Db.Fetch
import LearningNotes.Db.Writes

/-!
# Rules for the writing functions

`_db_writeptr`, `_db_writedat` and `_db_writeidx` at an offset that is given: they pass
their checks and make one system call, for which the caller names the world afterwards.
The `os_…` lemmas say that the files of the named worlds are the files that were written.
The forms that append take a lock of their own and are in `Store.lean`.

`Has.write` is the other half of a write: what the process knows afterwards.
-/

namespace LearningNotes.Db

open RangeLock (Held)

variable {P : List Byte → Prop} {p : Pid} {E : Env P p} {call : Call} {op : Op}
  {H : Fatal → World → Prop} {db : DB} {w w' : World} {key : List Byte} {t : LockType}
  {S : Fd → Nat → Prop} {old : Option (List Byte)} {size : Nat × Nat} {u u' : Part}

/-! ## The functions -/

/-- `_db_writeptr`. -/
theorem wpM_writeptr {off v : Nat} {Q : Unit → DB → World → Prop} (hv : v ≤ PTR_MAX)
    (h : ∀ w₁, E.rel w w₁ → ∃ w₂,
      w₂.os = w₁.os.setFile .idxfd (overwrite 0 w₁.os.idx off (ptrText v)) ∧
      (Inv P w₁ → Guar P p call (.write .idxfd off (ptrText v)) w₁ w₂) ∧
      Q () { db with idxpos := off + PTR_SZ } w₂) :
    wpM (rules E call) p (dbWriteptr off v) Q H db w := by
  have hchk : ¬ ((v : Int) < 0 ∨ (v : Int) > (PTR_MAX : Nat)) := by omega
  have hne : ¬ (off : Int) = -1 := by omega
  unfold dbWriteptr
  simp only [wpM_bind, wpM_lseek_set, decimalInt_natCast]
  rw [wpM_errIf_neg hchk, wpM_errIf_neg hne]
  refine wpM_write fun w₁ hw₁ => ?_
  obtain ⟨w₂, hos, hg, hq⟩ := h w₁ hw₁
  have hlen := length_ptrText hv
  refine ⟨w₂, hos, hg, ?_⟩
  show Q () { db with idxpos := off + (ptrText v).length } w₂
  rw [hlen]
  exact hq

/-- `_db_writeptr` with an offset that does not fit the field. -/
theorem wpM_writeptr_big {off v : Nat} {Q : Unit → DB → World → Prop} (hv : PTR_MAX < v)
    (h : H .writeptrInvalidPtr w) : wpM (rules E call) p (dbWriteptr off v) Q H db w := by
  have hchk : (v : Int) < 0 ∨ (v : Int) > (PTR_MAX : Nat) := by omega
  unfold dbWriteptr
  rw [wpM_bind, wpM_errIf_pos hchk]
  exact h

/-- `_db_writedat` at an offset. -/
theorem wpM_writedat {data : List Byte} {off : Nat} {Q : Unit → DB → World → Prop}
    (h : ∀ w₁, E.rel w w₁ → ∃ w₂,
      w₂.os = w₁.os.setFile .datfd (overwrite 0 w₁.os.dat off (data ++ [NEWLINE])) ∧
      (Inv P w₁ → Guar P p call (.write .datfd off (data ++ [NEWLINE])) w₁ w₂) ∧
      Q () { db with datoff := off, datlen := data.length + 1, datpos := off + (data.length + 1) }
        w₂) :
    wpM (rules E call) p (dbWritedat data off .seekSet) Q H db w := by
  have hne : ¬ (off : Int) = -1 := by omega
  unfold dbWritedat
  have hset : ¬ (Whence.seekSet = Whence.seekEnd) := by decide
  simp only [if_neg hset, wpM_bind, wpM_lseek_set, wpM_modify]
  rw [wpM_errIf_neg hne]
  refine wpM_write fun w₁ hw₁ => ?_
  obtain ⟨w₂, hos, hg, hq⟩ := h w₁ hw₁
  refine ⟨w₂, hos, hg, ?_⟩
  show Q () { db with datoff := off, datlen := data.length + 1, datpos := off + _ } w₂
  rw [List.length_append, List.length_singleton]
  exact hq

/-- `_db_writeidx` at an offset. -/
theorem wpM_writeidx {r : Rec} {off : Nat} {Q : Unit → DB → World → Prop} (hr : r.Ok)
    (hoff : db.datoff = r.datoff) (hlen : db.datlen = r.datlen)
    (h : ∀ w₁, E.rel w w₁ → ∃ w₂,
      w₂.os = w₁.os.setFile .idxfd (overwrite 0 w₁.os.idx off r.bytes) ∧
      (Inv P w₁ → Guar P p call (.write .idxfd off r.bytes) w₁ w₂) ∧
      Q () { db with ptrval := r.ptr, idxbuf := r.text, idxoff := off, idxpos := off + r.size } w₂) :
    wpM (rules E call) p (dbWriteidx r.key off .seekSet r.ptr) Q H db w := by
  have hptr := hr.ptr
  have hlo := hr.lo
  have hhi := hr.hi
  have hchk : ¬ ((r.ptr : Int) < 0 ∨ (r.ptr : Int) > (PTR_MAX : Nat)) := by omega
  have hchk₂ : ¬ (r.text.length < IDXLEN_MIN ∨ r.text.length > IDXLEN_MAX) := by omega
  have hne : ¬ (off : Int) = -1 := by omega
  have htext : r.key ++ [SEP] ++ decimalInt db.datoff ++ [SEP] ++ decimal db.datlen ++ [NEWLINE]
      = r.text := by
    rw [hoff, hlen, decimalInt_natCast]
    rfl
  have hset : ¬ (Whence.seekSet = Whence.seekEnd) := by decide
  unfold dbWriteidx
  simp only [if_neg hset, wpM_bind, wpM_modify, wpM_get]
  rw [wpM_errIf_neg hchk, htext, wpM_errIf_neg hchk₂]
  simp only [wpM_lseek_set]
  rw [wpM_errIf_neg hne, decimalInt_natCast, bytes_writeidx]
  refine wpM_write fun w₁ hw₁ => ?_
  obtain ⟨w₂, hos, hg, hq⟩ := h w₁ hw₁
  refine ⟨w₂, hos, hg, ?_⟩
  have hsize := hr.length_bytes
  show Q () { db with ptrval := _, idxbuf := _, idxoff := _, idxpos := off + r.bytes.length } w₂
  rw [hsize]
  exact hq

/-! ## The files that are written -/

section Os

variable {ℓ : Place} {c₁ c₂ : List Cell} {o v a : Nat} {it it' : Item} {sl : Slot} {d : CString}

/-- The data of a record is overwritten where it is. -/
theorem os_edit_data (hf : Files w) (hp : Placed w) (hc : w.cells ℓ = c₁ ++ (o, it) :: c₂)
    (hd : blockSize d = blockSize it.data) :
    (w.edit ℓ c₁ o { it with data := d } c₂).os =
      w.os.setFile .datfd (overwrite 0 w.os.dat it.datoff (d.val ++ [NEWLINE])) := by
  have hmem := mem_of_split hc
  have hx : w.x.setRec o it.toRec = w.x := Index.setRec_self (hp.recAt hmem)
  have hy := overwrite_setBlock (hp.block hmem) hd
  show (⟨(w.x.setRec o it.toRec).bytes, datBytes (setBlock w.y it.datoff d), w.os.locks⟩ : OS) =
    ⟨w.os.idx, overwrite 0 w.os.dat it.datoff (blockBytes d), w.os.locks⟩
  rw [hx, ← hf.idx, hf.dat, hy]

/-- A record is overwritten where it is. -/
theorem os_edit_rec (hf : Files w) (hp : Placed w) (hc : w.cells ℓ = c₁ ++ (o, it) :: c₂)
    (hfit : it.Fits it') (hd : it'.data = it.data) :
    (w.edit ℓ c₁ o it' c₂).os =
      w.os.setFile .idxfd (overwrite 0 w.os.idx o it'.toRec.bytes) := by
  have hmem := mem_of_split hc
  have hr := hp.recAt hmem
  have hy : setBlock w.y it'.datoff it'.data = w.y := by
    rw [hfit.datoff, hd]
    exact setBlock_self (hp.block hmem)
  have hx := Index.overwrite_setRec hf.ok hr (hfit.ok (hf.ok.recAt hr)) hfit.size
  show (⟨(w.x.setRec o it'.toRec).bytes, datBytes (setBlock w.y it'.datoff it'.data),
    w.os.locks⟩ : OS) = ⟨overwrite 0 w.os.idx o it'.toRec.bytes, w.os.dat, w.os.locks⟩
  rw [hy, ← hf.dat, hf.idx, hx]

/-- A pointer is overwritten where it is. -/
theorem Settable.os_redirect (hs : Settable P p w ℓ sl a c₁ v c₂) :
    (w.redirect ℓ sl c₁ v c₂).os =
      w.os.setFile .idxfd (overwrite 0 w.os.idx (endSlot sl c₁).off (ptrText v)) := by
  obtain ⟨b, hb⟩ := hs.get_endSlot
  have hx := Index.overwrite_put hs.inv.files.ok hb hs.le
  show (⟨(w.x.put (endSlot sl c₁) v).bytes, w.os.dat, w.os.locks⟩ : OS) =
    ⟨overwrite 0 w.os.idx _ _, w.os.dat, w.os.locks⟩
  rw [hs.inv.files.idx, hx]

/-- A data record is appended. -/
theorem os_addBlock (hf : Files w) : (w.addBlock p d).os =
    w.os.setFile .datfd (overwrite 0 w.os.dat w.os.dat.length (d.val ++ [NEWLINE])) := by
  have hy := overwrite_block w.y d
  show (⟨w.os.idx, datBytes (w.y ++ [d]), w.os.locks⟩ : OS) =
    ⟨w.os.idx, overwrite 0 w.os.dat _ _, w.os.locks⟩
  rw [hf.dat, ← hy]
  rfl

/-- An index record is appended. -/
theorem os_addRec (hf : Files w) : (w.addRec p it).os =
    w.os.setFile .idxfd (overwrite 0 w.os.idx w.os.idx.length it.toRec.bytes) := by
  have hx := Index.overwrite_append w.x it.toRec
  show (⟨(w.x.append it.toRec).bytes, w.os.dat, w.os.locks⟩ : OS) =
    ⟨overwrite 0 w.os.idx _ _, w.os.dat, w.os.locks⟩
  rw [hf.idx, hx]

end Os

/-! ## What is known afterwards -/

/-- The process has no right to make the files grow. -/
structure NoGrow (S : Fd → Nat → Prop) : Prop where
  tail : ¬ S .idxfd recsOff
  dat : ¬ S .datfd 0

/-- Nobody else appends. -/
theorem NoGrow.same_size (hS : NoGrow S) (h : HoldsOnly p w S) (hg : Guar P p call op w w') :
    (w'.x.size, w'.os.dat.length) = (w.x.size, w.os.dat.length) := by
  rw [hg.tail fun ho => hS.tail (h _ _ _ ho), hg.datend fun ho => hS.dat (h _ _ _ ho)]

/-- A write changes the part of the world that the call works on, and nothing else. -/
theorem Has.write {size' : Nat × Nat} (h : Has E key t S old size u w)
    (hg : Guar P p call op w w')
    (hsize : (w.x.size, w.os.dat.length) = size → (w'.x.size, w'.os.dat.length) = size')
    (hlocks : w'.os.locks = w.os.locks) (hmap : w'.map = w.map) (hlin : w'.lin = w.lin)
    (hcells : w'.cells (World.chainOf key) = u'.cells)
    (hgap : w'.gap (dbHash NHASH_DEF key) = u'.gap) (hhand : w'.cells (.hand p) = u'.hand)
    (hpend : w'.pend p = u'.pend) (hmoved : w'.moved p = u'.moved)
    (hlook : ∀ k, k ≠ key → lookup k u'.cells = lookup k u.cells) :
    Has E key t S old size' u' w' := by
  have hheld : ∀ f t n, Held w'.os.locks p f t n ↔ Held w.os.locks p f t n := by
    intro f t n
    rw [hlocks]
  refine ⟨hg.inv, (holds_congr hheld _ _).mpr h.held, ?_, hcells, hgap, hhand, hpend, hmoved,
    ?_, ?_, ?_, ?_⟩
  · intro f t n hn
    exact h.locks f t n ((hheld f t n).mp hn)
  · intro hl k hk hch
    rw [hmap, hlook k hk]
    exact h.others (hg.live ▸ hl) k hk hch
  · intro hl
    rw [hmap]
    exact h.old (hg.live ▸ hl)
  · rw [hlin]
    exact h.lin
  · intro ha
    exact hsize (h.alone ha)

end LearningNotes.Db
