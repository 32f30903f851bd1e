import LearningNotes.Db.Inner

/-!
# Deleting a record

`_db_dodelete` in its five steps under the lock of the free list. Its order is what the
invariant follows: the data goes blank first, while the key still stands (`wiped`); then
the record goes blank and leads to the free list, while its predecessor still leads to it
(`Gap`); then it is the head of the free list; and only then its chain is closed again.
-/

namespace LearningNotes.Db

variable {P : List Byte → Prop} {p : Pid} {E : Env P p} {call : Call} {H : Fatal → World → Prop}
  {db : DB} {w : World} {key : List Byte} {old : Option (List Byte)} {size : Nat × Nat}
  {c c₁ c₂ f : List Cell} {o : Nat} {it : Item}

/-- A string of blanks. -/
def blanks (n : Nat) : List Byte := List.replicate n SPACE

theorem blank_blanks (n : Nat) : Blank (blanks n) := fun _ hb => List.eq_of_mem_replicate hb

theorem zero_not_mem_blanks (n : Nat) : (0 : Byte) ∉ blanks n := fun h =>
  absurd (List.eq_of_mem_replicate h) (by decide)

/-- The data of a deleted record. -/
def Item.blankData (it : Item) : CString :=
  ⟨blanks it.data.val.length, zero_not_mem_blanks _⟩

/-- A record that has lost its data. -/
def Item.wiped (it : Item) : Item := { it with data := it.blankData }

/-- A deleted record with chain pointer `v`. -/
def Item.deleted (it : Item) (v : Nat) : Item :=
  { it with key := blanks it.key.length, ptr := v, data := it.blankData }

theorem Item.size_blankData (it : Item) : blockSize it.blankData = blockSize it.data := by
  show (blanks it.data.val.length).length + 1 = it.data.val.length + 1
  rw [blanks, List.length_replicate]

theorem Item.fits_blankData (it : Item) (hok : it.toRec.Ok) :
    it.Fits it.wiped :=
  ⟨rfl, rfl, rfl, it.size_blankData, hok.nul, hok.ptr⟩

theorem Item.fits_deleted (it : Item) {v : Nat} (hv : v ≤ PTR_MAX) :
    it.wiped.Fits (it.deleted v) :=
  ⟨List.length_replicate, rfl, rfl, rfl, zero_not_mem_blanks _, hv⟩

/-- The data of a record of the chain goes blank. -/
def World.wipe (w : World) (key : List Byte) (c₁ : List Cell) (o : Nat) (it : Item)
    (c₂ : List Cell) : World :=
  (w.edit (World.chainOf key) c₁ o it.wiped c₂).note w.wrote (some o)

theorem cells_wipe_ne {ℓ : Place} (h : ℓ ≠ World.chainOf key) :
    (w.wipe key c₁ o it c₂).cells ℓ = w.cells ℓ := cells_edit_ne h

/-- The chain while its record at `o` is being deleted: `free` is the free list as the record
finds it, and `hand` is what the process has in its hand. -/
def Part.cut (c₁ : List Cell) (o : Nat) (it : Item) (c₂ free hand : List Cell) : Part :=
  ⟨c₁ ++ c₂, some ⟨c₁, o, it.ptr, c₂, (o, it.deleted (start free)) :: free⟩, hand, [], false⟩

section Steps

variable {Q : Unit → DB → World → Prop} (hkey : call.key? = some key) (hcall : ¬ call.Reads)

include hkey hcall

theorem wpM_wipe (h : HasFree E key old size (.whole (c₁ ++ (o, it) :: c₂)) f none w)
    (hk : it.key = key)
    (hq : ∀ w', HasFree E key old size (.whole (c₁ ++ (o, it.wiped) :: c₂))
        f (some o) w' →
      Q () { db with
        datoff := it.datoff, datlen := it.datlen, datpos := it.datoff + it.datlen } w') :
    wpM (rules E call) p (dbWritedat it.blankData.val it.datoff .seekSet) Q H db w := by
  refine wpM_writedat fun w₁ hw₁ => ?_
  have h₁ := h.rel hw₁
  have hc : w₁.cells (World.chainOf key) = c₁ ++ (o, it) :: c₂ := h₁.has.cells
  have hmem := mem_of_split hc
  have hok := h₁.has.inv.files.ok.recAt (h₁.has.inv.placed.recAt hmem)
  have hlen : it.blankData.val.length + 1 = it.datlen :=
    it.size_blankData.trans (h₁.has.inv.placed.len _ _ hmem).symm
  have he : Editable P p w₁ (World.chainOf key) c₁ o it it.wiped c₂ :=
    ⟨h₁.has.inv, hc, h₁.has.held, h₁.calm rfl, by simp [World.chainOf], it.fits_blankData hok,
      fun _ _ => ⟨rfl, rfl⟩, Or.inl rfl⟩
  have hinv : Inv P (w₁.wipe key c₁ o it c₂) :=
    Inv.edit he (fun _ _ => id) (Or.inr ⟨h₁.owns, h₁.wiped⟩) fun _ => Or.inr rfl
  have hg : Guar P p call (.write .datfd it.datoff (it.blankData.val ++ [NEWLINE])) w₁
      (w₁.wipe key c₁ o it c₂) :=
    Guar.edit he hinv (fun _ _ => id) (Or.inr h₁.owns) (fun _ _ => Or.inl) (Or.inr rfl) hcall
      fun _ _ => hk.symm ▸ hkey
  refine ⟨w₁.wipe key c₁ o it c₂,
    os_edit_data h₁.has.inv.files h₁.has.inv.placed hc it.size_blankData, fun _ => hg, ?_⟩
  rw [hlen]
  refine hq _ (h₁.write hg rfl rfl rfl cells_edit_self h₁.has.gap ?_ h₁.has.pend h₁.has.moved ?_ rfl ?_)
  · exact (cells_wipe_ne (by simp)).trans h₁.has.hand
  · exact (cells_wipe_ne (by simp)).trans h₁.free
  · intro k hne
    have hik : it.key ≠ k := fun he => hne (he.symm.trans hk)
    have hik' : it.wiped.key ≠ k := hik
    show lookup k (c₁ ++ (o, it.wiped) :: c₂) = lookup k (c₁ ++ (o, it) :: c₂)
    rw [lookup_middle hik, lookup_middle hik']

/-- The record goes blank and leads to the free list. -/
theorem wpM_unlink
    (h : HasFree E key old size (.whole (c₁ ++ (o, it.wiped) :: c₂)) f
      (some o) w)
    (hk : it.key = key) (hdatoff : db.datoff = it.datoff) (hdatlen : db.datlen = it.datlen)
    (hq : ∀ w' db', HasFree E key old size (.cut c₁ o it c₂ f [(o, it.deleted (start f))]) f none
        w' →
      db' = { db with
        ptrval := start f, idxbuf := (it.deleted (start f)).toRec.text, idxoff := o
        idxpos := o + (it.deleted (start f)).toRec.size } → Q () db' w') :
    wpM (rules E call) p (dbWriteidx (blanks it.key.length) o .seekSet (start f)) Q H db w := by
  have hle := (Index.get_split h.has.inv.files.ok h.thread.1).1
  have hfit := it.fits_deleted hle
  have hmem₀ := mem_of_split h.has.cells
  have hok := hfit.ok (h.has.inv.files.ok.recAt (h.has.inv.placed.recAt hmem₀))
  refine @wpM_writeidx P p E call H db w (it.deleted (start f)).toRec o Q hok hdatoff hdatlen
    fun w₁ hw₁ => ?_
  have h₁ := h.rel hw₁
  have hc : w₁.cells (World.chainOf key) = c₁ ++ (o, it.wiped) :: c₂ :=
    h₁.has.cells
  have hu : Unlinkable P p w₁ (dbHash NHASH_DEF key) c₁ o it.wiped
      (it.deleted (start f)) c₂ :=
    ⟨h₁.has.inv, dbHash_lt key, hc, h₁.has.held, h₁.owns, h₁.calm rfl, hfit, blank_blanks _,
      h₁.thread.1, Or.inr h₁.wiped, h₁.has.offset_le rfl _ (mem_of_split rfl), h₁.has.moved⟩
  have hg : Guar P p call (.write .idxfd o (it.deleted (start f)).toRec.bytes) w₁
      (w₁.unlink p (dbHash NHASH_DEF key) c₁ o (it.deleted (start f)) c₂ it.ptr) :=
    @Guar.unlink P p call _ w₁ _ o it.wiped _ c₁ c₂ hu hcall (hkey.trans (congrArg some hk.symm))
  refine ⟨w₁.unlink p (dbHash NHASH_DEF key) c₁ o (it.deleted (start f)) c₂ it.ptr,
    os_edit_rec h₁.has.inv.files h₁.has.inv.placed hc hfit rfl, fun _ => hg, ?_⟩
  refine hq _ _ (h₁.write hg rfl rfl rfl cells_unlink_chain ?_ ?_ h₁.has.pend h₁.has.moved ?_ rfl ?_)
    rfl
  · rw [gap_unlink, h₁.free]
    rfl
  · rw [cells_unlink_hand, h₁.has.hand]
    rfl
  · rw [cells_unlink_ne (by simp) (by simp), h₁.free]
  · intro k hne
    -- the walk for another key goes past the record anyway
    have hik : it.key ≠ k := fun he => hne (he.symm.trans hk)
    have hik' : it.wiped.key ≠ k := hik
    show lookup k (c₁ ++ c₂) = lookup k (c₁ ++ (o, it.wiped) :: c₂)
    rw [lookup_middle hik']

omit hkey in
/-- The record becomes the head of the free list. -/
theorem wpM_freeRec
    (h : HasFree E key old size (.cut c₁ o it c₂ f [(o, it.deleted (start f))]) f none w)
    (ho : o ≤ PTR_MAX)
    (hq : ∀ w', HasFree E key old size (.cut c₁ o it c₂ f [])
        ((o, it.deleted (start f)) :: f) none w' →
      Q () { db with idxpos := FREE_OFF + PTR_SZ } w') :
    wpM (rules E call) p (dbWriteptr (FREE_OFF : Nat) o) Q H db w := by
  refine wpM_writeptr ho fun w₁ hw₁ => ?_
  have h₁ := h.rel hw₁
  have hf : Freeable P p w₁ (dbHash NHASH_DEF key) o (it.deleted (start f))
      ⟨c₁, o, it.ptr, c₂, (o, it.deleted (start f)) :: f⟩ f :=
    ⟨h₁.has.inv, h₁.free, h₁.owns, h₁.has.held, fun _ hi => h₁.calm_ne hi, h₁.has.gap, rfl,
      h₁.has.hand, h₁.thread.1, ho, blank_blanks _⟩
  have hg : Guar P p call (.write .idxfd FREE_OFF (ptrText o)) w₁
      (w₁.freeRec p o (it.deleted (start f)) f) := Guar.freeRec hf hcall
  refine ⟨w₁.freeRec p o (it.deleted (start f)) f, hf.settable.os_redirect, fun _ => hg, ?_⟩
  refine hq _ (h₁.write hg rfl rfl rfl ?_ h₁.has.gap cells_freeRec_hand h₁.has.pend
    h₁.has.moved cells_freeRec_free h₁.wiped fun _ _ => rfl)
  exact cells_freeRec_chain.trans h₁.has.cells

/-- The chain is closed behind the record. -/
theorem wpM_relink (h : HasFree E key old size (.cut c₁ o it c₂ f [])
      ((o, it.deleted (start f)) :: f) none w) (hptr : it.ptr ≤ PTR_MAX)
    (hq : ∀ w', HasFree E key old size (.rest (relast Item.setPtr c₁ it.ptr ++ c₂))
        ((o, it.deleted (start f)) :: f) none w' →
      Q () { db with
        idxpos := (endSlot (.chain (dbHash NHASH_DEF key)) c₁).off + PTR_SZ } w') :
    wpM (rules E call) p
      (dbWriteptr ((endSlot (.chain (dbHash NHASH_DEF key)) c₁).off : Nat) it.ptr) Q H db w := by
  refine wpM_writeptr hptr fun w₁ hw₁ => ?_
  have h₁ := h.rel hw₁
  have hr : Relinkable P p w₁ (dbHash NHASH_DEF key)
      ⟨c₁, o, it.ptr, c₂, (o, it.deleted (start f)) :: f⟩ :=
    ⟨h₁.has.inv, dbHash_lt key, h₁.has.held, h₁.has.gap, fun _ hi => h₁.calm_ne hi, hptr⟩
  have hg : Guar P p call (.write .idxfd (endSlot (.chain (dbHash NHASH_DEF key)) c₁).off
      (ptrText it.ptr)) w₁ (w₁.relink p (dbHash NHASH_DEF key) c₁ it.ptr c₂) :=
    @Guar.relink P p call _ w₁ _ ⟨c₁, o, it.ptr, c₂, (o, it.deleted (start f)) :: f⟩ hr hcall
      ⟨key, hkey, rfl⟩ ⟨_, it.ptr, rfl⟩
  obtain ⟨a, hs, -⟩ := hr.settable
  have hcells : ∀ {ℓ : Place}, ℓ ≠ World.chainOf key →
      (w₁.relink p (dbHash NHASH_DEF key) c₁ it.ptr c₂).cells ℓ = w₁.cells ℓ :=
    fun hne => cells_relink_ne hne
  refine ⟨w₁.relink p (dbHash NHASH_DEF key) c₁ it.ptr c₂, hs.os_redirect, fun _ => hg, ?_⟩
  refine hq _ (h₁.write hg rfl rfl rfl cells_relink_chain
    gap_relink ?_ h₁.has.pend ?_ ?_ h₁.wiped ?_)
  · exact (hcells (by simp)).trans h₁.has.hand
  · exact Function.update_self ..
  · exact (hcells (by simp)).trans h₁.free
  · intro k _
    exact lookup_relast it.ptr

end Steps

/-- `_db_dodelete` takes the record out of its chain. -/
theorem wpM_dodelete {Q : Unit → DB → World → Prop} (hkey : call.key? = some key)
    (hcall : ¬ call.Reads) (h : Has E key .wrlck (onChain key) old size (.whole c) w)
    (hf : Found key c c₁ o it c₂ db)
    (hq : ∀ db' w', Handle key db' →
      Has E key .wrlck (onChain key) old size (.rest (relast Item.setPtr c₁ it.ptr ++ c₂)) w' →
      Q () db' w') :
    wpM (rules E call) p dbDodelete Q H db w := by
  obtain ⟨hh, hc, hk, habs, -, hload, hptroff⟩ := hf
  subst hc
  have hmem : (o, it) ∈ w.cells (World.chainOf key) := h.cells ▸ mem_of_split rfl
  have hok := h.inv.files.ok.recAt (h.inv.placed.recAt hmem)
  have ho := h.offset_le rfl _ (mem_of_split rfl)
  have hdata : List.replicate (db.datlen - 1) SPACE = it.blankData.val := by
    rw [hload.datlen, h.inv.placed.len _ _ hmem]
    rfl
  have hbuf : List.replicate db.idxbuf.length SPACE = blanks it.key.length := by
    rw [hload.idxbuf]
    rfl
  unfold dbDodelete writewLock
  simp only [wpM_bind, wpM_modify, wpM_get]
  rw [hdata, hbuf, hload.datoff, hload.idxoff, hload.ptrval, hptroff]
  refine wpM_lockFree h fun w₁ h₁ => ?_
  refine wpM_wipe hkey hcall h₁ hk fun w₂ h₂ => ?_
  refine @wpM_readptr P p E call H _ w₂ .free _ fun w₃ hw₃ => ?_
  have h₃ := h₂.rel hw₃
  refine ⟨h₃.has.inv.files, _, h₃.thread.1, ?_⟩
  refine wpM_unlink hkey hcall h₃ hk rfl rfl fun w₄ db₄ h₄ hdb₄ => ?_
  subst hdb₄
  refine wpM_freeRec hcall h₄ ho fun w₅ h₅ => ?_
  refine wpM_relink hkey hcall h₅ hok.ptr fun w₆ h₆ => ?_
  refine wpM_unlockFree h₆ rfl fun w₇ h₇ => ?_
  exact hq _ w₇ ⟨⟨hh.nhash, hh.hashoff⟩, hh.chainoff⟩ h₇

/-! ## `db_delete` -/

/-- A key is in a chain once: without its record it is gone. -/
theorem Has.lookup_rest {t : LockType} {S : Fd → Nat → Prop} {u : Part}
    (h : Has E key t S old size u w) (hc : u.cells = c₁ ++ (o, it) :: c₂) (hk : it.key = key)
    (v : Nat) : lookup key (relast Item.setPtr c₁ v ++ c₂) = none := by
  have hnd := h.chainOk.keys
  rw [hc, List.map_append, List.map_cons, List.nodup_middle, ← List.map_append] at hnd
  rw [lookup_relast]
  exact lookup_eq_none (hk ▸ (List.nodup_cons.mp hnd).1)

/-- What `db_delete` returns, from the old value of the key. -/
def deleteRc (old : Option (List Byte)) : Int := if old = none then -1 else 0

theorem effect_delete (k : CString) (old : Option (List Byte)) :
    Effect (.delete k) k.val .wrlck old (.rc (deleteRc old)) none := by
  refine ⟨rfl, ?_, ?_, fun h => absurd h (by simp)⟩
  · intro m hm
    rw [← hm]
    rfl
  · intro m _
    exact m.set_self k.val none

/-- `db_delete` takes the key out of the chain. -/
theorem wpM_delete {k : CString} {Q : Int → DB → World → Prop} (hidle : Ready P p w)
    (hdb : Opened db)
    (hq : ∀ w₀ db' w', E.rel w w₀ → Opened db' →
      Done P p (.rc (deleteRc (w₀.view k.val))) w' → Q (deleteRc (w₀.view k.val)) db' w')
    (hbad : ∀ w₀ w' u, E.rel w w₀ → u = .whole (w₀.cells (World.chainOf k.val)) →
      Has E k.val .wrlck (onChain k.val) (w₀.view k.val) (w₀.x.size, w₀.os.dat.length) u w' →
      (∃ e ∈ u.cells, SEP ∈ e.2.key) → H .readidxTooManySeps w') :
    wpM (rules E (.delete k)) p (dbDelete k) Q H db w := by
  have hcall : ¬ (Call.delete k).Reads := id
  unfold dbDelete
  rw [wpM_bind]
  refine wpM_findAndLock hidle hdb rfl ?_ ?_ hbad
  · -- nothing to delete
    intro w₀ db' w' u hw₀ hu h hn
    subst hu
    have hnone : lookup k.val (w₀.cells (World.chainOf k.val)) = none := lookup_eq_none hn.absent
    have hrc : deleteRc (w₀.view k.val) = -1 := if_pos hnone
    dsimp only
    rw [wpM_ite, if_neg (by decide)]
    simp only [wpM_pure, wpM_bind, wpM_get]
    refine wpM_finish hn.handle h rfl (hnone.symm ▸ effect_delete k _) ?_
    intro w'' hd _
    have := hq w₀ db' w'' hw₀ hn.handle.toOpened hd
    rwa [hrc] at this
  · intro w₀ c₁ o it c₂ db' w' u hw₀ hu h hf
    subst hu
    have hsome : w₀.view k.val ≠ none := by
      have hv : w₀.view k.val = some it.data.val := by
        show lookup k.val (w₀.cells _) = _
        rw [show w₀.cells _ = c₁ ++ (o, it) :: c₂ from hf.split, lookup_found hf.absent hf.same]
      rw [hv]
      simp
    have hrc : deleteRc (w₀.view k.val) = 0 := if_neg hsome
    dsimp only
    rw [wpM_ite, if_pos rfl]
    simp only [wpM_bind, wpM_pure, wpM_get]
    refine wpM_dodelete rfl hcall h hf fun db₁ w₁ hh₁ h₁ => ?_
    have hgone := h.lookup_rest hf.split hf.same it.ptr
    refine wpM_finish hh₁ h₁ rfl (hgone.symm ▸ effect_delete k _) ?_
    intro w'' hd _
    have := hq w₀ db₁ w'' hw₀ hh₁.toOpened hd
    rwa [hrc] at this

end LearningNotes.Db
