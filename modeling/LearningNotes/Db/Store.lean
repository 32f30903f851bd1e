import LearningNotes.Db.Append
import LearningNotes.Db.Delete
import LearningNotes.Db.Free

/-!
# `db_store`

The five ways of `db_store`: nothing is stored, a deleted record is used again, a record is
added, a record is deleted and a new one added, or data of the same length is written over
the old data. Only the ways that add a record can be stopped by a check, and only one of
these has changed the chain by then: a record that was to be replaced is gone (`Resizes`).
-/

namespace LearningNotes.Db

variable {P : List Byte → Prop} {p : Pid} {E : Env P p} {call : Call} {H : Fatal → World → Prop}
  {db : DB} {w : World} {key : List Byte} {data : CString} {old : Option (List Byte)}
  {size : Nat × Nat} {c c₁ c₂ : List Cell} {N M o : Nat} {it : Item}

/-! ## Using a deleted record again -/

/-- A record with other data of the same length. -/
def Item.setData (it : Item) (data : CString) : Item := { it with data := data }

/-- The deleted record becomes the record of a key. -/
def Item.reuse (it : Item) (key : List Byte) (v : Nat) (data : CString) : Item :=
  { it with key := key, ptr := v, data := data }

theorem Item.fits_setData (hok : it.toRec.Ok) (hd : blockSize data = blockSize it.data) :
    it.Fits (it.setData data) := ⟨rfl, rfl, rfl, hd, hok.nul, hok.ptr⟩

theorem Item.fits_reuse {v : Nat} (hk : key.length = it.key.length) (hnul : (0 : Byte) ∉ key)
    (hv : v ≤ PTR_MAX) : (it.setData data).Fits (it.reuse key v data) :=
  ⟨hk, rfl, rfl, rfl, hnul, hv⟩

/-- The item in the hand of process `p` is changed in place. -/
def World.rework (w : World) (p : Pid) (o : Nat) (it : Item) (key data : List Byte) : World :=
  (w.edit (.hand p) [] o it []).note (w.wroteToo key data) w.wiped

/-- A deleted record in the hand may be changed to a record of `key`. -/
theorem Has.rework {it' : Item} {op : Op} (hcall : ¬ call.Reads)
    (h : Has E key .wrlck (onChain key) old size ⟨c, none, [(o, it)], [], false⟩ w)
    (hblank : Blank it.key) (hfit : it.Fits it') (hP : it'.key = it.key ∨ P it'.key)
    (hpair : ¬ Blank it'.key → w.wroteToo key data.val it'.key it'.data.val)
    (hput : w.wrote key data.val ∨ (op.PutsData data.val ∧ call.Puts key data.val)) :
    Guar P p call op w (w.rework p o it' key data.val) ∧
      Has E key .wrlck (onChain key) old size ⟨c, none, [(o, it')], [], false⟩
        (w.rework p o it' key data.val) := by
  have hS : NoGrow (onChain key) := noGrow_onChain key
  have he : Editable P p w (.hand p) [] o it it' [] :=
    ⟨h.inv, h.hand, rfl, h.calm rfl (oneChain_onChain key), by simp, hfit, by simp, hP⟩
  have hinv : Inv P (w.rework p o it' key data.val) :=
    Inv.edit he (fun _ _ => Or.inl) (Or.inl rfl) fun hk => Or.inl (hpair hk)
  have hg : Guar P p call op w (w.rework p o it' key data.val) := by
    refine Guar.edit he hinv (fun _ _ => Or.inl) (Or.inl rfl) ?_ (Or.inl hblank) hcall (by simp)
    intro k d hkd
    rcases hkd with hkd | ⟨rfl, rfl⟩
    · exact Or.inl hkd
    · exact hput
  have hcells : (w.edit (.hand p) [] o it' []).cells (World.chainOf key) = c :=
    (cells_edit_ne (by simp)).trans h.cells
  exact ⟨hg, h.write hg (hS.same_size h.locks hg).trans rfl rfl rfl hcells h.gap cells_edit_self
    h.pend h.moved fun _ _ => rfl⟩

/-- The three writes that use a deleted record for a pair. -/
theorem wpM_reuse {Q : Unit → DB → World → Prop} (hputs : call.Puts key data.val)
    (hkey : call.key? = some key) (hcall : ¬ call.Reads) (hfresh : Fresh P key c)
    (hnul : (0 : Byte) ∉ key)
    (h : Taken E key old size c key.length (data.val.length + 1) o it db w)
    (hq : ∀ db' w' v, Handle key db' →
      Has E key .wrlck (onChain key) old size (.rest ((o, it.reuse key v data) :: c)) w' →
      Q () db' w') :
    wpM (rules E call) p (do
      dbWritedat data.val (← get).datoff .seekSet
      dbWriteidx key (← get).idxoff .seekSet (start c)
      dbWriteptr ((Slot.chain (dbHash NHASH_DEF key)).off : Nat) (← get).idxoff) Q H db w := by
  have hh := h.handle
  have hmem : (o, it) ∈ w.cells (.hand p) := h.has.hand ▸ List.mem_cons_self ..
  have hok := h.has.inv.files.ok.recAt (h.has.inv.placed.recAt hmem)
  have hsize : blockSize data = blockSize it.data :=
    h.datlen.symm.trans (h.has.inv.placed.len _ _ hmem)
  have hfit₁ := @Item.fits_setData data it hok hsize
  have hv := (Index.get_split h.has.inv.files.ok (h.has.thread rfl).1).1
  have hfit₂ := @Item.fits_reuse key data it _ h.keylen.symm hnul hv
  simp only [wpM_bind, wpM_get, h.datoff]
  -- the data first, while the record is still blank
  refine wpM_writedat fun w₁ hw₁ => ?_
  have h₁ := h.has.rel hw₁
  obtain ⟨hg₁, h₂⟩ := @Has.rework _ _ E call _ _ data _ _ _ _ _ (it.setData data)
    (.write .datfd it.datoff (data.val ++ [NEWLINE])) hcall h₁ h.blank hfit₁ (Or.inl rfl)
    (fun hk => absurd h.blank hk) (Or.inr ⟨⟨_, rfl⟩, hputs⟩)
  refine ⟨w₁.rework p o (it.setData data) key data.val, ?_, fun _ => hg₁, ?_⟩
  · exact os_edit_data h₁.inv.files h₁.inv.placed (show _ = [] ++ (o, it) :: [] from h₁.hand) hsize
  have hwrote₂ : (w₁.rework p o (it.setData data) key data.val).wrote key data.val :=
    Or.inr ⟨rfl, rfl⟩
  rw [h.idxoff]
  -- then the record, with the key: from here on it names the new data
  refine @wpM_writeidx P p E call H _ _ (it.reuse key (start c) data).toRec o _
    (hfit₂.ok (hfit₁.ok hok)) ?_ ?_ fun w₃ hw₃ => ?_
  · rfl
  · exact h.datlen.symm
  have h₃ := h₂.rel hw₃
  have hwrote₃ := E.wrote hw₃ hwrote₂
  obtain ⟨hg₃, h₄⟩ := @Has.rework _ _ E call _ _ data _ _ _ _ _ (it.reuse key (start c) data)
    (.write .idxfd o (it.reuse key (start c) data).toRec.bytes) hcall h₃ h.blank hfit₂
    (Or.inr hfresh.legal) (fun _ => Or.inr ⟨rfl, rfl⟩) (Or.inl hwrote₃)
  refine ⟨w₃.rework p o (it.reuse key (start c) data) key data.val, ?_, fun _ => hg₃, ?_⟩
  · exact os_edit_rec h₃.inv.files h₃.inv.placed
      (show _ = [] ++ (o, it.setData data) :: [] from h₃.hand) hfit₂ rfl
  -- and last the pointer to it
  refine wpM_linkRec hkey hcall hfresh h₄ rfl rfl h.le fun w₅ pos h₅ => ?_
  exact hq _ w₅ _ ⟨⟨hh.nhash, hh.hashoff⟩, hh.chainoff⟩ h₅

/-! ## Over the old data -/

/-- New data of the same length for a record of the chain. -/
theorem wpM_overwrite {Q : Unit → DB → World → Prop} (hputs : call.Puts key data.val)
    (hkey : call.key? = some key) (hcall : ¬ call.Reads)
    (h : Has E key .wrlck (onChain key) old size (.whole (c₁ ++ (o, it) :: c₂)) w)
    (hk : it.key = key) (hlen : data.val.length + 1 = it.datlen)
    (hq : ∀ w' pos, Has E key .wrlck (onChain key) old size
        (.whole (c₁ ++ (o, it.setData data) :: c₂)) w' →
      Q () { db with datoff := it.datoff, datlen := data.val.length + 1, datpos := pos } w') :
    wpM (rules E call) p (dbWritedat data.val it.datoff .seekSet) Q H db w := by
  have hS := noGrow_onChain key
  refine wpM_writedat fun w₁ hw₁ => ?_
  have h₁ := h.rel hw₁
  have hc : w₁.cells (World.chainOf key) = c₁ ++ (o, it) :: c₂ := h₁.cells
  have hmem := mem_of_split hc
  have hok := h₁.inv.files.ok.recAt (h₁.inv.placed.recAt hmem)
  have hsize : blockSize data = blockSize it.data := hlen.trans (h₁.inv.placed.len _ _ hmem)
  -- the record stays where it is, and only its data changes
  have he : Editable P p w₁ (World.chainOf key) c₁ o it (it.setData data) c₂ :=
    ⟨h₁.inv, hc, h₁.held, h₁.calm rfl (oneChain_onChain key), by simp, Item.fits_setData hok hsize,
      fun _ _ => ⟨rfl, rfl⟩, Or.inl rfl⟩
  have hinv : Inv P ((w₁.edit (World.chainOf key) c₁ o (it.setData data) c₂).note
      (w₁.wroteToo key data.val) w₁.wiped) :=
    Inv.edit he (fun _ _ => Or.inl) (Or.inl rfl) fun _ => Or.inl (Or.inr ⟨hk, rfl⟩)
  have hg : Guar P p call (.write .datfd it.datoff (data.val ++ [NEWLINE])) w₁
      ((w₁.edit (World.chainOf key) c₁ o (it.setData data) c₂).note
        (w₁.wroteToo key data.val) w₁.wiped) := by
    refine Guar.edit he hinv (fun _ _ => Or.inl) (Or.inl rfl) ?_ (Or.inr rfl) hcall
      fun _ _ => hk.symm ▸ hkey
    intro k d hkd
    rcases hkd with hkd | ⟨rfl, rfl⟩
    · exact Or.inl hkd
    · exact Or.inr ⟨⟨_, rfl⟩, hputs⟩
  refine ⟨(w₁.edit (World.chainOf key) c₁ o (it.setData data) c₂).note
    (w₁.wroteToo key data.val) w₁.wiped,
    os_edit_data h₁.inv.files h₁.inv.placed hc hsize, fun _ => hg, ?_⟩
  have hhand : (w₁.edit (World.chainOf key) c₁ o (it.setData data) c₂).cells (.hand p) = [] :=
    (cells_edit_ne (by simp)).trans h₁.hand
  refine hq _ _ (h₁.write hg (hS.same_size h₁.locks hg).trans rfl rfl rfl cells_edit_self h₁.gap
    hhand h₁.pend h₁.moved ?_)
  intro k hne
  -- what is found for another key does not depend on the data of this one
  have hik : it.key ≠ k := fun he => hne (he.symm.trans hk)
  have hik' : (it.setData data).key ≠ k := hik
  show lookup k (c₁ ++ (o, it.setData data) :: c₂) = lookup k (c₁ ++ (o, it) :: c₂)
  rw [lookup_middle hik, lookup_middle hik']

/-! ## The two paths -/

/-- What is left of a chain without the record of `key` has no record of `key`. -/
theorem Has.fresh_rest {t : LockType} {S : Fd → Nat → Prop} {u : Part}
    (h : Has E key t S old size u w) (hP : P key) (hc : u.cells = c₁ ++ (o, it) :: c₂)
    (hk : it.key = key) (hclean : ∀ e ∈ c₁ ++ [(o, it)], SEP ∉ e.2.key) (v : Nat) :
    Fresh P key (relast Item.setPtr c₁ v ++ c₂) := by
  have hok := h.chainOk
  rw [hc] at hok
  have hkeys : ∀ k, k ∈ (relast Item.setPtr c₁ v ++ c₂).map (·.2.key) ↔
      k ∈ (c₁ ++ c₂).map (·.2.key) := by
    intro k
    rw [List.map_append, map_key_relast, ← List.map_append]
  refine ⟨hP, ?_, ?_⟩
  · have hnd := hok.keys
    rw [List.map_append, List.map_cons, List.nodup_middle, ← List.map_append] at hnd
    rw [hkeys, ← hk]
    exact (List.nodup_cons.mp hnd).1
  · intro e he
    obtain ⟨e', he', hke⟩ := List.mem_map.mp ((hkeys e.2.key).mp (List.mem_map.mpr ⟨e, he, rfl⟩))
    rw [← hke]
    rcases List.mem_append.mp he' with h₁ | h₂
    · exact hclean e' (List.mem_append_left _ h₁)
    · -- the record is in front of these, so they are not first
      refine hok.clean e' ?_
      cases c₁ with
      | nil => exact h₂
      | cons a c₁ => exact List.mem_append_right _ (List.mem_cons_of_mem _ h₂)

section Paths

variable {Q : Unit → DB → World → Prop} (hputs : call.Puts key data.val)
  (hkey : call.key? = some key) (hcall : ¬ call.Reads) (hP : P key) (hnul : (0 : Byte) ∉ key)
  (hdat : DATLEN_MIN ≤ data.val.length + 1 ∧ data.val.length + 1 ≤ DATLEN_MAX)

include hputs hkey hcall hP hnul hdat

/-- The path of `db_store` for a key that is not in the database. -/
theorem wpM_storeNew (h : Has E key .wrlck (onChain key) old (N, M) (.whole c) w)
    (hf : NotFound key c db)
    (hstop : ∀ e w', Stopped E key data old N M c false e w' → H e w')
    (hq : ∀ db' w' c' size, Handle key db' →
      Has E key .wrlck (onChain key) old size (.rest c') w' →
      lookup key c' = some data.val → Q () db' w') :
    wpM (rules E call) p (storeNew key data.val) Q H db w := by
  have hfresh : Fresh P key c := ⟨hP, hf.absent, hf.clean⟩
  have hoff : db.chainoff = ((Slot.chain (dbHash NHASH_DEF key)).off : Nat) := hf.handle.chainoff
  unfold storeNew
  simp only [wpM_bind, wpM_get, hoff]
  refine wpM_readptr fun w₁ hw₁ => ?_
  have h₁ := h.rel hw₁
  refine ⟨h₁.inv.files, start c, (h₁.thread rfl).1, ?_⟩
  refine wpM_findfree hcall h₁ ⟨⟨hf.handle.nhash, hf.handle.hashoff⟩, hf.handle.chainoff⟩ ?_ ?_
  · intro db₂ w₂ h₂ hh₂
    have happ := wpM_append hputs hkey hcall hfresh hnul hdat hh₂ h₂ hstop
      fun db' w' o d size hh' h' _ => hq db' w' _ size hh' h' (by rw [lookup_cons]; exact if_pos rfl)
    rw [wpM_ite, if_pos (by decide)]
    simpa only [wpM_bind, wpM_get] using happ
  · intro o it db₂ w₂ ht
    have hreuse := @wpM_reuse P p E call H _ _ _ _ _ _ _ _ _ _ hputs hkey hcall hfresh hnul ht
      fun db' w' v hh' h' => hq db' w' _ (N, M) hh' h' (by rw [lookup_cons]; exact if_pos rfl)
    rw [wpM_ite, if_neg (by decide)]
    simpa only [wpM_bind, wpM_get] using hreuse

/-- The path of `db_store` for a key that is in the database. -/
theorem wpM_storeOld (h : Has E key .wrlck (onChain key) old (N, M) (.whole c) w)
    (hf : Found key c c₁ o it c₂ db)
    (hstop : data.val.length ≠ it.data.val.length → ∀ e w',
      Stopped E key data old N M (relast Item.setPtr c₁ it.ptr ++ c₂) true e w' → H e w')
    (hq : ∀ db' w' c' size b, Handle key db' →
      Has E key .wrlck (onChain key) old size ⟨c', none, [], [], b⟩ w' →
      lookup key c' = some data.val →
      (data.val.length ≠ it.data.val.length → E.Alone → RoomFor key data N M) → Q () db' w') :
    wpM (rules E call) p (storeOld key data.val) Q H db w := by
  have hoff : ∀ db : DB, Handle key db →
      db.chainoff = ((Slot.chain (dbHash NHASH_DEF key)).off : Nat) := by
    intro _ hh
    exact hh.chainoff
  have hlen : it.datlen = it.data.val.length + 1 :=
    (h.block (show (o, it) ∈ (Part.whole c).cells from mem_of_split hf.split)).2
  unfold storeOld
  simp only [wpM_bind, wpM_get]
  rw [wpM_ite, hf.loaded.datlen]
  by_cases hne : data.val.length + 1 ≠ it.datlen
  · -- another length: delete and add
    have hdiff : data.val.length ≠ it.data.val.length := by omega
    have hfresh := h.fresh_rest hP hf.split hf.same hf.clean it.ptr
    rw [if_pos hne, hoff db hf.handle]
    simp only [wpM_bind, wpM_get]
    refine wpM_dodelete hkey hcall h hf fun db₁ w₁ hh₁ h₁ => ?_
    refine wpM_readptr fun w₂ hw₂ => ?_
    have h₂ := h₁.rel hw₂
    refine ⟨h₂.inv.files, start (relast Item.setPtr c₁ it.ptr ++ c₂), (h₂.thread rfl).1, ?_⟩
    have happ := @wpM_append P p E call H
      { db₁ with idxpos := (Slot.chain (dbHash NHASH_DEF key)).off + PTR_SZ } _ _ _ _ _ _ _ _ _ hputs
      hkey hcall hfresh hnul hdat ⟨⟨hh₁.nhash, hh₁.hashoff⟩, hh₁.chainoff⟩ h₂ (hstop hdiff)
      fun db' w' o' d size hh' h' hroom =>
        hq db' w' _ size true hh' h' (by rw [lookup_cons]; exact if_pos rfl) fun _ => hroom
    simpa only [wpM_bind, wpM_get] using happ
  · -- the same length
    rw [if_neg hne, hf.loaded.datoff]
    have hc := hf.split
    subst hc
    refine wpM_overwrite hputs hkey hcall h hf.same (not_not.mp hne) fun w₁ pos h₁ => ?_
    refine hq _ w₁ _ (N, M) false ⟨⟨hf.handle.nhash, hf.handle.hashoff⟩, hf.handle.chainoff⟩ h₁
      (lookup_found hf.absent hf.same) fun hdiff => ?_
    omega

end Paths

/-! ## The function -/

/-- The data of a key is to be replaced by data of another length. -/
def Resizes (old : Option (List Byte)) (data : CString) : Prop :=
  ∃ d, old = some d ∧ data.val.length ≠ d.length

/-- The pair has been stored: what is left to do is to give the lock back. -/
theorem effect_store (k data : CString) {flag : Int} (hflag : storeRc old flag = 0) :
    Effect (.store k data flag) k.val .wrlck old (.rc (storeRc old flag)) (some data.val) := by
  refine ⟨rfl, ?_, ?_, fun h => absurd h (by simp)⟩
  · intro m hm
    rw [← hm]
    rfl
  · intro m hm
    show (if storeRc (m k.val) flag = 0 then m.set k.val (some data.val) else m) k.val = _
    rw [hm, if_pos hflag, Map.set_self]

/-- Nothing has been stored. -/
theorem effect_refuse (k data : CString) {flag : Int} (hflag : storeRc old flag ≠ 0) :
    Effect (.store k data flag) k.val .wrlck old (.rc (storeRc old flag)) old := by
  refine ⟨rfl, ?_, ?_, fun h => absurd h (by simp)⟩
  · intro m hm
    rw [← hm]
    rfl
  · intro m hm
    show (if storeRc (m k.val) flag = 0 then m.set k.val (some data.val) else m) k.val = _
    rw [hm, if_neg hflag, hm]

theorem storeRc_replace_none {flag : Int} (h : flag = DB_REPLACE) : storeRc none flag = -1 := by
  rw [h]
  decide

theorem storeRc_new {flag : Int} (h : LegalFlag flag) (hrep : flag ≠ DB_REPLACE) :
    storeRc none flag = 0 := by
  unfold storeRc
  rw [if_neg (not_not.mpr h)]
  exact if_neg hrep

theorem storeRc_insert_some {flag : Int} {d : List Byte} (h : flag = DB_INSERT) :
    storeRc (some d) flag = 1 := by
  rw [h]
  rfl

theorem storeRc_old {flag : Int} {d : List Byte} (h : LegalFlag flag) (hins : flag ≠ DB_INSERT) :
    storeRc (some d) flag = 0 := by
  unfold storeRc
  rw [if_neg (not_not.mpr h)]
  exact if_neg hins

/-- The chain `c` in which a check leaves the key when it stops `db_store`: the chain as it was,
without the key, or, if a record has been taken out of it, the rest of the chain. -/
def StopsAt (w : World) (key : List Byte) (data : CString) (flag : Int) (c : List Cell) :
    Bool → Prop
  | false => w.view key = none ∧ c = w.cells (World.chainOf key)
  | true => flag ≠ DB_INSERT ∧ Resizes (w.view key) data ∧
    walk key (w.cells (World.chainOf key)) = .ok (w.view key) ∧ walk key c = .ok none

/-- `db_store` with a legal flag: it stores the pair or refuses to, or it is stopped by a
check. -/
theorem wpM_store {k data : CString} {flag : Int} {Q : Int → DB → World → Prop}
    (hidle : Ready P p w) (hdb : Opened db) (hP : P k.val)
    (hflag : LegalFlag flag)
    (hq : ∀ w₀ db' w', E.rel w w₀ → Opened db' →
      Done P p (.rc (storeRc (w₀.view k.val) flag)) w' →
      (E.Alone → flag ≠ DB_INSERT → Resizes (w₀.view k.val) data →
        RoomFor k.val data w₀.x.size w₀.os.dat.length) →
      (storeRc (w₀.view k.val) flag ≠ 0 →
        w'.cells (World.chainOf k.val) = w₀.cells (World.chainOf k.val)) →
      Q (storeRc (w₀.view k.val) flag) db' w')
    (hlen : ¬ (DATLEN_MIN ≤ data.val.length + 1 ∧ data.val.length + 1 ≤ DATLEN_MAX) →
      H .storeInvalidLength w)
    (hbad : ∀ w₀ w' u, E.rel w w₀ → u = .whole (w₀.cells (World.chainOf k.val)) →
      Has E k.val .wrlck (onChain k.val) (w₀.view k.val) (w₀.x.size, w₀.os.dat.length) u w' →
      (∃ e ∈ u.cells, SEP ∈ e.2.key) → H .readidxTooManySeps w')
    (hstop : ∀ w₀ c b e w', E.rel w w₀ →
      DATLEN_MIN ≤ data.val.length + 1 ∧ data.val.length + 1 ≤ DATLEN_MAX →
      Stopped E k.val data (w₀.view k.val) w₀.x.size w₀.os.dat.length c b e w' →
      StopsAt w₀ k.val data flag c b → H e w') :
    wpM (rules E (.store k data flag)) p (dbStore k data flag) Q H db w := by
  have hputs : (Call.store k data flag).Puts k.val data.val := ⟨k, data, flag, rfl, rfl, rfl⟩
  have hcall : ¬ (Call.store k data flag).Reads := id
  have hok : ¬ (flag ≠ DB_INSERT ∧ flag ≠ DB_REPLACE ∧ flag ≠ DB_STORE) := by
    rintro ⟨h₁, h₂, h₃⟩
    rcases hflag with h | h | h
    · exact h₁ h
    · exact h₂ h
    · exact h₃ h
  unfold dbStore
  rw [if_neg hok, wpM_bind]
  by_cases hdat : data.val.length + 1 < DATLEN_MIN ∨ data.val.length + 1 > DATLEN_MAX
  · rw [wpM_errIf_pos hdat]
    refine hlen ?_
    omega
  rw [wpM_errIf_neg hdat, wpM_bind]
  have hdat' : DATLEN_MIN ≤ data.val.length + 1 ∧ data.val.length + 1 ≤ DATLEN_MAX := by omega
  refine wpM_findAndLock hidle hdb rfl ?_ ?_ hbad
  · intro w₀ db' w' u hw₀ hu h hn
    subst hu
    -- the key is not there
    have hnone : w₀.view k.val = none := lookup_eq_none hn.absent
    have hnot : ¬ Resizes (w₀.view k.val) data := by
      rintro ⟨d, hd, -⟩
      rw [hnone] at hd
      exact absurd hd (by simp)
    dsimp only
    rw [wpM_ite, if_pos (by decide), wpM_ite]
    by_cases hrep : flag = DB_REPLACE
    · -- nothing to replace
      have hrc := storeRc_replace_none hrep
      rw [if_pos hrep]
      simp only [wpM_pure, wpM_bind, wpM_get]
      refine wpM_finish hn.handle h rfl (effect_refuse k data ?_) fun w₁ hd hcells => ?_
      · rw [hnone, hrc]
        decide
      · have := hq w₀ db' w₁ hw₀ hn.handle.toOpened hd (fun _ _ hr => absurd hr hnot)
          fun _ => hcells
        rwa [hnone, hrc] at this
    · have hrc := storeRc_new hflag hrep
      rw [if_neg hrep]
      simp only [wpM_pure, wpM_bind, wpM_get]
      refine wpM_storeNew hputs rfl hcall hP k.property hdat' h hn ?_ ?_
      · intro e w₁ hs
        exact hstop w₀ _ false e w₁ hw₀ hdat' hs ⟨hnone, rfl⟩
      · intro db₁ w₁ c' size hh₁ h₁ hlook
        have hrc' : storeRc (w₀.view k.val) flag = 0 := by rw [hnone, hrc]
        refine wpM_finish hh₁ h₁ rfl (hlook.symm ▸ effect_store k data hrc') fun w₂ hd _ => ?_
        have := hq w₀ db₁ w₂ hw₀ hh₁.toOpened hd (fun _ _ hr => absurd hr hnot)
          fun hne => absurd hrc' hne
        rwa [hrc'] at this
  · intro w₀ c₁ o it c₂ db' w' u hw₀ hu h hf
    subst hu
    -- the key is there, at `o`
    have hsome : w₀.view k.val = some it.data.val := by
      show lookup k.val (w₀.cells _) = _
      rw [show w₀.cells _ = c₁ ++ (o, it) :: c₂ from hf.split, lookup_found hf.absent hf.same]
    dsimp only
    rw [wpM_ite, if_neg (by decide), wpM_ite]
    by_cases hins : flag = DB_INSERT
    · -- the key is taken
      have hrc := @storeRc_insert_some flag it.data.val hins
      rw [if_pos hins]
      simp only [wpM_pure, wpM_bind, wpM_get]
      refine wpM_finish hf.handle h rfl (effect_refuse k data ?_) fun w₁ hd hcells => ?_
      · rw [hsome, hrc]
        decide
      · have := hq w₀ db' w₁ hw₀ hf.handle.toOpened hd (fun _ hne => absurd hins hne)
          fun _ => hcells
        rwa [hsome, hrc] at this
    · have hrc := @storeRc_old flag it.data.val hflag hins
      have hres : data.val.length ≠ it.data.val.length → Resizes (w₀.view k.val) data :=
        fun hne => ⟨_, hsome, hne⟩
      rw [if_neg hins]
      simp only [wpM_pure, wpM_bind, wpM_get]
      refine wpM_storeOld hputs rfl hcall hP k.property hdat' h hf ?_ ?_
      · intro hne e w₁ hs
        have hfresh := h.fresh_rest hP hf.split hf.same hf.clean it.ptr
        -- the old record is deleted before the checks of the new one
        have hgone : walk k.val (relast Item.setPtr c₁ it.ptr ++ c₂) = .ok none := by
          rw [walk_of_clean hfresh.clean, lookup_eq_none hfresh.absent]
        exact hstop w₀ _ true e w₁ hw₀ hdat' hs
          ⟨hins, hres hne, hsome.symm ▸ hf.walk, hgone⟩
      · intro db₁ w₁ c' size b hh₁ h₁ hlook hroom
        have hrc' : storeRc (w₀.view k.val) flag = 0 := by rw [hsome, hrc]
        refine wpM_finish hh₁ h₁ rfl (hlook.symm ▸ effect_store k data hrc') fun w₂ hd _ => ?_
        have := hq w₀ db₁ w₂ hw₀ hh₁.toOpened hd (fun ha _ hr => by
          obtain ⟨d, hd, hne⟩ := hr
          rw [hsome] at hd
          cases hd
          exact hroom hne ha) fun hne => absurd hrc' hne
        rwa [hrc'] at this

end LearningNotes.Db
