import LearningNotes.Db.Formed
import LearningNotes.Db.Reopen
import LearningNotes.Db.Runs

/-!
# Reusing a deleted record

`_db_findfree` takes the first record off the free list that has room for the key and the data,
neither less nor more (`Rec.Room`). `db_store` of a key that is not found then writes its record and
its data over the old ones, and what it writes fills them exactly (`Fills`): the numbers in the new
record are those of the old one, so its text is as long.

Here the process is not disturbed, so that its functions are runs (`Runs`), and what they leave
behind is said of the files alone.
-/

namespace LearningNotes.Db

variable {p : Pid} {os os₁ os₂ : OS} {x : Index} {y : List CString} {f f₁ f₂ g : List Cell}
  {o : Nat} {it : Item} {r r' : Rec} {d : CString} {keylen datlen : Nat} {db : DB}

/-- The record has room for a key and data of these lengths. -/
def Rec.Room (keylen datlen : Nat) (r : Rec) : Prop := r.key.length = keylen ∧ r.datlen = datlen

instance : Decidable (r.Room keylen datlen) := inferInstanceAs (Decidable (_ ∧ _))

/-- The files are the index `x` and the blocks `y`, and every record has a block of its own. -/
structure Parsed (os : OS) (x : Index) (y : List CString) : Prop where
  idx : os.idx = x.bytes
  ok : x.Ok
  dat : os.dat = datBytes y
  block : ∀ o r, x.recAt o = some r → ∃ d, blockAt y r.datoff = some d ∧ r.datlen = blockSize d
  once : ∀ o r o' r', x.recAt o = some r → x.recAt o' = some r' → r.datoff = r'.datoff → o = o'

/-- The free list of the files is `f`. -/
structure FreeList (os : OS) (x : Index) (y : List CString) (f : List Cell) : Prop
    extends Parsed os x y where
  seg : Seg 0 link x.free f 0
  recAt : ∀ e ∈ f, x.recAt e.1 = some e.2.toRec
  data : ∀ e ∈ f, blockAt y e.2.datoff = some e.2.data
  blank : ∀ e ∈ f, Blank e.2.key

/-! ## The files -/

/-- Changing a pointer. -/
theorem Parsed.put (h : Parsed os x y) {c : Slot} {v v' : Nat} (hv : x.get c = some v)
    (hv' : v' ≤ PTR_MAX) :
    Parsed { os with idx := overwrite 0 os.idx c.off (ptrText v') } (x.put c v') y := by
  -- a record keeps its data
  have hsame : ∀ o r', (x.put c v').recAt o = some r' →
      ∃ r, x.recAt o = some r ∧ r.datoff = r'.datoff ∧ r.datlen = r'.datlen := by
    intro o r' hr'
    rw [Index.recAt_put hv] at hr'
    by_cases hc : c = .link o
    · rw [if_pos hc] at hr'
      obtain ⟨r, hr, rfl⟩ := Option.map_eq_some_iff.mp hr'
      exact ⟨r, hr, rfl, rfl⟩
    · rw [if_neg hc] at hr'
      exact ⟨r', hr', rfl, rfl⟩
  refine ⟨?_, h.ok.put hv hv', h.dat, ?_, ?_⟩
  · show overwrite 0 os.idx c.off (ptrText v') = _
    rw [h.idx, Index.overwrite_put h.ok hv hv']
  · intro o r' hr'
    obtain ⟨r, hr, hoff, hlen⟩ := hsame o r' hr'
    obtain ⟨d, hd, hsize⟩ := h.block o r hr
    exact ⟨d, hoff ▸ hd, hlen.symm.trans hsize⟩
  · intro o₁ r₁ o₂ r₂ hr₁ hr₂ hoff
    obtain ⟨s₁, hs₁, hoff₁, -⟩ := hsame o₁ r₁ hr₁
    obtain ⟨s₂, hs₂, hoff₂, -⟩ := hsame o₂ r₂ hr₂
    exact h.once o₁ s₁ o₂ s₂ hs₁ hs₂ (hoff₁.trans (hoff.trans hoff₂.symm))

/-- Writing a record and its data over others of the same size. -/
theorem Parsed.set (h : Parsed os x y) (hr : x.recAt o = some r) (hr' : r'.Ok)
    (hsize : r'.size = r.size) (hoff : r'.datoff = r.datoff) (hlen : r'.datlen = r.datlen)
    (hd : blockSize d = r.datlen) :
    Parsed { os with
      idx := overwrite 0 os.idx o r'.bytes
      dat := overwrite 0 os.dat r.datoff (blockBytes d) } (x.setRec o r') (setBlock y r.datoff d) := by
  obtain ⟨d₀, hd₀, hlen₀⟩ := h.block o r hr
  have hblock : blockSize d = blockSize d₀ := hd.trans hlen₀
  refine ⟨?_, h.ok.setRec hr hr', ?_, ?_, ?_⟩
  · show overwrite 0 os.idx o r'.bytes = _
    rw [h.idx, Index.overwrite_setRec h.ok hr hr' hsize]
  · show overwrite 0 os.dat r.datoff (blockBytes d) = _
    rw [h.dat, overwrite_setBlock hd₀ hblock]
  · intro o₁ r₁ hr₁
    rw [blockAt_setBlock hd₀ hblock]
    rw [Index.recAt_setRec hr hsize] at hr₁
    by_cases ho : o₁ = o
    · rw [if_pos ho] at hr₁
      cases hr₁
      exact ⟨d, if_pos hoff, hlen.trans hd.symm⟩
    · rw [if_neg ho] at hr₁
      obtain ⟨d₁, hd₁, hlen₁⟩ := h.block o₁ r₁ hr₁
      have hne : r₁.datoff ≠ r.datoff := fun he => ho (h.once o₁ r₁ o r hr₁ hr he)
      exact ⟨d₁, (if_neg hne).trans hd₁, hlen₁⟩
  · -- the new record has the data offset of the old one
    have hold : ∀ o₁ r₁, (x.setRec o r').recAt o₁ = some r₁ →
        ∃ s, x.recAt o₁ = some s ∧ s.datoff = r₁.datoff := by
      intro o₁ r₁ hr₁
      rw [Index.recAt_setRec hr hsize] at hr₁
      by_cases ho : o₁ = o
      · rw [if_pos ho] at hr₁
        cases hr₁
        exact ⟨r, ho ▸ hr, hoff.symm⟩
      · rw [if_neg ho] at hr₁
        exact ⟨r₁, hr₁, rfl⟩
    intro o₁ r₁ o₂ r₂ hr₁ hr₂ he
    obtain ⟨s₁, hs₁, hoff₁⟩ := hold o₁ r₁ hr₁
    obtain ⟨s₂, hs₂, hoff₂⟩ := hold o₂ r₂ hr₂
    exact h.once o₁ s₁ o₂ s₂ hs₁ hs₂ (hoff₁.trans (he.trans hoff₂.symm))

/-- The files of a process alone. -/
theorem Solo.parsed {P : List Byte → Prop} {dead : Pid → Prop} {w : World} (h : Solo P dead p w) :
    Parsed w.os w.x w.y := by
  have hp := h.inv.placed
  refine ⟨h.inv.files.idx, h.inv.files.ok, h.inv.files.dat, ?_, ?_⟩
  · intro o r hr
    obtain ⟨d, hd, hlen, -⟩ := hp.blockOf hr
    exact ⟨d, hd, hlen⟩
  · intro o r o' r' hr hr' he
    obtain ⟨-, -, -, hn⟩ := hp.blockOf hr
    obtain ⟨-, -, -, hn'⟩ := hp.blockOf hr'
    rw [he, hn'] at hn
    cases hn
    rfl

/-- The files of a process that is alone have a free list. -/
theorem Solo.freeList {P : List Byte → Prop} {dead : Pid → Prop} {w : World}
    (h : Solo P dead p w) : FreeList w.os w.x w.y (w.cells .free) := by
  obtain ⟨a, ha, hseg⟩ := h.inv.lists.free.thread
  have hfree : w.x.free = a := Option.some.inj ha
  exact ⟨h.parsed, hfree ▸ hseg, fun e he => h.inv.placed.recAt he,
    fun e he => h.inv.placed.block he, h.inv.lists.free.blank⟩

namespace FreeList

/-- The pointers of the free list fit their fields. -/
theorem ptr_le (h : FreeList os x y f) : ∀ e ∈ f, e.2.ptr ≤ PTR_MAX := fun e he =>
  (h.ok.recAt (h.recAt e he)).ptr

/-- So do the offsets. -/
theorem le (h : FreeList os x y f) : ∀ e ∈ f, e.1 ≤ PTR_MAX := offset_le h.ok.free h.seg h.ptr_le

/-- No record is twice on the free list. -/
theorem nodup (h : FreeList os x y f) : (f.map Prod.fst).Nodup := by
  have hstore : InStore (fun o => (x.recAt o).bind fun r =>
      (blockAt y r.datoff).map fun d => ({ r with data := d } : Item)) f := by
    intro e he
    dsimp only
    rw [h.recAt e he, Option.bind_some, h.data e he, Option.map_some]
  exact h.seg.nodup hstore

/-- The loop along the free list gets to its end. -/
theorem short (h : FreeList os x y f) : f.length < loopFuel :=
  length_lt_fuel h.ok.free h.seg h.ptr_le h.nodup

/-- The pointer to the record behind `f₁`. -/
theorem get_endSlot (h : FreeList os x y (f₁ ++ f₂)) :
    ∃ v, x.get (endSlot .free f₁) = some v := by
  rcases List.eq_nil_or_concat f₁ with rfl | ⟨c, e, rfl⟩
  · exact ⟨x.free, rfl⟩
  · refine ⟨e.2.ptr, ?_⟩
    rw [List.concat_eq_append, endSlot_concat]
    show (x.recAt e.1).map Rec.ptr = _
    rw [h.recAt e (by simp)]
    rfl

/-- **Off the list.** The pointer to a record is set to the record behind it. -/
theorem take (h : FreeList os x y (f₁ ++ (o, it) :: f₂)) :
    FreeList { os with idx := overwrite 0 os.idx (endSlot .free f₁).off (ptrText it.ptr) }
      (x.put (endSlot .free f₁) it.ptr) y (relast Item.setPtr f₁ it.ptr ++ f₂) := by
  obtain ⟨v, hv⟩ := h.get_endSlot
  have hle := h.ptr_le (o, it) (by simp)
  have hparsed := h.toParsed.put hv hle
  obtain ⟨o, hseg₁, rfl, -, hseg₂⟩ := seg_append.mp h.seg
  have hseg : Seg 0 link (restart x.free f₁ it.ptr) (relast Item.setPtr f₁ it.ptr) it.ptr :=
    hseg₁.relast fun it m => rfl
  rcases List.eq_nil_or_concat f₁ with rfl | ⟨c, ⟨b, it'⟩, rfl⟩
  · exact ⟨hparsed, hseg₂, fun e he => h.recAt e (List.mem_cons_of_mem _ he),
      fun e he => h.data e (List.mem_cons_of_mem _ he),
      fun e he => h.blank e (List.mem_cons_of_mem _ he)⟩
  · rw [List.concat_eq_append] at h hv hparsed hseg ⊢
    rw [relast_concat] at hseg ⊢
    rw [endSlot_concat] at hv hparsed ⊢
    have hstart : restart x.free (c ++ [(b, it')]) it.ptr = x.free := by
      cases c <;> rfl
    have hrec : ∀ o', (x.put (.link b) it.ptr).recAt o' =
        if Slot.link b = .link o' then (x.recAt o').map ({ · with ptr := it.ptr })
        else x.recAt o' := fun o' => Index.recAt_put hv
    have hnd := h.nodup
    -- the cells but for `b` are in other places
    have hcell : ∀ e ∈ c ++ [(b, it'.setPtr it.ptr)] ++ f₂, e = (b, it'.setPtr it.ptr) ∨
        (e ∈ c ++ [(b, it')] ++ (o, it) :: f₂ ∧ e.1 ≠ b) := by
      intro e he
      rw [List.append_assoc, List.map_append] at hnd
      obtain ⟨-, hnd₂, hdisj⟩ := List.nodup_append.mp hnd
      rw [List.singleton_append, List.map_cons] at hnd₂ hdisj
      rw [List.append_assoc] at he
      rcases List.mem_append.mp he with he | he
      · exact Or.inr ⟨by simp [he], fun hb =>
          hdisj e.1 (List.mem_map_of_mem he) b (List.mem_cons_self ..) hb⟩
      · rcases List.mem_cons.mp he with rfl | he
        · exact Or.inl rfl
        · have hf₂ : e.1 ∈ ((o, it) :: f₂).map Prod.fst :=
            List.mem_cons_of_mem _ (List.mem_map_of_mem he)
          exact Or.inr ⟨by simp [show e ∈ f₂ from he],
            fun hb => (List.nodup_cons.mp hnd₂).1 (hb ▸ hf₂)⟩
    refine ⟨hparsed, seg_append.mpr ⟨_, hstart ▸ hseg, hseg₂⟩, ?_, ?_, ?_⟩
    · intro e he
      rw [hrec]
      rcases hcell e he with rfl | ⟨hold, hne⟩
      · rw [if_pos rfl, h.recAt (b, it') (by simp)]
        rfl
      · rw [if_neg fun hb => hne (by cases hb; rfl), h.recAt e hold]
    · intro e he
      rcases hcell e he with rfl | ⟨hold, -⟩
      · exact h.data (b, it') (by simp)
      · exact h.data e hold
    · intro e he
      rcases hcell e he with rfl | ⟨hold, -⟩
      · exact h.blank (b, it') (by simp)
      · exact h.blank e hold

/-- The head of the list in the index file. -/
theorem slice_free (h : FreeList os x y f) : slice os.idx FREE_OFF PTR_SZ = ptrText x.free := by
  rw [h.idx]
  exact Index.slice_get h.ok (c := .free) rfl

/-- A record of the list in the index file. -/
theorem slice_rec (h : FreeList os x y f) {e : Cell} (he : e ∈ f) :
    slice os.idx e.1 e.2.toRec.bytes.length = e.2.toRec.bytes := by
  have hrec := h.recAt e he
  rw [h.idx, (h.ok.recAt hrec).length_bytes, Index.slice_recAt h.ok hrec]

/-- A record of the free list is read back. -/
theorem readable (h : FreeList os x y f) {e : Cell} (he : e ∈ f) : e.2.toRec.Readable :=
  (h.ok.recAt (h.recAt e he)).readable (sep_not_mem_blank (h.blank e he))

/-- The locks have nothing to do with it. -/
theorem locks (h : FreeList os x y f) (locks : List (RangeLock Pid Fd)) :
    FreeList { os with locks := locks } x y f :=
  ⟨⟨h.idx, h.ok, h.dat, h.block, h.once⟩, h.seg, h.recAt, h.data, h.blank⟩

/-- The record that was taken off is as it was. -/
theorem recAt_taken (h : FreeList os x y (f₁ ++ (o, it) :: f₂)) :
    (x.put (endSlot .free f₁) it.ptr).recAt o = some it.toRec := by
  obtain ⟨v, hv⟩ := h.get_endSlot
  have hrec := h.recAt (o, it) (by simp)
  have hne : endSlot .free f₁ ≠ .link o := by
    have hnd := h.nodup
    rw [List.map_append, List.map_cons] at hnd
    have hdisj := (List.nodup_append.mp hnd).2.2
    rcases List.eq_nil_or_concat f₁ with rfl | ⟨c, e, rfl⟩
    · simp
    · rw [List.concat_eq_append] at hdisj ⊢
      rw [endSlot_concat]
      intro he
      exact hdisj e.1 (by simp) o (List.mem_cons_self ..) (by cases he; rfl)
  rw [Index.recAt_put hv, if_neg hne]
  exact hrec

end FreeList

/-! ## The loop -/

/-- The records of `g` have no room: the loop goes on behind them. -/
theorem Runs.findfreeLoop_skip (h : FreeList os x y f) (g : List Cell) :
    ∀ {f₁ f₂ : List Cell} (fuel : Nat) (db : DB), f = f₁ ++ (g ++ f₂) →
      (∀ e ∈ g, ¬ e.2.Room keylen datlen) →
      ∃ db₁, db₁.chainoff = db.chainoff ∧ ∀ a db' os', Runs p
        (findfreeLoop keylen datlen fuel ((endSlot .free (f₁ ++ g)).off : Nat) (start f₂)) db₁ os
          a db' os' →
        Runs p (findfreeLoop keylen datlen (fuel + g.length) ((endSlot .free f₁).off : Nat)
          (start (g ++ f₂))) db os a db' os' := by
  induction g with
  | nil =>
    intro f₁ f₂ fuel db _ _
    refine ⟨db, rfl, fun a db' os' hrun => ?_⟩
    rw [List.append_nil] at hrun
    exact hrun
  | cons e g ih =>
    obtain ⟨o, it⟩ := e
    intro f₁ f₂ fuel db hf hroom
    have hmem : (o, it) ∈ f := by rw [hf]; simp
    have ho : o ≠ 0 := h.seg.ne_nil _ hmem
    have hnext : it.ptr = start (g ++ f₂) := by
      have hseg := h.seg
      rw [hf] at hseg
      obtain ⟨k, -, -, -, hseg₂⟩ := seg_append.mp hseg
      exact hseg₂.start
    have hslot : (endSlot .free (f₁ ++ [(o, it)])).off = o := by
      rw [endSlot_concat]
      rfl
    obtain ⟨db₁, hchain, hrun⟩ := @ih (f₁ ++ [(o, it)]) f₂ fuel (db.load o it.ptr it.toRec)
      (by rw [hf, List.append_assoc]; rfl) fun e he => hroom e (List.mem_cons_of_mem _ he)
    refine ⟨db₁, hchain, fun a db' os' hr => ?_⟩
    have hne : ¬ (o : Int) = 0 := by omega
    -- this record has no room, so the loop reads its pointer and goes on
    have hfit : ¬ (it.key.length = keylen ∧ it.datlen = datlen) := hroom (o, it) (by simp)
    have hgo := hrun a db' os' (by rw [List.append_assoc]; exact hr)
    rw [hslot, ← hnext] at hgo
    rw [List.length_cons, ← Nat.add_assoc, show start ((o, it) :: g ++ f₂) = o from rfl]
    unfold findfreeLoop
    rw [if_neg hne]
    refine (Runs.readidx (Or.inl ⟨rfl, ho⟩) (h.readable hmem) (h.slice_rec hmem)).bind ?_
    refine get.bind ?_
    show Runs p (if it.key.length = keylen ∧ it.datlen = datlen then _ else _) _ os a db' os'
    rw [if_neg hfit]
    exact hgo

/-! ## `_db_findfree` -/

section Findfree

variable {locks : List (RangeLock Pid Fd)}

/-- The files after the lock of the free list was given back. -/
def OS.unlockFree (os : OS) (p : Pid) (locks : List (RangeLock Pid Fd)) : OS :=
  { os with locks := RangeLock.clip locks p .idxfd FREE_OFF (lockStop FREE_OFF 1) }

/-- No record has room. -/
theorem Runs.findfree_none (h : FreeList os x y f)
    (hlock : RangeLock.acquire os.locks p .idxfd .wrlck FREE_OFF (lockStop FREE_OFF 1) = some locks)
    (hroom : ∀ e ∈ f, ¬ e.2.Room keylen datlen) (db : DB) :
    ∃ db', Runs p (dbFindfree keylen datlen) db os (-1) db' (os.unlockFree p locks) := by
  obtain ⟨fuel, hfuel⟩ := Nat.exists_eq_add_of_lt h.short
  have hloop : loopFuel = fuel + 1 + f.length := by omega
  have hstart : x.free = start f := h.seg.start
  obtain ⟨db₁, -, hrun⟩ := @Runs.findfreeLoop_skip p { os with locks := locks } x y f keylen datlen
    (h.locks locks) f [] [] (fuel + 1) { db with idxpos := FREE_OFF + PTR_SZ } (by simp) hroom
  rw [List.append_nil] at hrun
  refine ⟨db₁, ?_⟩
  unfold dbFindfree
  refine bind (lock hlock) ?_
  refine (readptr h.ok.free (h.locks locks).slice_free).bind ?_
  rw [hstart, hloop]
  refine (hrun (0, _) db₁ _ rfl).bind ?_
  dsimp only
  rw [if_pos rfl]
  exact (pure _).bind ((unlock .idxfd FREE_OFF 1).bind (pure _))

/-- The first record with room is taken. -/
theorem Runs.findfree_found (h : FreeList os x y (f₁ ++ (o, it) :: f₂))
    (hlock : RangeLock.acquire os.locks p .idxfd .wrlck FREE_OFF (lockStop FREE_OFF 1) = some locks)
    (hroom : ∀ e ∈ f₁, ¬ e.2.Room keylen datlen) (hfit : it.Room keylen datlen) (db : DB) :
    ∃ db', Runs p (dbFindfree keylen datlen) db os 0 db'
        (({ os with idx := overwrite 0 os.idx (endSlot .free f₁).off (ptrText it.ptr) } : OS).unlockFree
          p locks) ∧
      db'.idxoff = o ∧ db'.datoff = it.datoff ∧ db'.chainoff = db.chainoff := by
  have hmem : (o, it) ∈ f₁ ++ (o, it) :: f₂ := by simp
  have hshort : f₁.length < loopFuel := by
    have hlt := h.short
    rw [List.length_append] at hlt
    omega
  obtain ⟨fuel, hfuel⟩ := Nat.exists_eq_add_of_lt hshort
  have hloop : loopFuel = fuel + 1 + f₁.length := by omega
  have hstart : x.free = start (f₁ ++ (o, it) :: f₂) := h.seg.start
  have ho : o ≠ 0 := h.seg.ne_nil _ hmem
  have hne : ¬ (o : Int) = 0 := by omega
  obtain ⟨db₁, hchain, hrun⟩ := @Runs.findfreeLoop_skip p { os with locks := locks } x y _ keylen datlen
    (h.locks locks) f₁ [] ((o, it) :: f₂) (fuel + 1) { db with idxpos := FREE_OFF + PTR_SZ } rfl hroom
  rw [List.nil_append] at hrun
  have hfits : it.key.length = keylen ∧ it.datlen = datlen := hfit
  -- the loop stops at this record
  have hstop : Runs p (findfreeLoop keylen datlen (fuel + 1) ((endSlot .free f₁).off : Nat)
      (start ((o, it) :: f₂))) db₁ { os with locks := locks } ((o : Int), ((endSlot .free f₁).off : Nat))
      (db₁.load o it.ptr it.toRec) { os with locks := locks } := by
    rw [show start ((o, it) :: f₂) = o from rfl]
    unfold findfreeLoop
    rw [if_neg hne]
    refine (Runs.readidx (Or.inl ⟨rfl, ho⟩) (h.readable hmem) ((h.locks locks).slice_rec hmem)).bind ?_
    refine get.bind ?_
    show Runs p (if it.key.length = keylen ∧ it.datlen = datlen then _ else _) _ _ _ _ _
    rw [if_pos hfits]
    exact pure _
  refine ⟨{ db₁.load o it.ptr it.toRec with idxpos := (endSlot .free f₁).off + PTR_SZ }, ?_, rfl, rfl,
    hchain⟩
  unfold dbFindfree
  refine bind (lock hlock) ?_
  refine (readptr h.ok.free (h.locks locks).slice_free).bind ?_
  rw [hstart, hloop]
  refine (hrun _ _ _ hstop).bind ?_
  dsimp only
  rw [if_neg hne]
  refine get.bind ?_
  refine (writeptr (h.ptr_le _ hmem) _).bind ?_
  exact (pure _).bind ((unlock .idxfd FREE_OFF 1).bind (pure _))

end Findfree

/-! ## `_db_find_and_lock` -/

/-- A chain without the key: the loop goes to its end. -/
theorem Runs.findLoop_none (h : Parsed os x y) {key : List Byte} (c : List Cell) :
    ∀ {a fuel : Nat} (db : DB), Seg 0 link a c 0 → (∀ e ∈ c, x.recAt e.1 = some e.2.toRec) →
      (∀ e ∈ c, e.2.key ≠ key ∧ SEP ∉ e.2.key) → c.length < fuel →
      ∃ db', Runs p (findLoop key fuel a) db os 0 db' os ∧ db'.chainoff = db.chainoff := by
  induction c with
  | nil =>
    intro a fuel db hseg _ _ hfuel
    obtain ⟨fuel, rfl⟩ := Nat.exists_eq_succ_of_ne_zero (Nat.ne_of_gt hfuel)
    obtain rfl : a = 0 := hseg
    refine ⟨db, ?_, rfl⟩
    unfold findLoop
    rw [if_pos Int.natCast_zero]
    exact pure _
  | cons e c ih =>
    obtain ⟨o, it⟩ := e
    intro a fuel db hseg hrecs hno hfuel
    obtain ⟨fuel, rfl⟩ := Nat.exists_eq_succ_of_ne_zero (Nat.ne_of_gt (Nat.zero_lt_of_lt hfuel))
    obtain ⟨rfl, ho, hseg⟩ := hseg
    have hrec := hrecs (a, it) (List.mem_cons_self ..)
    obtain ⟨hne, hsep⟩ := hno (a, it) (List.mem_cons_self ..)
    have hok := h.ok.recAt hrec
    have hslice : slice os.idx a it.toRec.bytes.length = it.toRec.bytes := by
      rw [h.idx, hok.length_bytes, Index.slice_recAt h.ok hrec]
    obtain ⟨db', hrun, hchain⟩ := @ih it.ptr fuel { db.load a it.ptr it.toRec with ptroff := a }
      hseg (fun e he => hrecs e (List.mem_cons_of_mem _ he))
      (fun e he => hno e (List.mem_cons_of_mem _ he)) (Nat.lt_of_succ_lt_succ hfuel)
    refine ⟨db', ?_, hchain⟩
    unfold findLoop
    rw [if_neg (Int.natCast_ne_zero.mpr ho)]
    refine (Runs.readidx (Or.inl ⟨rfl, ho⟩) (hok.readable hsep) hslice).bind ?_
    refine get.bind ?_
    show Runs p (if it.key = key then _ else _) _ os _ db' os
    rw [if_neg hne]
    exact (modify _).bind hrun

/-- The chain of the key is locked, and the key is not found. -/
theorem Runs.findAndLock_none (h : Parsed os x y) (hdb : Opened db) {key : List Byte} {a : Nat}
    {c : List Cell} (hhead : x.get (.chain (dbHash NHASH_DEF key)) = some a)
    (hseg : Seg 0 link a c 0) (hrecs : ∀ e ∈ c, x.recAt e.1 = some e.2.toRec)
    (hno : ∀ e ∈ c, e.2.key ≠ key ∧ SEP ∉ e.2.key) (hfuel : c.length < loopFuel)
    {locks : List (RangeLock Pid Fd)}
    (hlock : RangeLock.acquire os.locks p .idxfd .wrlck (Slot.chain (dbHash NHASH_DEF key)).off
      (lockStop (Slot.chain (dbHash NHASH_DEF key)).off 1) = some locks) :
    ∃ db', Runs p (dbFindAndLock key true) db os (-1) db' { os with locks := locks } ∧
      db'.chainoff = ((Slot.chain (dbHash NHASH_DEF key)).off : Nat) := by
  have hoff : (dbHash db.nhash key : Int) * PTR_SZ + db.hashoff =
      ((Slot.chain (dbHash NHASH_DEF key)).off : Nat) := by
    rw [hdb.nhash, hdb.hashoff]
    simp only [Slot.off]
    push_cast
    rfl
  have hparsed : Parsed { os with locks := locks } x y := ⟨h.idx, h.ok, h.dat, h.block, h.once⟩
  have hptr := Index.slice_get h.ok hhead
  rw [← h.idx] at hptr
  obtain ⟨db', hrun, hchain⟩ := @Runs.findLoop_none p { os with locks := locks } x y hparsed key c a
    loopFuel { db with
      chainoff := ((Slot.chain (dbHash NHASH_DEF key)).off : Nat)
      ptroff := ((Slot.chain (dbHash NHASH_DEF key)).off : Nat)
      idxpos := (Slot.chain (dbHash NHASH_DEF key)).off + PTR_SZ } hseg hrecs hno hfuel
  refine ⟨db', ?_, hchain⟩
  unfold dbFindAndLock
  refine get.bind ?_
  dsimp only
  rw [hoff]
  refine (modify _).bind ?_
  rw [if_pos rfl]
  refine bind (lock hlock) ?_
  have hidx : slice ({ os with locks := locks } : OS).idx _ PTR_SZ = _ := hptr
  refine bind (readptr (Index.get_split h.ok hhead).1 hidx) ?_
  exact hrun.bind (pure _)

/-! ## The writes of `db_store` -/

/-- From `os` to `os'` the record `r` at `o` and its data have been replaced by `r'` and `d`,
byte for byte, and no other record has changed. -/
structure Fills (x : Index) (o : Nat) (r r' : Rec) (d : CString) (os os' : OS) : Prop where
  idxlen : os'.idx.length = os.idx.length
  datlen : os'.dat.length = os.dat.length
  size : r'.bytes.length = r.bytes.length
  datsize : (blockBytes d).length = r.datlen
  record : slice os'.idx o r.bytes.length = r'.bytes
  data : slice os'.dat r.datoff r.datlen = blockBytes d
  others : ∀ o' s, x.recAt o' = some s → o' ≠ o →
    slice os'.idx o' s.bytes.length = slice os.idx o' s.bytes.length ∧
      slice os'.dat s.datoff s.datlen = slice os.dat s.datoff s.datlen

/-- The record that `db_store` writes over `r`. -/
def Rec.reused (r : Rec) (key data : CString) (ptrval : Nat) : Rec :=
  ⟨ptrval, key.val, r.datoff, data.val.length + 1⟩

variable {key data : CString} {ptrval : Nat}

/-- It has the size of the old one: the offset and the length are the same numbers. -/
theorem Rec.size_reused (hkey : key.val.length = r.key.length) (hdata : data.val.length + 1 = r.datlen) :
    (r.reused key data ptrval).size = r.size := by
  unfold Rec.size
  rw [Rec.length_text, Rec.length_text r, Rec.reused, hkey, hdata]

/-- A record that is filled anew is all right. -/
theorem Rec.Ok.reused (h : r.Ok) (hptr : ptrval ≤ PTR_MAX) (hkey : key.val.length = r.key.length)
    (hdata : data.val.length + 1 = r.datlen) : (r.reused key data ptrval).Ok := by
  have hsize := @Rec.size_reused r key data ptrval hkey hdata
  have htext : (r.reused key data ptrval).text.length = r.text.length := by
    unfold Rec.size at hsize
    omega
  have hlen : (r.reused key data ptrval).datlen = r.datlen := hdata
  refine ⟨key.property, hptr, ?_, ?_, ?_, ?_⟩
  · rw [htext]
    exact h.lo
  · rw [htext]
    exact h.hi
  · rw [hlen]
    exact h.datlo
  · rw [hlen]
    exact h.dathi

/-- The files after the writes. -/
theorem Parsed.fills (h : Parsed os x y) (hr : x.recAt o = some r) (hptr : ptrval ≤ PTR_MAX)
    (ho : o ≤ PTR_MAX) (hkey : key.val.length = r.key.length)
    (hdata : data.val.length + 1 = r.datlen) {i : Nat} (hi : i < NHASH_DEF) :
    Fills x o r (r.reused key data ptrval) data os
      { os with
        idx := overwrite 0 (overwrite 0 os.idx o (r.reused key data ptrval).bytes)
          (Slot.chain i).off (ptrText o)
        dat := overwrite 0 os.dat r.datoff (blockBytes data) } := by
  have hok := h.ok.recAt hr
  have hnew := hok.reused hptr hkey hdata
  have hsize := @Rec.size_reused r key data ptrval hkey hdata
  obtain ⟨d₀, hd₀, hlen₀⟩ := h.block o r hr
  have hset := h.set hr hnew hsize rfl hdata hdata
  obtain ⟨v, hv⟩ : ∃ v, (x.setRec o (r.reused key data ptrval)).get (.chain i) = some v :=
    ⟨_, List.getElem?_eq_getElem (by rw [hset.ok.len]; exact hi)⟩
  have hput := hset.put hv ho
  have hrecAt : ∀ o', ((x.setRec o (r.reused key data ptrval)).put (.chain i) o).recAt o' =
      if o' = o then some (r.reused key data ptrval) else x.recAt o' := by
    intro o'
    rw [Index.recAt_put hv, if_neg (by simp), Index.recAt_setRec hr hsize]
  have hblock : blockSize data = blockSize d₀ := hdata.trans hlen₀
  refine ⟨?_, ?_, ?_, ?_, ?_, ?_, ?_⟩
  · -- the length of neither file changes
    have hlen := congrArg List.length hput.idx
    rw [hput.ok.length_bytes, Index.size_put hv, Index.size_setRec hr hsize] at hlen
    rw [h.idx, h.ok.length_bytes, ← hlen, h.idx]
  · have hlen := congrArg List.length hput.dat
    rw [length_setBlock hd₀ hblock] at hlen
    rw [h.dat, ← hlen, h.dat]
  · rw [hnew.length_bytes, hok.length_bytes, hsize]
  · exact (length_blockBytes data).trans hdata
  · -- what is at the offsets now is the new pair
    have hslice := Index.slice_recAt hput.ok ((hrecAt o).trans (if_pos rfl))
    rw [← hput.idx, hsize, ← hok.length_bytes] at hslice
    exact hslice
  · have hat : blockAt (setBlock y r.datoff data) r.datoff = some data := by
      rw [blockAt_setBlock hd₀ hblock, if_pos rfl]
    have hslice := slice_blockAt hat
    rw [← hput.dat, show blockSize data = r.datlen from hdata] at hslice
    exact hslice
  · intro o' s hs hne
    have hs' := (hrecAt o').trans ((if_neg hne).trans hs)
    -- another record and its data are elsewhere
    have hsok := h.ok.recAt hs
    obtain ⟨d, hd, hdlen⟩ := h.block o' s hs
    have hoff : s.datoff ≠ r.datoff := fun he => hne (h.once o' s o r hs hr he)
    have hd' : blockAt (setBlock y r.datoff data) s.datoff = some d := by
      rw [blockAt_setBlock hd₀ hblock, if_neg hoff, hd]
    have hidx := Index.slice_recAt hput.ok hs'
    have hdat := slice_blockAt hd'
    rw [← hput.idx, ← hsok.length_bytes] at hidx
    rw [← hput.dat, ← hdlen] at hdat
    refine ⟨hidx.trans ?_, hdat.trans ?_⟩
    · rw [h.idx, hsok.length_bytes, Index.slice_recAt h.ok hs]
    · rw [h.dat, hdlen, slice_blockAt hd]

/-- `db_store` writes over the first record that has room, when the chain of the key is `i`. -/
theorem Runs.storeNew_reused {locks : List (RangeLock Pid Fd)}
    (h : FreeList os x y (f₁ ++ (o, it) :: f₂))
    (hlock : RangeLock.acquire os.locks p .idxfd .wrlck FREE_OFF (lockStop FREE_OFF 1) = some locks)
    (hroom : ∀ e ∈ f₁, ¬ e.2.Room keylen datlen) (hfit : it.Room keylen datlen)
    (hkey : key.val.length = keylen) (hdata : data.val.length + 1 = datlen) {i : Nat}
    (hhead : x.get (.chain i) = some ptrval) (hchain : db.chainoff = ((Slot.chain i).off : Nat)) :
    ∃ db' os', Runs p (storeNew key.val data.val) db os () db' os' ∧
      os'.idx = overwrite 0 (overwrite 0 (overwrite 0 os.idx (endSlot .free f₁).off (ptrText it.ptr)) o
        (it.toRec.reused key data ptrval).bytes) (Slot.chain i).off (ptrText o) ∧
      os'.dat = overwrite 0 os.dat it.datoff (blockBytes data) ∧ db'.chainoff = db.chainoff := by
  subst hkey hdata
  have hptr : ptrval ≤ PTR_MAX := (Index.get_split h.ok hhead).1
  have hslice := Index.slice_get h.ok hhead
  rw [← h.idx] at hslice
  have ho : o ≤ PTR_MAX := h.le (o, it) (by simp)
  have hnew := (h.ok.recAt (h.recAt (o, it) (by simp))).reused hptr hfit.1.symm hfit.2.symm
  have hw : (it.toRec.reused key data ptrval).Writable := ⟨hnew.ptr, hnew.lo, hnew.hi⟩
  obtain ⟨db₁, hfree, hidx, hdat, hsame⟩ := Runs.findfree_found h hlock hroom hfit
    { db with idxpos := (Slot.chain i).off + PTR_SZ }
  refine ⟨{ DB.wroteIdx { db₁ with
      datoff := it.datoff
      datlen := data.val.length + 1
      datpos := it.datoff + (data.val.length + 1) } o (it.toRec.reused key data ptrval) with
    idxpos := (Slot.chain i).off + PTR_SZ }, { os with
      idx := overwrite 0 (overwrite 0 (overwrite 0 os.idx (endSlot .free f₁).off (ptrText it.ptr)) o
        (it.toRec.reused key data ptrval).bytes) (Slot.chain i).off (ptrText o)
      dat := overwrite 0 os.dat it.datoff (blockBytes data)
      locks := RangeLock.clip locks p .idxfd FREE_OFF (lockStop FREE_OFF 1) }, ?_, rfl, rfl, hsame⟩
  unfold storeNew
  refine get.bind ?_
  rw [hchain]
  refine (readptr hptr hslice).bind ?_
  refine hfree.bind ?_
  rw [if_neg (by decide)]
  refine get.bind ?_
  rw [hdat]
  refine (writedat_set data.val it.datoff).bind ?_
  refine get.bind ?_
  dsimp only
  rw [hidx]
  refine (writeidx_set hw rfl rfl o).bind ?_
  exact get.bind (writeptr ho _)

/-! ## Every reachable state -/

/-- `_db_findfree` has taken the first record with room off the free list `f`. The files have the
index `x'` now. -/
structure TookFree (keylen datlen : Nat) (f f₁ : List Cell) (o : Nat) (it : Item) (f₂ : List Cell)
    (x' : Index) (y : List CString) (db' : DB) (os' : OS) : Prop where
  split : f = f₁ ++ (o, it) :: f₂
  room : it.Room keylen datlen
  first : ∀ e ∈ f₁, ¬ e.2.Room keylen datlen
  rest : FreeList os' x' y (relast Item.setPtr f₁ it.ptr ++ f₂)
  recAt : x'.recAt o = some it.toRec
  idxoff : db'.idxoff = o
  datoff : db'.datoff = it.datoff

/-- Where `_db_find_and_lock` does not find the key, the records of its chain have other keys,
without separators. -/
theorem Solo.not_found {P : List Byte → Prop} {dead : Pid → Prop} {w : World}
    (h : Solo P dead p w) (hdb : Opened db) {key : List Byte} {db₁ : DB} {os₁ : OS}
    (hrun : Runs p (dbFindAndLock key true) db w.os (-1) db₁ os₁) :
    ∀ e ∈ w.cells (World.chainOf key), e.2.key ≠ key ∧ SEP ∉ e.2.key := by
  have hwp : wpM (rules (Env.nobody P p) .rewind) p (dbFindAndLock key true)
      (fun rc db' _ => rc = -1 → NotFound key (w.cells (World.chainOf key)) db') (fun _ _ => True)
      db (w.begin p) := by
    refine wpM_findAndLock h.toIdle.ready hdb rfl ?_ ?_ ?_
    · rintro _ db' w' _ rfl rfl - hn -
      exact hn
    · intro _ _ _ _ _ _ _ _ _ _ _ _ hrc
      exact absurd hrc (by decide)
    · intro _ _ _ _ _ _ _
      trivial
  have hsat := sat_alone (w := w.begin p) h.alone h.toIdle.ready.inv hwp
  have hexec : Prog.exec (sysStep p) (StateT.run (dbFindAndLock key true) db) (w.begin p).os =
      Prog.Outcome.done (-1, db₁) os₁ := hrun
  rw [hexec] at hsat
  obtain ⟨w', -, -, -, hnot⟩ := hsat
  have hn := hnot rfl
  intro e he
  exact ⟨fun hk => hn.absent (List.mem_map.mpr ⟨e, he, hk⟩), hn.clean e he⟩

/-- **`db_store`**, where the key is not found and a record has room: it writes over the first one,
and the files are as `_db_findfree` and these writes leave them. -/
theorem Solo.store_reused {P : List Byte → Prop} {dead : Pid → Prop} {w : World}
    (h : Solo P dead p w) (hdb : Opened db) (hsplit : w.cells .free = f₁ ++ (o, it) :: f₂)
    (hroom : ∀ e ∈ f₁, ¬ e.2.Room keylen datlen) (hfit : it.Room keylen datlen)
    (hkey : key.val.length = keylen) (hdata : data.val.length + 1 = datlen) {flag : Int}
    (hflag : flag = DB_INSERT ∨ flag = DB_STORE) {db₁ : DB} {os₁ : OS}
    (hrun : Runs p (dbFindAndLock key.val true) db w.os (-1) db₁ os₁) :
    ∃ ptrval db' os', Runs p (dbStore key data flag) db w.os 0 db' os' ∧
      w.x.get (.chain (dbHash NHASH_DEF key.val)) = some ptrval ∧
      os'.idx = overwrite 0 (overwrite 0 (overwrite 0 w.os.idx (endSlot .free f₁).off
        (ptrText it.ptr)) o (it.toRec.reused key data ptrval).bytes)
        (Slot.chain (dbHash NHASH_DEF key.val)).off (ptrText o) ∧
      os'.dat = overwrite 0 w.os.dat it.datoff (blockBytes data) := by
  have hno := h.not_found hdb hrun
  have hthread := (h.inv.lists.chain _ (dbHash_lt key.val)).thread
  rw [h.gap] at hthread
  obtain ⟨a, ha, hseg⟩ := hthread
  have hlen : (w.cells (World.chainOf key.val)).length < loopFuel :=
    length_lt_fuel (Index.get_split h.inv.files.ok ha).1 hseg (fun _ => h.inv.ptr_le _)
      (h.inv.placed.once _)
  obtain ⟨locks, hlocks, hmine⟩ := RangeLock.acquire_of_alone h.alone .idxfd .wrlck
    (Slot.chain (dbHash NHASH_DEF key.val)).off
    (lockStop (Slot.chain (dbHash NHASH_DEF key.val)).off 1)
  obtain ⟨locks', hlocks', -⟩ := RangeLock.acquire_of_alone hmine .idxfd .wrlck FREE_OFF
    (lockStop FREE_OFF 1)
  obtain ⟨db₂, hfind, hchain⟩ := @Runs.findAndLock_none p w.os w.x w.y db h.parsed hdb key.val a _ ha hseg
    (fun e he => h.inv.placed.recAt he) hno hlen locks hlocks
  have hfree := h.freeList.locks locks
  rw [hsplit] at hfree
  obtain ⟨db₃, os₃, hnew, hidx, hdat, -⟩ := Runs.storeNew_reused hfree hlocks' hroom hfit hkey hdata ha hchain
  -- the length is that of a record
  have hdatlen : it.datlen = data.val.length + 1 := hfit.2.trans hdata.symm
  have hok := hfree.ok.recAt (hfree.recAt (o, it) (by simp))
  have hlo : DATLEN_MIN ≤ it.datlen := hok.datlo
  have hhi : it.datlen ≤ DATLEN_MAX := hok.dathi
  have hunlock := @Runs.unlock p db₃ os₃ .idxfd db₃.chainoff.toNat 1
  refine ⟨a, db₃, { os₃ with
    locks := RangeLock.clip os₃.locks p .idxfd db₃.chainoff.toNat
      (lockStop db₃.chainoff.toNat 1) }, ?_, ha, hidx, hdat⟩
  unfold dbStore
  rw [if_neg (by rcases hflag with rfl | rfl <;> decide)]
  refine (Runs.errIf (by omega)).bind ?_
  refine hfind.bind ?_
  rw [if_pos (by decide), if_neg (by rcases hflag with rfl | rfl <;> decide)]
  refine hnew.bind ?_
  refine (Runs.pure (0 : Int)).bind ?_
  exact Runs.get.bind (hunlock.bind (Runs.pure (0 : Int)))

/-- **Reuse.** In every reachable state `_db_findfree` returns `0` exactly if a record of the free
list has room, and takes the first one off the list. If none has room, the files stay as they are.
If one has, `db_store` of such a key and such data that finds no record with the key fills it: from
the files that `_db_findfree` leaves, what it writes replaces the record and its data, byte for
byte. -/
theorem findfree_reuses {db₀ : DB} {table locks : List (RangeLock Pid Fd)}
    (h : Reach (fun _ => True) p db₀ os) (db : DB) (keylen datlen : Nat)
    (hlock : RangeLock.acquire table p .idxfd .wrlck FREE_OFF (lockStop FREE_OFF 1) = some locks) :
    ∃ x y f, FreeList os x y f ∧ ∃ rc db' os',
      Runs p (dbFindfree keylen datlen) db { os with locks := table } rc db' os' ∧
      (rc = 0 ↔ ∃ e ∈ f, e.2.Room keylen datlen) ∧
      (rc ≠ 0 → rc = -1 ∧ os'.idx = os.idx ∧ os'.dat = os.dat) ∧
      (rc = 0 → ∃ f₁ o it f₂ x', TookFree keylen datlen f f₁ o it f₂ x' y db' os' ∧
        ∀ (key data : CString) (flag : Int) (db₁ db₂ : DB) (os₁ : OS), key.val.length = keylen →
          data.val.length + 1 = datlen → flag = DB_INSERT ∨ flag = DB_STORE → Opened db₁ →
          Runs p (dbFindAndLock key.val true) db₁ os (-1) db₂ os₁ →
          ∃ ptrval db₃ os₂, Runs p (dbStore key data flag) db₁ os 0 db₃ os₂ ∧
            Fills x' o it.toRec (it.toRec.reused key data ptrval) data os' os₂) := by
  obtain ⟨w, rfl, hw, -⟩ := h.solo
  have hf := hw.freeList.locks table
  refine ⟨w.x, w.y, w.cells .free, hw.freeList, ?_⟩
  cases hfind : (w.cells .free).find? fun e => e.2.Room keylen datlen with
  | none =>
    have hroom : ∀ e ∈ w.cells .free, ¬ e.2.Room keylen datlen := by
      intro e he
      have := List.find?_eq_none.mp hfind e he
      simpa using this
    -- no record has room: the loop goes to the end of the free list
    obtain ⟨db', hrun⟩ := Runs.findfree_none hf hlock hroom db
    refine ⟨-1, db', _, hrun, ⟨fun hbad => absurd hbad (by decide), ?_⟩, fun _ => ⟨rfl, rfl, rfl⟩,
      fun hbad => absurd hbad (by decide)⟩
    rintro ⟨e, he, hfit⟩
    exact absurd hfit (hroom e he)
  | some e =>
    obtain ⟨o, it⟩ := e
    obtain ⟨hfit, f₁, f₂, hsplit, hfirst⟩ := List.find?_eq_some_iff_append.mp hfind
    have hfit : it.Room keylen datlen := by simpa using hfit
    have hroom : ∀ e ∈ f₁, ¬ e.2.Room keylen datlen := by
      intro e he
      have := hfirst e he
      simpa using this
    rw [hsplit] at hf
    -- the loop stops at the first one that has room
    obtain ⟨db', hrun, hidx, hdat, -⟩ := Runs.findfree_found hf hlock hroom hfit db
    have hrec := hf.recAt_taken
    have hrest := hf.take
    refine ⟨0, db', _, hrun, ⟨fun _ => ⟨(o, it), hsplit ▸ by simp, hfit⟩, fun _ => rfl⟩,
      fun hbad => absurd rfl hbad, fun _ =>
        ⟨f₁, o, it, f₂, w.x.put (endSlot .free f₁) it.ptr, ?_, ?_⟩⟩
    · exact ⟨hsplit, hfit, hroom, hrest.locks _, hrec, hidx, hdat⟩
    · intro key data flag db₁ db₂ os₁ hkey hdata hflag hdb hnot
      obtain ⟨ptrval, db₃, os₂, hstore, hhead, hidx₂, hdat₂⟩ :=
        hw.store_reused hdb hsplit hroom hfit hkey hdata hflag hnot
      have hkey' : key.val.length = it.key.length := hkey.trans hfit.1.symm
      have hdata' : data.val.length + 1 = it.datlen := hdata.trans hfit.2.symm
      have hfills := hrest.toParsed.fills hrec (Index.get_split hw.inv.files.ok hhead).1
        (hf.le (o, it) (by simp)) hkey' hdata' (dbHash_lt key.val)
      refine ⟨ptrval, db₃, os₂, hstore, ?_⟩
      obtain ⟨idx₂, dat₂, locks₂⟩ := os₂
      obtain rfl : idx₂ = _ := hidx₂
      obtain rfl : dat₂ = _ := hdat₂
      exact ⟨hfills.idxlen, hfills.datlen, hfills.size, hfills.datsize, hfills.record, hfills.data,
        hfills.others⟩

/-- A database with one record. -/
def OS.single : OS :=
  OS.created.after 0 (.store ⟨[97], nul_not_mem_a⟩ ⟨[98], nul_not_mem_b⟩ DB_INSERT)

/-- The record deleted. -/
def OS.deleted : OS := OS.single.after 1 (.delete ⟨[97], nul_not_mem_a⟩)

/-- The database with one record is reached. -/
theorem reach_single : Reach (fun _ => True) 1 DB.opened OS.single :=
  (Reach.created 0).after (c := .store _ _ _) trivial (by decide +kernel)

/-- So is the one in which it has been deleted. -/
theorem reach_deleted : Reach (fun _ => True) 2 DB.opened OS.deleted :=
  reach_single.after (c := .delete _) trivial (by decide +kernel)

theorem nul_not_mem_c : (0 : Byte) ∉ [99] := by decide

/-- A key of one byte and one byte of data are stored when a record like that was deleted. -/
theorem findfree_reuses_deleted : ∃ x y f, FreeList OS.deleted x y f ∧ ∃ db' os',
    Runs 2 (dbFindfree 1 2) {} { OS.deleted with locks := [] } 0 db' os' ∧
    ∃ f₁ o it f₂ x', TookFree 1 2 f f₁ o it f₂ x' y db' os' ∧
      ∃ ptrval db₃ os₂, Runs 2 (dbStore ⟨[99], nul_not_mem_c⟩ ⟨[98], nul_not_mem_b⟩ DB_INSERT)
          DB.opened OS.deleted 0 db₃ os₂ ∧
        Fills x' o it.toRec (it.toRec.reused ⟨[99], nul_not_mem_c⟩ ⟨[98], nul_not_mem_b⟩ ptrval)
          ⟨[98], nul_not_mem_b⟩ os' os₂ := by
  obtain ⟨x, y, f, hf, rc, db', os', hrun, -, -, hfound⟩ :=
    @findfree_reuses 2 OS.deleted DB.opened [] _ reach_deleted {} 1 2 rfl
  -- the record is free
  have hrc : rc = 0 := by
    have hret : returned 2 (dbFindfree 1 2) {} { OS.deleted with locks := [] } = some 0 := by
      decide +kernel
    exact Option.some.inj (hrun.returned.symm.trans hret)
  subst hrc
  obtain ⟨f₁, o, it, f₂, x', htook, hstore⟩ := hfound rfl
  -- the new key is not there
  obtain ⟨db₂, os₁, hnot⟩ : ∃ db₂ os₁,
      Runs 2 (dbFindAndLock [99] true) DB.opened OS.deleted (-1) db₂ os₁ :=
    Runs.of_returned (by decide +kernel)
  exact ⟨x, y, f, hf, db', os', hrun, f₁, o, it, f₂, x', htook,
    hstore ⟨[99], nul_not_mem_c⟩ ⟨[98], nul_not_mem_b⟩ DB_INSERT DB.opened db₂ os₁ rfl rfl
      (.inl rfl) opened_opened hnot⟩

end LearningNotes.Db
