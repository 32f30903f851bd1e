import LearningNotes.Db.Inner

/-!
# Finding a deleted record

`_db_findfree` walks along the free list under its lock and takes the first record off it
that has room for the key and for the data, neither less nor more. The record is in the
hand of the process from then on, although the lock of the free list is given back.
-/

namespace LearningNotes.Db

variable {P : List Byte → Prop} {p : Pid} {E : Env P p} {call : Call} {H : Fatal → World → Prop}
  {db : DB} {w : World} {key : List Byte} {old : Option (List Byte)} {size : Nat × Nat} {u : Part}
  {f f₁ f₂ : List Cell} {o : Nat} {it : Item} {keylen datlen : Nat}

theorem sep_not_mem_blank {k : List Byte} (h : Blank k) : SEP ∉ k := fun hm =>
  absurd (h SEP hm) (by decide)

theorem HasFree.blank {z : Option Nat} (h : HasFree E key old size u f z w) {e : Cell}
    (he : e ∈ f) : Blank e.2.key := h.has.inv.lists.free.blank e (h.free ▸ he)

theorem HasFree.ptr_le {z : Option Nat} (h : HasFree E key old size u f z w) :
    ∀ e ∈ f, e.2.ptr ≤ PTR_MAX := fun _ he => h.has.inv.ptr_le _ (h.free ▸ he)

theorem HasFree.length_lt {z : Option Nat} (h : HasFree E key old size u f z w) :
    f.length < loopFuel := by
  obtain ⟨hget, hseg⟩ := h.thread
  have hle := (Index.get_split h.has.inv.files.ok hget).1
  exact length_lt_fuel hle hseg h.ptr_le (h.free ▸ h.has.inv.placed.once .free)

/-- The record at `o` of the free list has room for a key and data of these lengths. -/
structure FreeFound (key : List Byte) (keylen datlen : Nat) (f f₁ : List Cell) (o : Nat)
    (it : Item) (f₂ : List Cell) (db : DB) : Prop where
  handle : Handle key db
  split : f = f₁ ++ (o, it) :: f₂
  keylen : it.key.length = keylen
  datlen : it.datlen = datlen
  loaded : Loaded db o it.toRec

/-- The loop of `_db_findfree`, with the cells `f₁` behind it and `f₂` to go. -/
theorem wpM_findfreeLoop {Q : Int × Int → DB → World → Prop}
    (hnone : ∀ save db' w', HasFree E key old size u f none w' → Handle key db' →
      Q (0, save) db' w')
    (hfound : ∀ f₁ o it f₂ db' w', HasFree E key old size u f none w' →
      FreeFound key keylen datlen f f₁ o it f₂ db' → Q (o, ((endSlot .free f₁).off : Nat)) db' w')
    (f₂ : List Cell) :
    ∀ {f₁ : List Cell} {fuel : Nat} {db : DB} {w : World}, HasFree E key old size u f none w →
      f = f₁ ++ f₂ → f₂.length < fuel → Handle key db →
      wpM (rules E call) p
        (findfreeLoop keylen datlen fuel ((endSlot .free f₁).off : Nat) (start f₂)) Q H db w := by
  induction f₂ with
  | nil =>
    intro f₁ fuel db w h _ hfuel hh
    obtain ⟨fuel, rfl⟩ := Nat.exists_eq_succ_of_ne_zero (Nat.ne_of_gt hfuel)
    unfold findfreeLoop
    rw [show ((start [] : Nat) : Int) = 0 from rfl, if_pos rfl]
    exact hnone _ db w h hh
  | cons e f₂ ih =>
    obtain ⟨o, it⟩ := e
    intro f₁ fuel db w h hf hfuel hh
    obtain ⟨fuel, rfl⟩ := Nat.exists_eq_succ_of_ne_zero (Nat.ne_of_gt (Nat.zero_lt_of_lt hfuel))
    have hmem : (o, it) ∈ f := mem_of_split hf
    obtain ⟨-, hseg⟩ := h.thread
    have ho : o ≠ 0 := hseg.ne_nil _ hmem
    have hnext : it.ptr = start f₂ := by
      rw [hf] at hseg
      obtain ⟨k, -, -, -, hseg₂⟩ := seg_append.mp hseg
      exact hseg₂.start
    have hne : ¬ (o : Int) = 0 := by omega
    rw [show start ((o, it) :: f₂) = o from rfl]
    unfold findfreeLoop
    rw [if_neg hne, wpM_bind]
    refine wpM_readidx (Or.inl ⟨rfl, ho⟩) fun w₁ hw₁ => ?_
    have h₁ := h.rel hw₁
    have hmem₁ : (o, it) ∈ w₁.cells .free := h₁.free ▸ hmem
    refine ⟨h₁.has.inv.files, Or.inl ⟨it.toRec, h₁.has.inv.placed.recAt hmem₁, fun w₂ hw₂ => ?_⟩⟩
    have h₂ := h₁.rel hw₂
    have hmem₂ : (o, it) ∈ w₂.cells .free := h₂.free ▸ hmem
    -- a deleted key has no separator
    have hsep : SEP ∉ it.key := sep_not_mem_blank (h₂.blank hmem)
    refine ⟨h₂.has.inv.files, it.toRec, h₂.has.inv.placed.recAt hmem₂, rfl, fun _ => ?_,
      fun hbad => absurd hbad hsep⟩
    have hh₂ : Handle key (db.load o it.ptr it.toRec) := ⟨⟨hh.nhash, hh.hashoff⟩, hh.chainoff⟩
    simp only [wpM_bind, wpM_get]
    show wpM _ p (if it.key.length = keylen ∧ it.datlen = datlen then _ else _) Q H _ w₂
    by_cases hfit : it.key.length = keylen ∧ it.datlen = datlen
    · rw [if_pos hfit]
      exact hfound f₁ o it f₂ _ w₂ h₂ ⟨hh₂, hf, hfit.1, hfit.2, .of_load _ _ _⟩
    · rw [if_neg hfit, hnext]
      have hslot : (endSlot .free (f₁ ++ [(o, it)])).off = o := by
        rw [endSlot_concat]
        rfl
      have := @ih (f₁ ++ [(o, it)]) fuel _ w₂ h₂ (by rw [hf, List.append_assoc]; rfl)
        (by rw [List.length_cons] at hfuel; omega) hh₂
      rw [hslot] at this
      rw [← hnext] at this ⊢
      exact this

/-- A deleted record has been taken off the free list. -/
structure Taken (E : Env P p) (key : List Byte) (old : Option (List Byte)) (size : Nat × Nat)
    (c : List Cell) (keylen datlen o : Nat) (it : Item) (db : DB) (w : World) : Prop where
  has : Has E key .wrlck (onChain key) old size ⟨c, none, [(o, it)], [], false⟩ w
  handle : Handle key db
  keylen : it.key.length = keylen
  datlen : it.datlen = datlen
  blank : Blank it.key
  le : o ≤ PTR_MAX
  datoff : db.datoff = it.datoff
  idxoff : db.idxoff = o

variable {c : List Cell}

/-- The record is taken off the free list, and the lock of the list is given back. -/
theorem wpM_takeFree {Q : Int → DB → World → Prop} (hcall : ¬ call.Reads)
    (h : HasFree E key old size (.whole c) f none w)
    (hf : FreeFound key keylen datlen f f₁ o it f₂ db)
    (hq : ∀ db' w', Taken E key old size c keylen datlen o it db' w' → Q 0 db' w') :
    wpM (rules E call) p (do
      dbWriteptr ((endSlot .free f₁).off : Nat) it.ptr
      unLock .idxfd FREE_OFF 1
      pure 0) Q H db w := by
  obtain ⟨hh, hc, hkl, hdl, hload⟩ := hf
  have hmem : (o, it) ∈ f := mem_of_split hc
  have hblank := h.blank hmem
  have ho : o ≤ PTR_MAX := by
    obtain ⟨hget, hseg⟩ := h.thread
    exact offset_le (Index.get_split h.has.inv.files.ok hget).1 hseg h.ptr_le _ hmem
  simp only [wpM_bind, wpM_pure]
  refine wpM_writeptr (h.ptr_le _ hmem) fun w₁ hw₁ => ?_
  have h₁ := h.rel hw₁
  have ht : Takeable P p w₁ f₁ o it f₂ := ⟨h₁.has.inv, h₁.free.trans hc, h₁.owns, h₁.calm rfl⟩
  obtain ⟨a, hs, -⟩ := ht.settable
  have hg : Guar P p call (.write .idxfd (endSlot .free f₁).off (ptrText it.ptr)) w₁
      (w₁.takeFree p f₁ o it f₂) := Guar.takeFree ht hcall
  refine ⟨w₁.takeFree p f₁ o it f₂, hs.os_redirect, fun _ => hg, ?_⟩
  have hhand : (w₁.takeFree p f₁ o it f₂).cells (.hand p) = [(o, it)] := by
    rw [cells_takeFree_hand, h₁.has.hand]
    rfl
  have h₂ : HasFree E key old size ⟨c, none, [(o, it)], [], false⟩ (relast Item.setPtr f₁ it.ptr ++ f₂)
      none (w₁.takeFree p f₁ o it f₂) :=
    h₁.write hg rfl rfl rfl (cells_takeFree_chain.trans h₁.has.cells) h₁.has.gap hhand
      h₁.has.pend h₁.has.moved cells_takeFree_free h₁.wiped fun _ _ => rfl
  refine wpM_unlockFree h₂ rfl fun w₃ h₃ => ?_
  exact hq _ w₃ ⟨h₃, ⟨⟨hh.nhash, hh.hashoff⟩, hh.chainoff⟩, hkl, hdl, hblank, ho, hload.datoff,
    hload.idxoff⟩

/-- `_db_findfree`. -/
theorem wpM_findfree {Q : Int → DB → World → Prop} (hcall : ¬ call.Reads)
    (h : Has E key .wrlck (onChain key) old size (.whole c) w) (hh : Handle key db)
    (hnone : ∀ db' w', Has E key .wrlck (onChain key) old size (.whole c) w' → Handle key db' →
      Q (-1) db' w')
    (hfound : ∀ o it db' w', Taken E key old size c keylen datlen o it db' w' → Q 0 db' w') :
    wpM (rules E call) p (dbFindfree keylen datlen) Q H db w := by
  unfold dbFindfree writewLock
  simp only [wpM_bind]
  refine wpM_lockFree h fun w₁ h₁ => ?_
  refine @wpM_readptr P p E call H _ w₁ .free _ fun w₂ hw₂ => ?_
  have h₂ := h₁.rel hw₂
  refine ⟨h₂.has.inv.files, _, h₂.thread.1, ?_⟩
  refine @wpM_findfreeLoop P p E call H key old size _ _ keylen datlen _ ?_ ?_ _ [] loopFuel _ w₂ h₂
    rfl h₂.length_lt ⟨⟨hh.nhash, hh.hashoff⟩, hh.chainoff⟩
  · intro save db' w' h' hh'
    dsimp only
    rw [wpM_ite, if_pos rfl]
    simp only [wpM_pure, wpM_bind]
    refine wpM_unlockFree h' rfl fun w₃ h₃ => ?_
    exact hnone db' w₃ h₃ hh'
  · intro f₁ o it f₂ db' w' h' hf
    have hne : ¬ (o : Int) = 0 := by
      have ho := h'.thread.2.ne_nil _ (mem_of_split hf.split)
      intro he
      exact ho (Int.ofNat_eq_zero.mp he)
    dsimp only
    rw [wpM_ite, if_neg hne]
    have hval : db'.ptrval = it.ptr := hf.loaded.ptrval
    have htake : wpM (rules E call) p (do
        dbWriteptr ((endSlot .free f₁).off : Nat) it.ptr
        unLock .idxfd FREE_OFF 1
        pure 0) Q H db' w' :=
      wpM_takeFree hcall h' hf fun db₂ w₂ ht => hfound o it db₂ w₂ ht
    simpa only [wpM_bind, wpM_get, wpM_pure, hval] using htake

end LearningNotes.Db
