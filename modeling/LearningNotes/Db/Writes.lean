import LearningNotes.Db.Steps

/-!
# The writes of `db.c`

What each write does to the world, ghost part included, when it may happen, and that it
keeps the invariant and the promises:

- `World.linkRec`: `_db_writeptr` to a hash chain head puts the record in the hand in
  front of the chain;
- `World.takeFree`: `_db_writeptr` in `_db_findfree` takes a record off the free list;
- `World.unlink`, `World.freeRec`, `World.relink`: the three index writes of
  `_db_dodelete`. The first one blanks the record, which is still reached from its
  predecessor but leads to the free list from then on; the second makes it the head of
  the free list; the third lets the predecessor point behind it;
- `World.addBlock`, `World.addRec`: `_db_writedat` and `_db_writeidx` at the end of the
  files.

The writes over a record or over data in place are `World.edit`, see `Inv.edit`.
-/

namespace LearningNotes.Db

open Function (update update_self update_of_ne)

variable {P : List Byte → Prop} {p : Pid} {call : Call} {op : Op} {w : World}
  {ℓ m m' : Place} {sl : Slot} {a v h o : Nat} {it it' : Item}
  {c c₁ c₂ m₁ m₂ : List Cell} {k : List Byte} {d : CString} {moved : Pid → Bool}

/-! ## A pointer is set and a cell moves -/

/-- The item stands in front of the place it is moved to. -/
theorem cells_move_to : (w.move m m₁ o it m₂ m').cells m' = (o, it) :: w.cells m' := update_self ..

/-- The place it comes from has lost it. -/
theorem cells_move_from (hne : m ≠ m') : (w.move m m₁ o it m₂ m').cells m = m₁ ++ m₂ :=
  (update_of_ne hne ..).trans (update_self ..)

theorem cells_move_ne {ℓ' : Place} (h₁ : ℓ' ≠ m) (h₂ : ℓ' ≠ m') :
    (w.move m m₁ o it m₂ m').cells ℓ' = w.cells ℓ' :=
  (update_of_ne h₂ ..).trans (update_of_ne h₁ ..)

/-- Set a pointer of list `ℓ`; the cell at `o` moves from list `m` to the head of `m'`. -/
def World.shift (w : World) (ℓ : Place) (sl : Slot) (c₁ : List Cell) (v : Nat) (c₂ : List Cell)
    (m : Place) (m₁ : List Cell) (o : Nat) (it : Item) (m₂ : List Cell) (m' : Place)
    (moved : Pid → Bool) : World :=
  (w.redirect ℓ sl c₁ v c₂).relist
    ((w.redirect ℓ sl c₁ v c₂).move m m₁ o it m₂ m').cells
    ((w.redirect ℓ sl c₁ v c₂).move m m₁ o it m₂ m').own w.gap moved

theorem cells_shift_to : (w.shift ℓ sl c₁ v c₂ m m₁ o it m₂ m' moved).cells m' =
    (o, it) :: (w.redirect ℓ sl c₁ v c₂).cells m' := cells_move_to

theorem cells_shift_from (hne : m ≠ m') :
    (w.shift ℓ sl c₁ v c₂ m m₁ o it m₂ m' moved).cells m = m₁ ++ m₂ := cells_move_from hne

theorem cells_shift_ne {ℓ' : Place} (h₁ : ℓ' ≠ m) (h₂ : ℓ' ≠ m') :
    (w.shift ℓ sl c₁ v c₂ m m₁ o it m₂ m' moved).cells ℓ' = (w.redirect ℓ sl c₁ v c₂).cells ℓ' :=
  cells_move_ne h₁ h₂

/-- A pointer is set and an item is moved: every item still has its place once. -/
theorem Settable.placed_shift (hs : Settable P p w ℓ sl a c₁ v c₂)
    (hm : (w.redirect ℓ sl c₁ v c₂).cells m = m₁ ++ (o, it) :: m₂) (hne : m' ≠ m) :
    Placed (w.shift ℓ sl c₁ v c₂ m m₁ o it m₂ m' moved) := by
  have hp := hs.placed.move hm hne
  exact ⟨hp.store, hp.own, hp.once, hp.total, hp.len, hp.named, hp.pend, hp.cover⟩

/-- A process that has no chain open leaves the open ones alone. -/
theorem Calm.gap_of (hc : Calm p w) {g : Gap} (hg : w.gap h = some g) :
    w.gap h = some g ∧ ¬ w.Owns p (.chain h) := by
  refine ⟨hg, fun ho => ?_⟩
  rw [hc h ho] at hg
  exact absurd hg (by simp)

/-! ### Into a chain -/

/-- The record in the hand becomes the head of chain `h`. -/
def World.linkRec (w : World) (p : Pid) (h : Nat) (o : Nat) (it : Item) (c : List Cell) : World :=
  w.shift (.chain h) (.chain h) [] o c (.hand p) [] o it [] (.chain h) (update w.moved p true)

/-- When the record in the hand may be linked. -/
structure Linkable (P : List Byte → Prop) (p : Pid) (w : World) (h o : Nat) (it : Item)
    (c : List Cell) : Prop where
  inv : Inv P w
  lt : h < NHASH_DEF
  cells : w.cells (.chain h) = c
  owns : w.Owns p (.chain h)
  calm : Calm p w
  hand : w.cells (.hand p) = [(o, it)]
  get : w.x.get (.chain h) = some it.ptr
  le : o ≤ PTR_MAX
  hash : dbHash NHASH_DEF it.key = h
  fresh : it.key ∉ c.map (·.2.key)
  legal : P it.key
  clean : ∀ e ∈ c, SEP ∉ e.2.key

/-- No record is at offset 0. -/
theorem recAt_pos {r : Rec} (hr : w.x.recAt o = some r) : o ≠ 0 := by
  have h := (entryAt_le Rec.size_pos hr).1
  intro ho
  rw [ho] at h
  exact absurd h (by decide)

theorem cells_linkRec_chain : (w.linkRec p h o it c).cells (.chain h) = (o, it) :: c := by
  refine cells_shift_to.trans ?_
  rw [cells_redirect_self, relast_nil, List.nil_append]

theorem cells_linkRec_hand : (w.linkRec p h o it c).cells (.hand p) = [] :=
  cells_shift_from (by simp)

section Link

variable (hl : Linkable P p w h o it c)

include hl

/-- The pointer to the head of the chain can be set to the new record. -/
theorem Linkable.settable : Settable P p w (.chain h) (.chain h) it.ptr [] o c :=
  ⟨hl.inv, hl.cells, hl.owns, trivial, hl.get, hl.le⟩

/-- What others own is not touched. -/
theorem Linkable.cells_ne {ℓ' : Place} (hn : ¬ w.Owns p ℓ') :
    (w.linkRec p h o it c).cells ℓ' = w.cells ℓ' := by
  have h₁ : ℓ' ≠ .hand p := fun he => hn (he ▸ rfl)
  have h₂ : ℓ' ≠ .chain h := fun he => hn (he ▸ hl.owns)
  exact (cells_shift_ne h₁ h₂).trans (cells_redirect_ne h₂)

/-- The record is the first one of its chain. -/
theorem Linkable.lists : Lists P (w.linkRec p h o it c) := by
  have hs := hl.settable
  have hold := hl.inv.lists.chain h hl.lt
  refine hl.inv.lists.write (Or.inl ⟨?_, hs.get_other trivial (by simp)⟩) ?_ ?_
  · exact (cells_shift_ne (by simp) (by simp)).trans (cells_redirect_ne (by simp))
  · intro i hi
    by_cases hih : i = h
    · subst hih
      refine Or.inr ?_
      rw [cells_linkRec_chain]
      have hgap := hl.calm i hl.owns
      have hthread := hold.thread
      rw [hgap, hl.get, hl.cells] at hthread
      obtain ⟨b, hb, hseg⟩ := hthread
      cases hb
      -- the record is put in front of what the head has led to
      have hkeys := hold.keys
      have hmem : (o, it) ∈ w.cells (.hand p) := by rw [hl.hand]; exact List.mem_cons_self ..
      rw [hl.cells] at hkeys
      refine ⟨?_, ?_, ?_, ?_, ?_⟩
      · show Threaded _ _ (w.gap i)
        rw [hgap]
        exact ⟨o, hs.get_self, rfl, recAt_pos (hl.inv.placed.recAt hmem), hseg⟩
      · intro e he
        rcases List.mem_cons.mp he with rfl | he
        · exact hl.hash
        · exact hold.hash e (hl.cells ▸ he)
      · rw [List.map_cons, List.nodup_cons]
        exact ⟨hl.fresh, hkeys⟩
      · intro e he
        rcases List.mem_cons.mp he with rfl | he
        · exact hl.legal
        · exact hold.legal e (hl.cells ▸ he)
      · exact hl.clean
    · have hne : (Place.chain i) ≠ .chain h := fun he => hih (by cases he; rfl)
      refine Or.inl ⟨⟨?_, hs.get_other trivial fun he => hih (by cases he; rfl)⟩, rfl⟩
      exact (cells_shift_ne (by simp) hne).trans (cells_redirect_ne hne)
  · intro i hi
    have hne : (Place.chain i) ≠ .chain h := by
      intro he
      have hlt := hl.lt
      cases he
      omega
    exact (cells_shift_ne (by simp) hne).trans (cells_redirect_ne hne)

/-- To link a record keeps the invariant. -/
theorem Inv.linkRec : Inv P (w.linkRec p h o it c) := by
  have hs := hl.settable
  refine Inv.pointer hs ?_ hl.lists (fun ℓ' hn => hl.cells_ne hn) ?_
  · refine hs.placed_shift ?_ (by simp)
    rw [cells_redirect_ne (by simp), hl.hand]
    rfl
  · intro i g hg
    exact Or.inl (hl.calm.gap_of hg)

/-- The other keys of the chain keep their data. -/
theorem Turn.linkRec (hk : call.key? = some it.key) (hop : op.SetsPtr) :
    Turn p call op w (w.linkRec p h o it c) where
  rest := by
    intro key hkey hsep k hne
    have hsame : it.key = key := Option.some.inj (hk.symm.trans hkey)
    have hch : World.chainOf key = .chain h := congrArg Place.chain (hsame ▸ hl.hash)
    rw [hch, cells_linkRec_chain, hl.cells,
      walk_cons_ne (fun he => hne (he.symm.trans hsame)) (hsame ▸ hsep)]
  sets := fun _ => Or.inr hop
  order := fun _ _ hno => absurd ((update_self ..).symm.trans hno) (by simp)
  shut := by
    intro key hkey _
    have hsame : it.key = key := Option.some.inj (hk.symm.trans hkey)
    have hhash : dbHash NHASH_DEF key = h := hsame ▸ hl.hash
    exact Or.inl (hhash ▸ hl.calm h hl.owns)

/-- The step is one that the other processes rely on. -/
theorem Guar.linkRec (hcall : ¬ call.Reads) (hk : call.key? = some it.key) (hop : op.SetsPtr) :
    Guar P p call op w (w.linkRec p h o it c) := by
  refine Guar.pointer hl.settable hcall (Inv.linkRec hl) (fun ℓ' hn => hl.cells_ne hn)
    (fun _ _ => rfl) ?_ (fun _ hq => update_of_ne hq ..) (Turn.linkRec hl hk hop)
  intro i hi
  have hne : Place.chain i ≠ .chain h := fun he => hi _ hk (by cases he; exact hl.hash)
  exact (cells_shift_ne (by simp) hne).trans (cells_redirect_ne hne)

end Link

/-! ### Off the free list -/

/-- The record at `o` leaves the free list for the hand of `p`. -/
def World.takeFree (w : World) (p : Pid) (c₁ : List Cell) (o : Nat) (it : Item)
    (c₂ : List Cell) : World :=
  w.shift .free .free c₁ it.ptr ((o, it) :: c₂) .free (relast Item.setPtr c₁ it.ptr) o it c₂
    (.hand p) w.moved

/-- When a record may be taken off the free list. -/
structure Takeable (P : List Byte → Prop) (p : Pid) (w : World) (c₁ : List Cell) (o : Nat)
    (it : Item) (c₂ : List Cell) : Prop where
  inv : Inv P w
  cells : w.cells .free = c₁ ++ (o, it) :: c₂
  owns : w.Owns p .free
  calm : Calm p w

theorem cells_takeFree_hand : (w.takeFree p c₁ o it c₂).cells (.hand p) =
    (o, it) :: w.cells (.hand p) := by
  refine cells_shift_to.trans ?_
  rw [cells_redirect_ne (by simp)]

theorem cells_takeFree_free : (w.takeFree p c₁ o it c₂).cells .free =
    relast Item.setPtr c₁ it.ptr ++ c₂ := cells_shift_from (by simp)

theorem cells_takeFree_chain : (w.takeFree p c₁ o it c₂).cells (.chain h) = w.cells (.chain h) :=
  (cells_shift_ne (by simp) (by simp)).trans (cells_redirect_ne (by simp))

section Take

variable (ht : Takeable P p w c₁ o it c₂)

include ht

/-- The next free record can be pointed at. -/
theorem Takeable.le : it.ptr ≤ PTR_MAX :=
  (ht.inv.files.ok.recAt (ht.inv.placed.recAt (mem_of_split ht.cells))).ptr

/-- The pointer in front of the record, on the free list, can be set to the next one. -/
theorem Takeable.settable :
    ∃ a, Settable P p w .free .free a c₁ it.ptr ((o, it) :: c₂) ∧
      Seg 0 link a (c₁ ++ (o, it) :: c₂) 0 := by
  obtain ⟨a, ha, hseg⟩ := ht.inv.lists.free.thread
  rw [ht.cells] at hseg
  exact ⟨a, ⟨ht.inv, ht.cells, ht.owns, trivial, ha, ht.le⟩, hseg⟩

/-- What others own is not touched. -/
theorem Takeable.cells_ne {ℓ' : Place} (hn : ¬ w.Owns p ℓ') :
    (w.takeFree p c₁ o it c₂).cells ℓ' = w.cells ℓ' := by
  have h₁ : ℓ' ≠ .hand p := fun he => hn (he ▸ rfl)
  have h₂ : ℓ' ≠ .free := fun he => hn (he ▸ ht.owns)
  exact (cells_shift_ne h₂ h₁).trans (cells_redirect_ne h₂)

/-- The free list goes on behind the record. -/
theorem Takeable.lists : Lists P (w.takeFree p c₁ o it c₂) := by
  obtain ⟨a, hs, hseg⟩ := ht.settable
  obtain ⟨b, hseg₁, -, -, hseg₂⟩ := seg_append.mp hseg
  refine ht.inv.lists.write (Or.inr ⟨?_, ?_⟩) ?_ ?_
  · rw [cells_takeFree_free]
    exact ⟨_, hs.get_self, seg_append.mpr ⟨_, hseg₁.relast (fun _ _ => rfl), hseg₂⟩⟩
  · -- the records that stay are the old ones, but for a pointer
    intro e he
    rw [cells_takeFree_free] at he
    have hkeys : e.2.key ∈ (w.cells .free).map (·.2.key) := by
      have hmem : e.2.key ∈ (relast Item.setPtr c₁ it.ptr ++ c₂).map (·.2.key) :=
        List.mem_map.mpr ⟨e, he, rfl⟩
      rw [List.map_append, map_key_relast] at hmem
      rw [ht.cells, List.map_append, List.map_cons]
      simp only [List.mem_append, List.mem_cons] at hmem ⊢
      exact hmem.imp_right Or.inr
    obtain ⟨e₀, he₀, hk⟩ := List.mem_map.mp hkeys
    exact hk ▸ ht.inv.lists.free.blank e₀ he₀
  · intro i _
    exact Or.inl ⟨⟨cells_takeFree_chain, hs.get_other trivial (by simp)⟩, rfl⟩
  · intro i _
    exact cells_takeFree_chain

/-- To take a record off the free list keeps the invariant. -/
theorem Inv.takeFree : Inv P (w.takeFree p c₁ o it c₂) := by
  obtain ⟨a, hs, -⟩ := ht.settable
  exact Inv.pointer hs (hs.placed_shift cells_redirect_self (by simp)) ht.lists
    (fun ℓ' hn => ht.cells_ne hn) (fun i g hg => Or.inl (ht.calm.gap_of hg))

/-- The step is one that the other processes rely on. -/
theorem Guar.takeFree (hcall : ¬ call.Reads) : Guar P p call op w (w.takeFree p c₁ o it c₂) := by
  obtain ⟨a, hs, -⟩ := ht.settable
  exact Guar.pointer hs hcall (Inv.takeFree ht) (fun ℓ' hn => ht.cells_ne hn) (fun _ _ => rfl)
    (fun _ _ => cells_takeFree_chain) (fun _ _ => rfl)
    (.same rfl fun _ _ => ⟨cells_takeFree_chain, rfl⟩)

end Take

/-! ### Onto the free list -/

/-- The record in the hand becomes the head of the free list `c`. -/
def World.freeRec (w : World) (p : Pid) (o : Nat) (it : Item) (c : List Cell) : World :=
  w.shift .free .free [] o c (.hand p) [] o it [] .free w.moved

/-- When the record in the hand may become free: it has been cut out of chain `h`. -/
structure Freeable (P : List Byte → Prop) (p : Pid) (w : World) (h o : Nat) (it : Item) (g : Gap)
    (c : List Cell) : Prop where
  inv : Inv P w
  cells : w.cells .free = c
  owns : w.Owns p .free
  ownsChain : w.Owns p (.chain h)
  calm : ∀ i, i ≠ h → w.Owns p (.chain i) → w.gap i = none
  gap : w.gap h = some g
  stray : g.stray = (o, it) :: c
  hand : w.cells (.hand p) = [(o, it)]
  get : w.x.get .free = some it.ptr
  le : o ≤ PTR_MAX
  blank : Blank it.key

theorem cells_freeRec_free : (w.freeRec p o it c).cells .free = (o, it) :: c := by
  refine cells_shift_to.trans ?_
  rw [cells_redirect_self, relast_nil, List.nil_append]

theorem cells_freeRec_hand : (w.freeRec p o it c).cells (.hand p) = [] :=
  cells_shift_from (by simp)

theorem cells_freeRec_chain : (w.freeRec p o it c).cells (.chain h) = w.cells (.chain h) :=
  (cells_shift_ne (by simp) (by simp)).trans (cells_redirect_ne (by simp))

section Free

variable {g : Gap} (hf : Freeable P p w h o it g c)

include hf

/-- The pointer to the head of the free list can be set to the record. -/
theorem Freeable.settable : Settable P p w .free .free it.ptr [] o c :=
  ⟨hf.inv, hf.cells, hf.owns, trivial, hf.get, hf.le⟩

theorem Freeable.cells_ne {ℓ' : Place} (hn : ¬ w.Owns p ℓ') :
    (w.freeRec p o it c).cells ℓ' = w.cells ℓ' := by
  have h₁ : ℓ' ≠ .hand p := fun he => hn (he ▸ rfl)
  have h₂ : ℓ' ≠ .free := fun he => hn (he ▸ hf.owns)
  exact (cells_shift_ne h₁ h₂).trans (cells_redirect_ne h₂)

/-- The record is the first one of the free list. -/
theorem Freeable.lists : Lists P (w.freeRec p o it c) := by
  have hs := hf.settable
  have hmem : (o, it) ∈ w.cells (.hand p) := by rw [hf.hand]; exact List.mem_cons_self ..
  have hold := hf.inv.lists.free
  refine hf.inv.lists.write (Or.inr ?_) ?_ ?_
  · obtain ⟨b, hb, hseg⟩ := hold.thread
    rw [hf.get] at hb
    cases hb
    rw [hf.cells] at hseg
    rw [cells_freeRec_free]
    refine ⟨⟨o, hs.get_self, rfl, recAt_pos (hf.inv.placed.recAt hmem), hseg⟩, ?_⟩
    intro e he
    rcases List.mem_cons.mp he with rfl | he
    · exact hf.blank
    · exact hold.blank e (hf.cells ▸ he)
  · intro i _
    exact Or.inl ⟨⟨cells_freeRec_chain, hs.get_other trivial (by simp)⟩, rfl⟩
  · intro i _
    exact cells_freeRec_chain

/-- To put a record on the free list keeps the invariant. -/
theorem Inv.freeRec : Inv P (w.freeRec p o it c) := by
  have hs := hf.settable
  refine Inv.pointer hs ?_ hf.lists (fun ℓ' hn => hf.cells_ne hn) ?_
  · refine hs.placed_shift ?_ (by simp)
    rw [cells_redirect_ne (by simp), hf.hand]
    rfl
  · -- the open chain now strays into the free list
    intro i g' hg
    by_cases hi : i = h
    · subst hi
      rw [hf.gap] at hg
      cases hg
      refine Or.inr ⟨hf.ownsChain, hf.owns, Or.inl ?_⟩
      exact hf.stray.trans cells_freeRec_free.symm
    · refine Or.inl ⟨hg, fun ho => ?_⟩
      rw [hf.calm i hi ho] at hg
      exact absurd hg (by simp)

/-- The step is one that the other processes rely on. -/
theorem Guar.freeRec (hcall : ¬ call.Reads) : Guar P p call op w (w.freeRec p o it c) := by
  exact Guar.pointer hf.settable hcall (Inv.freeRec hf) (fun ℓ' hn => hf.cells_ne hn)
    (fun _ _ => rfl) (fun _ _ => cells_freeRec_chain) (fun _ _ => rfl)
    (.same rfl fun _ _ => ⟨cells_freeRec_chain, rfl⟩)

end Free

/-! ### Out of a chain -/

/-- The record at `o` is overwritten by `it'`, a deleted record that leads to the free list.
The cells in front of it still lead to it, the rest of chain `h` starts at `src`. -/
def World.unlink (w : World) (p : Pid) (h : Nat) (c₁ : List Cell) (o : Nat) (it' : Item)
    (c₂ : List Cell) (src : Nat) : World :=
  { (w.edit (.chain h) c₁ o it' c₂).move (.chain h) c₁ o it' c₂ (.hand p) with
    gap := update w.gap h (some ⟨c₁, o, src, c₂, (o, it') :: w.cells .free⟩)
    wiped := none }

/-- When a record may be unlinked. -/
structure Unlinkable (P : List Byte → Prop) (p : Pid) (w : World) (h : Nat) (c₁ : List Cell)
    (o : Nat) (it it' : Item) (c₂ : List Cell) : Prop where
  inv : Inv P w
  lt : h < NHASH_DEF
  cells : w.cells (.chain h) = c₁ ++ (o, it) :: c₂
  owns : w.Owns p (.chain h)
  ownsFree : w.Owns p .free
  calm : Calm p w
  fits : it.Fits it'
  blank : Blank it'.key
  get : w.x.get .free = some it'.ptr
  wiped : w.wiped = none ∨ w.wiped = some o
  le : o ≤ PTR_MAX
  moved : w.moved p = false

theorem cells_unlink_hand : (w.unlink p h c₁ o it' c₂ v).cells (.hand p) =
    (o, it') :: w.cells (.hand p) := by
  refine cells_move_to.trans ?_
  rw [cells_edit_ne (by simp)]

theorem cells_unlink_chain : (w.unlink p h c₁ o it' c₂ v).cells (.chain h) = c₁ ++ c₂ := by
  have hne : Place.chain h ≠ .hand p := by simp
  exact @cells_move_from (w.edit (.chain h) c₁ o it' c₂) _ _ o it' c₁ c₂ hne

theorem cells_unlink_ne (h₁ : ℓ ≠ .chain h) (h₂ : ℓ ≠ .hand p) :
    (w.unlink p h c₁ o it' c₂ v).cells ℓ = w.cells ℓ :=
  (cells_move_ne h₁ h₂).trans (cells_edit_ne h₁)

/-- The chain has a gap from now on, until the pointer in front of the record is set. -/
theorem gap_unlink : (w.unlink p h c₁ o it' c₂ v).gap h =
    some ⟨c₁, o, v, c₂, (o, it') :: w.cells .free⟩ := update_self ..

theorem gap_unlink_ne {i : Nat} (hi : i ≠ h) :
    (w.unlink p h c₁ o it' c₂ v).gap i = w.gap i := update_of_ne hi ..

section Unlink

variable (hu : Unlinkable P p w h c₁ o it it' c₂)

include hu

theorem Unlinkable.cells_ne {ℓ' : Place} (hn : ¬ w.Owns p ℓ') :
    (w.unlink p h c₁ o it' c₂ it.ptr).cells ℓ' = w.cells ℓ' :=
  cells_unlink_ne (fun he => hn (he ▸ hu.owns)) fun he => hn (he ▸ rfl)

/-- No head of a list is changed. -/
theorem Unlinkable.get_head (hsl : sl.IsHead) :
    (w.unlink p h c₁ o it' c₂ it.ptr).x.get sl = w.x.get sl :=
  get_edit hu.inv.placed hu.cells hu.fits hsl

/-- The chain is the same but for the record in hand. -/
theorem Unlinkable.lists : Lists P (w.unlink p h c₁ o it' c₂ it.ptr) := by
  have hw := hu.inv
  have hold := hw.lists.chain h hu.lt
  have hfree := hw.lists.free
  refine hw.lists.write (Or.inl ⟨cells_unlink_ne (by simp) (by simp), hu.get_head trivial⟩) ?_ ?_
  · intro i hi
    by_cases hih : i = h
    · subst hih
      refine Or.inr ?_
      obtain ⟨a, ha, hseg⟩ : Threaded (w.x.get (.chain i)) (c₁ ++ (o, it) :: c₂) none := by
        have hthread := hold.thread
        rw [hu.calm i hu.owns, hu.cells] at hthread
        exact hthread
      obtain ⟨b, hseg₁, hb, ho, hseg₂⟩ := seg_append.mp hseg
      subst hb
      -- what is left are the other records of the chain, in their order
      have hsub : List.Sublist (c₁ ++ c₂) (w.cells (.chain i)) := by
        rw [hu.cells]
        exact (List.sublist_cons_self _ _).append_left c₁
      rw [cells_unlink_chain, gap_unlink]
      refine ⟨⟨rfl, hseg₂, ?_, ?_, a, ?_, hseg₁⟩, ?_, ?_, ?_, ?_⟩
      · -- the deleted record leads to the free list
        obtain ⟨f, hf, hfseg⟩ := hfree.thread
        rw [hu.get] at hf
        cases hf
        exact ⟨rfl, ho, hfseg⟩
      · intro e he
        rcases List.mem_cons.mp he with rfl | he
        · exact hu.blank
        · exact hfree.blank e he
      · have hhead : Slot.IsHead (.chain i) := trivial
        exact (hu.get_head hhead).trans ha
      · intro e he
        exact hold.hash e (hsub.subset he)
      · exact (hsub.map _).nodup hold.keys
      · intro e he
        exact hold.legal e (hsub.subset he)
      · intro e he
        exact hold.clean e (hsub.tail.subset he)
    · have hne : Place.chain i ≠ .chain h := fun he => hih (by cases he; rfl)
      exact Or.inl ⟨⟨cells_unlink_ne hne (by simp), hu.get_head trivial⟩, gap_unlink_ne hih⟩
  · intro i hi
    refine cells_unlink_ne (fun he => ?_) (by simp)
    have hlt := hu.lt
    cases he
    omega

/-- To blank a record keeps the invariant. -/
theorem Inv.unlink : Inv P (w.unlink p h c₁ o it' c₂ it.ptr) := by
  have hw := hu.inv
  have hp := hw.placed
  have hf := hw.files.edit hp hu.cells hu.fits
  have hpl := (hp.edit hu.cells hu.fits (hp.len _ _ (mem_of_split hu.cells))).move
    (show _ = c₁ ++ (o, it') :: c₂ from cells_edit_self) (show Place.hand p ≠ .chain h by simp)
  refine hw.write p ⟨hf.idx, hf.ok, hf.dat⟩ ?_ hu.lists rfl rfl rfl (fun ℓ' hn => hu.cells_ne hn)
    ?_ (Or.inr hu.ownsFree) ?_ ?_
  · exact ⟨hpl.store, hpl.own, hpl.once, hpl.total, hpl.len, hpl.named, hpl.pend, hpl.cover⟩
  · intro i g hg
    by_cases hi : i = h
    · subst hi
      -- the new gap: the chain is cut where the record was, and `p` has it and the free list
      rw [gap_unlink] at hg
      cases hg
      refine Or.inr ⟨hu.owns, hu.ownsFree, Or.inr ⟨(o, it'), ?_, ?_⟩⟩
      · rw [cells_unlink_hand]
        exact List.mem_cons_self ..
      · rw [cells_unlink_ne (by simp) (by simp)]
    · rw [gap_unlink_ne hi] at hg
      exact Or.inl (hu.calm.gap_of hg)
  · intro o' r hr
    change (w.edit (.chain h) c₁ o it' c₂).x.recAt o' = some r at hr
    rw [recAt_edit hp hu.cells hu.fits] at hr
    by_cases ho : o' = o
    · rw [if_pos ho] at hr
      cases hr
      exact Or.inr (Or.inr ⟨hu.blank, ho ▸ hu.le⟩)
    · rw [if_neg ho] at hr
      exact Or.inl ⟨r, hr, rfl⟩
  · intro o' it₁ hit hk
    change (w.edit (.chain h) c₁ o it' c₂).item o' = some it₁ at hit
    rw [item_edit hp hu.cells hu.fits] at hit
    by_cases ho : o' = o
    · rw [if_pos ho] at hit
      cases hit
      exact absurd hu.blank hk
    · rw [if_neg ho] at hit
      rcases hw.wrote o' it₁ hit hk with hwr | hwi
      · exact Or.inl hwr
      · rcases hu.wiped with hnone | hsome
        · rw [hnone] at hwi
          exact absurd hwi (by simp)
        · rw [hsome] at hwi
          cases hwi
          exact absurd rfl ho

/-- The other keys of the chain keep their data. -/
theorem Turn.unlink (hk : call.key? = some it.key) :
    Turn p call op w (w.unlink p h c₁ o it' c₂ it.ptr) := by
  have hmem := mem_of_split hu.cells
  have hhash : dbHash NHASH_DEF it.key = h := (hu.inv.lists.chain h hu.lt).hash _ hmem
  have hown : ∀ key, call.key? = some key → it.key = key ∧ dbHash NHASH_DEF key = h := by
    intro key hkey
    have hsame : it.key = key := Option.some.inj (hk.symm.trans hkey)
    exact ⟨hsame, hsame ▸ hhash⟩
  refine ⟨?_, Or.inl, ?_, ?_⟩
  · intro key hkey hsep k hne
    obtain ⟨hsame, hh⟩ := hown key hkey
    have hch : World.chainOf key = .chain h := congrArg Place.chain hh
    rw [hch, cells_unlink_chain, hu.cells,
      walk_middle (fun he => hne (he.symm.trans hsame)) (hsame ▸ hsep)]
  · -- the record is between the front and the back of the gap, where it was
    intro key hkey hno
    obtain ⟨hsame, hh⟩ := hown key hkey
    refine ⟨hno, ?_⟩
    unfold World.order
    rw [hh, gap_unlink, hu.calm h hu.owns]
    show c₁.map label ++ (o, key) :: c₂.map label = (w.cells (World.chainOf key)).map label
    rw [World.chainOf, hh, hu.cells, List.map_append, List.map_cons, label, hsame]
  · intro _ _ hm
    exact absurd (hm.symm.trans hu.moved) (by simp)

/-- The step is one that the other processes rely on. -/
theorem Guar.unlink (hcall : ¬ call.Reads) (hk : call.key? = some it.key) :
    Guar P p call op w (w.unlink p h c₁ o it' c₂ it.ptr) := by
  have hw := hu.inv
  have hp := hw.placed
  have hmem := mem_of_split hu.cells
  have hhash : dbHash NHASH_DEF it.key = h := (hw.lists.chain h hu.lt).hash _ hmem
  refine Guar.write hcall (Inv.unlink hu) rfl rfl rfl rfl (fun _ _ => rfl) (Turn.unlink hu hk)
    (fun ℓ' hn => hu.cells_ne hn) ?_ (fun _ _ => rfl)
    (fun _ => Index.size_setRec (hp.recAt hmem) hu.fits.size) (fun _ => ?_) ?_
    (fun _ _ => id) (Or.inr hu.ownsFree) (fun _ _ => Or.inl) ?_
  · intro i hi
    refine gap_unlink_ne fun hih => ?_
    rcases hi with hno | hkey
    · exact hno (hih ▸ hu.owns)
    · exact hkey _ hk (hhash.trans hih.symm)
  · show (datBytes (setBlock w.y it'.datoff it'.data)).length = _
    rw [hw.files.dat, hu.fits.datoff]
    exact length_setBlock (hp.block hmem) hu.fits.data
  · intro o' r hr
    show ∃ r', (w.edit (.chain h) c₁ o it' c₂).x.recAt o' = some r' ∧ _
    rw [recAt_edit hp hu.cells hu.fits]
    by_cases ho : o' = o
    · rw [if_pos ho]
      rw [ho, hp.recAt hmem] at hr
      cases hr
      exact ⟨_, rfl, hu.fits.same, Or.inr (Or.inr hu.ownsFree)⟩
    · rw [if_neg ho]
      exact ⟨r, hr, .refl r, Or.inr (Or.inl rfl)⟩
  · intro i hi
    refine cells_unlink_ne (fun he => hi _ hk ?_) (by simp)
    cases he
    exact hhash

end Unlink

/-- The cells in front of the gap of chain `h` lead to the cells behind it again. -/
def World.relink (w : World) (p : Pid) (h : Nat) (c₁ : List Cell) (src : Nat) (c₂ : List Cell) :
    World :=
  (w.redirect (.chain h) (.chain h) c₁ src c₂).relist
    (w.redirect (.chain h) (.chain h) c₁ src c₂).cells w.own (update w.gap h none)
    (update w.moved p true)

/-- When a chain may be closed. -/
structure Relinkable (P : List Byte → Prop) (p : Pid) (w : World) (h : Nat) (g : Gap) : Prop where
  inv : Inv P w
  lt : h < NHASH_DEF
  owns : w.Owns p (.chain h)
  gap : w.gap h = some g
  calm : ∀ i, i ≠ h → w.Owns p (.chain i) → w.gap i = none
  le : g.src ≤ PTR_MAX

theorem cells_relink_chain : (w.relink p h c₁ v c₂).cells (.chain h) =
    relast Item.setPtr c₁ v ++ c₂ := update_self ..

theorem cells_relink_ne (hne : ℓ ≠ .chain h) : (w.relink p h c₁ v c₂).cells ℓ = w.cells ℓ :=
  update_of_ne hne ..

/-- The gap is closed. -/
theorem gap_relink : (w.relink p h c₁ v c₂).gap h = none := update_self ..

theorem gap_relink_ne {i : Nat} (hi : i ≠ h) : (w.relink p h c₁ v c₂).gap i = w.gap i :=
  update_of_ne hi ..

section Relink

variable {g : Gap} (hr : Relinkable P p w h g)

include hr

/-- The pointer in front of the gap can be set to what is behind it. -/
theorem Relinkable.settable : ∃ a, Settable P p w (.chain h) (.chain h) a g.front g.src g.back ∧
    Seg 0 link a g.front g.dst ∧ Seg 0 link g.src g.back 0 := by
  have hthread := (hr.inv.lists.chain h hr.lt).thread
  rw [hr.gap] at hthread
  obtain ⟨hc, hback, -, -, a, ha, hfront⟩ := hthread
  exact ⟨a, ⟨hr.inv, hc, hr.owns, trivial, ha, hr.le⟩, hfront, hback⟩

/-- The chain goes on behind the gap. -/
theorem Relinkable.lists : Lists P (w.relink p h g.front g.src g.back) := by
  obtain ⟨a, hs, hfront, hback⟩ := hr.settable
  refine hr.inv.lists.write (Or.inl ⟨cells_relink_ne (by simp), hs.get_other trivial (by simp)⟩)
    ?_ ?_
  · intro i hi
    by_cases hih : i = h
    · subst hih
      refine Or.inr ((hr.inv.lists.chain i hr.lt).of_keys ?_ ?_)
      · rw [cells_relink_chain, hs.cells, List.map_append, map_key_relast, List.map_append]
      · rw [cells_relink_chain, gap_relink]
        exact ⟨_, hs.get_self, seg_append.mpr ⟨_, hfront.relast (fun _ _ => rfl), hback⟩⟩
    · have hne : Place.chain i ≠ .chain h := fun he => hih (by cases he; rfl)
      refine Or.inl ⟨⟨cells_relink_ne hne, hs.get_other trivial ?_⟩, gap_relink_ne hih⟩
      intro he
      exact hih (by cases he; rfl)
  · intro i hi
    refine cells_relink_ne fun he => ?_
    have hlt := hr.lt
    cases he
    omega

theorem Relinkable.cells_ne {ℓ' : Place} (hn : ¬ w.Owns p ℓ') :
    (w.relink p h g.front g.src g.back).cells ℓ' = w.cells ℓ' :=
  cells_relink_ne fun he => hn (he ▸ hr.owns)

/-- To close a gap keeps the invariant. -/
theorem Inv.relink : Inv P (w.relink p h g.front g.src g.back) := by
  obtain ⟨a, hs, -⟩ := hr.settable
  refine Inv.pointer hs ?_ hr.lists (fun ℓ' hn => hr.cells_ne hn) ?_
  · have hp := hs.placed
    exact ⟨hp.store, hp.own, hp.once, hp.total, hp.len, hp.named, hp.pend, hp.cover⟩
  · intro i g' hg
    by_cases hi : i = h
    · subst hi
      rw [update_self] at hg
      exact absurd hg (by simp)
    · rw [update_of_ne hi] at hg
      refine Or.inl ⟨hg, fun ho => ?_⟩
      rw [hr.calm i hi ho] at hg
      exact absurd hg (by simp)

theorem Turn.relink (hk : ∃ k, call.key? = some k ∧ dbHash NHASH_DEF k = h) (hop : op.SetsPtr) :
    Turn p call op w (w.relink p h g.front g.src g.back) := by
  obtain ⟨a, hs, -⟩ := hr.settable
  obtain ⟨k₀, hk₀, hhash⟩ := hk
  have hown : ∀ key, call.key? = some key → dbHash NHASH_DEF key = h := by
    intro key hkey
    have hsame : k₀ = key := Option.some.inj (hk₀.symm.trans hkey)
    exact hsame ▸ hhash
  refine ⟨?_, fun _ => Or.inr hop, ?_, ?_⟩
  · intro key hkey _ k _
    have hch : World.chainOf key = .chain h := congrArg Place.chain (hown key hkey)
    rw [hch, cells_relink_chain, walk_relast, hs.cells]
  · intro _ _ hno
    exact absurd ((update_self ..).symm.trans hno) (by simp)
  · intro key hkey _
    rw [hown key hkey]
    exact Or.inl gap_relink

/-- The step is one that the other processes rely on. -/
theorem Guar.relink (hcall : ¬ call.Reads) (hk : ∃ k, call.key? = some k ∧ dbHash NHASH_DEF k = h)
    (hop : op.SetsPtr) : Guar P p call op w (w.relink p h g.front g.src g.back) := by
  have hturn := @Turn.relink P p call op w h g hr hk hop
  obtain ⟨a, hs, -⟩ := hr.settable
  obtain ⟨k₀, hk₀, hhash⟩ := hk
  refine Guar.pointer hs hcall (Inv.relink hr) (fun ℓ' hn => hr.cells_ne hn) ?_ ?_
    (fun _ hq => update_of_ne hq ..) hturn
  · intro i hi
    refine update_of_ne (fun hih => ?_) ..
    rcases hi with hno | hne
    · exact hno (hih ▸ hr.owns)
    · exact hne k₀ hk₀ (hhash.trans hih.symm)
  · intro i hi
    refine cells_redirect_ne fun he => hi k₀ hk₀ ?_
    cases he
    exact hhash

end Relink

/-! ## The files grow -/

/-- `_db_writedat` at the end of the data file. -/
theorem Inv.addBlock (hw : Inv P w) (hc : Calm p w) {wrote : List Byte → List Byte → Prop}
    (hmono : ∀ k d, w.wrote k d → wrote k d) :
    Inv P ((w.addBlock p d).note wrote w.wiped) := by
  have hp := hw.placed.addBlock (p := p) (d := d)
  refine hw.write p ⟨hw.files.idx, hw.files.ok, rfl⟩ ?_ ?_ rfl rfl rfl (fun _ _ => rfl) ?_
    (Or.inl rfl) (fun o r hr => Or.inl ⟨r, hr, rfl⟩) ?_
  · exact ⟨hp.store, hp.own, hp.once, hp.total, hp.len, hp.named, hp.pend, hp.cover⟩
  · exact ⟨hw.lists.free, hw.lists.chain, hw.lists.range⟩
  · intro i g hg
    exact Or.inl (hc.gap_of hg)
  · intro o it hit hk
    rw [show ((w.addBlock p d).note wrote w.wiped).item o = (w.addBlock p d).item o from rfl,
      item_addBlock hw.placed] at hit
    exact (hw.wrote o it hit hk).imp_left (hmono _ _)

/-- To append a data record is a step that the other processes rely on. -/
theorem Guar.addBlock {wrote : List Byte → List Byte → Prop} (hcall : ¬ call.Reads)
    (hinv : Inv P ((w.addBlock p d).note wrote w.wiped)) (ho : w.OwnsDat p)
    (hmono : ∀ k d, w.wrote k d → wrote k d)
    (hput : ∀ k d, wrote k d → w.wrote k d ∨ (op.PutsData d ∧ call.Puts k d)) :
    Guar P p call op w ((w.addBlock p d).note wrote w.wiped) :=
  Guar.write hcall hinv rfl rfl rfl rfl (fun _ _ => rfl) (.same rfl fun _ _ => ⟨rfl, rfl⟩)
    (fun _ _ => rfl) (fun _ _ => rfl) (fun _ hq => update_of_ne hq ..) (fun _ => rfl)
    (fun hn => absurd ho hn) (fun _ r hr => ⟨r, hr, .refl r, Or.inr (Or.inl rfl)⟩) hmono
    (Or.inl rfl) hput (fun _ _ => rfl)

/-- When the record for the pending block may be added. -/
structure Addable (P : List Byte → Prop) (p : Pid) (w : World) (it : Item) : Prop where
  inv : Inv P w
  calm : Calm p w
  owns : w.OwnsTail p
  pend : w.pend p = [(it.datoff, it.data)]
  ok : it.toRec.Ok
  len : it.datlen = blockSize it.data
  legal : P it.key
  wrote : w.wrote it.key it.data.val

/-- The new record is in the hand of the process. -/
theorem cells_addRec_hand : (w.addRec p it).cells (.hand p) =
    (w.x.size, it) :: w.cells (.hand p) := update_self ..

theorem cells_addRec_ne (hne : ℓ ≠ .hand p) : (w.addRec p it).cells ℓ = w.cells ℓ :=
  update_of_ne hne ..

section AddRec

variable (ha : Addable P p w it)

include ha

/-- `_db_writeidx` at the end of the index file. -/
theorem Inv.addRec : Inv P (w.addRec p it) := by
  have hw := ha.inv
  have hb : blockAt w.y it.datoff = some it.data :=
    (hw.placed.pend p (it.datoff, it.data) (by rw [ha.pend]; exact List.mem_cons_self ..)).1
  refine hw.write p (hw.files.addRec ha.ok) (hw.placed.addRec ha.pend ha.len) ?_ rfl rfl rfl
    (fun ℓ' hn => cells_addRec_ne fun he => hn (he ▸ rfl)) (fun i g hg => Or.inl (ha.calm.gap_of hg))
    (Or.inl rfl) ?_ ?_
  · refine hw.lists.write (Or.inl ⟨cells_addRec_ne (by simp), rfl⟩) ?_ ?_
    · intro i _
      exact Or.inl ⟨⟨cells_addRec_ne (by simp), rfl⟩, rfl⟩
    · intro i _
      exact cells_addRec_ne (by simp)
  · intro o r hr
    rw [recAt_addRec] at hr
    by_cases ho : o = w.x.size
    · rw [if_pos ho] at hr
      cases hr
      exact Or.inr (Or.inl ha.legal)
    · rw [if_neg ho] at hr
      exact Or.inl ⟨r, hr, rfl⟩
  · intro o it₁ hit hk
    rw [item_addRec hb] at hit
    by_cases ho : o = w.x.size
    · rw [if_pos ho] at hit
      cases hit
      exact Or.inl ha.wrote
    · rw [if_neg ho] at hit
      exact hw.wrote o it₁ hit hk

/-- To append an index record is a step that the other processes rely on. -/
theorem Guar.addRec (hcall : ¬ call.Reads) : Guar P p call op w (w.addRec p it) := by
  refine Guar.write hcall (Inv.addRec ha) rfl rfl rfl rfl (fun _ _ => rfl)
    (.same rfl fun _ _ => ⟨cells_addRec_ne (by simp), rfl⟩)
    (fun ℓ' hn => cells_addRec_ne fun he => hn (he ▸ rfl)) (fun _ _ => rfl)
    (fun _ hq => update_of_ne hq ..) (fun hn => absurd ha.owns hn) (fun _ => rfl) ?_
    (fun _ _ => id) (Or.inl rfl) (fun _ _ => Or.inl) (fun _ _ => cells_addRec_ne (by simp))
  intro o r hr
  refine ⟨r, ?_, .refl r, Or.inr (Or.inl rfl)⟩
  rw [recAt_addRec, if_neg (ne_size hr), hr]

end AddRec

end LearningNotes.Db
