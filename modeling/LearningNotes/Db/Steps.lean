import LearningNotes.Db.Moves

/-!
# The steps of a call

Each write of `db.c`, with the ghost change that goes with it, keeps the invariant and
the promises to the other processes. `Inv.write` and `Guar.write` say what has to be
shown for a step that changes files only: the lists that the process owns may change,
and nothing else does.

There are two kinds of steps in files that do not grow: a cell is changed in place
(`Inv.edit`, `Guar.edit`), or a pointer is set and cells change lists (`Inv.pointer`,
`Guar.pointer`). `Writes.lean` has the steps one by one.
-/

namespace LearningNotes.Db

open Function (update update_self update_of_ne)
open RangeLock (Held)

variable {P : List Byte → Prop} {p : Pid} {call : Call} {op : Op} {w w' : World} {ℓ : Place}
  {c c₁ c₂ : List Cell} {o : Nat} {it it' : Item} {k d : List Byte}

/-! ## What a step has to show -/

theorem Owns.congr (h : w'.os.locks = w.os.locks) {q : Pid} {ℓ : Place} :
    w'.Owns q ℓ ↔ w.Owns q ℓ := holds_congr (fun f t n => by rw [h]) .wrlck ℓ

/-- The process has no chain open. -/
def Calm (p : Pid) (w : World) : Prop := ∀ h, w.Owns p (.chain h) → w.gap h = none

/-- A list that does not change. -/
structure Kept (w w' : World) (ℓ : Place) (sl : Slot) : Prop where
  cells : w'.cells ℓ = w.cells ℓ
  get : w'.x.get sl = w.x.get sl

/-- The lists are all right when each one is kept or checked anew. -/
theorem Lists.write (hw : Lists P w)
    (hfree : Kept w w' .free .free ∨ FreeOk (w'.x.get .free) (w'.cells .free))
    (hchain : ∀ h, h < NHASH_DEF → Kept w w' (.chain h) (.chain h) ∧ w'.gap h = w.gap h ∨
      ChainOk P h (w'.x.get (.chain h)) (w'.cells (.chain h)) (w'.gap h))
    (hrange : ∀ h, NHASH_DEF ≤ h → w'.cells (.chain h) = w.cells (.chain h)) : Lists P w' where
  free := by
    rcases hfree with hk | hf
    · rw [hk.cells, hk.get]
      exact hw.free
    · exact hf
  chain := by
    intro h hh
    rcases hchain h hh with ⟨hk, hg⟩ | hc
    · rw [hk.cells, hk.get, hg]
      exact hw.chain h hh
    · exact hc
  range := fun h hh => (hrange h hh).trans (hw.range h hh)

/-- The invariant after a write of process `p`. -/
theorem Inv.write (hw : Inv P w) (p : Pid) (hfiles : Files w') (hplaced : Placed w')
    (hlists : Lists P w') (hlocks : w'.os.locks = w.os.locks) (hmap : w'.map = w.map)
    (hlive : w'.live = w.live) (hcells : ∀ ℓ, ¬ w.Owns p ℓ → w'.cells ℓ = w.cells ℓ)
    (hgap : ∀ h g, w'.gap h = some g → (w.gap h = some g ∧ ¬ w.Owns p (.chain h)) ∨
      (w.Owns p (.chain h) ∧ w.Owns p .free ∧
        (g.stray = w'.cells .free ∨ ∃ e ∈ w'.cells (.hand p), g.stray = e :: w'.cells .free)))
    (hwiped : w'.wiped = w.wiped ∨ w.Owns p .free)
    (hlegal : ∀ o r, w'.x.recAt o = some r → (∃ r₀, w.x.recAt o = some r₀ ∧ r₀.key = r.key) ∨
      (P r.key ∨ (Blank r.key ∧ o ≤ PTR_MAX)))
    (hwrote : ∀ o it, w'.item o = some it → ¬ Blank it.key →
      w'.wrote it.key it.data.val ∨ w'.wiped = some o) : Inv P w' where
  files := hfiles
  placed := hplaced
  lists := hlists
  guarded := by
    refine ⟨?_, ?_, ?_⟩
    · rw [hlocks]
      exact hw.guarded.excl
    · intro h g hg
      rcases hgap h g hg with ⟨hold, hno⟩ | ⟨h₁, h₂, h₃⟩
      · obtain ⟨q, hq₁, hq₂, hq₃⟩ := hw.guarded.gap h g hold
        -- a gap that was there belongs to another process, and its lists are as they were
        have hqp : p ≠ q := fun hpq => hno (hpq ▸ hq₁)
        have hf : ¬ w.Owns p .free := fun hf => hqp (hw.excl hf hq₂.sees)
        refine ⟨q, (Owns.congr hlocks).mpr hq₁, (Owns.congr hlocks).mpr hq₂, ?_⟩
        rw [hcells .free hf, hcells (.hand q) hqp]
        exact hq₃
      · exact ⟨p, (Owns.congr hlocks).mpr h₁, (Owns.congr hlocks).mpr h₂, h₃⟩
    · intro hne
      rcases hwiped with heq | hown
      · rw [heq] at hne
        obtain ⟨q, hq⟩ := hw.guarded.wiped hne
        exact ⟨q, (Owns.congr hlocks).mpr hq⟩
      · exact ⟨p, (Owns.congr hlocks).mpr hown⟩
  legal := by
    intro o r hr
    rcases hlegal o r hr with ⟨r₀, hr₀, hk⟩ | hP | ⟨hb, -⟩
    · exact hk ▸ hw.legal o r₀ hr₀
    · exact Or.inr hP
    · exact Or.inl hb
  low := by
    intro o r hr hb
    rcases hlegal o r hr with ⟨r₀, hr₀, hk⟩ | hP | ⟨-, hle⟩
    · exact hk ▸ hw.low o r₀ hr₀ (hk ▸ hb)
    · exact Or.inr hP
    · exact Or.inl hle
  wrote := hwrote
  map := by
    intro hl k hno
    -- nobody has the chain of `k`, so it is as it was
    have hno' : ∀ q, ¬ w.Owns q (World.chainOf k) := by
      intro q hq
      exact hno q ((Owns.congr hlocks).mpr hq)
    rw [hmap, ← hw.map (hlive ▸ hl) k hno']
    show lookup k (w'.cells _) = lookup k (w.cells _)
    rw [hcells _ (hno' p)]

/-- The promises of a write of process `p`. -/
theorem Guar.write (hcall : ¬ call.Reads) (hinv : Inv P w') (hlocks : w'.os.locks = w.os.locks) (hmap : w'.map = w.map)
    (hlive : w'.live = w.live) (hlin : w'.lin = w.lin)
    (hmoved : ∀ q, q ≠ p → w'.moved q = w.moved q) (hturn : Turn p call op w w')
    (hcells : ∀ ℓ, ¬ w.Owns p ℓ → w'.cells ℓ = w.cells ℓ)
    (hgap : ∀ h, ¬ w.Owns p (.chain h) ∨ (∀ k, call.key? = some k → dbHash NHASH_DEF k ≠ h) →
      w'.gap h = w.gap h)
    (hpend : ∀ q, q ≠ p → w'.pend q = w.pend q)
    (htail : ¬ w.OwnsTail p → w'.x.size = w.x.size)
    (hdat : ¬ w.OwnsDat p → w'.os.dat.length = w.os.dat.length)
    (hrec : ∀ o r, w.x.recAt o = some r → ∃ r', w'.x.recAt o = some r' ∧ r.Same r' ∧
      (Blank r.key ∨ r'.key = r.key ∨ w.Owns p .free))
    (hwrote : ∀ k d, w.wrote k d → w'.wrote k d)
    (hwiped : w'.wiped = w.wiped ∨ w.Owns p .free)
    (hput : ∀ k d, w'.wrote k d → w.wrote k d ∨ (op.PutsData d ∧ call.Puts k d))
    (hhome : ∀ i, (∀ k, call.key? = some k → dbHash NHASH_DEF k ≠ i) →
      w'.cells (.chain i) = w.cells (.chain i)) :
    Guar P p call op w w' where
  inv := hinv
  locks := fun q _ f t n => by rw [hlocks]
  cells := hcells
  gap := hgap
  map := fun k _ => by rw [hmap]
  pend := hpend
  lin := fun q _ => by rw [hlin]
  moved := hmoved
  tail := htail
  datend := hdat
  shape := by
    intro o r hr
    obtain ⟨r', hr', hs, -⟩ := hrec o r hr
    exact ⟨r', hr', hs⟩
  kept := by
    intro hf o r hr hk
    obtain ⟨r', hr', -, hb | he | hown⟩ := hrec o r hr
    · exact absurd hb hk
    · exact ⟨r', hr', he⟩
    · exact absurd hown hf
  wrote := hwrote
  wiped := fun hf => hwiped.resolve_right hf
  live := hlive
  still := fun h => absurd h hcall
  put := hput
  home := hhome
  turn := hturn
  step := Or.inl ⟨hmap, by rw [hlin]⟩

/-! ## Lists under the changes -/

/-- Pointers do not matter for what is found. -/
theorem lookup_relast (v : Nat) : lookup k (relast Item.setPtr c₁ v ++ c₂) = lookup k (c₁ ++ c₂) := by
  rcases List.eq_nil_or_concat c₁ with rfl | ⟨c₀, ⟨o, it⟩, rfl⟩
  · rfl
  · rw [List.concat_eq_append, relast_concat]
    simp only [List.append_assoc, List.singleton_append, lookup_append, lookup_cons,
      Item.setPtr_key, Item.setPtr_data]
    rfl

/-- Pointers do not matter to a search. -/
theorem walk_relast (v : Nat) : walk k (relast Item.setPtr c₁ v ++ c₂) = walk k (c₁ ++ c₂) := by
  rcases List.eq_nil_or_concat c₁ with rfl | ⟨c₀, ⟨o, it⟩, rfl⟩
  · rfl
  · rw [List.concat_eq_append, relast_concat, List.append_assoc, List.append_assoc]
    induction c₀ with
    | nil => rfl
    | cons e c₀ ih =>
      show walk k (e :: (c₀ ++ _)) = walk k (e :: (c₀ ++ _))
      rw [walk, walk, ih]

theorem map_key_relast (v : Nat) :
    (relast Item.setPtr c v).map (·.2.key) = c.map (·.2.key) := by
  rcases List.eq_nil_or_concat c with rfl | ⟨c₀, ⟨o, it⟩, rfl⟩
  · rfl
  · rw [List.concat_eq_append, relast_concat, List.map_append, List.map_append]
    rfl

/-- All a chain says about its cells it says about their keys. -/
theorem ChainOk.of_keys {h : Nat} {head head' : Option Nat} {c c' : List Cell} {g g' : Option Gap}
    (hc : ChainOk P h head c g) (hkeys : c'.map (·.2.key) = c.map (·.2.key))
    (hthread : Threaded head' c' g') : ChainOk P h head' c' g' := by
  have hmem : ∀ e ∈ c', ∃ e₀ ∈ c, e₀.2.key = e.2.key := by
    intro e he
    have : e.2.key ∈ c.map (·.2.key) := hkeys ▸ List.mem_map.mpr ⟨e, he, rfl⟩
    exact List.mem_map.mp this
  refine ⟨hthread, ?_, hkeys ▸ hc.keys, ?_, ?_⟩
  · intro e he
    obtain ⟨e₀, he₀, hk⟩ := hmem e he
    exact hk ▸ hc.hash e₀ he₀
  · intro e he
    obtain ⟨e₀, he₀, hk⟩ := hmem e he
    exact hk ▸ hc.legal e₀ he₀
  · intro e he
    have : e.2.key ∈ c.tail.map (·.2.key) := by
      rw [List.map_tail, ← hkeys, ← List.map_tail]
      exact List.mem_map.mpr ⟨e, he, rfl⟩
    obtain ⟨e₀, he₀, hk⟩ := List.mem_map.mp this
    exact hk ▸ hc.clean e₀ he₀

/-! ## Changes in place -/

/-- The ghost part of a data write: which pairs were written, and which record has lost
its data but not its key. -/
def World.note (w : World) (wrote : List Byte → List Byte → Prop) (wiped : Option Nat) : World :=
  { w with wrote := wrote, wiped := wiped }

/-- The record in its place. -/
theorem cells_edit_self : (w.edit ℓ c₁ o it' c₂).cells ℓ = c₁ ++ (o, it') :: c₂ := update_self ..

theorem cells_edit_ne {ℓ' : Place} (h : ℓ' ≠ ℓ) : (w.edit ℓ c₁ o it' c₂).cells ℓ' = w.cells ℓ' :=
  update_of_ne h ..

/-- The heads of the lists stay. -/
theorem get_edit (hp : Placed w) (hc : w.cells ℓ = c₁ ++ (o, it) :: c₂) (hf : it.Fits it')
    {sl : Slot} (hsl : sl.IsHead) : (w.edit ℓ c₁ o it' c₂).x.get sl = w.x.get sl := by
  refine (Index.get_setRec (hp.recAt (mem_of_split hc)) hf.size).trans ?_
  refine if_neg fun h => ?_
  rw [h] at hsl
  exact hsl

/-- Where a cell may be changed in place, and to what. -/
structure Editable (P : List Byte → Prop) (p : Pid) (w : World) (ℓ : Place) (c₁ : List Cell)
    (o : Nat) (it it' : Item) (c₂ : List Cell) : Prop where
  inv : Inv P w
  cells : w.cells ℓ = c₁ ++ (o, it) :: c₂
  owns : w.Owns p ℓ
  calm : Calm p w
  notFree : ℓ ≠ .free
  fits : it.Fits it'
  chain : ∀ h, ℓ = .chain h → it'.key = it.key ∧ it'.ptr = it.ptr
  legal : it'.key = it.key ∨ P it'.key

section Edit

variable (he : Editable P p w ℓ c₁ o it it' c₂)

include he

/-- What others own is not touched. -/
theorem Editable.cells_ne {ℓ' : Place} (h : ¬ w.Owns p ℓ') :
    (w.edit ℓ c₁ o it' c₂).cells ℓ' = w.cells ℓ' :=
  cells_edit_ne fun hℓ => h (hℓ ▸ he.owns)

/-- A cell of a chain has a key of the chain. -/
theorem Editable.hash {h : Nat} (hℓ : ℓ = .chain h) : dbHash NHASH_DEF it.key = h := by
  have hmem : (o, it) ∈ w.cells (.chain h) := hℓ ▸ mem_of_split he.cells
  by_cases hlt : h < NHASH_DEF
  · exact (he.inv.lists.chain h hlt).hash _ hmem
  · rw [he.inv.lists.range h (Nat.le_of_not_lt hlt)] at hmem
    exact absurd hmem List.not_mem_nil

/-- A record that is overwritten stays in its list. -/
theorem Lists.edit : Lists P (w.edit ℓ c₁ o it' c₂) := by
  have hp := he.inv.placed
  refine he.inv.lists.write (Or.inl ⟨cells_edit_ne he.notFree.symm, ?_⟩) ?_ ?_
  · exact get_edit hp he.cells he.fits trivial
  · intro h hh
    by_cases hℓ : ℓ = .chain h
    · subst hℓ
      obtain ⟨hkey, hptr⟩ := he.chain h rfl
      have hold := he.inv.lists.chain h hh
      have hg := he.calm h he.owns
      refine Or.inr (hold.of_keys ?_ ?_)
      · rw [cells_edit_self, he.cells, List.map_append, List.map_append, List.map_cons,
          List.map_cons, hkey]
      · have hthread := hold.thread
        show Threaded _ _ (w.gap h)
        rw [hg, he.cells] at hthread
        have hhead : Slot.IsHead (.chain h) := trivial
        rw [hg, cells_edit_self, get_edit hp he.cells he.fits hhead]
        obtain ⟨a, ha, hseg⟩ := hthread
        exact ⟨a, ha, hseg.replace hptr⟩
    · exact Or.inl ⟨⟨cells_edit_ne (Ne.symm hℓ), get_edit hp he.cells he.fits trivial⟩, rfl⟩
  · intro h hh
    refine cells_edit_ne fun hℓ => ?_
    have hnil := he.inv.lists.range h hh
    rw [hℓ, he.cells] at hnil
    simp at hnil

/-- A change in place keeps the invariant, if the pair it leaves was written. -/
theorem Inv.edit {wrote : List Byte → List Byte → Prop} {wiped : Option Nat}
    (hmono : ∀ k d, w.wrote k d → wrote k d)
    (hwiped : wiped = w.wiped ∨ (w.Owns p .free ∧ w.wiped = none))
    (hpair : ¬ Blank it'.key → wrote it'.key it'.data.val ∨ wiped = some o) :
    Inv P ((w.edit ℓ c₁ o it' c₂).note wrote wiped) := by
  have hw := he.inv
  have hp := hw.placed
  have hl := Lists.edit he
  refine hw.write p ?_ ?_ ⟨hl.free, hl.chain, hl.range⟩ rfl rfl rfl (fun ℓ' h => he.cells_ne h)
    ?_ ?_ ?_ ?_
  · have hf := hw.files.edit hp he.cells he.fits
    exact ⟨hf.idx, hf.ok, hf.dat⟩
  · have hpl := hp.edit he.cells he.fits (hp.len _ _ (mem_of_split he.cells))
    exact ⟨hpl.store, hpl.own, hpl.once, hpl.total, hpl.len, hpl.named, hpl.pend, hpl.cover⟩
  · intro h g hg
    refine Or.inl ⟨hg, fun ho => ?_⟩
    -- a process that changes a chain in place has no gap in it
    have hnone := he.calm h ho
    rw [show w.gap h = some g from hg] at hnone
    exact absurd hnone (by simp)
  · exact hwiped.imp_right And.left
  · intro o' r hr
    change (w.edit ℓ c₁ o it' c₂).x.recAt o' = some r at hr
    rw [recAt_edit hp he.cells he.fits] at hr
    by_cases ho : o' = o
    · rw [if_pos ho] at hr
      cases hr
      rcases he.legal with hk | hP
      · exact Or.inl ⟨_, ho ▸ hp.recAt (mem_of_split he.cells), hk.symm⟩
      · exact Or.inr (Or.inl hP)
    · rw [if_neg ho] at hr
      exact Or.inl ⟨r, hr, rfl⟩
  · intro o' it₁ hit hk
    change (w.edit ℓ c₁ o it' c₂).item o' = some it₁ at hit
    rw [item_edit hp he.cells he.fits] at hit
    show wrote _ _ ∨ wiped = some o'
    by_cases ho : o' = o
    · rw [if_pos ho] at hit
      cases hit
      rw [ho]
      exact hpair hk
    · rw [if_neg ho] at hit
      rcases hw.wrote o' it₁ hit hk with hwr | hwi
      · exact Or.inl (hmono _ _ hwr)
      · rcases hwiped with heq | ⟨-, hnone⟩
        · exact Or.inr (heq.trans hwi)
        · rw [hnone] at hwi
          exact absurd hwi (by simp)

/-- A change in place leaves the keys of a chain where they are. -/
theorem Turn.edit {wrote : List Byte → List Byte → Prop} {wiped : Option Nat}
    (hchain : ∀ h, ℓ = .chain h → call.key? = some it.key) :
    Turn p call op w ((w.edit ℓ c₁ o it' c₂).note wrote wiped) where
  rest := by
    intro key hkey hsep k hne
    show walk k ((w.edit ℓ c₁ o it' c₂).cells (World.chainOf key)) = _
    by_cases hℓ : ℓ = World.chainOf key
    · have hsame : it.key = key := Option.some.inj ((hchain _ hℓ).symm.trans hkey)
      have hik : it.key ≠ k := fun h => hne (h.symm.trans hsame)
      have hkey' := (he.chain _ hℓ).1
      rw [← hℓ, cells_edit_self, he.cells, walk_middle hik (hsame ▸ hsep),
        walk_middle (hkey' ▸ hik) (hkey' ▸ hsame ▸ hsep)]
    · rw [cells_edit_ne (Ne.symm hℓ)]
  sets := Or.inl
  order := by
    intro key _ h
    refine ⟨h, ?_⟩
    have hkeys : ((w.edit ℓ c₁ o it' c₂).cells (World.chainOf key)).map label =
        (w.cells (World.chainOf key)).map label := by
      by_cases hℓ : ℓ = World.chainOf key
      · rw [← hℓ, cells_edit_self, he.cells, List.map_append, List.map_append, List.map_cons,
          List.map_cons, label, label, (he.chain _ hℓ).1]
      · rw [cells_edit_ne (Ne.symm hℓ)]
    have hgap : ((w.edit ℓ c₁ o it' c₂).note wrote wiped).gap = w.gap := rfl
    unfold World.order
    rw [hgap]
    cases w.gap (dbHash NHASH_DEF key) with
    | none => exact hkeys
    | some g => rfl
  shut := fun _ _ h => Or.inr ⟨h, rfl⟩

/-- To overwrite a record is a step that the other processes rely on. -/
theorem Guar.edit {wrote : List Byte → List Byte → Prop} {wiped : Option Nat}
    (hinv : Inv P ((w.edit ℓ c₁ o it' c₂).note wrote wiped))
    (hmono : ∀ k d, w.wrote k d → wrote k d) (hwiped : wiped = w.wiped ∨ w.Owns p .free)
    (hput : ∀ k d, wrote k d → w.wrote k d ∨ (op.PutsData d ∧ call.Puts k d))
    (hkey : Blank it.key ∨ it'.key = it.key)
    (hcall : ¬ call.Reads) (hchain : ∀ h, ℓ = .chain h → call.key? = some it.key) :
    Guar P p call op w ((w.edit ℓ c₁ o it' c₂).note wrote wiped) := by
  have hw := he.inv
  have hp := hw.placed
  have hmem := mem_of_split he.cells
  refine Guar.write hcall hinv rfl rfl rfl rfl (fun _ _ => rfl) (Turn.edit he hchain)
    (fun ℓ' h => he.cells_ne h) (fun _ _ => rfl) (fun _ _ => rfl) (fun _ => ?_) (fun _ => ?_) ?_
    hmono hwiped hput ?_
  · exact Index.size_setRec (hp.recAt hmem) he.fits.size
  · show (datBytes (setBlock w.y it'.datoff it'.data)).length = _
    rw [hw.files.dat, he.fits.datoff]
    exact length_setBlock (hp.block hmem) he.fits.data
  · intro o' r hr
    show ∃ r', (w.edit ℓ c₁ o it' c₂).x.recAt o' = some r' ∧ _
    rw [recAt_edit hp he.cells he.fits]
    by_cases ho : o' = o
    · rw [if_pos ho]
      rw [ho, hp.recAt hmem] at hr
      cases hr
      exact ⟨_, rfl, he.fits.same, hkey.imp_right Or.inl⟩
    · rw [if_neg ho]
      exact ⟨r, hr, .refl r, Or.inr (Or.inl rfl)⟩
  · intro i hi
    refine cells_edit_ne fun hℓ => ?_
    exact hi _ (hchain i hℓ.symm) (he.hash hℓ.symm)

end Edit

/-! ## Changes of one pointer -/

/-- Only the listing of the cells changes. -/
def World.relist (w : World) (cells : Place → List Cell) (own : Nat → Place)
    (gap : Nat → Option Gap) (moved : Pid → Bool) : World :=
  { w with cells := cells, own := own, gap := gap, moved := moved }

/-- A pointer of list `ℓ` may be set. -/
structure Settable (P : List Byte → Prop) (p : Pid) (w : World) (ℓ : Place) (sl : Slot) (a : Nat)
    (c₁ : List Cell) (v : Nat) (c₂ : List Cell) : Prop where
  inv : Inv P w
  cells : w.cells ℓ = c₁ ++ c₂
  owns : w.Owns p ℓ
  head : sl.IsHead
  get : w.x.get sl = some a
  le : v ≤ PTR_MAX

section Pointer

variable {sl : Slot} {a v : Nat} (hs : Settable P p w ℓ sl a c₁ v c₂)

include hs

/-- There is a pointer to be set. -/
theorem Settable.get_endSlot : ∃ b, w.x.get (endSlot sl c₁) = some b := by
  rcases List.eq_nil_or_concat c₁ with hnil | ⟨c₀, ⟨o, it⟩, hcat⟩
  · exact ⟨a, by rw [hnil, endSlot_nil, hs.get]⟩
  · rw [List.concat_eq_append] at hcat
    have hmem : (o, it) ∈ w.cells ℓ := by rw [hs.cells, hcat]; simp
    refine ⟨it.ptr, ?_⟩
    rw [hcat, endSlot_concat]
    show (w.x.recAt o).map Rec.ptr = _
    rw [hs.inv.placed.recAt hmem]
    rfl

/-- The head of the list itself, after its last pointer is set. -/
theorem Settable.get_self : (w.redirect ℓ sl c₁ v c₂).x.get sl = some (restart a c₁ v) := by
  obtain ⟨b, hb⟩ := hs.get_endSlot
  refine (Index.get_put hb).trans ?_
  rcases List.eq_nil_or_concat c₁ with hnil | ⟨c₀, ⟨o, it⟩, hcat⟩
  · rw [hnil, endSlot_nil, if_pos rfl]
    rfl
  · rw [List.concat_eq_append] at hcat
    have hne : sl ≠ endSlot sl c₁ := by
      intro h
      have hhead := hs.head
      rw [h, hcat, endSlot_concat] at hhead
      exact hhead
    rw [if_neg hne, hs.get, hcat]
    cases c₀ <;> rfl

/-- The heads of the other lists stay. -/
theorem Settable.get_other {sl' : Slot} (hsl' : sl'.IsHead) (hne : sl' ≠ sl) :
    (w.redirect ℓ sl c₁ v c₂).x.get sl' = w.x.get sl' := by
  obtain ⟨b, hb⟩ := hs.get_endSlot
  refine (Index.get_put hb).trans (if_neg ?_)
  intro h
  rcases List.eq_nil_or_concat c₁ with hnil | ⟨c₀, ⟨o, it⟩, hcat⟩
  · rw [hnil, endSlot_nil] at h
    exact hne h
  · rw [List.concat_eq_append] at hcat
    rw [h, hcat, endSlot_concat] at hsl'
    exact hsl'

/-- The files are still made of records. -/
theorem Settable.files : Files (w.redirect ℓ sl c₁ v c₂) := by
  have hw := hs.inv
  rcases redirect_cases hw.files hw.placed hs.cells hs.le with ⟨heq, -⟩ | ⟨c₀, o, it, -, hc, hf, heq⟩
  · rw [heq]
    exact hw.files.putHead hs.get hs.le
  · rw [heq]
    exact hw.files.edit hw.placed hc hf

/-- Every record still has its place once. -/
theorem Settable.placed : Placed (w.redirect ℓ sl c₁ v c₂) :=
  hs.inv.placed.redirect hs.inv.files hs.cells hs.le hs.head

omit hs in
theorem cells_redirect_self :
    (w.redirect ℓ sl c₁ v c₂).cells ℓ = relast Item.setPtr c₁ v ++ c₂ := update_self ..

omit hs in
theorem cells_redirect_ne {ℓ' : Place} (h : ℓ' ≠ ℓ) :
    (w.redirect ℓ sl c₁ v c₂).cells ℓ' = w.cells ℓ' := update_of_ne h ..

variable {cells : Place → List Cell} {own : Nat → Place} {gap : Nat → Option Gap}
  {moved : Pid → Bool}

/-- Setting a pointer keeps the invariant, if the lists come out right. -/
theorem Inv.pointer
    (hplaced : Placed ((w.redirect ℓ sl c₁ v c₂).relist cells own gap moved))
    (hlists : Lists P ((w.redirect ℓ sl c₁ v c₂).relist cells own gap moved))
    (hcells : ∀ ℓ', ¬ w.Owns p ℓ' → cells ℓ' = w.cells ℓ')
    (hgap : ∀ h g, gap h = some g → (w.gap h = some g ∧ ¬ w.Owns p (.chain h)) ∨
      (w.Owns p (.chain h) ∧ w.Owns p .free ∧
        (g.stray = cells .free ∨ ∃ e ∈ cells (.hand p), g.stray = e :: cells .free))) :
    Inv P ((w.redirect ℓ sl c₁ v c₂).relist cells own gap moved) := by
  have hw := hs.inv
  have hf := hs.files
  refine hw.write p ⟨hf.idx, hf.ok, hf.dat⟩ hplaced hlists rfl rfl rfl hcells hgap (Or.inl rfl) ?_ ?_
  · intro o r hr
    change (w.redirect ℓ sl c₁ v c₂).x.recAt o = some r at hr
    obtain ⟨f, hfo, hfr⟩ := recAt_redirect hw.files hw.placed hs.cells hs.le hs.head o
    rw [hfo] at hr
    obtain ⟨r₀, hr₀, rfl⟩ := Option.map_eq_some_iff.mp hr
    refine Or.inl ⟨r₀, hr₀, ?_⟩
    rcases hfr r₀ with heq | heq
    · rw [heq]
    · rw [heq]
  · intro o it hit hk
    change (w.redirect ℓ sl c₁ v c₂).item o = some it at hit
    obtain ⟨f, hfo, hfi⟩ := item_redirect hw.files hw.placed hs.cells hs.le hs.head o
    rw [hfo] at hit
    obtain ⟨it₀, hit₀, rfl⟩ := Option.map_eq_some_iff.mp hit
    rcases hfi it₀ with heq | heq
    · rw [heq] at hk ⊢
      exact hw.wrote o it₀ hit₀ hk
    · rw [heq] at hk ⊢
      exact hw.wrote o it₀ hit₀ hk

/-- To set a pointer is a step that the other processes rely on. -/
theorem Guar.pointer (hcall : ¬ call.Reads)
    (hinv : Inv P ((w.redirect ℓ sl c₁ v c₂).relist cells own gap moved))
    (hcells : ∀ ℓ', ¬ w.Owns p ℓ' → cells ℓ' = w.cells ℓ')
    (hgap : ∀ h, ¬ w.Owns p (.chain h) ∨ (∀ k, call.key? = some k → dbHash NHASH_DEF k ≠ h) →
      gap h = w.gap h)
    (hhome : ∀ i, (∀ k, call.key? = some k → dbHash NHASH_DEF k ≠ i) →
      cells (.chain i) = w.cells (.chain i))
    (hmoved : ∀ q, q ≠ p → moved q = w.moved q)
    (hturn : Turn p call op w ((w.redirect ℓ sl c₁ v c₂).relist cells own gap moved)) :
    Guar P p call op w ((w.redirect ℓ sl c₁ v c₂).relist cells own gap moved) := by
  have hw := hs.inv
  obtain ⟨b, hb⟩ := hs.get_endSlot
  refine Guar.write hcall hinv rfl rfl rfl rfl hmoved hturn hcells hgap (fun _ _ => rfl)
    (fun _ => Index.size_put hb) (fun _ => rfl) ?_ (fun _ _ => id) (Or.inl rfl)
    (fun _ _ => Or.inl) hhome
  intro o r hr
  obtain ⟨f, hfo, hfr⟩ := recAt_redirect hw.files hw.placed hs.cells hs.le hs.head o
  refine ⟨f r, ?_, ?_⟩
  · show (w.redirect ℓ sl c₁ v c₂).x.recAt o = some (f r)
    rw [hfo, hr]
    rfl
  · rcases hfr r with heq | heq
    · rw [heq]
      exact ⟨.refl r, Or.inr (Or.inl rfl)⟩
    · rw [heq]
      exact ⟨⟨rfl, rfl, rfl⟩, Or.inr (Or.inl rfl)⟩

end Pointer

end LearningNotes.Db
