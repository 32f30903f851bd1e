import LearningNotes.Db.World
import Mathlib.Logic.Function.Basic

/-!
# What a write does to the world

Every write of `db.c` is one of four changes of the store: replace the record or the
data of a cell in place (`World.edit`), set a pointer (`World.redirect`), add a block of
data (`World.addBlock`), add a record (`World.addRec`). `World.move` is the ghost part
of some of them: a cell leaves its list and becomes the head of another one.

Each change comes with what it does to `item` and `recAt`, and with the proof that
`Files` and `Placed` survive. The rest of the invariant depends on why the change is
made, and is the business of `Steps.lean`.
-/

namespace LearningNotes.Db

open Function (update update_self update_of_ne)

variable {w : World} {ℓ ℓ' : Place} {c c₁ c₂ : List Cell} {o : Nat} {it it' : Item} {p : Pid}

/-! ## Looking at the world -/

/-- A cell's record and data are in the files. -/
theorem item_eq_some : w.item o = some it ↔
    w.x.recAt o = some it.toRec ∧ blockAt w.y it.datoff = some it.data := by
  unfold World.item
  cases hr : w.x.recAt o with
  | none => simp
  | some r =>
    cases hb : blockAt w.y r.datoff with
    | none =>
      simp only [Option.bind_some, hb, Option.map_none, Option.some.injEq]
      refine ⟨fun h => absurd h (by simp), ?_⟩
      intro ⟨h₁, h₂⟩
      subst h₁
      rw [hb] at h₂
      exact absurd h₂ (by simp)
    | some d =>
      simp only [Option.bind_some, hb, Option.map_some, Option.some.injEq]
      refine ⟨fun h => by subst h; exact ⟨rfl, hb⟩, ?_⟩
      intro ⟨h₁, h₂⟩
      subst h₁
      rw [hb] at h₂
      cases h₂
      rfl

/-- The item at an offset depends on its record and its block. -/
theorem item_congr {w' : World} (hx : w'.x.recAt o = w.x.recAt o)
    (hy : ∀ r, w.x.recAt o = some r → blockAt w'.y r.datoff = blockAt w.y r.datoff) :
    w'.item o = w.item o := by
  unfold World.item
  rw [hx]
  cases hr : w.x.recAt o with
  | none => rfl
  | some r =>
    show Option.map _ (blockAt w'.y r.datoff) = Option.map _ (blockAt w.y r.datoff)
    rw [hy r hr]

theorem mem_of_split (hc : c = c₁ ++ (o, it) :: c₂) : (o, it) ∈ c := by
  rw [hc]
  exact List.mem_append_right _ (List.mem_cons_self ..)

namespace Placed

variable (h : Placed w)

include h

theorem mem_item {e : Cell} (he : e ∈ w.cells ℓ) : w.item e.1 = some e.2 := h.store ℓ e he

theorem recAt {e : Cell} (he : e ∈ w.cells ℓ) : w.x.recAt e.1 = some e.2.toRec :=
  (item_eq_some.mp (h.mem_item he)).1

theorem block {e : Cell} (he : e ∈ w.cells ℓ) : blockAt w.y e.2.datoff = some e.2.data :=
  (item_eq_some.mp (h.mem_item he)).2

/-- Every record has a cell. -/
theorem exists_cell {r : Rec} (hr : w.x.recAt o = some r) :
    ∃ it, (o, it) ∈ w.cells (w.own o) ∧ it.toRec = r := by
  obtain ⟨e, he, ho⟩ := List.mem_map.mp (h.total o r hr)
  have he' := h.recAt he
  subst ho
  rw [hr] at he'
  cases he'
  exact ⟨e.2, he, rfl⟩

/-- Two cells at one offset are in the same list. -/
theorem same_place {e e' : Cell} (he : e ∈ w.cells ℓ) (he' : e' ∈ w.cells ℓ')
    (ho : e.1 = e'.1) : ℓ = ℓ' := by
  rw [← h.own ℓ e he, ← h.own ℓ' e' he', ho]

/-- The other cells are elsewhere. -/
theorem ne_of_split (hc : w.cells ℓ = c₁ ++ (o, it) :: c₂) {e : Cell} (he : e ∈ c₁ ++ c₂) :
    e.1 ≠ o := by
  have hnd := h.once ℓ
  rw [hc, List.map_append, List.map_cons, List.nodup_middle, List.nodup_cons] at hnd
  intro ho
  apply hnd.1
  rw [← List.map_append]
  exact List.mem_map.mpr ⟨e, he, ho⟩

/-- Two records at different places are different ones. -/
theorem ne_of_other (hc : (o, it) ∈ w.cells ℓ) {e : Cell} (he : e ∈ w.cells ℓ') (hℓ : ℓ' ≠ ℓ) :
    e.1 ≠ o := fun ho => hℓ (h.same_place he hc ho)

/-- The other cells have other blocks. -/
theorem datoff_ne {e : Cell} (hc : (o, it) ∈ w.cells ℓ) (he : e ∈ w.cells ℓ') (ho : e.1 ≠ o) :
    e.2.datoff ≠ it.datoff := by
  intro hd
  have h₁ := h.named ℓ' e he
  have h₂ := h.named ℓ _ hc
  rw [hd, h₂] at h₁
  cases h₁
  exact ho rfl

end Placed

/-! ## Replacing a cell in place -/

/-- The new item fits in the place of the old one. -/
structure Item.Fits (it it' : Item) : Prop where
  key : it'.key.length = it.key.length
  datoff : it'.datoff = it.datoff
  datlen : it'.datlen = it.datlen
  data : blockSize it'.data = blockSize it.data
  nul : (0 : Byte) ∉ it'.key
  ptr : it'.ptr ≤ PTR_MAX

/-- The record takes the same number of bytes. -/
theorem Item.Fits.size (h : it.Fits it') : it'.toRec.size = it.toRec.size := by
  unfold Rec.size
  rw [Rec.length_text, Rec.length_text, h.key, h.datoff, h.datlen]

theorem Item.Fits.ok (h : it.Fits it') (hok : it.toRec.Ok) : it'.toRec.Ok := by
  have htext : it'.toRec.text.length = it.toRec.text.length := by
    rw [Rec.length_text, Rec.length_text, h.key, h.datoff, h.datlen]
  exact ⟨h.nul, h.ptr, htext ▸ hok.lo, htext ▸ hok.hi, h.datlen ▸ hok.datlo, h.datlen ▸ hok.dathi⟩

/-- Key and data are where they were. -/
theorem Item.Fits.same (h : it.Fits it') : it.toRec.Same it'.toRec := ⟨h.key, h.datoff, h.datlen⟩

/-- Replace a cell of list `ℓ`. -/
def World.edit (w : World) (ℓ : Place) (c₁ : List Cell) (o : Nat) (it' : Item)
    (c₂ : List Cell) : World :=
  { w with
    os := { w.os with
      idx := (w.x.setRec o it'.toRec).bytes
      dat := datBytes (setBlock w.y it'.datoff it'.data) }
    x := w.x.setRec o it'.toRec
    y := setBlock w.y it'.datoff it'.data
    cells := update w.cells ℓ (c₁ ++ (o, it') :: c₂) }

section Edit

variable (hp : Placed w) (hc : w.cells ℓ = c₁ ++ (o, it) :: c₂) (hf : it.Fits it')

include hp hc hf

/-- Only the one record is changed. -/
theorem recAt_edit (o' : Nat) : (w.edit ℓ c₁ o it' c₂).x.recAt o' =
    if o' = o then some it'.toRec else w.x.recAt o' :=
  Index.recAt_setRec (hp.recAt (mem_of_split hc)) hf.size

/-- Only the data of the one record is changed. -/
theorem blockAt_edit (d : Nat) : blockAt (w.edit ℓ c₁ o it' c₂).y d =
    if d = it.datoff then some it'.data else blockAt w.y d := by
  have hb := hp.block (mem_of_split hc)
  have := @blockAt_setBlock w.y it.datoff it.data it'.data hb hf.data d
  unfold World.edit
  rw [hf.datoff]
  exact this

theorem item_edit (o' : Nat) : (w.edit ℓ c₁ o it' c₂).item o' =
    if o' = o then some it' else w.item o' := by
  have hmem := mem_of_split hc
  by_cases ho : o' = o
  · rw [if_pos ho, item_eq_some, recAt_edit hp hc hf, if_pos ho, blockAt_edit hp hc hf,
      if_pos hf.datoff]
    exact ⟨rfl, rfl⟩
  · rw [if_neg ho]
    apply item_congr
    · rw [recAt_edit hp hc hf, if_neg ho]
    · intro r hr
      obtain ⟨it₁, he, hit⟩ := hp.exists_cell hr
      have hd : it₁.datoff ≠ it.datoff := hp.datoff_ne hmem he ho
      rw [blockAt_edit hp hc hf, if_neg (hit ▸ hd)]

/-- The files are still made of records. -/
theorem Files.edit (h : Files w) : Files (w.edit ℓ c₁ o it' c₂) := by
  have hr := hp.recAt (mem_of_split hc)
  exact ⟨rfl, h.ok.setRec hr (hf.ok (h.ok.recAt hr)), rfl⟩

/-- Every record still has its place once. -/
theorem Placed.edit (hlen : it.datlen = blockSize it.data) : Placed (w.edit ℓ c₁ o it' c₂) := by
  have hmem := mem_of_split hc
  -- a cell of the new world is the new cell, or an old cell at another offset
  have hcase : ∀ ℓ', ∀ e ∈ (w.edit ℓ c₁ o it' c₂).cells ℓ',
      (ℓ' = ℓ ∧ e = (o, it')) ∨ (e ∈ w.cells ℓ' ∧ e.1 ≠ o) := by
    intro ℓ' e he
    by_cases hℓ : ℓ' = ℓ
    · subst hℓ
      rw [show (w.edit ℓ' c₁ o it' c₂).cells ℓ' = c₁ ++ (o, it') :: c₂ from update_self ..] at he
      by_cases hnew : e = (o, it')
      · exact Or.inl ⟨rfl, hnew⟩
      · have he' : e ∈ c₁ ++ c₂ := by simpa [hnew] using he
        refine Or.inr ⟨?_, hp.ne_of_split hc he'⟩
        rw [hc]
        simp only [List.mem_append, List.mem_cons] at he' ⊢
        exact he'.imp_right Or.inr
    · rw [show (w.edit ℓ c₁ o it' c₂).cells ℓ' = w.cells ℓ' from update_of_ne hℓ ..] at he
      exact Or.inr ⟨he, hp.ne_of_other hmem he hℓ⟩
  have hfst : ∀ ℓ', ((w.edit ℓ c₁ o it' c₂).cells ℓ').map Prod.fst = (w.cells ℓ').map Prod.fst := by
    intro ℓ'
    by_cases hℓ : ℓ' = ℓ
    · subst hℓ
      rw [show (w.edit ℓ' c₁ o it' c₂).cells ℓ' = c₁ ++ (o, it') :: c₂ from update_self .., hc]
      simp
    · rw [show (w.edit ℓ c₁ o it' c₂).cells ℓ' = w.cells ℓ' from update_of_ne hℓ ..]
  refine ⟨?_, ?_, ?_, ?_, ?_, ?_, ?_, ?_⟩
  · intro ℓ' e he
    rw [item_edit hp hc hf]
    rcases hcase ℓ' e he with ⟨-, rfl⟩ | ⟨he', ho⟩
    · exact if_pos rfl
    · rw [if_neg ho]
      exact hp.mem_item he'
  · intro ℓ' e he
    rcases hcase ℓ' e he with ⟨rfl, rfl⟩ | ⟨he', -⟩
    · exact (hp.own _ (o, it) hmem :)
    · exact hp.own _ e he'
  · intro ℓ'
    rw [hfst]
    exact hp.once ℓ'
  · intro o' r hr
    rw [hfst]
    rw [recAt_edit hp hc hf] at hr
    by_cases ho : o' = o
    · subst ho
      exact hp.total o' _ (hp.recAt hmem)
    · rw [if_neg ho] at hr
      exact hp.total o' r hr
  · intro ℓ' e he
    rcases hcase ℓ' e he with ⟨-, rfl⟩ | ⟨he', -⟩
    · rw [hf.data, hf.datlen, hlen]
    · exact hp.len _ e he'
  · intro ℓ' e he
    rcases hcase ℓ' e he with ⟨-, rfl⟩ | ⟨he', -⟩
    · show w.named it'.datoff = _
      rw [hf.datoff]
      exact hp.named _ _ hmem
    · exact hp.named _ e he'
  · intro q b hb
    obtain ⟨h₁, h₂⟩ := hp.pend q b hb
    refine ⟨?_, h₂⟩
    rw [blockAt_edit hp hc hf, if_neg, h₁]
    intro hd
    rw [hd, hp.named _ _ hmem] at h₂
    exact absurd h₂ (by simp)
  · intro d s hd
    have hold : ∃ s', blockAt w.y d = some s' := by
      rw [blockAt_edit hp hc hf] at hd
      by_cases hdd : d = it.datoff
      · exact ⟨_, hdd ▸ hp.block hmem⟩
      · rw [if_neg hdd] at hd
        exact ⟨s, hd⟩
    obtain ⟨s', hs'⟩ := hold
    have hcov := hp.cover d s' hs'
    cases hn : w.named d with
    | proc q =>
      rw [hn] at hcov
      rw [show (w.edit ℓ c₁ o it' c₂).named d = .proc q from hn]
      exact hcov
    | record o' =>
      rw [hn] at hcov
      rw [show (w.edit ℓ c₁ o it' c₂).named d = .record o' from hn]
      obtain ⟨r, hr, hrd⟩ := hcov
      by_cases ho : o' = o
      · refine ⟨it'.toRec, by rw [recAt_edit hp hc hf, if_pos ho], ?_⟩
        rw [ho, hp.recAt hmem] at hr
        cases hr
        exact hf.datoff.trans hrd
      · exact ⟨r, by rw [recAt_edit hp hc hf, if_neg ho, hr], hrd⟩

end Edit

/-! ## Setting a pointer -/

/-- A cell with another pointer. -/
def Item.setPtr (it : Item) (v : Nat) : Item := { it with ptr := v }

@[simp] theorem Item.setPtr_key (it : Item) (v : Nat) : (it.setPtr v).key = it.key := rfl
@[simp] theorem Item.setPtr_data (it : Item) (v : Nat) : (it.setPtr v).data = it.data := rfl
@[simp] theorem Item.setPtr_ptr (it : Item) (v : Nat) : (it.setPtr v).ptr = v := rfl

/-- The pointer field behind the cells `c` of a list whose head is kept in `sl`. -/
def endSlot (sl : Slot) (c : List Cell) : Slot :=
  match c.getLast? with
  | none => sl
  | some e => .link e.1

@[simp] theorem endSlot_nil (sl : Slot) : endSlot sl [] = sl := rfl

@[simp] theorem endSlot_concat (sl : Slot) (c : List Cell) (e : Cell) :
    endSlot sl (c ++ [e]) = .link e.1 := by
  unfold endSlot
  rw [List.getLast?_concat]

/-- Set a pointer that belongs to no cell. -/
def World.putHead (w : World) (sl : Slot) (v : Nat) : World :=
  { w with os := { w.os with idx := (w.x.put sl v).bytes }, x := w.x.put sl v }

/-- Let the cells `c₁` of list `ℓ` be followed by what `v` points to. -/
def World.redirect (w : World) (ℓ : Place) (sl : Slot) (c₁ : List Cell) (v : Nat)
    (c₂ : List Cell) : World :=
  { w with
    os := { w.os with idx := (w.x.put (endSlot sl c₁) v).bytes }
    x := w.x.put (endSlot sl c₁) v
    cells := update w.cells ℓ (relast Item.setPtr c₁ v ++ c₂) }

/-- A slot outside the records. -/
def Slot.IsHead : Slot → Prop
  | .link _ => False
  | _ => True

section Redirect

variable {sl : Slot} {v a : Nat}

/-- The pointer is in a head. -/
theorem redirect_nil (hc : w.cells ℓ = c₂) : w.redirect ℓ sl [] v c₂ = w.putHead sl v := by
  unfold World.redirect World.putHead
  rw [relast_nil, List.nil_append, ← hc, Function.update_eq_self, endSlot_nil]

/-- The pointer is in the last record in front. -/
theorem redirect_concat (hw : Files w) (hp : Placed w)
    (hc : w.cells ℓ = c₁ ++ [(o, it)] ++ c₂) :
    w.redirect ℓ sl (c₁ ++ [(o, it)]) v c₂ = w.edit ℓ c₁ o (it.setPtr v) c₂ := by
  have hmem : (o, it) ∈ w.cells ℓ := by rw [hc]; simp
  have hx := Index.put_link (hp.recAt hmem) v
  have hy : setBlock w.y (it.setPtr v).datoff (it.setPtr v).data = w.y :=
    setBlock_self (hp.block hmem)
  unfold World.redirect World.edit
  rw [endSlot_concat, relast_concat, hx, hy, ← hw.dat, List.append_assoc, List.singleton_append]
  rfl

/-- A record with another pointer takes its place. -/
theorem Item.fits_setPtr (it : Item) (hnul : (0 : Byte) ∉ it.key) (hv : v ≤ PTR_MAX) :
    it.Fits (it.setPtr v) := ⟨rfl, rfl, rfl, rfl, hnul, hv⟩

theorem recAt_putHead (hsl : sl.IsHead) (o : Nat) :
    (w.putHead sl v).x.recAt o = w.x.recAt o := by
  cases sl with
  | link o => exact hsl.elim
  | free => rfl
  | chain h => rfl

theorem item_putHead (hsl : sl.IsHead) (o : Nat) : (w.putHead sl v).item o = w.item o :=
  item_congr (recAt_putHead hsl o) fun _ _ => rfl

/-- A head can be set to anything that can be written there. -/
theorem Files.putHead (h : Files w) (hg : w.x.get sl = some a) (hv : v ≤ PTR_MAX) :
    Files (w.putHead sl v) := ⟨rfl, h.ok.put hg hv, h.dat⟩

theorem Placed.putHead (h : Placed w) (hsl : sl.IsHead) : Placed (w.putHead sl v) where
  store := fun ℓ e he => (item_putHead hsl e.1).trans (h.mem_item he)
  own := h.own
  once := h.once
  total := fun o r hr => h.total o r ((recAt_putHead hsl o).symm.trans hr)
  len := h.len
  named := h.named
  pend := h.pend
  cover := by
    intro d s hd
    have hcov := h.cover d s hd
    cases hn : w.named d with
    | proc q =>
      rw [hn] at hcov
      rw [show (w.putHead sl v).named d = .proc q from hn]
      exact hcov
    | record o =>
      rw [hn] at hcov
      rw [show (w.putHead sl v).named d = .record o from hn]
      obtain ⟨r, hr, hrd⟩ := hcov
      exact ⟨r, (recAt_putHead hsl o).trans hr, hrd⟩

variable (hw : Files w) (hp : Placed w) (hc : w.cells ℓ = c₁ ++ c₂) (hv : v ≤ PTR_MAX)

include hw hp hc hv

/-- A list is a head slot or ends in a cell: how `redirect` is one of the two simpler
changes. -/
theorem redirect_cases : w.redirect ℓ sl c₁ v c₂ = w.putHead sl v ∧ c₁ = [] ∨
    ∃ c₀ o it, c₁ = c₀ ++ [(o, it)] ∧ w.cells ℓ = c₀ ++ (o, it) :: c₂ ∧ it.Fits (it.setPtr v) ∧
      w.redirect ℓ sl c₁ v c₂ = w.edit ℓ c₀ o (it.setPtr v) c₂ := by
  rcases List.eq_nil_or_concat c₁ with hnil | ⟨c₀, ⟨o, it⟩, hcat⟩
  · subst hnil
    exact Or.inl ⟨redirect_nil hc, rfl⟩
  · rw [List.concat_eq_append] at hcat
    subst hcat
    have hsplit : w.cells ℓ = c₀ ++ (o, it) :: c₂ := by
      rw [hc, List.append_assoc, List.singleton_append]
    have hok := hw.ok.recAt (hp.recAt (mem_of_split hsplit))
    exact Or.inr ⟨c₀, o, it, rfl, hsplit, it.fits_setPtr hok.nul hv, redirect_concat hw hp hc⟩

/-- A pointer that is set leaves every record where it is. -/
theorem Placed.redirect (hsl : sl.IsHead) : Placed (w.redirect ℓ sl c₁ v c₂) := by
  rcases redirect_cases hw hp hc hv with ⟨heq, -⟩ | ⟨c₀, o, it, -, hsplit, hf, heq⟩
  · rw [heq]
    exact hp.putHead hsl
  · rw [heq]
    exact hp.edit hsplit hf (hp.len _ _ (mem_of_split hsplit))

/-- Only pointers change. -/
theorem item_redirect (hsl : sl.IsHead) (o' : Nat) : ∃ f : Item → Item,
    (w.redirect ℓ sl c₁ v c₂).item o' = (w.item o').map f ∧
      ∀ it, f it = it ∨ f it = it.setPtr v := by
  rcases redirect_cases hw hp hc hv with ⟨heq, -⟩ | ⟨c₀, o, it, -, hsplit, hf, heq⟩
  · refine ⟨id, ?_, fun _ => Or.inl rfl⟩
    rw [heq, item_putHead hsl, Option.map_id_fun, id]
  · rw [heq, item_edit hp hsplit hf]
    by_cases ho : o' = o
    · refine ⟨(·.setPtr v), ?_, fun _ => Or.inr rfl⟩
      rw [if_pos ho, ho, hp.mem_item (mem_of_split hsplit)]
      rfl
    · refine ⟨id, ?_, fun _ => Or.inl rfl⟩
      rw [if_neg ho, Option.map_id_fun, id]

/-- A record is the same as before, or has the new pointer. -/
theorem recAt_redirect (hsl : sl.IsHead) (o' : Nat) : ∃ f : Rec → Rec,
    (w.redirect ℓ sl c₁ v c₂).x.recAt o' = (w.x.recAt o').map f ∧
      ∀ r, f r = r ∨ f r = { r with ptr := v } := by
  rcases redirect_cases hw hp hc hv with ⟨heq, -⟩ | ⟨c₀, o, it, -, hsplit, hf, heq⟩
  · refine ⟨id, ?_, fun _ => Or.inl rfl⟩
    rw [heq, recAt_putHead hsl, Option.map_id_fun, id]
  · rw [heq, recAt_edit hp hsplit hf]
    by_cases ho : o' = o
    · refine ⟨({ · with ptr := v }), ?_, fun _ => Or.inr rfl⟩
      rw [if_pos ho, ho, hp.recAt (mem_of_split hsplit)]
      rfl
    · refine ⟨id, ?_, fun _ => Or.inl rfl⟩
      rw [if_neg ho, Option.map_id_fun, id]

end Redirect

/-! ## Adding to the files -/

/-- Process `p` adds a block of data. -/
def World.addBlock (w : World) (p : Pid) (d : CString) : World :=
  { w with
    os := { w.os with dat := datBytes (w.y ++ [d]) }
    y := w.y ++ [d]
    named := update w.named (datBytes w.y).length (.proc p)
    pend := update w.pend p (((datBytes w.y).length, d) :: w.pend p) }

/-- Process `p` adds a record for the block it has pending. -/
def World.addRec (w : World) (p : Pid) (it : Item) : World :=
  { w with
    os := { w.os with idx := (w.x.append it.toRec).bytes }
    x := w.x.append it.toRec
    cells := update w.cells (.hand p) ((w.x.size, it) :: w.cells (.hand p))
    own := update w.own w.x.size (.hand p)
    named := update w.named it.datoff (.record w.x.size)
    pend := update w.pend p [] }

section Add

variable {d : CString}

theorem blockAt_addBlock (o : Nat) : blockAt (w.addBlock p d).y o =
    if o = (datBytes w.y).length then some d else blockAt w.y o := blockAt_concat

/-- The end of the data file is behind every block. -/
theorem blockAt_ne_length {s : CString} (h : blockAt w.y o = some s) :
    o ≠ (datBytes w.y).length := by
  intro ho
  rw [ho, blockAt_length] at h
  exact absurd h (by simp)

theorem item_addBlock (hp : Placed w) (o : Nat) : (w.addBlock p d).item o = w.item o := by
  refine item_congr rfl fun r hr => ?_
  obtain ⟨it, he, hit⟩ := hp.exists_cell hr
  have hb := hp.block he
  subst hit
  rw [blockAt_addBlock, if_neg (blockAt_ne_length hb)]

/-- A data record at the end of the data file. -/
theorem Placed.addBlock (h : Placed w) : Placed (w.addBlock p d) := by
  refine ⟨?_, h.own, h.once, h.total, h.len, ?_, ?_, ?_⟩
  · intro ℓ e he
    exact (item_addBlock h e.1).trans (h.mem_item he)
  · intro ℓ e he
    show update w.named (datBytes w.y).length (.proc p) e.2.datoff = _
    rw [update_of_ne (blockAt_ne_length (h.block he))]
    exact h.named ℓ e he
  · intro q b hb
    -- the new block is `p`'s, and at the end of the file
    have hcase : (q = p ∧ b = ((datBytes w.y).length, d)) ∨ b ∈ w.pend q := by
      by_cases hq : q = p
      · subst hq
        rw [show (w.addBlock q d).pend q = _ from update_self ..] at hb
        exact (List.mem_cons.mp hb).imp_left fun hb => ⟨rfl, hb⟩
      · rw [show (w.addBlock p d).pend q = w.pend q from update_of_ne hq ..] at hb
        exact Or.inr hb
    rw [blockAt_addBlock]
    show _ ∧ update w.named (datBytes w.y).length (.proc p) b.1 = _
    rcases hcase with ⟨rfl, rfl⟩ | hb
    · rw [if_pos rfl, update_self]
      exact ⟨rfl, rfl⟩
    · obtain ⟨h₁, h₂⟩ := h.pend q b hb
      rw [if_neg (blockAt_ne_length h₁), update_of_ne (blockAt_ne_length h₁)]
      exact ⟨h₁, h₂⟩
  · intro o s ho
    rw [blockAt_addBlock] at ho
    by_cases hend : o = (datBytes w.y).length
    · rw [hend, show (w.addBlock p d).named (datBytes w.y).length = .proc p from update_self ..]
      show _ ∈ (update w.pend p _ p).map Prod.fst
      rw [update_self]
      exact List.mem_cons_self ..
    · rw [if_neg hend] at ho
      have hcov := h.cover o s ho
      rw [show (w.addBlock p d).named o = w.named o from update_of_ne hend ..]
      cases hn : w.named o with
      | record o' =>
        rw [hn] at hcov
        exact hcov
      | proc q =>
        rw [hn] at hcov
        show o ∈ (update w.pend p _ q).map Prod.fst
        by_cases hq : q = p
        · subst hq
          rw [update_self, List.map_cons]
          exact List.mem_cons_of_mem _ hcov
        · rw [update_of_ne hq]
          exact hcov

theorem recAt_addRec (o : Nat) : (w.addRec p it).x.recAt o =
    if o = w.x.size then some it.toRec else w.x.recAt o := Index.recAt_append

theorem ne_size {r : Rec} (h : w.x.recAt o = some r) : o ≠ w.x.size := by
  intro ho
  rw [ho, Index.recAt_size] at h
  exact absurd h (by simp)

/-- The new record is at the end of the index file. -/
theorem item_addRec (hb : blockAt w.y it.datoff = some it.data) (o : Nat) :
    (w.addRec p it).item o = if o = w.x.size then some it else w.item o := by
  by_cases ho : o = w.x.size
  · rw [if_pos ho, item_eq_some, recAt_addRec, if_pos ho]
    exact ⟨rfl, hb⟩
  · rw [if_neg ho]
    exact item_congr (by rw [recAt_addRec, if_neg ho]) fun _ _ => rfl

/-- An index record at the end of the index file. -/
theorem Files.addRec (h : Files w) (hok : it.toRec.Ok) : Files (w.addRec p it) :=
  ⟨rfl, h.ok.append hok, h.dat⟩

/-- The new record is in the hand of the process. -/
theorem Placed.addRec (h : Placed w) (hpend : w.pend p = [(it.datoff, it.data)])
    (hlen : it.datlen = blockSize it.data) : Placed (w.addRec p it) := by
  have hb : blockAt w.y it.datoff = some it.data ∧ w.named it.datoff = .proc p :=
    h.pend p (it.datoff, it.data) (by rw [hpend]; exact List.mem_cons_self ..)
  -- a cell of the new world is the new cell, or an old cell
  have hcase : ∀ ℓ, ∀ e ∈ (w.addRec p it).cells ℓ,
      (ℓ = .hand p ∧ e = (w.x.size, it)) ∨ e ∈ w.cells ℓ := by
    intro ℓ e he
    by_cases hℓ : ℓ = .hand p
    · subst hℓ
      rw [show (w.addRec p it).cells (.hand p) = _ from update_self ..] at he
      exact (List.mem_cons.mp he).imp_left fun he => ⟨rfl, he⟩
    · rw [show (w.addRec p it).cells ℓ = w.cells ℓ from update_of_ne hℓ ..] at he
      exact Or.inr he
  have hmono : ∀ ℓ, ∀ e ∈ w.cells ℓ, e ∈ (w.addRec p it).cells ℓ := by
    intro ℓ e he
    by_cases hℓ : ℓ = .hand p
    · subst hℓ
      rw [show (w.addRec p it).cells (.hand p) = _ from update_self ..]
      exact List.mem_cons_of_mem _ he
    · rw [show (w.addRec p it).cells ℓ = w.cells ℓ from update_of_ne hℓ ..]
      exact he
  have hnew : (w.x.size, it) ∈ (w.addRec p it).cells (.hand p) := by
    rw [show (w.addRec p it).cells (.hand p) = _ from update_self ..]
    exact List.mem_cons_self ..
  have hne : ∀ ℓ, ∀ e ∈ w.cells ℓ, e.1 ≠ w.x.size := by
    intro ℓ e he
    exact ne_size (h.recAt he)
  -- no record names the pending block
  have hdat : ∀ ℓ, ∀ e ∈ w.cells ℓ, e.2.datoff ≠ it.datoff := by
    intro ℓ e he hd
    have hn := h.named ℓ e he
    rw [hd, hb.2] at hn
    exact absurd hn (by simp)
  refine ⟨?_, ?_, ?_, ?_, ?_, ?_, ?_, ?_⟩
  · intro ℓ e he
    rw [item_addRec hb.1]
    rcases hcase ℓ e he with ⟨-, rfl⟩ | he
    · exact if_pos rfl
    · rw [if_neg (hne ℓ e he)]
      exact h.mem_item he
  · intro ℓ e he
    show update w.own w.x.size (.hand p) e.1 = ℓ
    rcases hcase ℓ e he with ⟨rfl, rfl⟩ | he
    · exact update_self ..
    · rw [update_of_ne (hne ℓ e he)]
      exact h.own ℓ e he
  · intro ℓ
    by_cases hℓ : ℓ = .hand p
    · subst hℓ
      rw [show (w.addRec p it).cells (.hand p) = _ from update_self .., List.map_cons,
        List.nodup_cons]
      refine ⟨?_, h.once _⟩
      intro hmem
      obtain ⟨e, he, ho⟩ := List.mem_map.mp hmem
      exact hne _ e he ho
    · rw [show (w.addRec p it).cells ℓ = w.cells ℓ from update_of_ne hℓ ..]
      exact h.once ℓ
  · intro o r hr
    rw [recAt_addRec] at hr
    show o ∈ ((w.addRec p it).cells (update w.own w.x.size (.hand p) o)).map Prod.fst
    by_cases ho : o = w.x.size
    · rw [ho, update_self]
      exact List.mem_map.mpr ⟨_, hnew, rfl⟩
    · rw [if_neg ho] at hr
      rw [update_of_ne ho]
      obtain ⟨e, he, heo⟩ := List.mem_map.mp (h.total o r hr)
      exact List.mem_map.mpr ⟨e, hmono _ e he, heo⟩
  · intro ℓ e he
    rcases hcase ℓ e he with ⟨-, rfl⟩ | he
    · exact hlen
    · exact h.len ℓ e he
  · intro ℓ e he
    show update w.named it.datoff (.record w.x.size) e.2.datoff = _
    rcases hcase ℓ e he with ⟨-, rfl⟩ | he
    · exact update_self ..
    · rw [update_of_ne (hdat ℓ e he)]
      exact h.named ℓ e he
  · intro q b hq
    by_cases hqp : q = p
    · subst hqp
      rw [show (w.addRec q it).pend q = [] from update_self ..] at hq
      exact absurd hq List.not_mem_nil
    · rw [show (w.addRec p it).pend q = w.pend q from update_of_ne hqp ..] at hq
      obtain ⟨h₁, h₂⟩ := h.pend q b hq
      refine ⟨h₁, ?_⟩
      show update w.named it.datoff (.record w.x.size) b.1 = _
      rw [update_of_ne, h₂]
      intro hd
      rw [hd, hb.2] at h₂
      cases h₂
      exact hqp rfl
  · intro d' s hs
    have hcov := h.cover d' s hs
    by_cases hd : d' = it.datoff
    · rw [hd, show (w.addRec p it).named it.datoff = .record w.x.size from update_self ..]
      exact ⟨it.toRec, by rw [recAt_addRec, if_pos rfl], rfl⟩
    · rw [show (w.addRec p it).named d' = w.named d' from update_of_ne hd ..]
      cases hn : w.named d' with
      | record o =>
        rw [hn] at hcov
        obtain ⟨r, hr, hrd⟩ := hcov
        exact ⟨r, by rw [recAt_addRec, if_neg (ne_size hr), hr], hrd⟩
      | proc q =>
        rw [hn] at hcov
        show d' ∈ (update w.pend p [] q).map Prod.fst
        by_cases hq : q = p
        · subst hq
          change d' ∈ (w.pend q).map Prod.fst at hcov
          rw [hpend] at hcov
          exact absurd (List.mem_singleton.mp hcov) hd
        · rw [update_of_ne hq]
          exact hcov

end Add

/-! ## Moving a cell to another list -/

/-- The cell at `o` leaves list `ℓ` and becomes the head of list `ℓ'`. -/
def World.move (w : World) (ℓ : Place) (c₁ : List Cell) (o : Nat) (it : Item) (c₂ : List Cell)
    (ℓ' : Place) : World :=
  { w with
    cells := update (update w.cells ℓ (c₁ ++ c₂)) ℓ' ((o, it) :: w.cells ℓ')
    own := update w.own o ℓ' }

/-- A record goes from one place to another. -/
theorem Placed.move (h : Placed w) (hc : w.cells ℓ = c₁ ++ (o, it) :: c₂) (hℓ : ℓ' ≠ ℓ) :
    Placed (w.move ℓ c₁ o it c₂ ℓ') := by
  have hmem := mem_of_split hc
  -- the cell that moves, a cell it leaves behind, or a cell of another list
  have hcase : ∀ k, ∀ e ∈ (w.move ℓ c₁ o it c₂ ℓ').cells k,
      (k = ℓ' ∧ e = (o, it)) ∨ (e ∈ w.cells k ∧ e.1 ≠ o) := by
    intro k e he
    by_cases hk : k = ℓ'
    · subst hk
      rw [show (w.move ℓ c₁ o it c₂ k).cells k = _ from update_self ..] at he
      rcases List.mem_cons.mp he with he | he
      · exact Or.inl ⟨rfl, he⟩
      · exact Or.inr ⟨he, h.ne_of_other hmem he hℓ⟩
    · rw [show (w.move ℓ c₁ o it c₂ ℓ').cells k = _ from update_of_ne hk ..] at he
      by_cases hkℓ : k = ℓ
      · subst hkℓ
        rw [update_self] at he
        refine Or.inr ⟨?_, h.ne_of_split hc he⟩
        rw [hc]
        simp only [List.mem_append, List.mem_cons] at he ⊢
        exact he.imp_right Or.inr
      · rw [update_of_ne hkℓ] at he
        exact Or.inr ⟨he, h.ne_of_other hmem he hkℓ⟩
  have hnd := h.once ℓ
  rw [hc, List.map_append, List.map_cons, List.nodup_middle, List.nodup_cons,
    ← List.map_append] at hnd
  refine ⟨?_, ?_, ?_, ?_, ?_, ?_, h.pend, h.cover⟩
  · intro k e he
    rcases hcase k e he with ⟨-, rfl⟩ | ⟨he, -⟩
    · exact h.mem_item hmem
    · exact h.mem_item he
  · intro k e he
    show update w.own o ℓ' e.1 = k
    rcases hcase k e he with ⟨rfl, rfl⟩ | ⟨he, ho⟩
    · exact update_self ..
    · rw [update_of_ne ho]
      exact h.own k e he
  · intro k
    by_cases hk : k = ℓ'
    · subst hk
      rw [show (w.move ℓ c₁ o it c₂ k).cells k = _ from update_self .., List.map_cons,
        List.nodup_cons]
      refine ⟨?_, h.once k⟩
      intro ho
      obtain ⟨e, he, heo⟩ := List.mem_map.mp ho
      exact h.ne_of_other hmem he hℓ heo
    · rw [show (w.move ℓ c₁ o it c₂ ℓ').cells k = _ from update_of_ne hk ..]
      by_cases hkℓ : k = ℓ
      · subst hkℓ
        rw [update_self]
        exact hnd.2
      · rw [update_of_ne hkℓ]
        exact h.once k
  · intro o' r hr
    show o' ∈ ((w.move ℓ c₁ o it c₂ ℓ').cells (update w.own o ℓ' o')).map Prod.fst
    by_cases ho : o' = o
    · rw [ho, update_self, show (w.move ℓ c₁ o it c₂ ℓ').cells ℓ' = _ from update_self ..]
      exact List.mem_cons_self ..
    · rw [update_of_ne ho]
      have htot := h.total o' r hr
      by_cases hk : w.own o' = ℓ'
      · rw [hk] at htot ⊢
        rw [show (w.move ℓ c₁ o it c₂ ℓ').cells ℓ' = _ from update_self ..]
        exact List.mem_cons_of_mem _ htot
      · rw [show (w.move ℓ c₁ o it c₂ ℓ').cells (w.own o') = _ from update_of_ne hk ..]
        by_cases hkℓ : w.own o' = ℓ
        · rw [hkℓ, hc] at htot
          rw [hkℓ, update_self]
          simpa [ho] using htot
        · rw [update_of_ne hkℓ]
          exact htot
  · intro k e he
    rcases hcase k e he with ⟨-, rfl⟩ | ⟨he, -⟩
    · exact h.len _ _ hmem
    · exact h.len k e he
  · intro k e he
    rcases hcase k e he with ⟨-, rfl⟩ | ⟨he, -⟩
    · exact h.named _ _ hmem
    · exact h.named k e he

end LearningNotes.Db
