import Mathlib.Algebra.GroupWithZero.Nat
import Mathlib.Data.List.Basic

/-!
# Entries of different sizes, one behind the other

A file of variable-length entries, seen as a list: entry `a` takes `size a` bytes, the
first one starts at `base`, and an entry is addressed by the offset it starts at
(`entryAt`). Changing an entry in place (`setEntry`) keeps every other address as long
as the size stays; adding one at the end uses the address behind the last one.

No entry is empty, so an address names one entry, and the entries tile the range they
take (`entryAt_cover`, `entryAt_disjoint`).
-/

namespace LearningNotes

variable {α : Type} (size : α → Nat)

/-- The entry at offset `o` of entries that start at `base`. -/
def entryAt : Nat → List α → Nat → Option α
  | _, [], _ => none
  | base, a :: as, o => if o = base then some a else entryAt (base + size a) as o

/-- Change the entry at offset `o`. -/
def setEntry (f : α → α) : Nat → List α → Nat → List α
  | _, [], _ => []
  | base, a :: as, o => if o = base then f a :: as else a :: setEntry f (base + size a) as o

/-- The bytes all entries take. -/
def extent (as : List α) : Nat := (as.map size).sum

@[simp] theorem extent_nil : extent size [] = 0 := rfl

@[simp] theorem extent_cons (a : α) (as : List α) :
    extent size (a :: as) = size a + extent size as := rfl

theorem extent_append (as bs : List α) :
    extent size (as ++ bs) = extent size as + extent size bs := by
  unfold extent
  rw [List.map_append, List.sum_append]

variable {size}

theorem length_flatMap_extent {β : Type} {enc : α → List β} {as : List α}
    (h : ∀ a ∈ as, (enc a).length = size a) : (as.flatMap enc).length = extent size as := by
  induction as with
  | nil => rfl
  | cons a as ih =>
    rw [List.flatMap_cons, List.length_append, h a (List.mem_cons_self ..),
      ih fun b hb => h b (List.mem_cons_of_mem _ hb), extent_cons]

variable (hsize : ∀ a, 0 < size a)

include hsize in
/-- An entry sits behind the entries in front of it. -/
theorem entryAt_eq_some {as : List α} {base o : Nat} {a : α} :
    entryAt size base as o = some a ↔
      ∃ as₁ as₂, as = as₁ ++ a :: as₂ ∧ o = base + extent size as₁ := by
  induction as generalizing base with
  | nil => simp [entryAt]
  | cons b as ih =>
    unfold entryAt
    by_cases ho : o = base
    · rw [if_pos ho]
      refine ⟨fun h => ⟨[], as, by cases h; rfl, by simpa using ho⟩, ?_⟩
      intro ⟨as₁, as₂, has, hsum⟩
      cases as₁ with
      | nil => cases has; rfl
      | cons a₁ as₁ =>
        have := hsize a₁
        rw [extent_cons] at hsum
        omega
    · rw [if_neg ho, ih]
      refine ⟨fun ⟨as₁, as₂, has, hsum⟩ => ⟨b :: as₁, as₂, by rw [has]; rfl, ?_⟩, ?_⟩
      · rw [extent_cons]
        omega
      · intro ⟨as₁, as₂, has, hsum⟩
        cases as₁ with
        | nil => exact absurd hsum ho
        | cons a₁ as₁ =>
          cases has
          exact ⟨as₁, as₂, rfl, by rw [extent_cons] at hsum; omega⟩

include hsize in
theorem setEntry_append (f : α → α) {as₁ as₂ : List α} {a : α} {base : Nat} :
    setEntry size f base (as₁ ++ a :: as₂) (base + extent size as₁) = as₁ ++ f a :: as₂ := by
  induction as₁ generalizing base with
  | nil => rw [extent_nil, List.nil_append, setEntry, if_pos (Nat.add_zero base)]; rfl
  | cons b as₁ ih =>
    have hpos := hsize b
    have hstep := @ih (base + size b)
    rw [extent_cons, List.cons_append, setEntry, if_neg (by omega), ← Nat.add_assoc, hstep]
    rfl

include hsize in
/-- Changing an entry replaces it in the list. -/
theorem entryAt_split {as : List α} {base o : Nat} {a : α} (h : entryAt size base as o = some a) :
    ∃ as₁ as₂, as = as₁ ++ a :: as₂ ∧ o = base + extent size as₁ ∧
      ∀ f, setEntry size f base as o = as₁ ++ f a :: as₂ := by
  obtain ⟨as₁, as₂, has, ho⟩ := (entryAt_eq_some hsize).mp h
  exact ⟨as₁, as₂, has, ho, fun f => by rw [has, ho, setEntry_append hsize]⟩

include hsize in
/-- In the file, an entry is a middle piece, and changing it replaces that piece. -/
theorem flatMap_split {β : Type} {enc : α → List β} {as : List α} {base o : Nat} {a : α}
    (h : entryAt size base as o = some a) (henc : ∀ b ∈ as, (enc b).length = size b) :
    ∃ pre post, as.flatMap enc = pre ++ (enc a ++ post) ∧ base + pre.length = o ∧
      ∀ f, (setEntry size f base as o).flatMap enc = pre ++ (enc (f a) ++ post) := by
  obtain ⟨as₁, as₂, has, ho, hset⟩ := entryAt_split hsize h
  have h₁ : ∀ b ∈ as₁, (enc b).length = size b := by
    intro b hb
    exact henc b (has ▸ List.mem_append_left _ hb)
  refine ⟨as₁.flatMap enc, as₂.flatMap enc, ?_, ?_, ?_⟩
  · rw [has, List.flatMap_append, List.flatMap_cons]
  · rw [length_flatMap_extent h₁, ho]
  · intro f
    rw [hset, List.flatMap_append, List.flatMap_cons]

include hsize in
/-- Only what happens to the entry itself matters. -/
theorem setEntry_congr {f g : α → α} {as : List α} {base o : Nat} {a : α}
    (h : entryAt size base as o = some a) (hfg : f a = g a) :
    setEntry size f base as o = setEntry size g base as o := by
  obtain ⟨as₁, as₂, -, -, hset⟩ := entryAt_split hsize h
  rw [hset, hset, hfg]

include hsize in
theorem setEntry_self {f : α → α} {as : List α} {base o : Nat} {a : α}
    (h : entryAt size base as o = some a) (hf : f a = a) : setEntry size f base as o = as := by
  obtain ⟨as₁, as₂, has, -, hset⟩ := entryAt_split hsize h
  rw [hset, hf, ← has]

/-- Changing an entry without changing its size moves nothing. -/
theorem entryAt_setEntry {f : α → α} {as : List α} {base o o' : Nat} {a : α}
    (h : entryAt size base as o = some a) (hf : size (f a) = size a) :
    entryAt size base (setEntry size f base as o) o' =
      if o' = o then some (f a) else entryAt size base as o' := by
  induction as generalizing base with
  | nil => exact absurd h (by simp [entryAt])
  | cons b as ih =>
    unfold entryAt at h
    unfold setEntry
    by_cases ho : o = base
    · rw [if_pos ho] at h ⊢
      cases h
      show (if o' = base then some (f a) else entryAt size (base + size (f a)) as o') = _
      rw [hf, ho]
      show _ = if o' = base then some (f a) else (if o' = base then some a else _)
      by_cases ho' : o' = base
      · rw [if_pos ho', if_pos ho']
      · rw [if_neg ho', if_neg ho', if_neg ho']
    · rw [if_neg ho] at h ⊢
      show (if o' = base then some b else
        entryAt size (base + size b) (setEntry size f _ as o) o') = _
      rw [ih h]
      show _ = if o' = o then _ else (if o' = base then some b else _)
      by_cases ho' : o' = base
      · rw [if_pos ho', if_pos ho', if_neg (by omega)]
      · rw [if_neg ho', if_neg ho']

theorem extent_setEntry {f : α → α} {as : List α} {base o : Nat} {a : α}
    (h : entryAt size base as o = some a) (hf : size (f a) = size a) :
    extent size (setEntry size f base as o) = extent size as := by
  induction as generalizing base with
  | nil => rfl
  | cons b as ih =>
    unfold entryAt at h
    unfold setEntry
    by_cases ho : o = base
    · rw [if_pos ho] at h ⊢
      cases h
      rw [extent_cons, extent_cons, hf]
    · rw [if_neg ho] at h ⊢
      rw [extent_cons, extent_cons, ih h]

include hsize in
/-- A new entry sits where the old ones end. -/
theorem entryAt_concat {as : List α} {a : α} {base o : Nat} :
    entryAt size base (as ++ [a]) o =
      if o = base + extent size as then some a else entryAt size base as o := by
  induction as generalizing base with
  | nil => rfl
  | cons b as ih =>
    have := hsize b
    rw [List.cons_append, entryAt, entryAt, ih, extent_cons]
    by_cases ho : o = base
    · rw [if_pos ho, if_pos ho, if_neg (by omega)]
    · rw [if_neg ho, if_neg ho, Nat.add_assoc]

include hsize in
/-- An entry ends where the file ends, or before. -/
theorem entryAt_le {as : List α} {base o : Nat} {a : α} (h : entryAt size base as o = some a) :
    base ≤ o ∧ o + size a ≤ base + extent size as := by
  obtain ⟨as₁, as₂, has, ho⟩ := (entryAt_eq_some hsize).mp h
  rw [has, extent_append, extent_cons]
  omega

include hsize in
/-- Where the entries end there is none. -/
theorem entryAt_end (as : List α) (base : Nat) :
    entryAt size base as (base + extent size as) = none := by
  cases h : entryAt size base as (base + extent size as) with
  | none => rfl
  | some a =>
    have hle := (entryAt_le hsize h).2
    have hpos := hsize a
    omega

include hsize in
/-- Every byte belongs to an entry. -/
theorem entryAt_cover {as : List α} {base i : Nat} (hlo : base ≤ i)
    (hhi : i < base + extent size as) :
    ∃ o a, entryAt size base as o = some a ∧ o ≤ i ∧ i < o + size a := by
  induction as generalizing base with
  | nil =>
    rw [extent_nil] at hhi
    omega
  | cons b as ih =>
    by_cases hi : i < base + size b
    · exact ⟨base, b, by rw [entryAt, if_pos rfl], hlo, hi⟩
    · rw [extent_cons] at hhi
      obtain ⟨o, a, h, hle⟩ := ih (by omega) (show i < base + size b + extent size as by omega)
      have hpos := hsize b
      have hge := (entryAt_le hsize h).1
      exact ⟨o, a, by rw [entryAt, if_neg (by omega), h], hle⟩

include hsize in
/-- Different entries have no byte in common. -/
theorem entryAt_disjoint {as : List α} {base o o' : Nat} {a a' : α}
    (h : entryAt size base as o = some a) (h' : entryAt size base as o' = some a') (hlt : o < o') :
    o + size a ≤ o' := by
  induction as generalizing base with
  | nil => exact absurd h (by simp [entryAt])
  | cons b as ih =>
    have hge := (entryAt_le hsize h).1
    rw [entryAt, if_neg (by omega)] at h'
    by_cases ho : o = base
    · rw [entryAt, if_pos ho] at h
      cases h
      have hge' := (entryAt_le hsize h').1
      omega
    · rw [entryAt, if_neg ho] at h
      exact ih h h'

include hsize in
/-- What holds of two entries at different offsets holds along the list. -/
theorem pairwise_entries {R : α → α → Prop} {as : List α} {base : Nat}
    (h : ∀ o o' a a', entryAt size base as o = some a → entryAt size base as o' = some a' →
      o < o' → R a a') : as.Pairwise R := by
  induction as generalizing base with
  | nil => exact .nil
  | cons b as ih =>
    -- an entry of the rest is an entry of the whole, behind `b`
    have hrest : ∀ o a, entryAt size (base + size b) as o = some a →
        base < o ∧ entryAt size base (b :: as) o = some a := by
      intro o a ha
      have hle := (entryAt_le hsize ha).1
      have hpos := hsize b
      exact ⟨by omega, by rw [entryAt, if_neg (by omega), ha]⟩
    refine List.pairwise_cons.mpr ⟨fun a ha => ?_, @ih (base + size b) ?_⟩
    · obtain ⟨as₁, as₂, rfl⟩ := List.append_of_mem ha
      obtain ⟨hlt, hat⟩ := hrest _ a ((entryAt_eq_some hsize).mpr ⟨as₁, as₂, rfl, rfl⟩)
      exact h base _ b a (by rw [entryAt, if_pos rfl]) hat hlt
    · intro o o' a a' ha ha' hlt
      exact h o o' a a' (hrest o a ha).2 (hrest o' a' ha').2 hlt

/-! ## Edges -/

variable (size) in
/-- An offset where an entry starts, or where the entries end. -/
def Edge (base : Nat) (as : List α) (o : Nat) : Prop :=
  ∃ as₁ as₂, as = as₁ ++ as₂ ∧ o = base + extent size as₁

theorem edge_base (base : Nat) (as : List α) : Edge size base as base := ⟨[], as, rfl, rfl⟩

include hsize in
/-- From an edge one gets to the next one, or is at the end. -/
theorem Edge.next {as : List α} {base o : Nat} (h : Edge size base as o) :
    (∃ a, entryAt size base as o = some a ∧ Edge size base as (o + size a)) ∨
      o = base + extent size as := by
  obtain ⟨as₁, as₂, rfl, rfl⟩ := h
  cases as₂ with
  | nil =>
    rw [List.append_nil]
    exact Or.inr rfl
  | cons a as₂ =>
    refine Or.inl ⟨a, (entryAt_eq_some hsize).mpr ⟨as₁, as₂, rfl, rfl⟩, as₁ ++ [a], as₂, ?_, ?_⟩
    · rw [List.append_assoc, List.singleton_append]
    · rw [extent_append, extent_cons, extent_nil]
      omega

include hsize in
/-- Edges stay edges if entries keep their sizes and others only join them at the end. -/
theorem Edge.mono {as as' : List α} {base o : Nat}
    (hsame : ∀ o a, entryAt size base as o = some a →
      ∃ a', entryAt size base as' o = some a' ∧ size a' = size a)
    (h : Edge size base as o) : Edge size base as' o := by
  obtain ⟨as₁, as₂, rfl, rfl⟩ := h
  induction as₁ generalizing base as' with
  | nil => exact ⟨[], as', rfl, rfl⟩
  | cons a as₁ ih =>
    obtain ⟨a', ha', hsz⟩ := hsame base a (by rw [List.cons_append, entryAt, if_pos rfl])
    cases as' with
    | nil => exact absurd ha' (by simp [entryAt])
    | cons b as' =>
      rw [entryAt, if_pos rfl] at ha'
      cases ha'
      have hrest : ∀ o c, entryAt size (base + size a) (as₁ ++ as₂) o = some c →
          ∃ c', entryAt size (base + size a) as' o = some c' ∧ size c' = size c := by
        intro o c hc
        have hge := (entryAt_le hsize hc).1
        have hpos := hsize a
        have hne : o ≠ base := by omega
        have := hsame o c (by rw [List.cons_append, entryAt, if_neg hne, hc])
        rwa [entryAt, if_neg hne, hsz] at this
      obtain ⟨bs₁, bs₂, hbs, hsum⟩ := ih hrest
      refine ⟨a' :: bs₁, bs₂, by rw [hbs]; rfl, ?_⟩
      rw [extent_cons, extent_cons, hsz]
      omega

end LearningNotes
