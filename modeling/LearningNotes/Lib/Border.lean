/-!
# Borders of a list

A border of a list is a proper prefix that is also a suffix. When a pattern is compared with a
text from left to right, the ways in which the compared part of the text can end with a
prefix of the pattern are the prefix that matched and the borders of it. So a mismatch leaves
the longest border to go on with, and no place where the pattern occurs is passed over.
-/

namespace LearningNotes

variable {α : Type} {p t : List α} {b c i j s : Nat}

/-- The prefix of length `b` is a proper one and a suffix. -/
def IsBorder (p : List α) (b : Nat) : Prop := b < p.length ∧ p.take b <:+ p

/-- `b` is the greatest border of `p`. -/
structure LongestBorder (p : List α) (b : Nat) : Prop where
  border : IsBorder p b
  longest : ∀ c, IsBorder p c → c ≤ b

/-- The pattern `p` stands in `t` from index `s` on. -/
def OccursAt (p t : List α) (s : Nat) : Prop := p <+: t.drop s

/-- The last elements are the same, and the rest is a suffix. -/
theorem concat_suffix_concat {l m : List α} {x y : α} :
    l ++ [x] <:+ m ++ [y] ↔ l <:+ m ∧ x = y := by
  rw [List.suffix_concat_iff]
  constructor
  · intro h
    rcases h with h | ⟨l', h, hl⟩
    · simp at h
    · obtain ⟨rfl, hx⟩ := List.append_inj' h rfl
      exact ⟨hl, List.singleton_inj.mp hx⟩
  · intro ⟨hl, hx⟩
    exact .inr ⟨l, by rw [hx], hl⟩

/-- One more element matches. -/
theorem suffix_take_succ (hj : j < p.length) (hi : i < t.length) :
    p.take (j + 1) <:+ t.take (i + 1) ↔ p.take j <:+ t.take i ∧ p[j] = t[i] := by
  rw [List.take_succ_eq_append_getElem hj, List.take_succ_eq_append_getElem hi]
  exact concat_suffix_concat

theorem isBorder_zero (h : 0 < p.length) : IsBorder p 0 := ⟨h, List.nil_suffix⟩

/-- The borders of a prefix. -/
theorem isBorder_take (hj : j ≤ p.length) (hc : c < j) :
    IsBorder (p.take j) c ↔ p.take c <:+ p.take j := by
  unfold IsBorder
  rw [List.length_take, Nat.min_eq_left hj, List.take_take, Nat.min_eq_left (Nat.le_of_lt hc)]
  exact ⟨And.right, fun h => ⟨hc, h⟩⟩

theorem IsBorder.lt (h : IsBorder (p.take j) c) : c < j :=
  Nat.lt_of_lt_of_le h.1 (List.length_take_le j p)

/-- A shorter prefix the text ends with is a border of the longer one. -/
theorem isBorder_of_suffix (hj : j ≤ p.length) (h : p.take j <:+ t.take i)
    (h' : p.take c <:+ t.take i) (hc : c < j) : IsBorder (p.take j) c := by
  rw [isBorder_take hj hc]
  apply List.suffix_of_suffix_length_le h' h
  rw [List.length_take, List.length_take]
  omega

/-- A border of what has been matched is matched, too. -/
theorem IsBorder.suffix (hj : j ≤ p.length) (h : IsBorder (p.take j) c)
    (h' : p.take j <:+ t.take i) : p.take c <:+ t.take i :=
  ((isBorder_take hj h.lt).mp h).trans h'

/-- A border of one element more is a border and a match. -/
theorem isBorder_succ (hj : j < p.length) (hc : c < j) :
    IsBorder (p.take (j + 1)) (c + 1) ↔ IsBorder (p.take j) c ∧ p[c] = p[j] := by
  rw [isBorder_take (by omega) (by omega), isBorder_take (by omega) hc,
    suffix_take_succ (by omega) hj]

/-! ## Occurrences -/

/-- A pattern that is not empty ends in the text. -/
theorem OccursAt.le (h : OccursAt p t s) (hp : 0 < p.length) : s + p.length ≤ t.length := by
  have := h.length_le
  rw [List.length_drop] at this
  omega

/-- A text that is read up to somewhere in an occurrence ends with a prefix of the pattern. -/
theorem OccursAt.suffix (h : OccursAt p t s) (hs : s ≤ i) (hi : i ≤ s + p.length) :
    p.take (i - s) <:+ t.take i := by
  have hsplit : t.take i = t.take s ++ (t.drop s).take (i - s) := by
    rw [← List.take_append_drop s (t.take i), List.take_take, Nat.min_eq_left hs, List.drop_take]
  obtain ⟨u, hu⟩ := h
  rw [hsplit, ← hu, List.take_append_of_le_length (by omega)]
  exact List.suffix_append _ _

/-- The element of an occurrence that is read next. -/
theorem OccursAt.getElem (h : OccursAt p t s) (hs : s ≤ i) (hp : i - s < p.length)
    (hi : i < t.length) : p[i - s] = t[i] := by
  have h' := h.suffix (i := i + 1) (by omega) (by omega)
  rw [show i + 1 - s = i - s + 1 by omega, suffix_take_succ hp hi] at h'
  exact h'.2

/-- What has been matched as a whole occurs. -/
theorem occursAt_of_suffix (hi : i ≤ t.length) (h : p <:+ t.take i) : OccursAt p t (i - p.length) := by
  obtain ⟨u, hu⟩ := h
  have hlen : u.length + p.length = i := by
    rw [← List.length_append, hu, List.length_take]
    omega
  have ht : t = u ++ (p ++ t.drop i) := by
    rw [← List.append_assoc, hu, List.take_append_drop]
  have hdrop : t.drop (i - p.length) = p ++ t.drop i := by
    rw [show i - p.length = u.length by omega]
    conv => lhs; rw [ht]
    exact List.drop_left
  exact ⟨t.drop i, hdrop.symm⟩

/-- It occurs in a prefix of the text. -/
theorem OccursAt.of_take (h : OccursAt p (t.take i) s) : OccursAt p t s := by
  unfold OccursAt at h ⊢
  rw [List.drop_take] at h
  exact h.trans (List.take_prefix _ _)

/-- It occurs in every prefix that is long enough. -/
theorem OccursAt.take (h : OccursAt p t s) (hi : s + p.length ≤ i) : OccursAt p (t.take i) s := by
  unfold OccursAt at h ⊢
  rw [List.drop_take]
  rw [List.prefix_take_iff]
  exact ⟨h, by omega⟩

end LearningNotes
