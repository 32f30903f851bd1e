import Mathlib.Order.BoundedOrder.Basic
import Mathlib.Order.Lattice
import Mathlib.Data.List.Count

/-!
# Merging behind sentinels

Two sorted lists can be merged without a test for the end of either if each is followed by the
greatest value there is. That is right as long as the lists do not hold the greatest value
themselves. With it in the lists, which of two equal heads is taken decides: the left one, so the
greatest values of the right list are never reached, and the left list is read on in
their place. One of them is made good by the left sentinel, a second one is not.
-/

namespace LearningNotes

variable {α : Type} [LinearOrder α] {l r : List α}

/-- Takes `n` times the smaller head, the left one of two equal ones. There is no result when a
list has no head to compare. -/
def mergeHeads : Nat → List α → List α → Option (List α)
  | 0, _, _ => some []
  | n + 1, x :: l, y :: r =>
    if x ≤ y then (mergeHeads n l (y :: r)).map (x :: ·)
    else (mergeHeads n (x :: l) r).map (y :: ·)
  | _ + 1, _, _ => none

/-- The left head is not greater. -/
theorem mergeHeads_left {n : Nat} {x y : α} (h : x ≤ y) (l r : List α) :
    mergeHeads (n + 1) (x :: l) (y :: r) = (mergeHeads n l (y :: r)).map (x :: ·) := if_pos h

/-- The right head is smaller. -/
theorem mergeHeads_right {n : Nat} {x y : α} (h : y < x) (l r : List α) :
    mergeHeads (n + 1) (x :: l) (y :: r) = (mergeHeads n (x :: l) r).map (y :: ·) :=
  if_neg (not_le_of_gt h)

/-- There is no head on the left. -/
theorem mergeHeads_nil {n : Nat} (r : List α) : mergeHeads (n + 1) [] r = none := rfl

/-- Whether the merge goes through depends on the right list alone, and it has the result the
merge of the two lists has. -/
theorem mergeHeads_top [OrderTop α] [BEq α] [LawfulBEq α] : ∀ {l r : List α}, l.Pairwise (· ≤ ·) → r.Pairwise (· ≤ ·) →
    mergeHeads (l.length + r.length) (l ++ [⊤]) (r ++ [⊤])
      = if r.count ⊤ ≤ 1 then some (l.merge r) else none
  | [], [], _, _ => by simp [mergeHeads]
  | x :: l, [], hl, _ => by
    have ih := mergeHeads_top hl.of_cons (List.Pairwise.nil (R := fun a b : α => a ≤ b))
    have hstep := mergeHeads_left (n := l.length) (le_top : x ≤ ⊤) (l ++ [⊤]) []
    simp only [List.length_nil, Nat.add_zero, List.nil_append, List.merge_right, List.count_nil,
      Nat.zero_le, if_true] at ih ⊢
    rw [List.length_cons, List.cons_append, hstep, ih]
    rfl
  | [], y :: r, _, hr => by
    rw [List.nil_merge]
    rcases lt_or_eq_of_le (le_top : y ≤ ⊤) with hlt | rfl
    · have ih := mergeHeads_top (List.Pairwise.nil (R := fun a b : α => a ≤ b)) hr.of_cons
      have hstep := mergeHeads_right (n := r.length) hlt [] (r ++ [⊤])
      have hcount : (y :: r).count ⊤ = r.count ⊤ := List.count_cons_of_ne (ne_of_lt hlt)
      simp only [List.length_nil, Nat.zero_add, List.nil_append, List.nil_merge] at ih ⊢
      rw [List.length_cons, List.cons_append, hstep, ih, hcount]
      split
      · rfl
      · rfl
    · -- The left sentinel is taken, and every other value of the right list is the greatest one.
      have hstep := mergeHeads_left (n := r.length) (le_refl (⊤ : α)) [] (r ++ [⊤])
      simp only [List.length_nil, Nat.zero_add, List.nil_append]
      rw [List.length_cons, List.cons_append, hstep]
      cases r with
      | nil => simp [mergeHeads]
      | cons z r =>
        have hz : z = ⊤ := top_le_iff.mp ((List.pairwise_cons.mp hr).1 z List.mem_cons_self)
        have hcount : ¬(⊤ :: z :: r).count ⊤ ≤ 1 := by
          rw [hz, List.count_cons_self, List.count_cons_self]
          omega
        rw [if_neg hcount, List.length_cons, mergeHeads_nil]
        rfl
  | x :: l, y :: r, hl, hr => by
    rcases le_or_gt x y with h | h
    · have ih := mergeHeads_top hl.of_cons hr
      rw [List.cons_merge_cons_pos _ _ _ (decide_eq_true h)]
      rw [show (x :: l).length + (y :: r).length = l.length + (y :: r).length + 1 by
        simp only [List.length_cons]; omega]
      rw [List.cons_append, List.cons_append, mergeHeads_left h, ← List.cons_append, ih]
      split
      · rfl
      · rfl
    · have ih := mergeHeads_top hl hr.of_cons
      have hcount : (y :: r).count ⊤ = r.count ⊤ :=
        List.count_cons_of_ne (ne_of_lt (lt_of_lt_of_le h le_top))
      rw [List.cons_merge_cons_neg _ _ _ (by simpa using h), hcount]
      rw [show (x :: l).length + (y :: r).length = (x :: l).length + r.length + 1 by
        simp only [List.length_cons]; omega]
      rw [List.cons_append, List.cons_append, mergeHeads_right h, ← List.cons_append, ih]
      split
      · rfl
      · rfl
  termination_by l r => l.length + r.length

/-- Two sorted lists make a sorted one. -/
theorem merge_pairwise (hl : l.Pairwise (· ≤ ·)) (hr : r.Pairwise (· ≤ ·)) :
    (l.merge r).Pairwise (· ≤ ·) := by
  have hdec : ∀ {l : List α}, l.Pairwise (· ≤ ·) ↔ l.Pairwise fun a b => decide (a ≤ b) = true := by
    intro l
    simp
  rw [hdec] at hl hr ⊢
  apply List.pairwise_merge _ _ l r hl hr
  · intro a b c hab hbc
    simp only [decide_eq_true_eq] at hab hbc ⊢
    exact le_trans hab hbc
  · intro a b
    simpa using le_total a b

end LearningNotes
