import Mathlib.Algebra.Order.BigOperators.Group.List
import Mathlib.Combinatorics.Enumerative.Composition

/-!
# The best composition

A composition of `n` is a way to write it as an ordered sum of positive numbers. Each of them has a
price, and `best p n` is the greatest price of a composition. One of a positive `n` has a first
block, and what follows it is a composition of the rest: so `best` is the greatest of
`p i + best p (n - i)` (`eq_best`).
-/

namespace LearningNotes

variable {M : Type} [AddCommMonoid M] {p : Nat → M} {n i : Nat} {v : M}

/-- The sum of the prices of the blocks. -/
def price (p : Nat → M) {n : Nat} (c : Composition n) : M := (c.blocks.map p).sum

/-- A composition of what is left, after a first block. -/
theorem exists_cons (hpos : 1 ≤ i) (hle : i ≤ n) (c : Composition (n - i)) :
    ∃ c' : Composition n, c'.blocks = i :: c.blocks := by
  refine ⟨⟨i :: c.blocks, ?_, ?_⟩, rfl⟩
  · intro j hj
    obtain rfl | hj := List.mem_cons.mp hj
    · exact hpos
    · exact c.blocks_pos hj
  · rw [List.sum_cons, c.blocks_sum]
    omega

/-- The first block, and what follows it. -/
theorem exists_first (hn : 1 ≤ n) (c : Composition n) :
    ∃ i, 1 ≤ i ∧ i ≤ n ∧ ∃ c' : Composition (n - i), c.blocks = i :: c'.blocks := by
  have hsum := c.blocks_sum
  cases hblocks : c.blocks with
  | nil =>
    rw [hblocks, List.sum_nil] at hsum
    omega
  | cons i rest =>
    rw [hblocks, List.sum_cons] at hsum
    have hpos : 1 ≤ i := c.blocks_pos (hblocks ▸ List.mem_cons_self)
    refine ⟨i, hpos, by omega, ⟨rest, ?_, by omega⟩, rfl⟩
    intro j hj
    exact c.blocks_pos (hblocks ▸ List.mem_cons_of_mem i hj)

/-- The first piece, and the rest. -/
theorem price_of_blocks {c : Composition n} {c' : Composition (n - i)}
    (h : c.blocks = i :: c'.blocks) : price p c = p i + price p c' := by
  rw [price, h, List.map_cons, List.sum_cons, price]

variable [LinearOrder M]

/-- The greatest price of a composition of `n`. -/
def best (p : Nat → M) (n : Nat) : M := Finset.univ.sup' Finset.univ_nonempty (price p (n := n))

theorem price_le_best (c : Composition n) : price p c ≤ best p n :=
  Finset.le_sup' (price p) (Finset.mem_univ c)

/-- The greatest price is that of some cuts. -/
theorem exists_price_eq_best (p : Nat → M) (n : Nat) : ∃ c : Composition n, price p c = best p n := by
  obtain ⟨c, -, hc⟩ := Finset.exists_mem_eq_sup' Finset.univ_nonempty (price p (n := n))
  exact ⟨c, hc.symm⟩

theorem best_zero : best p 0 = 0 := by
  obtain ⟨c, hc⟩ := exists_price_eq_best p 0
  rw [← hc, price, c.blocks_eq_nil.mpr rfl]
  rfl

/-- To cut off a piece and the rest at best gives no more than the best. -/
theorem first_le_best (hpos : 1 ≤ i) (hle : i ≤ n) : p i + best p (n - i) ≤ best p n := by
  obtain ⟨c, hc⟩ := exists_price_eq_best p (n - i)
  obtain ⟨c', hblocks⟩ := exists_cons hpos hle c
  rw [← hc, ← price_of_blocks hblocks]
  exact price_le_best c'

variable [IsOrderedAddMonoid M]

/-- A bound for each first piece is a bound for the best. -/
theorem best_le (hn : 1 ≤ n) (h : ∀ i, 1 ≤ i → i ≤ n → p i + best p (n - i) ≤ v) :
    best p n ≤ v := by
  obtain ⟨c, hc⟩ := exists_price_eq_best p n
  obtain ⟨i, hpos, hle, c', hblocks⟩ := exists_first hn c
  rw [← hc, price_of_blocks hblocks]
  exact le_trans (add_le_add_right (price_le_best c') (p i)) (h i hpos hle)

/-- **The best first block** leads to the best composition. -/
theorem eq_best (hpos : 1 ≤ i) (hle : i ≤ n) (hv : v = p i + best p (n - i))
    (h : ∀ i, 1 ≤ i → i ≤ n → p i + best p (n - i) ≤ v) : v = best p n :=
  le_antisymm (hv ▸ first_le_best hpos hle) (best_le (Nat.le_trans hpos hle) h)

/-- No price is negative. -/
theorem best_nonneg (hp : ∀ i, 1 ≤ i → i ≤ n → 0 ≤ p i) : 0 ≤ best p n := by
  obtain ⟨c, hc⟩ := exists_price_eq_best p n
  rw [← hc]
  refine List.sum_nonneg fun x hx => ?_
  obtain ⟨i, hi, rfl⟩ := List.mem_map.mp hx
  exact hp i (c.blocks_pos hi) (c.blocks_le hi)

end LearningNotes
