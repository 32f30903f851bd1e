import Mathlib.Data.Finset.Card
import Mathlib.Data.Set.Pairwise.Basic
import Mathlib.Order.Defs.LinearOrder

/-!
# Compatible intervals

Intervals `[s x, f x)`, taken in the order in which they finish. `Ahead A n k`: no compatible
subset of `A` has more than `n` elements, and none that has `n` finishes before `k` does. This is
kept when an interval that finishes last is added and counted (`Ahead.take`), because it starts
when `k` has finished, or is added and not counted (`Ahead.skip`), because it starts before that.
-/

namespace LearningNotes

variable {ι τ : Type} [LinearOrder τ] {s f : ι → τ} {A T : Finset ι} {n : Nat} {k m : ι}

/-- No two of the intervals overlap. -/
def Compatible (s f : ι → τ) (T : Finset ι) : Prop :=
  (T : Set ι).Pairwise fun x y => f x ≤ s y ∨ f y ≤ s x

/-- No compatible part of `A` has more than `n` intervals, and one of `n` ends no earlier than `k`.
-/
def Ahead (s f : ι → τ) (A : Finset ι) (n : Nat) (k : ι) : Prop :=
  ∀ T ⊆ A, Compatible s f T → T.card ≤ n ∧ (T.card = n → ∃ t ∈ T, f k ≤ f t)

/-- Fewer intervals are compatible, too. -/
theorem Compatible.subset {T' : Finset ι} (h : Compatible s f T) (hsub : T' ⊆ T) :
    Compatible s f T' := Set.Pairwise.mono (Finset.coe_subset.mpr hsub) h

/-- The first interval is taken. -/
theorem Ahead.singleton (k : ι) : Ahead s f {k} 1 k := by
  intro T hT _
  refine ⟨Finset.card_le_card hT, fun hcard => ⟨k, ?_, le_refl _⟩⟩
  rw [Finset.eq_of_subset_of_card_le hT (Nat.le_of_eq hcard.symm)]
  exact Finset.mem_singleton_self k

variable [DecidableEq ι]

/-- What is compatible with an interval that finishes last has finished when it starts. -/
theorem Compatible.before (h : Compatible s f T) (hm : m ∈ T) (hlt : ∀ x ∈ T, s x < f x)
    (hlast : ∀ x ∈ T, f x ≤ f m) : ∀ x ∈ T.erase m, f x ≤ s m := by
  intro x hx
  obtain ⟨hne, hmem⟩ := Finset.mem_erase.mp hx
  obtain hxm | hmx := h hmem hm hne
  · exact hxm
  · exact absurd (lt_of_le_of_lt hmx (hlt x hmem)) (not_lt.mpr (hlast x hmem))

/-- The next one that begins late enough is taken. -/
theorem Ahead.take (h : Ahead s f A n k) : Ahead s f (insert m A) (n + 1) m := by
  intro T hT hc
  have herase := h _ (Finset.subset_insert_iff.mp hT) (hc.subset (Finset.erase_subset m T))
  by_cases hm : m ∈ T
  · have hcard := Finset.card_erase_add_one hm
    exact ⟨by omega, fun _ => ⟨m, hm, le_refl _⟩⟩
  · rw [Finset.erase_eq_of_notMem hm] at herase
    exact ⟨by omega, fun hcard => by omega⟩

/-- One that begins too early is left out. -/
theorem Ahead.skip (h : Ahead s f A n k) (hstart : s m < f k) (hlt : ∀ x ∈ insert m A, s x < f x)
    (hlast : ∀ x ∈ insert m A, f x ≤ f m) (hk : k ∈ A) : Ahead s f (insert m A) n k := by
  intro T hT hc
  have herase := h _ (Finset.subset_insert_iff.mp hT) (hc.subset (Finset.erase_subset m T))
  by_cases hm : m ∈ T
  · have hcard := Finset.card_erase_add_one hm
    have hbefore := hc.before hm (fun x hx => hlt x (hT hx)) fun x hx => hlast x (hT hx)
    -- the others have finished before `k` does, so that there are less than `n` of them
    have hless : (T.erase m).card ≠ n := by
      intro heq
      obtain ⟨t, ht, hkt⟩ := herase.2 heq
      exact absurd (le_trans hkt (hbefore t ht)) (not_le.mpr hstart)
    exact ⟨by omega, fun _ => ⟨m, hm, hlast k (Finset.mem_insert_of_mem hk)⟩⟩
  · rwa [Finset.erase_eq_of_notMem hm] at herase

end LearningNotes
