import Mathlib.Algebra.BigOperators.Group.Finset.Basic
import Mathlib.Algebra.BigOperators.Group.Finset.Piecewise
import Mathlib.Algebra.Order.BigOperators.Group.Finset
import Mathlib.Data.Fintype.BigOperators
import Mathlib.Logic.Function.Basic

/-!
# Tallies

`tally f pc` adds up what the members of a finite family count for. When one of them changes, the
tally changes by what that one counted for before and counts for now (`tally_update`).
-/

namespace LearningNotes

variable {T P : Type} [Fintype T] [DecidableEq T] {f : P → Nat} {pc : T → P}

/-- The sum over all threads of what each of them counts for. -/
def tally (f : P → Nat) (pc : T → P) : Nat := ∑ t, f (pc t)

/-- One thread goes from its place to `p`. -/
theorem tally_update (f : P → Nat) (pc : T → P) (t : T) (p : P) :
    tally f (Function.update pc t p) + f (pc t) = tally f pc + f p := by
  have hrest : ∑ t' ∈ Finset.univ.erase t, f (Function.update pc t p t') =
      ∑ t' ∈ Finset.univ.erase t, f (pc t') :=
    Finset.sum_congr rfl fun t' ht' => by rw [Function.update_of_ne (Finset.ne_of_mem_erase ht')]
  have h₁ := Finset.add_sum_erase Finset.univ (fun t' => f (Function.update pc t p t'))
    (Finset.mem_univ t)
  have h₂ := Finset.add_sum_erase Finset.univ (fun t' => f (pc t')) (Finset.mem_univ t)
  rw [Function.update_self, hrest] at h₁
  unfold tally
  omega

omit [DecidableEq T] in
theorem le_tally (f : P → Nat) (pc : T → P) (t : T) : f (pc t) ≤ tally f pc :=
  Finset.single_le_sum (f := fun t => f (pc t)) (fun _ _ => Nat.zero_le _) (Finset.mem_univ t)

omit [DecidableEq T] in
/-- Nothing is counted only when nobody counts. -/
theorem tally_eq_zero : tally f pc = 0 ↔ ∀ t, f (pc t) = 0 := by
  simp [tally]

end LearningNotes
