import LearningNotes.Lib.Intervals
import Mathlib.Algebra.Order.Interval.Finset.SuccPred
import Mathlib.Data.Nat.SuccPred
import Mathlib.Data.Int.Order.Basic
import Mathlib.Order.Interval.Finset.Nat

/-!
# The greedy activity selector

`greedy_activity_selector` takes the activities in the order in which they finish, and each that
starts when the last one it has taken has finished, so that no compatible set of the activities so
far has more elements (`Ahead`).

Mirroring notes:
- The arrays start at index 0, and their first element is not used in `s` and `f`.
- The function is void; its local `i` is returned as well, for what it has written to `a`.
-/

namespace LearningNotes.Algorithm

variable {s f : Nat → Int} {N m i k : Nat} {a a₀ : Nat → Nat}

/-- `a[0..i]` -/
def written (i : Nat) (a : Nat → Nat) : List Nat := (List.range (i + 1)).map a

/-- One more is written down. -/
theorem written_update : written (i + 1) (Function.update a (i + 1) m) = written i a ++ [m] := by
  unfold written
  rw [List.range_succ, List.map_append, List.map_singleton, Function.update_self]
  congr 1
  refine List.map_congr_left fun j hj => Function.update_of_ne ?_ _ _
  rw [List.mem_range] at hj
  omega

/-- The activities are proper, and sorted by their finish times. -/
structure Activities (N : Nat) (s f : Nat → Int) : Prop where
  lt : ∀ i, 1 ≤ i → i ≤ N → s i < f i
  mono : ∀ i j, 1 ≤ i → i ≤ j → j ≤ N → f i ≤ f j

/-- What the loop keeps: `k` is the last activity taken, and of those before `m` no more can be
taken. -/
structure Taken (s f : Nat → Int) (a₀ : Nat → Nat) (i k : Nat) (a : Nat → Nat) (m : Nat) : Prop where
  frame : ∀ j, i < j → a j = a₀ j
  last : k ∈ Finset.Ico 1 m
  mem : ∀ x ∈ written i a, 1 ≤ x ∧ x ≤ k
  sorted : (written i a).Pairwise fun x y => x < y ∧ f x ≤ s y
  ahead : Ahead s f (Finset.Ico 1 m) (i + 1) k

/-- The first activity is taken. -/
theorem Taken.start (a : Nat → Nat) : Taken s f a 0 1 (Function.update a 0 1) 2 := by
  have hwritten : written 0 (Function.update a 0 1) = [1] := by
    unfold written
    simp
  refine ⟨fun j hj => Function.update_of_ne (by omega) _ _, by simp, ?_, ?_, Ahead.singleton 1⟩
  · rw [hwritten]
    simp
  · rw [hwritten]
    exact List.pairwise_singleton _ _

/-- The next one that starts late enough is taken. -/
theorem Taken.take (h : Taken s f a₀ i k a m) (hact : Activities N s f) (hm : m ≤ N)
    (hstart : f k ≤ s m) : Taken s f a₀ (i + 1) m (Function.update a (i + 1) m) (m + 1) := by
  have hk := Finset.mem_Ico.mp h.last
  refine ⟨fun j hj => ?_, Finset.mem_Ico.mpr ⟨by omega, by omega⟩, ?_, ?_, ?_⟩
  · rw [Function.update_of_ne (by omega)]
    exact h.frame j (by omega)
  · intro x hx
    rw [written_update, List.mem_append, List.mem_singleton] at hx
    obtain hx | rfl := hx
    · have hxk := h.mem x hx
      omega
    · omega
  · rw [written_update, List.pairwise_append]
    refine ⟨h.sorted, List.pairwise_singleton _ _, fun x hx y hy => ?_⟩
    obtain rfl := List.mem_singleton.mp hy
    have hxk := h.mem x hx
    have hfin := hact.mono x k hxk.1 hxk.2 (by omega)
    omega
  · rw [← Finset.insert_Ico_right_eq_Ico_add_one (show 1 ≤ m by omega)]
    exact h.ahead.take

/-- One that starts too early is left out. -/
theorem Taken.skip (h : Taken s f a₀ i k a m) (hact : Activities N s f) (hm : m ≤ N)
    (hstart : s m < f k) : Taken s f a₀ i k a (m + 1) := by
  have hk := Finset.mem_Ico.mp h.last
  have hinsert : insert m (Finset.Ico 1 m) = Finset.Ico 1 (m + 1) :=
    Finset.insert_Ico_right_eq_Ico_add_one (by omega)
  refine ⟨h.frame, Finset.mem_Ico.mpr ⟨by omega, by omega⟩, h.mem, h.sorted, ?_⟩
  rw [← hinsert]
  refine h.ahead.skip hstart ?_ ?_ h.last
  · intro x hx
    rw [hinsert, Finset.mem_Ico] at hx
    exact hact.lt x hx.1 (by omega)
  · intro x hx
    rw [hinsert, Finset.mem_Ico] at hx
    exact hact.mono x m hx.1 (by omega) hm

end LearningNotes.Algorithm
