import Mathlib.Order.Bounds.Basic

/-!
# Walks and distance labels

A walk follows the steps of a relation from a source and counts them. A labelling that gives the
source 0, that only gives labels some walk attains and that grows by at most one along a step
(`Labelled`) is the distance from the source: its label of a vertex is the least length of a walk
there, and the vertices it leaves out are those no walk reaches.
-/

namespace LearningNotes

variable {V : Type} {E E' : V → V → Prop} {s u v : V} {m n : Nat} {d : V → Option Nat}

/-- `n` steps of `E` lead from `s` to `v`. -/
inductive Walk (E : V → V → Prop) (s : V) : Nat → V → Prop where
  | nil : Walk E s 0 s
  | snoc {n : Nat} {u v : V} : Walk E s n u → E u v → Walk E s (n + 1) v

/-- The labels of `d` grow along the steps of `E` as distances from `s` do. -/
structure Labelled (E : V → V → Prop) (s : V) (d : V → Option Nat) : Prop where
  source : d s = some 0
  walk : ∀ v n, d v = some n → Walk E s n v
  step : ∀ u v m, d u = some m → E u v → ∃ n, d v = some n ∧ n ≤ m + 1

theorem Labelled.le_walk (h : Labelled E s d) (hw : Walk E s n v) : ∃ m, d v = some m ∧ m ≤ n := by
  induction hw with
  | nil => exact ⟨0, h.source, Nat.le_refl 0⟩
  | snoc _ he ih =>
    obtain ⟨m, hm, hmn⟩ := ih
    obtain ⟨k, hk, hkm⟩ := h.step _ _ _ hm he
    exact ⟨k, hk, by omega⟩

/-- The label of a vertex is the length of a shortest walk to it. -/
theorem Labelled.eq_some_iff (h : Labelled E s d) : d v = some n ↔ IsLeast {k | Walk E s k v} n := by
  constructor
  · intro hd
    refine ⟨h.walk v n hd, fun k hk => ?_⟩
    obtain ⟨m, hm, hmk⟩ := h.le_walk hk
    rw [hd, Option.some.injEq] at hm
    omega
  · rintro ⟨hw, hleast⟩
    obtain ⟨m, hm, hmn⟩ := h.le_walk hw
    have hnm : n ≤ m := hleast (h.walk v m hm)
    rw [hm, Nat.le_antisymm hmn hnm]

/-- A vertex without a label is one that no walk reaches. -/
theorem Labelled.eq_none_iff (h : Labelled E s d) : d v = none ↔ ∀ n, ¬ Walk E s n v := by
  constructor
  · intro hd n hw
    obtain ⟨m, hm, -⟩ := h.le_walk hw
    simp [hd] at hm
  · intro hno
    cases hd : d v with
    | none => rfl
    | some n => exact absurd (h.walk v n hd) (hno n)

end LearningNotes
