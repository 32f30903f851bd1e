import Mathlib.Data.List.Count
import Mathlib.Logic.Function.Basic

/-!
# Who holds what

A list of pairs records who holds a handle to which object, a pair for each handle.
`outstanding b l` is the number of handles to the object `b`.

Where each party has at most one object, `hand` reads it off the party's state. No two parties
have the same object, as long as a party takes only what nobody else has (`eq_of_hand_update`).
-/

namespace LearningNotes

variable {α β : Type} [DecidableEq β] {a : α} {b c : β} {l : List (α × β)}

/-- How many handles to `b` there are. -/
def outstanding (b : β) (l : List (α × β)) : Nat := l.countP (·.2 = b)

/-- One handle to the object more. -/
theorem outstanding_cons (a : α) (b : β) (l : List (α × β)) :
    outstanding b ((a, b) :: l) = outstanding b l + 1 := by
  simp [outstanding]

/-- A handle to another object does not count. -/
theorem outstanding_cons_ne (a : α) (h : b ≠ c) (l : List (α × β)) :
    outstanding c ((a, b) :: l) = outstanding c l := by
  simp [outstanding, h]

/-- An object with a handle has some. -/
theorem outstanding_pos (h : (a, b) ∈ l) : 0 < outstanding b l :=
  List.countP_pos_iff.mpr ⟨(a, b), h, by simp⟩

/-- Nobody has a handle. -/
theorem outstanding_eq_zero : outstanding b l = 0 ↔ ∀ a, (a, b) ∉ l := by
  refine ⟨fun h a hmem => ?_, fun h => ?_⟩
  · have := outstanding_pos hmem
    omega
  · refine List.countP_eq_zero.mpr fun x hx hb => ?_
    have hb : x.2 = b := of_decide_eq_true hb
    exact h x.1 (hb ▸ hx)

variable [DecidableEq α]

/-- One handle to the object less. -/
theorem outstanding_erase (h : (a, b) ∈ l) :
    outstanding b (l.erase (a, b)) + 1 = outstanding b l := by
  have hperm := (List.perm_cons_erase h).countP_eq fun x : α × β => decide (x.2 = b)
  rw [List.countP_cons_of_pos (by simp)] at hperm
  exact hperm.symm

/-- A handle to another object does not count. -/
theorem outstanding_erase_ne (a : α) (h : b ≠ c) (l : List (α × β)) :
    outstanding c (l.erase (a, b)) = outstanding c l := by
  by_cases hmem : (a, b) ∈ l
  · have hperm := (List.perm_cons_erase hmem).countP_eq fun x : α × β => decide (x.2 = c)
    rw [List.countP_cons_of_neg (by simp [h])] at hperm
    exact hperm.symm
  · rw [List.erase_of_not_mem hmem]

/-- The only handle is the one that is known. -/
theorem eq_of_outstanding_one {a' : α} (h : outstanding b l = 1) (ha : (a, b) ∈ l)
    (ha' : (a', b) ∈ l) : a' = a := by
  by_contra hne
  have hout := outstanding_erase ha
  have hmem : (a', b) ∈ l.erase (a, b) := (List.mem_erase_of_ne (by simp [hne])).mpr ha'
  have := outstanding_pos hmem
  omega

/-- The handles of `a` and those of the others. -/
theorem outstanding_filter (a : α) (b : β) (l : List (α × β)) :
    outstanding b (l.filter (·.1 ≠ a)) + l.count (a, b) = outstanding b l := by
  induction l with
  | nil => rfl
  | cons x xs ih =>
    obtain ⟨a', b'⟩ := x
    simp only [outstanding, List.filter_cons, List.count_cons, List.countP_cons] at ih ⊢
    by_cases ha : a' = a <;> by_cases hb : b' = b
    · simp [ha, hb] at ih ⊢
      omega
    · simp [ha, hb] at ih ⊢
      omega
    · simp [ha, hb] at ih ⊢
      omega
    · simp [ha, hb] at ih ⊢
      omega

/-! ## One object in each hand -/

section Hands

variable {ι σ κ : Type} [DecidableEq ι] {hand : σ → Option κ} {f : ι → σ} {i j j' : ι} {x : σ} {k : κ}

/-- A party that takes nothing new: what is in a hand was there before. -/
theorem hand_of_update (hx : hand x = hand (f i) ∨ hand x = none)
    (h : hand (Function.update f i x j) = some k) : hand (f j) = some k := by
  by_cases hj : j = i
  · subst hj
    rw [Function.update_self] at h
    rcases hx with hx | hx
    · exact hx.symm.trans h
    · exact absurd (hx.symm.trans h) (by simp)
  · rwa [Function.update_of_ne hj] at h

/-- **A party that takes what nobody else has**: still no two have the same. -/
theorem eq_of_hand_update (honce : ∀ j j' k, hand (f j) = some k → hand (f j') = some k → j = j')
    (hnew : ∀ j k, j ≠ i → hand x = some k → hand (f j) ≠ some k)
    (h : hand (Function.update f i x j) = some k) (h' : hand (Function.update f i x j') = some k) :
    j = j' := by
  by_cases hj : j = i
  · by_cases hj' : j' = i
    · exact hj.trans hj'.symm
    · subst hj
      rw [Function.update_self] at h
      rw [Function.update_of_ne hj'] at h'
      exact absurd h' (hnew j' k hj' h)
  · by_cases hj' : j' = i
    · subst hj'
      rw [Function.update_self] at h'
      rw [Function.update_of_ne hj] at h
      exact absurd h (hnew j k hj h')
    · rw [Function.update_of_ne hj] at h
      rw [Function.update_of_ne hj'] at h'
      exact honce j j' k h h'

end Hands

end LearningNotes
