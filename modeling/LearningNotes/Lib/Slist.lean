import Mathlib.Data.List.Nodup
import Mathlib.Logic.Function.Basic

/-!
# Singly linked lists

`next a` is the pointer in the node at address `a`. `Follow next p l` says that the pointer `p`
leads along the addresses `l` to the null pointer. An address has one pointer only, so such a list
visits no address twice (`Follow.nodup`). A node is pushed in front (`Follow.push`), taken from the
front, or taken from behind another one (`Follow.unlink`); nothing else in memory matters
(`Follow.congr`).
-/

namespace LearningNotes

variable {α : Type} {next next' : α → Option α} {p : Option α} {a b c : α} {l l₁ l₂ : List α}

/-- From `p` one comes along `l` to the null pointer. -/
def Follow (next : α → Option α) : Option α → List α → Prop
  | p, [] => p = none
  | p, a :: l => p = some a ∧ Follow next (next a) l

theorem Follow.head (h : Follow next p l) : p = l.head? := by
  cases l with
  | nil => exact h
  | cons a l => exact h.1

theorem Follow.congr (h : Follow next p l) (heq : ∀ a ∈ l, next' a = next a) :
    Follow next' p l := by
  induction l generalizing p with
  | nil => exact h
  | cons a l ih =>
    refine ⟨h.1, ?_⟩
    rw [heq a (List.mem_cons_self ..)]
    exact ih h.2 fun b hb => heq b (List.mem_cons_of_mem _ hb)

/-- The end of a list is a list. -/
theorem Follow.drop (h : Follow next p (l₁ ++ l₂)) : Follow next l₂.head? l₂ := by
  induction l₁ generalizing p with
  | nil =>
    have hp := h.head
    rw [List.nil_append] at h hp
    exact hp ▸ h
  | cons a l₁ ih => exact ih h.2

/-- What the node at `b` points to. -/
theorem Follow.next_eq (h : Follow next p (l₁ ++ b :: l₂)) : next b = l₂.head? :=
  h.drop.2.head

theorem Follow.unique {l' : List α} (h : Follow next p l) (h' : Follow next p l') : l = l' := by
  induction l generalizing p l' with
  | nil =>
    cases l' with
    | nil => rfl
    | cons b l' => exact absurd (h.symm.trans h'.1) (by simp)
  | cons a l ih =>
    cases l' with
    | nil => exact absurd (h'.symm.trans h.1) (by simp)
    | cons b l' =>
      cases h.1.symm.trans h'.1
      rw [ih h.2 h'.2]

theorem Follow.nodup (h : Follow next p l) : l.Nodup := by
  induction l generalizing p with
  | nil => exact List.nodup_nil
  | cons a l ih =>
    refine List.nodup_cons.mpr ⟨fun hmem => ?_, ih h.2⟩
    -- a second visit would start the same list again, inside itself
    obtain ⟨l₁, l₂, rfl⟩ := List.append_of_mem hmem
    have htail : Follow next (next a) l₂ := h.2.drop.2
    have hlen := congrArg List.length (htail.unique h.2)
    simp only [List.length_append, List.length_cons] at hlen
    omega

variable [DecidableEq α]

/-- A new node in front. -/
theorem Follow.push (h : Follow next p l) (ha : a ∉ l) :
    Follow (Function.update next a p) (some a) (a :: l) := by
  refine ⟨rfl, ?_⟩
  rw [Function.update_self]
  exact h.congr fun b hb => Function.update_of_ne (ne_of_mem_of_not_mem hb ha) ..

/-- The node in front of `c` is made to point behind it. -/
theorem Follow.unlink (h : Follow next p (l₁ ++ b :: c :: l₂)) :
    Follow (Function.update next b (next c)) p (l₁ ++ b :: l₂) := by
  have hnodup := h.nodup
  induction l₁ generalizing p with
  | nil =>
    have hb : b ∉ l₂ := fun hb => by simp [hb] at hnodup
    refine ⟨h.1, ?_⟩
    rw [Function.update_self]
    exact h.2.2.congr fun a ha => Function.update_of_ne (ne_of_mem_of_not_mem ha hb) ..
  | cons a l₁ ih =>
    have hab : a ≠ b := fun he => by simp [he] at hnodup
    refine ⟨h.1, ?_⟩
    rw [Function.update_of_ne hab]
    exact ih h.2 (List.nodup_cons.mp hnodup).2

end LearningNotes
