import Mathlib.Data.List.Perm.Basic

/-!
# A fixed number of slots

What the slots of a list stand for, slot by slot, and what changes when one slot is set.
-/

namespace LearningNotes

variable {α β : Type} {l : List α} {i : Nat} {a b : α}

theorem exists_split_of_getElem? (h : l[i]? = some a) :
    ∃ l₁ l₂, l = l₁ ++ a :: l₂ ∧ ∀ b, l.set i b = l₁ ++ b :: l₂ := by
  obtain ⟨hi, rfl⟩ := List.getElem?_eq_some_iff.mp h
  refine ⟨l.take i, l.drop (i + 1), ?_, fun b => ?_⟩
  · rw [List.getElem_cons_drop, List.take_append_drop]
  · exact List.set_eq_take_cons_drop b hi

/-- Setting a slot takes out what the old value stood for and puts in what the new one does. -/
theorem filterMap_set_perm (f : α → Option β) (h : l[i]? = some a) (b : α) :
    ((f a).toList ++ (l.set i b).filterMap f).Perm ((f b).toList ++ l.filterMap f) := by
  obtain ⟨l₁, l₂, rfl, hset⟩ := exists_split_of_getElem? h
  rw [hset, List.filterMap_append, List.filterMap_append]
  have hcons : ∀ x : α, (x :: l₂).filterMap f = (f x).toList ++ l₂.filterMap f := by
    intro x
    cases hx : f x <;> simp [hx]
  rw [hcons, hcons]
  generalize (f a).toList = as
  generalize (f b).toList = bs
  generalize l₁.filterMap f = l₁
  generalize l₂.filterMap f = l₂
  have h₁ : (as ++ (l₁ ++ (bs ++ l₂))).Perm (as ++ (bs ++ (l₁ ++ l₂))) :=
    (List.perm_append_comm_assoc l₁ bs l₂).append_left as
  have h₂ : (bs ++ (l₁ ++ (as ++ l₂))).Perm (bs ++ (as ++ (l₁ ++ l₂))) :=
    (List.perm_append_comm_assoc l₁ as l₂).append_left bs
  exact (h₁.trans (List.perm_append_comm_assoc as bs _)).trans h₂.symm

section Ledger

variable {t r m m' : List β} {o : β}

/-- Finished and unfinished things together are the things that were begun; one more is begun. -/
theorem perm_begin (h : (t ++ m).Perm r) (hm : m'.Perm (o :: m)) : (t ++ m').Perm (r ++ [o]) := by
  have h₁ : (t ++ m').Perm (o :: (t ++ m)) := (hm.append_left t).trans List.perm_middle
  have h₂ : (r ++ [o]).Perm (o :: r) := List.perm_append_comm
  exact (h₁.trans (h.cons o)).trans h₂.symm

/-- One is finished. -/
theorem perm_finish (h : (t ++ m).Perm r) (hm : (o :: m').Perm m) :
    (t ++ [o] ++ m').Perm r := by
  rw [List.append_assoc]
  exact (hm.append_left t).trans h

theorem perm_same (h : (t ++ m).Perm r) (hm : m'.Perm m) : (t ++ m').Perm r :=
  (hm.append_left t).trans h

end Ledger

/-- A property of all slots stays when the slot that is set has it. -/
theorem forall_set {P : α → Prop} (h : ∀ x ∈ l, P x) (hb : P b) (i : Nat) :
    ∀ x ∈ l.set i b, P x := by
  intro x hx
  rcases List.mem_or_eq_of_mem_set hx with hx | rfl
  · exact h x hx
  · exact hb

end LearningNotes
