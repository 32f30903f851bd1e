/-!
# A callback called for the elements of a list

`callAll func xs v` calls `func` for the elements of `xs` in order, until a call returns
something else than 0. `logged func` also writes down what it is called for; what it
has written after `callAll` is a prefix of the list. Two lists differ (`Differ`) if some
position holds different elements in them; this is how a log that went wrong is told
from every log that is a prefix of the right one.
-/

namespace LearningNotes

variable {α σ : Type}

/-- Call `func` for each element until a call does not return 0. -/
def callAll (func : α → σ → Int × σ) : List α → σ → Int × σ
  | [], v => (0, v)
  | x :: xs, v => if (func x v).1 ≠ 0 then func x v else callAll func xs (func x v).2

theorem callAll_append (func : α → σ → Int × σ) (xs ys : List α) (v : σ) :
    callAll func (xs ++ ys) v =
      if (callAll func xs v).1 ≠ 0 then callAll func xs v
      else callAll func ys (callAll func xs v).2 := by
  induction xs generalizing v with
  | nil => rfl
  | cons x xs ih =>
    rw [List.cons_append, callAll, callAll]
    by_cases h : (func x v).1 ≠ 0
    · rw [if_pos h, if_pos h, if_pos h]
    · rw [if_neg h, if_neg h, ih]

/-- `func`, with a log of what it was called for. -/
def logged (func : α → σ → Int × σ) (x : α) (v : σ × List α) : Int × σ × List α :=
  ((func x v.1).1, (func x v.1).2, v.2 ++ [x])

@[simp] theorem logged_fst (func : α → σ → Int × σ) (x : α) (v : σ × List α) :
    (logged func x v).1 = (func x v.1).1 := rfl

@[simp] theorem logged_snd (func : α → σ → Int × σ) (x : α) (v : σ × List α) :
    (logged func x v).2 = ((func x v.1).2, v.2 ++ [x]) := rfl

/-- The calls are the elements in order, up to the one that stopped. -/
theorem callAll_logged (func : α → σ → Int × σ) (xs : List α) (v : σ × List α) :
    (callAll (logged func) xs v).2.2 <+: v.2 ++ xs := by
  induction xs generalizing v with
  | nil =>
    rw [List.append_nil]
    exact List.prefix_rfl
  | cons x xs ih =>
    rw [callAll]
    by_cases h : (logged func x v).1 ≠ 0
    · rw [if_pos h, logged_snd]
      exact ⟨xs, by rw [List.append_assoc, List.singleton_append]⟩
    · rw [if_neg h]
      have hlog := ih (logged func x v).2
      rw [logged_snd, List.append_assoc, List.singleton_append] at hlog
      exact hlog

/-- Nothing stopped: there was a call for each element. -/
theorem callAll_logged_zero (func : α → σ → Int × σ) {xs : List α} {v : σ × List α}
    (h : (callAll (logged func) xs v).1 = 0) :
    (callAll (logged func) xs v).2.2 = v.2 ++ xs := by
  induction xs generalizing v with
  | nil => rw [callAll, List.append_nil]
  | cons x xs ih =>
    rw [callAll] at h ⊢
    by_cases hx : (logged func x v).1 ≠ 0
    · rw [if_pos hx] at h
      exact absurd h hx
    · rw [if_neg hx] at h ⊢
      rw [ih h, logged_snd, List.append_assoc, List.singleton_append]

/-- Some position holds different elements. -/
def Differ (xs ys : List α) : Prop :=
  ∃ (i : Nat) (x y : α), xs[i]? = some x ∧ ys[i]? = some y ∧ x ≠ y

theorem getElem?_extend {xs ys : List α} {i : Nat} {x : α} (h : xs <+: ys)
    (hx : xs[i]? = some x) : ys[i]? = some x := by
  obtain ⟨hi, rfl⟩ := List.getElem?_eq_some_iff.mp hx
  exact List.prefix_iff_getElem?.mp h i hi

/-- What is written behind both changes nothing. -/
theorem Differ.mono {xs xs' ys ys' : List α} (h : Differ xs ys) (hx : xs <+: xs')
    (hy : ys <+: ys') : Differ xs' ys' := by
  obtain ⟨i, x, y, hxi, hyi, hne⟩ := h
  exact ⟨i, x, y, getElem?_extend hx hxi, getElem?_extend hy hyi, hne⟩

theorem Differ.not_extended {xs ys : List α} (h : Differ xs ys) : ¬ ys <+: xs := by
  intro hp
  obtain ⟨i, x, y, hxi, hyi, hne⟩ := h
  have hyx : xs[i]? = some y := getElem?_extend hp hyi
  rw [hxi] at hyx
  exact hne (Option.some.inj hyx)

/-- Two lists that go on differently behind a common part. -/
theorem differ_append {x y : α} (h : x ≠ y) (zs xs ys : List α) :
    Differ (zs ++ x :: xs) (zs ++ y :: ys) := by
  refine ⟨zs.length, x, y, ?_, ?_, h⟩
  · rw [List.getElem?_append_right (Nat.le_refl _), Nat.sub_self, List.getElem?_cons_zero]
  · rw [List.getElem?_append_right (Nat.le_refl _), Nat.sub_self, List.getElem?_cons_zero]

end LearningNotes
