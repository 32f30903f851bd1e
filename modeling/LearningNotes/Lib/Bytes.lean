/-!
# Reading and overwriting part of a file

A file is a list; `slice l o n` is what reading `n` entries at offset `o` gives,
and `overwrite z l o new` is the file after writing `new` at `o` (`z` fills the
hole if `o` lies behind the end).

Everything is said entry by entry first (`getElem?_slice`, `getElem?_overwrite`);
the rest follows by extensionality: a write is read back, a write elsewhere is not
seen, appending is not seen, and a file of the form `pre ++ old ++ post` has its
middle replaced.
-/

namespace LearningNotes

variable {α : Type}

/-- The entries `o, …, o + n - 1`, fewer at the end of the file. -/
def slice (l : List α) (o n : Nat) : List α := (l.drop o).take n

/-- The file after writing `new` at offset `o`. -/
def overwrite (z : α) (l : List α) (o : Nat) (new : List α) : List α :=
  (l ++ List.replicate (o - l.length) z).take o ++ new ++ l.drop (o + new.length)

theorem getElem?_slice (l : List α) (o n i : Nat) :
    (slice l o n)[i]? = if i < n then l[o + i]? else none := by
  unfold slice
  rw [List.getElem?_take]
  split
  · rw [List.getElem?_drop]
  · rfl

theorem length_slice (l : List α) (o n : Nat) :
    (slice l o n).length = min n (l.length - o) := by
  unfold slice
  rw [List.length_take, List.length_drop]

theorem length_slice_of_le {l : List α} {o n : Nat} (h : o + n ≤ l.length) :
    (slice l o n).length = n := by
  rw [length_slice]
  omega

theorem getElem?_overwrite (z : α) {l new : List α} {o : Nat} (ho : o ≤ l.length) (i : Nat) :
    (overwrite z l o new)[i]? =
      if i < o then l[i]? else if i < o + new.length then new[i - o]? else l[i]? := by
  have hz : o - l.length = 0 := by omega
  have hlen : (l.take o).length = o := by rw [List.length_take]; omega
  unfold overwrite
  rw [hz, List.replicate_zero, List.append_nil, List.append_assoc]
  by_cases h₁ : i < o
  · rw [if_pos h₁, List.getElem?_append_left (by omega), List.getElem?_take, if_pos h₁]
  · rw [if_neg h₁, List.getElem?_append_right (by omega), hlen]
    by_cases h₂ : i < o + new.length
    · rw [if_pos h₂, List.getElem?_append_left (by omega)]
    · rw [if_neg h₂, List.getElem?_append_right (by omega), List.getElem?_drop]
      congr 1
      omega

/-- Also behind the end, where the hole is filled. -/
theorem getElem?_overwrite_hole (z : α) (l new : List α) (o i : Nat) :
    (overwrite z l o new)[i]? =
      if i < o then if i < l.length then l[i]? else some z
      else if i < o + new.length then new[i - o]? else l[i]? := by
  have hlen : ((l ++ List.replicate (o - l.length) z).take o).length = o := by
    rw [List.length_take, List.length_append, List.length_replicate]
    omega
  unfold overwrite
  rw [List.append_assoc]
  by_cases h₁ : i < o
  · rw [if_pos h₁, List.getElem?_append_left (by omega), List.getElem?_take, if_pos h₁]
    by_cases h₂ : i < l.length
    · rw [if_pos h₂, List.getElem?_append_left h₂]
    · rw [if_neg h₂, List.getElem?_append_right (by omega), List.getElem?_replicate,
        if_pos (by omega)]
  · rw [if_neg h₁, List.getElem?_append_right (by omega), hlen]
    by_cases h₂ : i < o + new.length
    · rw [if_pos h₂, List.getElem?_append_left (by omega)]
    · rw [if_neg h₂, List.getElem?_append_right (by omega), List.getElem?_drop]
      congr 1
      omega

theorem length_overwrite (z : α) (l new : List α) (o : Nat) :
    (overwrite z l o new).length = max l.length (o + new.length) := by
  unfold overwrite
  simp only [List.length_append, List.length_take, List.length_replicate, List.length_drop]
  omega

/-- A write inside the file keeps its length. -/
theorem length_overwrite_of_le (z : α) {l new : List α} {o : Nat} (h : o + new.length ≤ l.length) :
    (overwrite z l o new).length = l.length := by
  rw [length_overwrite]
  omega

/-- Writing at the end appends. -/
theorem overwrite_end (z : α) (l new : List α) : overwrite z l l.length new = l ++ new := by
  unfold overwrite
  simp

/-- What was written is read back. -/
theorem slice_overwrite_self (z : α) (l new : List α) (o : Nat) :
    slice (overwrite z l o new) o new.length = new := by
  apply List.ext_getElem?
  intro i
  rw [getElem?_slice, getElem?_overwrite_hole]
  split
  next h =>
    rw [if_neg (by omega), if_pos (by omega)]
    congr 1
    omega
  next h => rw [List.getElem?_eq_none (by omega)]

/-- A write elsewhere is not seen. -/
theorem slice_overwrite_of_disjoint (z : α) {l new : List α} {o p n : Nat} (ho : o ≤ l.length)
    (hd : p + n ≤ o ∨ o + new.length ≤ p) :
    slice (overwrite z l o new) p n = slice l p n := by
  apply List.ext_getElem?
  intro i
  rw [getElem?_slice, getElem?_slice, getElem?_overwrite z ho]
  split
  next h =>
    rcases hd with hd | hd
    · rw [if_pos (by omega)]
    · rw [if_neg (by omega), if_neg (by omega)]
  next => rfl

theorem slice_middle (pre mid post : List α) :
    slice (pre ++ (mid ++ post)) pre.length mid.length = mid := by
  unfold slice
  simp

/-- Overwriting the middle by something of the same length. -/
theorem overwrite_middle (z : α) {pre old new post : List α} (h : new.length = old.length) :
    overwrite z (pre ++ (old ++ post)) pre.length new = pre ++ (new ++ post) := by
  have hz : pre.length - (pre ++ (old ++ post)).length = 0 := by
    rw [List.length_append]; omega
  unfold overwrite
  rw [hz, List.replicate_zero, List.append_nil, List.take_left, List.append_assoc, h,
    ← List.drop_drop, List.drop_left, List.drop_left]

end LearningNotes
