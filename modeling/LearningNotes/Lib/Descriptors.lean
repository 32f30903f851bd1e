/-!
# Descriptor tables

A table says which file each descriptor refers to; what is behind the end of the list is closed.
`open` and `pipe` take the lowest descriptor that is closed, `dup2` names the one to use, and
a child has a copy of the table. What each of them does is said one descriptor at a time
(`fileAt_put`), so that a program is followed by rewriting with what it does to the one asked for.
-/

namespace LearningNotes

variable {φ : Type}

abbrev Descriptors (φ : Type) : Type := List (Option φ)

namespace Descriptors

/-- What the descriptor refers to. -/
def fileAt (t : Descriptors φ) (fd : Nat) : Option φ := t.getD fd none

/-- Let the descriptor refer to `f`, or to nothing. -/
def put (t : Descriptors φ) (fd : Nat) (f : Option φ) : Descriptors φ :=
  (t ++ List.replicate (fd + 1 - t.length) none).set fd f

@[simp] theorem fileAt_put (t : Descriptors φ) (fd : Nat) (f : Option φ) (i : Nat) :
    (t.put fd f).fileAt i = if i = fd then f else t.fileAt i := by
  unfold fileAt put
  rw [List.getD_eq_getElem?_getD, List.getD_eq_getElem?_getD, List.getElem?_set]
  by_cases hi : i = fd
  · rw [if_pos hi.symm, if_pos hi, if_pos]
    · rfl
    · rw [List.length_append, List.length_replicate]
      omega
  · rw [if_neg (Ne.symm hi), if_neg hi, List.getElem?_append]
    by_cases hlt : i < t.length
    · rw [if_pos hlt]
    · rw [if_neg hlt, List.getElem?_replicate, List.getElem?_eq_none (Nat.le_of_not_lt hlt)]
      split
      · rfl
      · rfl

/-- Closing opens nothing. -/
theorem fileAt_of_put_none {t : Descriptors φ} {fd i : Nat} {f : φ}
    (h : (t.put fd none).fileAt i = some f) : t.fileAt i = some f := by
  rw [fileAt_put] at h
  by_cases hi : i = fd
  · rw [if_pos hi] at h
    exact nomatch h
  · rwa [if_neg hi] at h

/-- The lowest closed descriptor. -/
def lowest (t : Descriptors φ) : Nat := t.findIdx Option.isNone

theorem fileAt_lowest (t : Descriptors φ) : t.fileAt t.lowest = none := by
  unfold fileAt lowest
  rw [List.getD_eq_getElem?_getD]
  by_cases hlt : t.findIdx Option.isNone < t.length
  · have hnone := List.findIdx_getElem (w := hlt)
    rw [List.getElem?_eq_getElem hlt, Option.getD_some]
    exact Option.isNone_iff_eq_none.mp hnone
  · rw [List.getElem?_eq_none (Nat.le_of_not_lt hlt)]
    rfl

/-- `open`: the lowest closed descriptor refers to `f`. -/
def take (t : Descriptors φ) (f : φ) : Descriptors φ := t.put t.lowest (some f)

/-- `dup2`; the two are not the same. -/
def dup2 (t : Descriptors φ) (old new : Nat) : Descriptors φ := t.put new (t.fileAt old)

/-- Close each descriptor a number other than 0 is recorded for. -/
def closeRecorded (t : Descriptors φ) (record : List Nat) : Descriptors φ :=
  (List.range record.length).foldl
    (fun t i => if 0 < record.getD i 0 then t.put i none else t) t

theorem fileAt_closeRecorded (t : Descriptors φ) (record : List Nat) (fd : Nat) :
    (t.closeRecorded record).fileAt fd = if 0 < record.getD fd 0 then none else t.fileAt fd := by
  -- after `n` rounds the ones below `n` are done
  have hrounds : ∀ n, ((List.range n).foldl
      (fun t i => if 0 < record.getD i 0 then t.put i none else t) t).fileAt fd =
      if fd < n ∧ 0 < record.getD fd 0 then none else t.fileAt fd := by
    intro n
    induction n with
    | zero => rw [if_neg (fun h => absurd h.1 (Nat.not_lt_zero _))]; rfl
    | succ n ih =>
      rw [List.range_succ, List.foldl_append, List.foldl_cons, List.foldl_nil]
      by_cases hfd : fd = n
      · subst hfd
        rw [if_neg (fun h => absurd h.1 (Nat.lt_irrefl _))] at ih
        by_cases hrec : 0 < record.getD fd 0
        · rw [if_pos hrec, fileAt_put, if_pos rfl, if_pos ⟨Nat.lt_succ_self _, hrec⟩]
        · rw [if_neg hrec, ih, if_neg (fun h => hrec h.2)]
      · have hlt : (fd < n + 1 ∧ 0 < record.getD fd 0) ↔ fd < n ∧ 0 < record.getD fd 0 := by
          omega
        simp only [hlt]
        rw [← ih]
        split
        · rw [fileAt_put, if_neg hfd]
        · rfl
  unfold closeRecorded
  rw [hrounds]
  by_cases hlt : fd < record.length
  · simp only [hlt, true_and]
  · have hzero : record.getD fd 0 = 0 := by
      rw [List.getD_eq_getElem?_getD, List.getElem?_eq_none (Nat.le_of_not_lt hlt)]
      rfl
    rw [hzero, if_neg (fun h => hlt h.1), if_neg (Nat.lt_irrefl 0)]

end Descriptors

end LearningNotes
