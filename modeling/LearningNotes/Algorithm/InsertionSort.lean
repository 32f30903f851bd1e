import LearningNotes.Lib.CInt
import LearningNotes.Lib.Segment

/-!
# The C++ `insertion_sort` of the notes

The array is used from index 1 on. While `key` is being inserted there is a gap at `i+1`: the
array with `key` in the gap has the elements it had, those in front of the gap and behind it are in
order, and the ones behind are above `key` (`Gap`). A step of the `while` loop exchanges the gap with
the element in front of it.

No index that is read or written lies outside `1..length`, so `arr[0]` stays what it was.

Mirroring notes:
- `length` is an `int`, and so is `j`: where it is the greatest one, `++j` is undefined, `none`. The
  other numbers are below `j`.
-/

namespace LearningNotes.Algorithm

variable {arr arr₀ : Int → Int} {key length i j : Int}

/-- The `while` loop: the array and `i` at its end. -/
def insertLoop (key : Int) (arr : Int → Int) (i : Int) : (Int → Int) × Int :=
  if i > 0 ∧ arr i > key then insertLoop key (Function.update arr (i + 1) (arr i)) (i - 1)
  else (arr, i)
  termination_by i.toNat
  decreasing_by omega

/-- The `for` loop, from `j` on. -/
def insertionSortLoop (length : Int) (arr : Int → Int) (j : Int) : Option (Int → Int) :=
  if j ≤ length then
    let key := arr j
    let (arr, i) := insertLoop key arr (j - 1)
    let arr := Function.update arr (i + 1) key
    -- `++j`
    if j = INT_MAX then none else insertionSortLoop length arr (j + 1)
  else some arr
  termination_by (length + 1 - j).toNat
  decreasing_by omega

def insertionSort (arr : Int → Int) (length : Int) : Option (Int → Int) :=
  insertionSortLoop length arr 2

/-- `arr₀[1..j]` has been rearranged, with a gap for `key` at `i+1`. -/
structure Gap (arr₀ : Int → Int) (key j : Int) (arr : Int → Int) (i : Int) : Prop where
  lo : 0 ≤ i
  hi : i < j
  re : Rearranged arr₀ (Function.update arr (i + 1) key) 1 j
  asc : ∀ k l, 1 ≤ k → k ≤ l → l ≤ j → k ≠ i + 1 → l ≠ i + 1 → arr k ≤ arr l
  above : ∀ k, i + 1 < k → k ≤ j → key < arr k

theorem Gap.start (hj : 1 ≤ j) (h : Ascending arr 1 (j - 1)) : Gap arr (arr j) j arr (j - 1) where
  lo := by omega
  hi := by omega
  re := by
    rw [show j - 1 + 1 = j by omega, Function.update_eq_self]
    exact .refl arr 1 j
  asc k l hk hkl hl _ hne := h k l hk hkl (by omega)
  above k hk hkj := by omega

/-- The element in front of the gap moves into it. -/
theorem Gap.shift (h : Gap arr₀ key j arr i) (hi : 0 < i) (hkey : key < arr i) :
    Gap arr₀ key j (Function.update arr (i + 1) (arr i)) (i - 1) := by
  have hhi := h.hi
  refine ⟨by omega, by omega, ?_, ?_, ?_⟩
  · have hswap : Function.update (Function.update arr (i + 1) (arr i)) (i - 1 + 1) key =
        swapAt (Function.update arr (i + 1) key) i (i + 1) := by
      rw [show i - 1 + 1 = i by omega, swapAt, Function.update_self,
        Function.update_of_ne (show i ≠ i + 1 by omega),
        Function.update_comm (β := fun _ => Int) (show i ≠ i + 1 by omega) key (arr i),
        Function.update_idem]
    rw [hswap]
    exact h.re.trans (.swap (by omega) (by omega))
  · intro k l hk hkl hl hki hli
    by_cases hk₁ : k = i + 1
    · rw [hk₁, Function.update_self]
      by_cases hl₁ : l = i + 1
      · rw [hl₁, Function.update_self]
      · rw [Function.update_of_ne hl₁]
        exact h.asc i l (by omega) (by omega) hl (by omega) hl₁
    · rw [Function.update_of_ne hk₁]
      by_cases hl₁ : l = i + 1
      · rw [hl₁, Function.update_self]
        exact h.asc k i hk (by omega) (by omega) hk₁ (by omega)
      · rw [Function.update_of_ne hl₁]
        exact h.asc k l hk hkl hl hk₁ hl₁
  · intro k hk hkj
    by_cases hki : k = i + 1
    · rw [hki, Function.update_self]
      exact hkey
    · rw [Function.update_of_ne hki]
      exact h.above k (by omega) hkj

/-- At the end of the `while` loop `key` fits into the gap. -/
theorem Gap.fill (h : Gap arr₀ key j arr i) (hend : ¬ (i > 0 ∧ arr i > key)) :
    Ascending (Function.update arr (i + 1) key) 1 j := by
  have hlo := h.lo
  intro k l hk hkl hl
  by_cases hki : k = i + 1
  · by_cases hli : l = i + 1
    · rw [hki, hli]
    · rw [hki, Function.update_self, Function.update_of_ne hli]
      exact Int.le_of_lt (h.above l (by omega) hl)
  · rw [Function.update_of_ne hki]
    by_cases hli : l = i + 1
    · -- `arr[k]` is not above `arr[i]`, which is not above `key`
      rw [hli, Function.update_self]
      have hle := h.asc k i hk (by omega) (by omega) hki (by omega)
      omega
    · rw [Function.update_of_ne hli]
      exact h.asc k l hk hkl hl hki hli

theorem insertLoop_gap : ∀ (arr : Int → Int) (i : Int), Gap arr₀ key j arr i →
    Gap arr₀ key j (insertLoop key arr i).1 (insertLoop key arr i).2 ∧
      Ascending (Function.update (insertLoop key arr i).1 ((insertLoop key arr i).2 + 1) key) 1 j
  | arr, i, h => by
    unfold insertLoop
    by_cases hc : i > 0 ∧ arr i > key
    · rw [if_pos hc]
      exact insertLoop_gap _ _ (h.shift hc.1 hc.2)
    · rw [if_neg hc]
      exact ⟨h, h.fill hc⟩
  termination_by _ i _ => i.toNat
  decreasing_by omega

theorem insertionSortLoop_sorts (hmax : length < INT_MAX) : ∀ (arr : Int → Int) (j : Int), 1 ≤ j →
    j ≤ length + 1 → Ascending arr 1 (j - 1) →
    ∃ arr', insertionSortLoop length arr j = some arr' ∧ Ascending arr' 1 length ∧
      Rearranged arr arr' 1 length
  | arr, j, hj, hlen, hasc => by
    unfold insertionSortLoop
    by_cases hle : j ≤ length
    · rw [if_pos hle]
      dsimp only
      rw [if_neg (show ¬ j = INT_MAX by omega)]
      obtain ⟨hgap, hasc'⟩ := insertLoop_gap arr (j - 1) (Gap.start hj hasc)
      have hre := hgap.re.widen (Int.le_refl 1) hle
      obtain ⟨arr', hrun, h₁, h₂⟩ := insertionSortLoop_sorts hmax
        (Function.update (insertLoop (arr j) arr (j - 1)).1 ((insertLoop (arr j) arr (j - 1)).2 + 1) (arr j))
        (j + 1) (by omega) (by omega) (by rwa [show j + 1 - 1 = j by omega])
      exact ⟨arr', hrun, h₁, hre.trans h₂⟩
    · rw [if_neg hle]
      rw [show j - 1 = length by omega] at hasc
      exact ⟨arr, rfl, hasc, .refl arr 1 length⟩
  termination_by _ j => (length + 1 - j).toNat
  decreasing_by omega

/-- The loop to the greatest `int` goes one round too far. -/
theorem insertionSortLoop_none (hmax : length = INT_MAX) : ∀ (arr : Int → Int) (j : Int),
    j ≤ length → insertionSortLoop length arr j = none
  | arr, j, hle => by
    unfold insertionSortLoop
    rw [if_pos hle]
    dsimp only
    by_cases hj : j = INT_MAX
    · rw [if_pos hj]
    · rw [if_neg hj, insertionSortLoop_none hmax _ (j + 1) (by omega)]
  termination_by _ j => (length + 1 - j).toNat
  decreasing_by omega

/-- `insertion_sort` leaves `arr[1..length]` sorted, with the elements it had, and the rest of the
array, `arr[0]` among it, as it was. -/
def InsertionSorts (arr : Int → Int) (length : Int) : Prop :=
  ∃ arr', insertionSort arr length = some arr' ∧
    (seg arr' 1 length).Pairwise (· ≤ ·) ∧ (seg arr' 1 length).Perm (seg arr 1 length) ∧
    ∀ k, k < 1 ∨ length < k → arr' k = arr k

/-- **`insertion_sort`** sorts every array, of every length but the greatest `int`. -/
theorem insertionSort_sorts_iff (arr : Int → Int) (length : CInt) :
    InsertionSorts arr length.1 ↔ length.1 < INT_MAX := by
  obtain ⟨length, hlo, hhi⟩ := length
  show InsertionSorts arr length ↔ length < INT_MAX
  constructor
  · rintro ⟨arr', hrun, -⟩
    by_contra hmax
    have hlen : length = INT_MAX := by
      simp only [INT_MAX] at hmax ⊢
      omega
    have hnone := insertionSortLoop_none hlen arr 2 (by simp only [INT_MAX] at hlen; omega)
    rw [insertionSort, hnone] at hrun
    cases hrun
  · intro hmax
    rcases Int.lt_or_le length 1 with h | h
    · refine ⟨arr, ?_, ?_, .refl _, fun _ _ => rfl⟩
      · rw [insertionSort, insertionSortLoop, if_neg (by omega)]
      · rw [seg_eq_nil h]
        exact .nil
    · obtain ⟨arr', hrun, h₁, h₂⟩ := @insertionSortLoop_sorts length hmax arr 2 (by omega) (by omega)
        (.of_le (by omega))
      exact ⟨arr', hrun, h₁.pairwise, h₂.perm, h₂.frame⟩

end LearningNotes.Algorithm
