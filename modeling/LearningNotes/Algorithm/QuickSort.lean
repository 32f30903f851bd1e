import LearningNotes.Lib.Segment
import Mathlib.Data.Int.Order.Basic

/-!
# The C++ `quick_sort` of the notes

`partition` puts the last element of the range where it belongs and returns its position `q`.
`quick_sort` then calls itself on `p..q-1` and on `q..r`, so the second range still has the
pivot in it, and when the pivot is the least element the second call is for the range
the first call was for. It does get on: the first element is then the least of the range, the next
`partition` finds it not above its own pivot, and a `partition` that finds that never returns
`p`.

Recursion in C++ need not end, so `quickSort` has a bound on the depth of its calls and no
result when the bound is reached. No index it computes lies outside `p-1..r`, so for
a range of an array none overflows.
-/

namespace LearningNotes.Algorithm

variable {arr arr' : Int → Int} {p q r i j x : Int}

/-- The `for` loop of `partition`, from index `j` on: the array and `i` at its end. -/
def partitionLoop (x r : Int) (arr : Int → Int) (i j : Int) : (Int → Int) × Int :=
  if j ≤ r - 1 then
    if arr j ≤ x then partitionLoop x r (swapAt arr (i + 1) j) (i + 1) (j + 1)
    else partitionLoop x r arr i (j + 1)
  else (arr, i)
  termination_by (r - j).toNat
  decreasing_by all_goals omega

/-- `partition`, with the last element as the pivot. -/
def partition (arr : Int → Int) (p r : Int) : (Int → Int) × Int :=
  let x := arr r
  let (arr, i) := partitionLoop x r arr (p - 1) p
  (swapAt arr (i + 1) r, i + 1)

/-- `quick_sort`, calls at most `n` deep. -/
def quickSort : Nat → (Int → Int) → Int → Int → Option (Int → Int)
  | 0, _, _, _ => none
  | n + 1, arr, p, r =>
    if p < r then
      let (arr, q) := partition arr p r
      (quickSort n arr p (q - 1)).bind fun arr => quickSort n arr q r
    else some arr

/-! ## `partition` -/

/-- What the loop of `partition` keeps, with pivot `x`: of the elements before `j`, those up to `i` are
not above `x` and the others are. -/
structure Scanned (arr₀ : Int → Int) (p r : Int) (arr : Int → Int) (i j : Int) : Prop where
  lo : p - 1 ≤ i
  lt : i < j
  hi : j ≤ r
  re : Rearranged arr₀ arr p (r - 1)
  below : ∀ k, p ≤ k → k ≤ i → arr k ≤ arr₀ r
  above : ∀ k, i < k → k < j → arr₀ r < arr k

/-- Nothing has been looked at. -/
theorem Scanned.start (h : p < r) : Scanned arr p r arr (p - 1) p :=
  ⟨by omega, by omega, by omega, .refl arr p (r - 1), by intros; omega, by intros; omega⟩

/-- An element that is greater stays. -/
theorem Scanned.skip {arr₀ : Int → Int} (h : Scanned arr₀ p r arr i j) (hj : j ≤ r - 1)
    (hx : arr₀ r < arr j) : Scanned arr₀ p r arr i (j + 1) := by
  refine ⟨h.lo, by have := h.lt; omega, by omega, h.re, h.below, ?_⟩
  intro k hk hkj
  by_cases hne : k = j
  · rw [hne]
    exact hx
  · exact h.above k hk (by omega)

/-- An element that is not greater goes to the left part. -/
theorem Scanned.take {arr₀ : Int → Int} (h : Scanned arr₀ p r arr i j) (hj : j ≤ r - 1)
    (hx : arr j ≤ arr₀ r) : Scanned arr₀ p r (swapAt arr (i + 1) j) (i + 1) (j + 1) := by
  have hlo := h.lo
  have hlt := h.lt
  refine ⟨by omega, by omega, by omega, h.re.trans (.swap (by omega) (by omega)), ?_, ?_⟩
  · intro k hp hk
    by_cases hki : k = i + 1
    · rw [hki, swapAt_left]
      exact hx
    · rw [swapAt_of_ne hki (by omega)]
      exact h.below k hp (by omega)
  · -- What stood at `i+1` was above the pivot, unless that was the element at `j` itself.
    intro k hk hkj
    by_cases hne : k = j
    · rw [hne, swapAt_right]
      exact h.above (i + 1) (by omega) (by omega)
    · rw [swapAt_of_ne (by omega) hne]
      exact h.above k (by omega) (by omega)

/-- The loop looks at every element but the last one. -/
theorem partitionLoop_scanned {arr₀ : Int → Int} (hx : arr₀ r = x) :
    ∀ (arr : Int → Int) (i j : Int), Scanned arr₀ p r arr i j →
      Scanned arr₀ p r (partitionLoop x r arr i j).1 (partitionLoop x r arr i j).2 r ∧
        i ≤ (partitionLoop x r arr i j).2
  | arr, i, j, h => by
    unfold partitionLoop
    by_cases hj : j ≤ r - 1
    · rw [if_pos hj]
      by_cases hle : arr j ≤ x
      · rw [if_pos hle]
        obtain ⟨hs, hi⟩ := partitionLoop_scanned hx _ _ _ (h.take hj (by omega))
        exact ⟨hs, by omega⟩
      · rw [if_neg hle]
        exact partitionLoop_scanned hx _ _ _ (h.skip hj (by omega))
    · rw [if_neg hj]
      have hjr : j = r := by have := h.hi; omega
      exact ⟨hjr ▸ h, Int.le_refl i⟩
  termination_by _ _ j _ => (r - j).toNat
  decreasing_by all_goals omega

/-- The range around the pivot, which is at `q`. -/
structure Partitioned (arr₀ : Int → Int) (p r : Int) (arr : Int → Int) (q : Int) : Prop where
  lo : p ≤ q
  hi : q ≤ r
  re : Rearranged arr₀ arr p r
  below : ∀ k, p ≤ k → k < q → arr k ≤ arr q
  above : ∀ k, q < k → k ≤ r → arr q < arr k

/-- The last element comes between the two parts. -/
theorem Scanned.exchange {arr₀ : Int → Int} (h : Scanned arr₀ p r arr i r) :
    Partitioned arr₀ p r (swapAt arr (i + 1) r) (i + 1) := by
  have hlo := h.lo
  have hlt := h.lt
  have hpivot : arr r = arr₀ r := h.re.frame r (by omega)
  refine ⟨by omega, by omega, (h.re.widen (Int.le_refl p) (by omega)).trans (.swap (by omega) (by omega)),
    ?_, ?_⟩
  · intro k hp hk
    rw [swapAt_left, hpivot, swapAt_of_ne (by omega) (by omega)]
    exact h.below k hp (by omega)
  · intro k hk hkr
    rw [swapAt_left, hpivot]
    by_cases hne : k = r
    · rw [hne, swapAt_right]
      exact h.above (i + 1) (by omega) (by omega)
    · rw [swapAt_of_ne (by omega) hne]
      exact h.above k (by omega) (by omega)

/-- **`partition` puts the pivot between what is not greater and what is greater.** -/
theorem partition_spec (arr : Int → Int) (h : p < r) :
    Partitioned arr p r (partition arr p r).1 (partition arr p r).2 :=
  (partitionLoop_scanned rfl _ _ _ (.start h)).1.exchange

/-- A first element not above the last goes before the pivot. -/
theorem partition_gt (h : p < r) (hle : arr p ≤ arr r) : p < (partition arr p r).2 := by
  have hs : Scanned arr p r (swapAt arr p p) p (p + 1) := by
    have := (Scanned.start h : Scanned arr p r arr (p - 1) p).take (by omega) hle
    rwa [Int.sub_add_cancel] at this
  have hi := (partitionLoop_scanned rfl _ _ _ hs).2
  have hloop : partitionLoop (arr r) r arr (p - 1) p
      = partitionLoop (arr r) r (swapAt arr p p) p (p + 1) := by
    conv => lhs; unfold partitionLoop
    rw [if_pos (show p ≤ r - 1 by omega), if_pos hle, Int.sub_add_cancel]
  show p < (partitionLoop (arr r) r arr (p - 1) p).2 + 1
  rw [hloop]
  omega

/-! ## `quick_sort` -/

/-- The two calls are made one after the other. -/
theorem quickSort_calls {n : Nat} {mid : Int → Int} (h : p < r)
    (hleft : quickSort n (partition arr p r).1 p ((partition arr p r).2 - 1) = some mid)
    (hright : quickSort n mid (partition arr p r).2 r = some arr') :
    quickSort (n + 1) arr p r = some arr' := by
  unfold quickSort
  rw [if_pos h]
  exact Option.bind_eq_some_iff.mpr ⟨mid, hleft, hright⟩

/-- More depth does no harm. -/
theorem quickSort_mono : ∀ {n m : Nat} {arr arr' : Int → Int} {p r : Int},
    quickSort n arr p r = some arr' → n ≤ m → quickSort m arr p r = some arr'
  | 0, _, _, _, _, _, h, _ => nomatch h
  | n + 1, 0, _, _, _, _, _, hm => absurd hm (by omega)
  | n + 1, m + 1, arr, arr', p, r, h, hm => by
    unfold quickSort at h
    by_cases hp : p < r
    · rw [if_pos hp] at h
      obtain ⟨mid, hl, hr⟩ := Option.bind_eq_some_iff.mp h
      exact quickSort_calls hp (quickSort_mono hl (by omega)) (quickSort_mono hr (by omega))
    · rw [if_neg hp] at h
      unfold quickSort
      rw [if_neg hp]
      exact h

/-- The call ends, with the range in order. -/
def Sorts (arr : Int → Int) (p r : Int) : Prop :=
  ∃ n arr', quickSort n arr p r = some arr' ∧ Ascending arr' p r ∧ Rearranged arr arr' p r

/-- A range of at most one element is sorted. -/
theorem Sorts.of_le (h : r ≤ p) : Sorts arr p r := by
  refine ⟨1, arr, ?_, .of_le h, .refl arr p r⟩
  unfold quickSort
  rw [if_neg (by omega)]

/-- What the two calls have to do for their caller. -/
theorem Sorts.of_calls (h : p < r) (hs : Partitioned arr p r (partition arr p r).1 (partition arr p r).2)
    (hleft : Sorts (partition arr p r).1 p ((partition arr p r).2 - 1))
    (hright : ∀ mid, Rearranged (partition arr p r).1 mid p ((partition arr p r).2 - 1) →
      Sorts mid (partition arr p r).2 r) : Sorts arr p r := by
  obtain ⟨n, mid, hn, hasc, hre⟩ := hleft
  obtain ⟨m, arr', hm, hasc', hre'⟩ := hright mid hre
  have hcall := quickSort_calls h (quickSort_mono hn (Nat.le_max_left n m))
    (quickSort_mono hm (Nat.le_max_right n m))
  refine ⟨max n m + 1, arr', hcall, ?_⟩
  generalize (partition arr p r).2 = q at hs hasc hre hasc' hre'
  generalize (partition arr p r).1 = part at hs hre
  have hlo := hs.lo
  have hhi := hs.hi
  constructor
  · -- The left part stays as the first call left it, and the right part begins with the pivot or above.
    have hleft : ∀ k, p ≤ k → k ≤ q - 1 → arr' k ≤ part q := by
      intro k hp hk
      rw [hre'.frame k (by omega)]
      exact hre.forall (P := (· ≤ part q)) (fun k hp hk => hs.below k hp (by omega)) k hp hk
    have hright : ∀ k, q ≤ k → k ≤ r → part q ≤ arr' k := by
      apply hre'.forall (P := (part q ≤ ·))
      intro k hk hkr
      rw [hre.frame k (by omega)]
      by_cases hkq : k = q
      · exact Int.le_of_eq (congrArg part hkq.symm)
      · exact Int.le_of_lt (hs.above k (by omega) hkr)
    apply Ascending.append (q := q - 1)
    · intro i j hi hij hj
      rw [hre'.frame i (by omega), hre'.frame j (by omega)]
      exact hasc i j hi hij hj
    · rw [Int.sub_add_cancel]
      exact hasc'
    · intro i j hi hiq hj hjr
      exact Int.le_trans (hleft i hi hiq) (hright j (by omega) hjr)
  · exact (hs.re.trans (hre.widen (Int.le_refl p) (by omega))).trans
      (hre'.widen hlo (Int.le_refl r))

/-- Ranges up to a length are sorted. -/
def SortsUpTo (d : Nat) : Prop := ∀ arr p r, (r - p).toNat ≤ d → Sorts arr p r

/-- A `partition` that gets on leaves two shorter ranges. -/
theorem Sorts.of_gt {d : Nat} (ih : SortsUpTo d) (hd : (r - p).toNat ≤ d + 1) (h : p < r)
    (hgt : p < (partition arr p r).2) : Sorts arr p r := by
  have hs := partition_spec arr h
  have hhi := hs.hi
  apply Sorts.of_calls h hs
  · exact ih _ _ _ (by omega)
  · intro mid _
    exact ih _ _ _ (by omega)

/-- Every range is sorted, by induction on its length. -/
theorem sortsUpTo : ∀ d, SortsUpTo d
  | 0, _, _, _, hd => .of_le (by omega)
  | d + 1, arr, p, r, hd => by
    rcases Int.lt_or_le p r with h | h
    · have hs := partition_spec arr h
      rcases Int.lt_or_eq_of_le hs.lo with hgt | heq
      · exact .of_gt (sortsUpTo d) hd h hgt
      · -- The pivot is the least element. The second call is for the range of this one, and there the
        -- first element is below the last.
        apply Sorts.of_calls h hs
        · exact .of_le (by omega)
        · intro mid hmid
          have hmid : mid = (partition arr p r).1 := funext fun k => hmid.frame k (by omega)
          rw [hmid, ← heq]
          apply Sorts.of_gt (sortsUpTo d) hd h
          apply partition_gt h
          have hlt := hs.above r (by omega) (Int.le_refl r)
          rw [← heq] at hlt
          exact Int.le_of_lt hlt
    · exact .of_le h

/-- For every array and every range `quick_sort` ends, whatever depth of calls there is beyond some
`N`, and leaves the range sorted, with the elements it had, and the rest of the array as it was. -/
theorem quickSort_sorts (arr : Int → Int) (p r : Int) : ∃ N arr',
    (∀ n, N ≤ n → quickSort n arr p r = some arr') ∧ (seg arr' p r).Pairwise (· ≤ ·) ∧
      (seg arr' p r).Perm (seg arr p r) ∧ ∀ k, k < p ∨ r < k → arr' k = arr k := by
  obtain ⟨n, arr', hn, hasc, hre⟩ := sortsUpTo (r - p).toNat arr p r (Nat.le_refl _)
  exact ⟨n, arr', fun m hm => quickSort_mono hn hm, hasc.pairwise, hre.perm, hre.frame⟩

end LearningNotes.Algorithm
