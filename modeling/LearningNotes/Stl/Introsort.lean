import LearningNotes.Lib.Segment
import Mathlib

/-!
# `sort`

`__introsort_loop` stops at ranges of 16 elements, so that it leaves an array in which elements that
are out of order are less than 16 places apart (`Nearly`). The last pass moves elements without looking
where the range begins once it is beyond the first 16; it may do that, since one of these is then not
above the element it moves. The depth of the partitions is limited by twice the logarithm, which
bounds the elements that all partitions together look at.

Mirroring notes:
- The functions that are called but not shown are `Parts`, with what they are documented to do.
- `work` adds up the lengths of the ranges that are partitioned. The code has no such variable.
- A range ends before `last`.
-/

namespace LearningNotes.Stl

variable {α : Type} [LinearOrder α]

/-- `__stl_threshold` -/
def threshold : Int := 16

/-- No element is before all of the first 16 ones in the order, so that a search to the left for the
place of an element ends. -/
def Guarded (arr : Int → α) (first last : Int) : Prop :=
  ∀ j, first + threshold ≤ j → j < last → ∃ k, first ≤ k ∧ k < first + threshold ∧ arr k ≤ arr j

variable (α) in
/-- What `sort` calls. -/
structure Parts where
  median : α → α → α → α
  unguarded_partition : (Int → α) → Int → Int → α → (Int → α) × Int
  /-- `partial_sort(first, last, last)` -/
  partial_sort : (Int → α) → Int → Int → Int → α
  final_insertion_sort : (Int → α) → Int → Int → Int → α
  median_mem : ∀ a b c, median a b c = a ∨ median a b c = b ∨ median a b c = c
  partition_spec : ∀ arr first last pivot, (∃ k, first ≤ k ∧ k < last ∧ arr k = pivot) →
    Rearranged arr (unguarded_partition arr first last pivot).1 first (last - 1) ∧
      first ≤ (unguarded_partition arr first last pivot).2 ∧
      (unguarded_partition arr first last pivot).2 ≤ last ∧
      (∀ k, first ≤ k → k < (unguarded_partition arr first last pivot).2 →
        (unguarded_partition arr first last pivot).1 k ≤ pivot) ∧
      ∀ k, (unguarded_partition arr first last pivot).2 ≤ k → k < last →
        pivot ≤ (unguarded_partition arr first last pivot).1 k
  partial_sort_spec : ∀ arr first last, Rearranged arr (partial_sort arr first last) first (last - 1) ∧
    Ascending (partial_sort arr first last) first (last - 1)
  final_spec : ∀ arr first last, Guarded arr first last →
    Rearranged arr (final_insertion_sort arr first last) first (last - 1) ∧
      Ascending (final_insertion_sort arr first last) first (last - 1)

/-- `for (k = 0; n > 1; n >>= 1) ++k` -/
def lgLoop (n k : Nat) : Nat := if n > 1 then lgLoop (n / 2) (k + 1) else k

/-- `__lg` -/
def lg (n : Nat) : Nat := lgLoop n 0

/-- The array, and the steps that have been made on it. -/
structure Sorting (α : Type) where
  arr : Int → α
  work : Nat

/-- `__introsort_loop` -/
def introsort_loop (P : Parts α) (first : Int) : Nat → Int → Sorting α → Sorting α
  | 0, last, s =>
    if last - first > threshold then { s with arr := P.partial_sort s.arr first last } else s
  | depth_limit + 1, last, s =>
    if last - first > threshold then
      let pivot := P.median (s.arr first) (s.arr (first + (last - first) / 2)) (s.arr (last - 1))
      let r := P.unguarded_partition s.arr first last pivot
      let cut := r.2
      let s := introsort_loop P cut depth_limit last ⟨r.1, s.work + (last - first).toNat⟩
      introsort_loop P first depth_limit cut s
    else s

/-- `sort` -/
def sort (P : Parts α) (first last : Int) (arr : Int → α) : Sorting α :=
  if first ≠ last then
    let s := introsort_loop P first (lg (last - first).toNat * 2) last ⟨arr, 0⟩
    { s with arr := P.final_insertion_sort s.arr first last }
  else ⟨arr, 0⟩

variable {P : Parts α} {arr : Int → α} {first last : Int} {s : Sorting α}

/-- Elements that are out of order are less than 16 places apart. -/
def Nearly (arr : Int → α) (first last : Int) : Prop :=
  ∀ i j, first ≤ i → i ≤ j → j < last → arr j < arr i → j - i < threshold

/-- The first element stops a search that comes from far behind. -/
theorem Nearly.guarded (h : Nearly arr first last) : Guarded arr first last := by
  intro j hj hlast
  refine ⟨first, Int.le_refl first, by unfold threshold; omega, ?_⟩
  by_contra hlt
  have := h first j (Int.le_refl first) (by unfold threshold at hj; omega) hlast (not_le.1 hlt)
  omega

/-- The middle one of three elements of the range is an element of the range. -/
theorem pivot_mem (P : Parts α) (arr : Int → α) (h : threshold < last - first) :
    ∃ k, first ≤ k ∧ k < last ∧
      arr k = P.median (arr first) (arr (first + (last - first) / 2)) (arr (last - 1)) := by
  unfold threshold at h
  rcases P.median_mem (arr first) (arr (first + (last - first) / 2)) (arr (last - 1)) with he | he | he
  · exact ⟨first, by omega, by omega, he.symm⟩
  · exact ⟨first + (last - first) / 2, by omega, by omega, he.symm⟩
  · exact ⟨last - 1, by omega, by omega, he.symm⟩

/-- Two sides of a partition, each of them worked on. -/
theorem Nearly.join {cut : Int} {a b c : Int → α} {pivot : α}
    (hb : Rearranged a b cut (last - 1)) (hc : Rearranged b c first (cut - 1))
    (hle : ∀ k, first ≤ k → k < cut → a k ≤ pivot) (hge : ∀ k, cut ≤ k → k < last → pivot ≤ a k)
    (hright : Nearly b cut last) (hleft : Nearly c first cut) : Nearly c first last := by
  have hsame : ∀ k, cut ≤ k → c k = b k := by
    intro k hk
    exact hc.frame k (.inr (by omega))
  have hlow : ∀ k, first ≤ k → k ≤ cut - 1 → c k ≤ pivot :=
    hc.forall (P := (· ≤ pivot)) fun k h₁ h₂ => by
      rw [hb.frame k (.inl (by omega))]
      exact hle k h₁ (by omega)
  have hhigh : ∀ k, cut ≤ k → k ≤ last - 1 → pivot ≤ b k :=
    hb.forall (P := (pivot ≤ ·)) fun k h₁ h₂ => hge k h₁ (by omega)
  intro i j hi hij hj hlt
  by_cases hjc : j < cut
  · exact hleft i j hi hij hjc hlt
  by_cases hic : cut ≤ i
  · rw [hsame i hic, hsame j (by omega)] at hlt
    exact hright i j hic hij hj hlt
  · -- on different sides nothing is out of order
    rw [hsame j (by omega)] at hlt
    exact absurd hlt (not_lt.2 ((hlow i hi (by omega)).trans (hhigh j (by omega) (by omega))))

/-- **The loop**: a rearrangement, nearly sorted, with its steps counted. -/
theorem introsort_loop_spec (P : Parts α) : ∀ (depth_limit : Nat) (first last : Int) (s : Sorting α),
    first ≤ last →
      Rearranged s.arr (introsort_loop P first depth_limit last s).arr first (last - 1) ∧
        Nearly (introsort_loop P first depth_limit last s).arr first last ∧
        (introsort_loop P first depth_limit last s).work ≤
          s.work + depth_limit * (last - first).toNat
  | 0, first, last, s, h => by
    unfold introsort_loop
    split
    next =>
      obtain ⟨hre, hasc⟩ := P.partial_sort_spec s.arr first last
      refine ⟨hre, fun i j hi hij hj hlt => ?_, by simp⟩
      exact absurd hlt (not_lt.2 (hasc i j hi hij (by omega)))
    next hle =>
      refine ⟨.refl _ _ _, fun i j hi hij hj _ => ?_, by simp⟩
      omega
  | depth_limit + 1, first, last, s, h => by
    by_cases hgt : threshold < last - first
    · have hspec := P.partition_spec s.arr first last _ (pivot_mem P s.arr hgt)
      simp only [introsort_loop, gt_iff_lt, if_pos hgt]
      generalize P.unguarded_partition s.arr first last
        (P.median (s.arr first) (s.arr (first + (last - first) / 2)) (s.arr (last - 1))) = r at hspec ⊢
      obtain ⟨arr, cut⟩ := r
      obtain ⟨hre, hlo, hhi, hle, hge⟩ := hspec
      obtain ⟨hre₁, hnear₁, hwork₁⟩ := introsort_loop_spec P depth_limit cut last
        ⟨arr, s.work + (last - first).toNat⟩ hhi
      obtain ⟨hre₂, hnear₂, hwork₂⟩ := introsort_loop_spec P depth_limit first cut
        (introsort_loop P cut depth_limit last ⟨arr, s.work + (last - first).toNat⟩) hlo
      refine ⟨?_, .join hre₁ hre₂ hle hge hnear₁ hnear₂, ?_⟩
      · exact hre.trans ((hre₁.widen hlo (Int.le_refl _)).trans
          (hre₂.widen (Int.le_refl _) (by omega)))
      · have hlen : (last - first).toNat = (cut - first).toNat + (last - cut).toNat := by
          simp only at hlo hhi
          omega
        have hmul : depth_limit * (last - first).toNat =
            depth_limit * (cut - first).toNat + depth_limit * (last - cut).toNat := by
          rw [hlen, Nat.mul_add]
        rw [Nat.add_mul, Nat.one_mul, hmul]
        simp only at hwork₁ ⊢
        omega
    · simp only [introsort_loop, gt_iff_lt, if_neg hgt]
      refine ⟨.refl _ _ _, fun i j hi hij hj _ => ?_, by simp⟩
      omega

/-- `__lg` is the logarithm. -/
theorem lgLoop_eq (n k : Nat) : lgLoop n k = Nat.log 2 n + k := by
  induction n, k using lgLoop.induct with
  | case1 n k h ih =>
    rw [lgLoop, if_pos h, ih, Nat.log_of_one_lt_of_le Nat.one_lt_two h]
    omega
  | case2 n k h =>
    rw [lgLoop, if_neg h, Nat.log_of_lt (by omega), Nat.zero_add]

/-- `sort` sorts every range and leaves the rest as it was. The last pass has no element to move that
is less than all of the first 16, and the partitions look at no more than `2 n log n` elements. -/
theorem sort_sorts (P : Parts α) (arr : Int → α) (first : Int) (n : Nat) :
    (seg (sort P first (first + n) arr).arr first (first + n - 1)).Pairwise (· ≤ ·) ∧
      (seg (sort P first (first + n) arr).arr first (first + n - 1)).Perm
        (seg arr first (first + n - 1)) ∧
      (∀ k, k < first ∨ first + n ≤ k → (sort P first (first + n) arr).arr k = arr k) ∧
      Guarded (introsort_loop P first (lg n * 2) (first + n) ⟨arr, 0⟩).arr first (first + n) ∧
      (sort P first (first + n) arr).work ≤ 2 * n * Nat.log 2 n := by
  obtain ⟨hre, hnear, hwork⟩ := introsort_loop_spec P (lg n * 2) first (first + n) ⟨arr, 0⟩ (by omega)
  have hn : (first + n - first).toNat = n := by omega
  by_cases hz : n = 0
  · have hsort : sort P first (first + n) arr = ⟨arr, 0⟩ := if_neg (by simp [hz])
    rw [hsort, seg_eq_nil (by omega)]
    exact ⟨.nil, .refl _, fun _ _ => rfl, hnear.guarded, Nat.zero_le _⟩
  · have hne : first ≠ first + n := by omega
    obtain ⟨hre', hasc⟩ := P.final_spec _ _ _ hnear.guarded
    have hall := hre.trans hre'
    simp only [sort, if_pos hne, hn]
    refine ⟨hasc.pairwise, hall.perm, fun k hk => hall.frame k (by omega), hnear.guarded, ?_⟩
    have hlg : lg n = Nat.log 2 n := lgLoop_eq n 0
    rw [hn] at hwork
    calc _ ≤ 0 + lg n * 2 * n := hwork
      _ = 2 * n * Nat.log 2 n := by rw [hlg, Nat.zero_add, Nat.mul_assoc, Nat.mul_comm]

/-! ## Functions as `sort` needs them -/

omit [LinearOrder α] in
/-- An element that has been stored. -/
theorem storeAt_at (arr : Int → α) (w : List α) {k : Nat} (h : k < w.length) :
    storeAt arr first w (first + k) = w[k] := by
  have hseg := seg_storeAt w arr (k := first) (r := first + w.length - 1) (by omega)
  have hk : (seg (storeAt arr first w) first (first + w.length - 1))[k]? = w[k]? := by rw [hseg]
  rw [List.getElem?_eq_getElem h, seg, List.getElem?_map,
    List.getElem?_range (by omega), Option.map_some, Option.some.injEq] at hk
  exact hk

omit [LinearOrder α] in
/-- The same elements in another order. -/
theorem rearranged_storeAt {w : List α} (h : w.Perm (seg arr first (last - 1))) :
    Rearranged arr (storeAt arr first w) first (last - 1) := by
  by_cases hle : first ≤ last
  · exact .of_storeAt h (by omega)
  · rw [seg_eq_nil (by omega)] at h
    rw [h.eq_nil]
    exact .refl arr first (last - 1)

/-- The array with its part sorted. -/
def sorted (arr : Int → α) (first last : Int) : Int → α :=
  storeAt arr first ((seg arr first (last - 1)).mergeSort (· ≤ ·))

/-- It is sorted, and a rearrangement. -/
theorem sorted_spec (arr : Int → α) (first last : Int) :
    Rearranged arr (sorted arr first last) first (last - 1) ∧
      Ascending (sorted arr first last) first (last - 1) := by
  have hperm := List.mergeSort_perm (seg arr first (last - 1)) fun a b => decide (a ≤ b)
  refine ⟨rearranged_storeAt hperm, ?_⟩
  by_cases hle : first ≤ last
  · refine .of_pairwise ?_
    have hlen : first + (((seg arr first (last - 1)).mergeSort (· ≤ ·)).length : Int) = last - 1 + 1 := by
      rw [hperm.length_eq, length_seg]
      omega
    rw [sorted, seg_storeAt _ _ hlen]
    have := @List.pairwise_mergeSort _ (fun a b : α => decide (a ≤ b))
      (fun a b c h₁ h₂ => by simp at *; exact h₁.trans h₂) (fun a b => by simp [le_total])
      (seg arr first (last - 1))
    simpa using this
  · exact .of_le (by omega)

/-- A partition that keeps the order on both sides. -/
def split (arr : Int → α) (first last : Int) (pivot : α) : (Int → α) × Int :=
  let l := seg arr first (last - 1)
  (storeAt arr first (l.filter (· < pivot) ++ l.filter fun x => !decide (x < pivot)),
    first + (l.filter (· < pivot)).length)

/-- What the partition has to do. -/
theorem split_spec (arr : Int → α) (h : first < last) (pivot : α) :
    Rearranged arr (split arr first last pivot).1 first (last - 1) ∧
      first ≤ (split arr first last pivot).2 ∧ (split arr first last pivot).2 ≤ last ∧
      (∀ k, first ≤ k → k < (split arr first last pivot).2 → (split arr first last pivot).1 k ≤ pivot) ∧
      ∀ k, (split arr first last pivot).2 ≤ k → k < last → pivot ≤ (split arr first last pivot).1 k := by
  have hperm := List.filter_append_perm (fun x => decide (x < pivot)) (seg arr first (last - 1))
  have hlen := hperm.length_eq
  rw [List.length_append, length_seg] at hlen
  simp only [split]
  refine ⟨rearranged_storeAt hperm, by omega, by omega, fun k h₁ h₂ => ?_, fun k h₁ h₂ => ?_⟩
  · have hk : (k - first).toNat < ((seg arr first (last - 1)).filter (· < pivot)).length := by omega
    have hat := @storeAt_at _ first arr ((seg arr first (last - 1)).filter (· < pivot) ++
      (seg arr first (last - 1)).filter fun x => !decide (x < pivot)) (k - first).toNat
      (by rw [List.length_append]; omega)
    rw [show first + ((k - first).toNat : Int) = k by omega, List.getElem_append_left hk] at hat
    rw [hat]
    have hmem := (List.mem_filter.1 (List.getElem_mem hk)).2
    exact le_of_lt (by simpa using hmem)
  · have hk : (k - first).toNat - ((seg arr first (last - 1)).filter (· < pivot)).length <
        ((seg arr first (last - 1)).filter fun x => !decide (x < pivot)).length := by omega
    have hat := @storeAt_at _ first arr ((seg arr first (last - 1)).filter (· < pivot) ++
      (seg arr first (last - 1)).filter fun x => !decide (x < pivot)) (k - first).toNat
      (by rw [List.length_append]; omega)
    rw [show first + ((k - first).toNat : Int) = k by omega, List.getElem_append_right (by omega)] at hat
    rw [hat]
    have hmem := (List.mem_filter.1 (List.getElem_mem hk)).2
    simpa using hmem

/-- The middle one of three. -/
def middle (a b c : α) : α := max (min a b) (min (max a b) c)

/-- Parts that do what they have to. -/
def sortParts : Parts Int where
  median := middle
  unguarded_partition := split
  partial_sort := sorted
  final_insertion_sort := sorted
  median_mem a b c := by
    unfold middle
    omega
  partition_spec arr first last pivot h := by
    obtain ⟨k, h₁, h₂, -⟩ := h
    exact split_spec arr (Int.lt_of_le_of_lt h₁ h₂) pivot
  partial_sort_spec := sorted_spec
  final_spec arr first last _ := sorted_spec arr first last

/-- The first twenty numbers of an array. -/
theorem sort_sorts_twenty :
    (seg (sort sortParts 0 (0 + (20 : Nat)) (fun k => k)).arr 0 (0 + (20 : Nat) - 1)).Pairwise (· ≤ ·) ∧
      (sort sortParts 0 (0 + (20 : Nat)) (fun k => k)).work ≤ 2 * 20 * Nat.log 2 20 := by
  have h := sort_sorts sortParts (fun k => k) 0 20
  exact ⟨h.1, h.2.2.2.2⟩

end LearningNotes.Stl
