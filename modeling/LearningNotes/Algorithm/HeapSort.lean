import LearningNotes.Lib.BinHeap
import LearningNotes.Lib.CInt
import Mathlib.Algebra.GroupWithZero.Nat
import Mathlib.Data.Int.Order.Basic

/-!
# The C++ `heapsort` of the notes

`max_heapify` moves one node down until it is not below a child, `build_max_heap` does so for every
node with a child from the last one back to the root, and `heapsort` then takes the root from the
heap again and again and puts it behind what is left of the heap. The size of the heap is a global.

The index of a child is computed before it is compared with the size of the heap, also for a
node without children. For a node from `2^30` on it does not fit an `int`. That is undefined in C++ and
has no result here.
-/

namespace LearningNotes.Algorithm

variable {arr arr₀ : Int → Int} {n i length heap_size : Nat}

/-- The array and the global variable. -/
structure Mem where
  heap_size : Nat
  arr : Int → Int

/-- `largest` after the two tests of `max_heapify`. -/
def largestOf (heap_size : Nat) (arr : Int → Int) (i : Nat) : Nat :=
  let l := 2 * i
  let r := 2 * i + 1
  let largest := if l ≤ heap_size ∧ arr l > arr i then l else i
  if r ≤ heap_size ∧ arr r > arr largest then r else largest

/-- The node itself, or a child of it. -/
theorem largestOf_cases (heap_size : Nat) (arr : Int → Int) (i : Nat) :
    largestOf heap_size arr i = i ∨
      (i < largestOf heap_size arr i ∧ largestOf heap_size arr i ≤ heap_size) := by
  unfold largestOf
  dsimp only
  by_cases hl : 2 * i ≤ heap_size ∧ arr (2 * i : Nat) > arr i
  · rw [if_pos hl]
    have hi : i ≠ 0 := by
      intro h
      have := hl.2
      rw [h] at this
      exact absurd this (Int.lt_irrefl _)
    split <;> omega
  · rw [if_neg hl]
    split <;> omega

/-- `max_heapify` -/
def maxHeapify (heap_size : Nat) (arr : Int → Int) (i : Nat) : Option (Int → Int) :=
  if 2 * i + 1 ≤ INT_MAX then
    let largest := largestOf heap_size arr i
    if _h : largest ≠ i then maxHeapify heap_size (swapAt arr i largest) largest
    else some arr
  else none
  termination_by heap_size + 1 - i
  decreasing_by
    have := largestOf_cases heap_size arr i
    omega

/-- The `for` loop of `build_max_heap`. -/
def buildLoop (heap_size : Nat) (arr : Int → Int) : Nat → Option (Int → Int)
  | 0 => some arr
  | i + 1 => (maxHeapify heap_size arr (i + 1)).bind fun arr => buildLoop heap_size arr i

/-- `build_max_heap` -/
def buildMaxHeap (arr : Int → Int) (length : Nat) : Option Mem :=
  let heap_size := length
  (buildLoop heap_size arr (length / 2)).bind fun arr => some ⟨heap_size, arr⟩

/-- What the `for` loop of `heapsort` does for one `i`. -/
def extract (m : Mem) (i : Nat) : Option Mem :=
  let arr := swapAt m.arr 1 i
  let heap_size := m.heap_size - 1
  (maxHeapify heap_size arr 1).bind fun arr => some ⟨heap_size, arr⟩

/-- The `for` loop of `heapsort`, from `i` down. -/
def extractLoop (m : Mem) (i : Nat) : Option Mem :=
  if 2 ≤ i then (extract m i).bind fun m => extractLoop m (i - 1) else some m
  termination_by i

/-- `heapsort` -/
def heapsort (arr : Int → Int) (length : Nat) : Option (Int → Int) :=
  (buildMaxHeap arr length).bind fun m =>
    (extractLoop m length).bind fun m => some m.arr

/-! ## `max_heapify` -/

/-- `largest` is a child that no child is above, or the node when it is not below a child. -/
theorem largestOf_spec (heap_size : Nat) (arr : Int → Int) (i : Nat) :
    (largestOf heap_size arr i = i ∧
      ∀ c : Nat, c / 2 = i → c ≤ heap_size → arr c ≤ arr i) ∨
    (largestOf heap_size arr i / 2 = i ∧ largestOf heap_size arr i ≤ heap_size ∧
      arr i < arr (largestOf heap_size arr i) ∧
      ∀ c : Nat, c / 2 = i → c ≤ heap_size → arr c ≤ arr (largestOf heap_size arr i)) := by
  have hchild : ∀ c, c / 2 = i → c = 2 * i ∨ c = 2 * i + 1 := by omega
  unfold largestOf
  dsimp only
  by_cases hl : 2 * i ≤ heap_size ∧ arr (2 * i : Nat) > arr i
  · rw [if_pos hl]
    by_cases hr : 2 * i + 1 ≤ heap_size ∧ arr (2 * i + 1 : Nat) > arr (2 * i : Nat)
    · rw [if_pos hr]
      refine .inr ⟨by omega, hr.1, Int.lt_trans hl.2 hr.2, ?_⟩
      intro c hc _
      rcases hchild c hc with rfl | rfl
      · exact Int.le_of_lt hr.2
      · exact Int.le_refl _
    · rw [if_neg hr]
      refine .inr ⟨by omega, hl.1, hl.2, ?_⟩
      intro c hc hcn
      rcases hchild c hc with rfl | rfl
      · exact Int.le_refl _
      · exact Int.not_lt.mp fun h => hr ⟨hcn, h⟩
  · rw [if_neg hl]
    by_cases hr : 2 * i + 1 ≤ heap_size ∧ arr (2 * i + 1 : Nat) > arr i
    · rw [if_pos hr]
      refine .inr ⟨by omega, hr.1, hr.2, ?_⟩
      intro c hc hcn
      rcases hchild c hc with rfl | rfl
      · exact Int.le_trans (Int.not_lt.mp fun h => hl ⟨hcn, h⟩) (Int.le_of_lt hr.2)
      · exact Int.le_refl _
    · rw [if_neg hr]
      refine .inl ⟨rfl, ?_⟩
      intro c hc hcn
      rcases hchild c hc with rfl | rfl
      · exact Int.not_lt.mp fun h => hl ⟨hcn, h⟩
      · exact Int.not_lt.mp fun h => hr ⟨hcn, h⟩

/-- Two heaps with a node on top become one heap. -/
theorem maxHeapify_sifted (hn : n < 2 ^ 30) (arr : Int → Int) (i : Nat) (hi : 1 ≤ i) (hin : i ≤ n)
    (h : ∀ c, c / 2 = i → SubHeap arr n c) :
    ∃ arr', maxHeapify n arr i = some arr' ∧ Sifted arr arr' n i := by
  unfold maxHeapify
  rw [if_pos (by simp only [INT_MAX]; omega)]
  dsimp only
  rcases largestOf_spec n arr i with ⟨heq, ht⟩ | ⟨hc, hcn, hlt, ht⟩
  · rw [dif_neg (not_not.mpr heq)]
    exact ⟨arr, rfl, .stop h ht⟩
  · have hgt : i < largestOf n arr i := by omega
    rw [dif_pos (by omega)]
    have hbelow : ∀ d, d / 2 = largestOf n arr i →
        SubHeap (swapAt arr i (largestOf n arr i)) n d :=
      fun d hd => (h _ hc).swap hi hc hd
    obtain ⟨arr', hrec, hs⟩ := maxHeapify_sifted hn _ (largestOf n arr i) (by omega) hcn hbelow
    exact ⟨arr', hrec, .step hi h hc hcn ht (Int.le_of_lt hlt) hs⟩
  termination_by n + 1 - i

/-! ## `build_max_heap` -/

/-- From the last parent down to the root. -/
theorem buildLoop_heap (hn : n < 2 ^ 30) : ∀ (i : Nat) (arr : Int → Int), i ≤ n →
    HeapFrom arr n (i + 1) →
    ∃ arr', buildLoop n arr i = some arr' ∧ MaxHeap arr' n ∧ Rearranged arr arr' 1 n
  | 0, arr, _, h => ⟨arr, rfl, h, .refl arr 1 n⟩
  | i + 1, arr, hi, h => by
    obtain ⟨arr₁, h₁, hs⟩ := maxHeapify_sifted hn arr (i + 1) (by omega) hi
      fun c hc => h.subHeap (by omega)
    obtain ⟨arr', h', hheap, hre⟩ := buildLoop_heap hn i arr₁ (by omega)
      (HeapFrom.sifted (by omega) h hs)
    refine ⟨arr', ?_, hheap, (hs.re.widen (by omega) (Int.le_refl _)).trans hre⟩
    unfold buildLoop
    rw [h₁]
    exact h'

/-- `build_max_heap` makes a heap. -/
theorem buildMaxHeap_heap (hn : length < 2 ^ 30) (arr : Int → Int) :
    ∃ arr', buildMaxHeap arr length = some ⟨length, arr'⟩ ∧ MaxHeap arr' length
      ∧ Rearranged arr arr' 1 length := by
  obtain ⟨arr', h, hheap, hre⟩ := buildLoop_heap hn (length / 2) arr (by omega)
    fun k hk hik => by omega
  refine ⟨arr', ?_, hheap, hre⟩
  unfold buildMaxHeap
  dsimp only
  rw [h]
  rfl

/-! ## `heapsort` -/

/-- What the loop of `heapsort` keeps. The heap is `arr[1..i]`, and what was taken from it stands
behind it in order. -/
structure Extracting (length : Nat) (m : Mem) (i : Nat) : Prop where
  size : m.heap_size = i
  le : i ≤ length
  heap : MaxHeap m.arr i
  suffix : Ascending m.arr (i + 1) length
  above : ∀ j k : Int, 1 ≤ j → j ≤ i → i < k → k ≤ length → m.arr j ≤ m.arr k

/-- The whole array is a heap. -/
theorem Extracting.start (h : MaxHeap arr length) : Extracting length ⟨length, arr⟩ length :=
  ⟨rfl, Nat.le_refl _, h, .of_le (by omega), fun _ _ _ _ _ _ => by omega⟩

/-- The last element of the heap in place of the root leaves the two heaps below the root. -/
theorem MaxHeap.below_root (h : MaxHeap arr (i + 1)) : HeapFrom (swapAt arr 1 (i + 1 : Nat)) i 2 := by
  intro k hk h2
  rw [swapAt_of_ne (by omega) (by omega), swapAt_of_ne (by omega) (by omega)]
  exact h k (by omega) (by omega)

/-- The greatest goes behind the heap. -/
theorem Extracting.step (hn : length < 2 ^ 30) {m : Mem} (h : Extracting length m (i + 1)) (hi : 1 ≤ i) :
    ∃ m', extract m (i + 1) = some m' ∧ Extracting length m' i
      ∧ Rearranged m.arr m'.arr 1 length := by
  have hle := h.le
  have hheap := MaxHeap.below_root h.heap
  obtain ⟨arr', hsift, hs⟩ := maxHeapify_sifted (show i < 2 ^ 30 by omega)
    (swapAt m.arr 1 (i + 1 : Nat)) 1 (Nat.le_refl 1) hi fun c hc => hheap.subHeap (by omega)
  have hback : ∀ k : Int, (i : Int) < k → arr' k = swapAt m.arr 1 (i + 1 : Nat) k :=
    fun k hk => hs.re.frame k (.inr hk)
  have hlast : arr' (i + 1) = m.arr 1 := by
    rw [hback _ (by omega)]
    exact swapAt_right
  have hrest : ∀ k : Int, (i : Int) + 1 < k → arr' k = m.arr k := by
    intro k hk
    rw [hback k (by omega), swapAt_of_ne (by omega) (by omega)]
  -- The old root is not below what is in the heap now.
  have hfirst : ∀ j : Int, 1 ≤ j → j ≤ i → arr' j ≤ m.arr 1 := by
    apply hs.re.forall (P := (· ≤ m.arr 1))
    intro k h1 hk
    by_cases hk1 : k = 1
    · rw [hk1, swapAt_left]
      exact h.heap.le_first (by omega) (Nat.le_refl _)
    · rw [swapAt_of_ne hk1 (by omega)]
      have hle := h.heap.le_first (k := k.toNat) (by omega) (by omega)
      rwa [show ((k.toNat : Nat) : Int) = k by omega] at hle
  have hroot : ∀ k : Int, (i : Int) + 1 < k → k ≤ length → m.arr 1 ≤ m.arr k :=
    fun k hk hkl => h.above 1 k (by omega) (by omega) (by omega) hkl
  refine ⟨⟨i, arr'⟩, ?_, ⟨rfl, by omega, .sifted (Nat.le_refl 1) hheap hs, ?_, ?_⟩, ?_⟩
  · unfold extract
    dsimp only
    rw [h.size, Nat.add_sub_cancel, hsift]
    rfl
  · intro j k hj hjk hk
    show arr' j ≤ arr' k
    by_cases hj' : j = (i : Int) + 1
    · by_cases hk' : k = (i : Int) + 1
      · rw [hj', hk']
      · rw [hj', hlast, hrest k (by omega)]
        exact hroot k (by omega) hk
    · rw [hrest j (by omega), hrest k (by omega)]
      exact h.suffix j k (by omega) hjk hk
  · intro j k h1 hj hk hkl
    apply Int.le_trans (hfirst j h1 hj)
    show m.arr 1 ≤ arr' k
    by_cases hk' : k = (i : Int) + 1
    · rw [hk', hlast]
    · rw [hrest k (by omega)]
      exact hroot k (by omega) hkl
  · exact (Rearranged.swap (by omega) (by omega)).trans
      (hs.re.widen (Int.le_refl _) (by omega))

/-- The heap is used up. -/
theorem extractLoop_sorted (hn : length < 2 ^ 30) : ∀ (i : Nat) (m : Mem), Extracting length m i →
    ∃ m', extractLoop m i = some m' ∧ Ascending m'.arr 1 length
      ∧ Rearranged m.arr m'.arr 1 length
  | 0, m, h => by
    refine ⟨m, ?_, h.suffix, .refl m.arr 1 length⟩
    unfold extractLoop
    rw [if_neg (by omega)]
  | 1, m, h => by
    refine ⟨m, ?_, ?_, .refl m.arr 1 length⟩
    · unfold extractLoop
      rw [if_neg (by omega)]
    · apply Ascending.append (.of_le (Int.le_refl 1)) h.suffix
      intro j k h1 hj hk hkl
      exact h.above j k h1 hj hk hkl
  | i + 2, m, h => by
    obtain ⟨m₁, h₁, hinv, hre₁⟩ := h.step hn (by omega)
    obtain ⟨m', h', hasc, hre⟩ := extractLoop_sorted hn (i + 1) m₁ hinv
    refine ⟨m', ?_, hasc, hre₁.trans hre⟩
    unfold extractLoop
    rw [if_pos (by omega), h₁]
    exact h'

/-! ## What is asked of the three -/

/-- `heapsort` and the functions it calls do what they are for with arrays of this length. -/
structure HeapsortRight (length : Nat) : Prop where
  build : ∀ arr, ∃ arr', buildMaxHeap arr length = some ⟨length, arr'⟩ ∧ MaxHeap arr' length
  heapify : ∀ heap_size arr i, heap_size ≤ length → 1 ≤ i → i ≤ heap_size →
    SubHeap arr heap_size (2 * i) → SubHeap arr heap_size (2 * i + 1) →
    ∃ arr', maxHeapify heap_size arr i = some arr' ∧ SubHeap arr' heap_size i
  step : ∀ m i, Extracting length m (i + 1) → 1 ≤ i →
    ∃ m', extract m (i + 1) = some m' ∧ Extracting length m' i
  sorts : ∀ arr, ∃ arr', heapsort arr length = some arr' ∧
    (seg arr' 1 length).Pairwise (· ≤ ·) ∧ (seg arr' 1 length).Perm (seg arr 1 length)

/-- Below 2^30 no index overflows. -/
theorem HeapsortRight.of_lt (hn : length < 2 ^ 30) : HeapsortRight length where
  build := by
    intro arr
    obtain ⟨arr', h, hheap, _⟩ := buildMaxHeap_heap hn arr
    exact ⟨arr', h, hheap⟩
  heapify := by
    intro heap_size arr i hle hi hin hl hr
    have hchild : ∀ c, c / 2 = i → SubHeap arr heap_size c := by
      intro c hc
      rcases (show c = 2 * i ∨ c = 2 * i + 1 by omega) with rfl | rfl
      · exact hl
      · exact hr
    obtain ⟨arr', h, hs⟩ := maxHeapify_sifted (Nat.lt_of_le_of_lt hle hn) arr i hi hin hchild
    exact ⟨arr', h, hs.heap⟩
  step := by
    intro m i h hi
    obtain ⟨m', h', hinv, _⟩ := h.step hn hi
    exact ⟨m', h', hinv⟩
  sorts := by
    intro arr
    obtain ⟨arr₁, h₁, hheap, hre₁⟩ := buildMaxHeap_heap hn arr
    obtain ⟨m, h, hasc, hre⟩ := extractLoop_sorted hn length _ (.start hheap)
    refine ⟨m.arr, ?_, hasc.pairwise, (hre₁.trans hre).perm⟩
    unfold heapsort
    rw [h₁, Option.bind_some, h]
    rfl

/-- In an array in ascending order the last node with a child goes down, and from `2^30` elements on that
takes it to a node whose children have no index. -/
theorem heapsort_ascending (hn : 2 ^ 30 ≤ length) : heapsort id length = none := by
  have hnone : ∀ arr i, 2 ^ 30 ≤ i → maxHeapify length arr i = none := by
    intro arr i hi
    unfold maxHeapify
    rw [if_neg (by simp only [INT_MAX]; omega)]
  have hfirst : maxHeapify length id (length / 2) = none := by
    unfold maxHeapify
    split
    · rcases largestOf_spec length id (length / 2) with ⟨heq, ht⟩ | ⟨hc, _⟩
      · have := ht (2 * (length / 2)) (by omega) (by omega)
        simp only [id_eq] at this
        omega
      · dsimp only
        rw [dif_pos (by omega)]
        exact hnone _ _ (by omega)
    · rfl
  unfold heapsort buildMaxHeap
  rw [show length / 2 = length / 2 - 1 + 1 by omega] at hfirst ⊢
  unfold buildLoop
  dsimp only
  rw [hfirst]
  rfl

/-- Heapsort is right for every array of a length exactly up to the length `2^30 - 1`. -/
theorem heapsort_right_iff (length : Nat) : HeapsortRight length ↔ length < 2 ^ 30 := by
  constructor
  · intro h
    apply Nat.lt_of_not_le
    intro hn
    obtain ⟨arr', hsome, _⟩ := h.sorts id
    rw [heapsort_ascending hn] at hsome
    cases hsome
  · exact .of_lt

/-- The numbers from `1` to `2^30` in order are not sorted. -/
theorem heapsort_two_pow_thirty : ¬∃ arr', heapsort id (2 ^ 30) = some arr' ∧
    (seg arr' 1 (2 ^ 30 : Nat)).Pairwise (· ≤ ·) ∧
      (seg arr' 1 (2 ^ 30 : Nat)).Perm (seg id 1 (2 ^ 30 : Nat)) := by
  rw [heapsort_ascending (Nat.le_refl _)]
  intro ⟨_, hsome, _⟩
  cases hsome

end LearningNotes.Algorithm
