import Mathlib.Data.List.Perm.Subperm
import Mathlib.Data.List.Nodup
import Mathlib.Logic.Equiv.Basic
import Mathlib.Order.Basic

/-!
# Segments of an array

An array is a function of its index, and `seg a p r` lists the elements `a[p], …, a[r]`. A
procedure that sorts a range leaves the rest of the array as it was and the range with the
same elements in another order. That is `Rearranged`, and it is closed under the three things such
procedures are made of: exchanging two elements, one piece of work after another, and work
on a part of the range.
-/

namespace LearningNotes

variable {α : Type} {a b c : Int → α} {i j k p q r : Int}

/-- The elements `a[p], …, a[r]`. -/
def seg (a : Int → α) (p r : Int) : List α :=
  (List.range (r + 1 - p).toNat).map fun n : Nat => a (p + n)

/-- `swap(a[i], a[j])`. -/
def swapAt (a : Int → α) (i j : Int) : Int → α :=
  Function.update (Function.update a i (a j)) j (a i)

/-- `a[p..r]` is in ascending order. -/
def Ascending [LE α] (a : Int → α) (p r : Int) : Prop := ∀ i j, p ≤ i → i ≤ j → j ≤ r → a i ≤ a j

/-- `b` is `a` with `a[p..r]` in another order. -/
structure Rearranged (a b : Int → α) (p r : Int) : Prop where
  perm : (seg b p r).Perm (seg a p r)
  frame : ∀ k, k < p ∨ r < k → b k = a k

/-! ## Segments as lists -/

@[simp] theorem length_seg : (seg a p r).length = (r + 1 - p).toNat := by simp [seg]

theorem seg_eq_nil (h : r < p) : seg a p r = [] := by
  apply List.eq_nil_of_length_eq_zero
  rw [length_seg]
  omega

@[simp] theorem seg_self : seg a p p = [a p] := by
  rw [seg, show p + 1 - p = 1 by omega]
  simp

theorem mem_seg {x : α} : x ∈ seg a p r ↔ ∃ k, p ≤ k ∧ k ≤ r ∧ a k = x := by
  simp only [seg, List.mem_map, List.mem_range]
  constructor
  · intro ⟨n, hn, hx⟩
    exact ⟨p + n, by omega, by omega, hx⟩
  · intro ⟨k, hp, hr, hx⟩
    exact ⟨(k - p).toNat, by omega, by rw [show p + ((k - p).toNat : Int) = k by omega]; exact hx⟩

theorem seg_congr (h : ∀ k, p ≤ k → k ≤ r → a k = b k) : seg a p r = seg b p r := by
  apply List.map_congr_left
  intro n hn
  have hn := List.mem_range.mp hn
  exact h _ (by omega) (by omega)

/-- An array in two parts. -/
theorem seg_split (a : Int → α) (hp : p ≤ q + 1) (hr : q ≤ r) :
    seg a p q ++ seg a (q + 1) r = seg a p r := by
  have hlen : (r + 1 - p).toNat = (q + 1 - p).toNat + (r + 1 - (q + 1)).toNat := by omega
  rw [seg, seg, seg, hlen, List.range_add, List.map_append, List.map_map]
  congr 1
  apply List.map_congr_left
  intro n _
  show a (q + 1 + n) = a (p + ((q + 1 - p).toNat + n : Nat))
  congr 1
  omega

/-- The first element, and the rest. -/
theorem seg_head (a : Int → α) (h : p ≤ r) : seg a p r = a p :: seg a (p + 1) r := by
  rw [← seg_split a (show p ≤ p + 1 by omega) h, seg_self, List.singleton_append]

/-- One element more at the end. -/
theorem seg_concat (a : Int → α) (h : p ≤ r + 1) : seg a p (r + 1) = seg a p r ++ [a (r + 1)] := by
  rw [← seg_split a h (show r ≤ r + 1 by omega), seg_self]

/-- In ascending order is sorted as a list. -/
theorem Ascending.pairwise [LE α] (h : Ascending a p r) : (seg a p r).Pairwise (· ≤ ·) := by
  rw [seg, List.pairwise_map]
  apply List.pairwise_lt_range.imp_of_mem
  intro m n hm hn hlt
  have hn := List.mem_range.mp hn
  exact h _ _ (by omega) (by omega) (by omega)

theorem Ascending.of_pairwise [Preorder α] (h : (seg a p r).Pairwise (· ≤ ·)) : Ascending a p r := by
  intro i j hp hij hr
  rcases Int.lt_or_eq_of_le hij with hlt | rfl
  · rw [seg, List.pairwise_map, List.pairwise_iff_getElem] at h
    have := h (i - p).toNat (j - p).toNat (by simp; omega) (by simp; omega) (by omega)
    simp only [List.getElem_range] at this
    rw [show p + ((i - p).toNat : Int) = i by omega, show p + ((j - p).toNat : Int) = j by omega]
      at this
    exact this
  · exact le_refl _

/-- One element, or none, is sorted. -/
theorem Ascending.of_le [Preorder α] (h : r ≤ p) : Ascending a p r := by
  intro i j hp hij hr
  rw [show i = j by omega]

/-- Two ranges in order side by side, no element of the first above one of the second. -/
theorem Ascending.append [LE α] (hl : Ascending a p q) (hr : Ascending a (q + 1) r)
    (h : ∀ i j, p ≤ i → i ≤ q → q < j → j ≤ r → a i ≤ a j) : Ascending a p r := by
  intro i j hp hij hjr
  by_cases hj : j ≤ q
  · exact hl i j hp hij hj
  by_cases hi : i ≤ q
  · exact h i j hp hi (by omega) hjr
  · exact hr i j (by omega) hij hjr

/-! ## Writing a list -/

/-- The array with the elements of `w` stored from index `k` on. -/
def storeAt (a : Int → α) (k : Int) : List α → Int → α
  | [] => a
  | x :: w => storeAt (Function.update a k x) (k + 1) w

/-- Nothing is written in front. -/
theorem storeAt_of_lt : ∀ (w : List α) (a : Int → α) {k i : Int}, i < k → storeAt a k w i = a i
  | [], _, _, _, _ => rfl
  | x :: w, a, k, i, h => by
    show storeAt (Function.update a k x) (k + 1) w i = a i
    rw [storeAt_of_lt w _ (by omega), Function.update_of_ne (by omega)]

/-- Nothing is written behind. -/
theorem storeAt_of_ge : ∀ (w : List α) (a : Int → α) {k i : Int}, k + w.length ≤ i →
    storeAt a k w i = a i
  | [], _, _, _, _ => rfl
  | x :: w, a, k, i, h => by
    rw [List.length_cons] at h
    show storeAt (Function.update a k x) (k + 1) w i = a i
    rw [storeAt_of_ge w _ (by omega), Function.update_of_ne (by omega)]

/-- What has been written. -/
theorem seg_storeAt : ∀ (w : List α) (a : Int → α) {k r : Int}, k + w.length = r + 1 →
    seg (storeAt a k w) k r = w
  | [], a, k, r, h => seg_eq_nil (by rw [List.length_nil] at h; omega)
  | x :: w, a, k, r, h => by
    rw [List.length_cons] at h
    have hfirst : storeAt a k (x :: w) k = x := by
      show storeAt (Function.update a k x) (k + 1) w k = x
      rw [storeAt_of_lt w _ (by omega), Function.update_self]
    rw [seg_head _ (by omega), hfirst]
    exact congrArg (List.cons x) (seg_storeAt w (Function.update a k x) (by omega))

/-- The elements of the range written back in another order. -/
theorem Rearranged.of_storeAt {w : List α} (h : w.Perm (seg a p r)) (hp : p ≤ r + 1) :
    Rearranged a (storeAt a p w) p r := by
  have hlen : p + (w.length : Int) = r + 1 := by
    rw [h.length_eq, length_seg]
    omega
  refine ⟨?_, ?_⟩
  · rw [seg_storeAt w a hlen]
    exact h
  · intro k hk
    rcases hk with hk | hk
    · exact storeAt_of_lt w a hk
    · exact storeAt_of_ge w a (by omega)

/-! ## Exchanging two elements -/

theorem swapAt_eq (a : Int → α) (i j : Int) : swapAt a i j = a ∘ Equiv.swap i j := by
  funext k
  simp only [swapAt, Function.update_apply, Function.comp_apply, Equiv.swap_apply_def]
  by_cases hj : k = j
  · subst hj
    by_cases hi : k = i
    · simp [hi]
    · simp [hi]
  · simp only [hj, if_false]
    by_cases hi : k = i
    · simp [hi]
    · simp [hi]

theorem swapAt_left : swapAt a i j i = a j := by rw [swapAt_eq]; simp

theorem swapAt_right : swapAt a i j j = a i := by rw [swapAt_eq]; simp

theorem swapAt_of_ne (hi : k ≠ i) (hj : k ≠ j) : swapAt a i j k = a k := by
  simp [swapAt, hi, hj]

/-- The elements of a range read through a bijection that keeps to the range. -/
theorem seg_comp_perm (a : Int → α) (σ : Equiv.Perm Int)
    (h : ∀ k, p ≤ k → k ≤ r → p ≤ σ k ∧ σ k ≤ r) : (seg (a ∘ σ) p r).Perm (seg a p r) := by
  have hmap : ∀ f : Int → α, seg f p r = (seg id p r).map f := by
    intro f
    simp [seg]
  have hnodup : (seg id p r).Nodup := by
    apply List.Nodup.map _ List.nodup_range
    intro m n hmn
    exact Int.ofNat.inj (Int.add_left_cancel hmn)
  have hσ : ((seg id p r).map σ).Perm (seg id p r) := by
    apply List.Subperm.perm_of_length_le
    · apply List.subperm_of_subset (List.Nodup.map σ.injective hnodup)
      intro x hx
      obtain ⟨y, hy, rfl⟩ := List.mem_map.mp hx
      obtain ⟨k, hp, hr, rfl⟩ := mem_seg.mp hy
      exact mem_seg.mpr ⟨σ k, (h k hp hr).1, (h k hp hr).2, rfl⟩
    · simp
  rw [hmap (a ∘ σ), hmap a, ← List.map_map]
  exact hσ.map a

/-! ## Rearranging a range -/

theorem Rearranged.refl (a : Int → α) (p r : Int) : Rearranged a a p r :=
  ⟨List.Perm.refl _, fun _ _ => rfl⟩

/-- One rearrangement after another. -/
theorem Rearranged.trans (h : Rearranged a b p r) (h' : Rearranged b c p r) : Rearranged a c p r :=
  ⟨h'.perm.trans h.perm, fun k hk => (h'.frame k hk).trans (h.frame k hk)⟩

/-- Work on a part of the range. -/
theorem Rearranged.widen (h : Rearranged a b i j) (hp : p ≤ i) (hr : j ≤ r) :
    Rearranged a b p r := by
  have hframe : ∀ k, k < p ∨ r < k → b k = a k := by
    intro k hk
    exact h.frame k (by omega)
  by_cases hij : i ≤ j + 1
  · refine ⟨?_, hframe⟩
    have hlow : seg b p (i - 1) = seg a p (i - 1) := seg_congr fun k _ hk => h.frame k (by omega)
    have hhigh : seg b (j + 1) r = seg a (j + 1) r := seg_congr fun k hk _ => h.frame k (by omega)
    have hsplit : ∀ f : Int → α, seg f p r = seg f p (i - 1) ++ (seg f i j ++ seg f (j + 1) r) := by
      intro f
      rw [seg_split f hij hr]
      conv => lhs; rw [← seg_split f (show p ≤ i - 1 + 1 by omega) (show i - 1 ≤ r by omega)]
      rw [show i - 1 + 1 = i by omega]
    rw [hsplit b, hsplit a, hlow, hhigh]
    exact (h.perm.append_right _).append_left _
  · have hab : b = a := funext fun k => h.frame k (by omega)
    rw [hab]
    exact .refl a p r

/-- Two elements change places. -/
theorem Rearranged.swap (hi : p ≤ i ∧ i ≤ r) (hj : p ≤ j ∧ j ≤ r) :
    Rearranged a (swapAt a i j) p r := by
  constructor
  · rw [swapAt_eq]
    apply seg_comp_perm
    intro k hp hr
    rw [Equiv.swap_apply_def]
    split
    · exact hj
    split
    · exact hi
    · exact ⟨hp, hr⟩
  · intro k hk
    exact swapAt_of_ne (by omega) (by omega)

/-- What holds of every element of the range before holds of every element after. -/
theorem Rearranged.forall {P : α → Prop} (h : Rearranged a b p r)
    (hP : ∀ k, p ≤ k → k ≤ r → P (a k)) : ∀ k, p ≤ k → k ≤ r → P (b k) := by
  intro k hp hr
  have hmem : b k ∈ seg a p r := h.perm.mem_iff.mp (mem_seg.mpr ⟨k, hp, hr, rfl⟩)
  obtain ⟨k', hp', hr', hk'⟩ := mem_seg.mp hmem
  rw [← hk']
  exact hP k' hp' hr'

end LearningNotes
