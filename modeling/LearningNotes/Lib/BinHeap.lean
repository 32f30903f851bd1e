import LearningNotes.Lib.Segment
import Mathlib.Order.Lattice

/-!
# Binary heaps in an array

Node `k` of a heap has the parent `k / 2` and the children `2k` and `2k+1`. The heap
property is stated for the tree below one node, so that it can be spoken of while it holds in part
of the array only: a node put on top of two heaps is moved down one path, and what lies beside the
path is not touched.
-/

namespace LearningNotes

variable {α : Type} [LinearOrder α] {a b : Int → α} {n i c d k : Nat}

/-- Node `k` is in the tree below node `i`, or is `i`. -/
inductive Under (i : Nat) : Nat → Prop where
  | root : Under i i
  | left {k : Nat} : Under i k → Under i (2 * k)
  | right {k : Nat} : Under i k → Under i (2 * k + 1)

/-- In the tree below `i`, up to node `n`, no node is above its parent. -/
def SubHeap (a : Int → α) (n i : Nat) : Prop :=
  ∀ k : Nat, k ≤ n → Under i (k / 2) → a k ≤ a (k / 2 : Nat)

/-- No child of a node from `i` on is above the node. -/
def HeapFrom (a : Int → α) (n i : Nat) : Prop :=
  ∀ k : Nat, k ≤ n → i ≤ k / 2 → a k ≤ a (k / 2 : Nat)

/-- `a[1..n]` is a max-heap. -/
abbrev MaxHeap (a : Int → α) (n : Nat) : Prop := HeapFrom a n 1

/-- What moving node `i` down its tree does. -/
structure Sifted (a b : Int → α) (n i : Nat) : Prop where
  heap : SubHeap b n i
  re : Rearranged a b i n
  frame : ∀ k : Nat, ¬Under i k → b k = a k
  bound : ∀ x, (∀ k : Nat, k ≤ n → Under i k → a k ≤ x) → ∀ k : Nat, k ≤ n → Under i k → b k ≤ x

/-! ## The tree below a node -/

omit [LinearOrder α]

theorem Under.le (h : Under i k) : i ≤ k := by
  induction h with
  | root => exact Nat.le_refl i
  | left _ ih => omega
  | right _ ih => omega

theorem Under.trans (h : Under i c) (h' : Under c k) : Under i k := by
  induction h' with
  | root => exact h
  | left _ ih => exact .left ih
  | right _ ih => exact .right ih

/-- A node of the tree that is not its top has its parent in the tree. -/
theorem Under.half (h : Under i k) (hne : k ≠ i) : Under i (k / 2) := by
  cases h with
  | root => exact absurd rfl hne
  | left h => rwa [Nat.mul_div_cancel_left _ (by omega)]
  | right h => rwa [show ∀ m, (2 * m + 1) / 2 = m by omega]

theorem Under.of_half (h : Under i (k / 2)) : Under i k := by
  rcases Nat.mod_two_eq_zero_or_one k with hk | hk
  · have h := h.left
    rwa [show 2 * (k / 2) = k by omega] at h
  · have h := h.right
    rwa [show 2 * (k / 2) + 1 = k by omega] at h

/-- Below a node are the trees of its two children. -/
theorem Under.cases_child (h : Under i k) (hne : k ≠ i) : Under (2 * i) k ∨ Under (2 * i + 1) k := by
  induction h with
  | root => exact absurd rfl hne
  | @left k h ih =>
    by_cases hk : k = i
    · exact .inl (hk ▸ .root)
    · exact (ih hk).imp .left .left
  | @right k h ih =>
    by_cases hk : k = i
    · exact .inr (hk ▸ .root)
    · exact (ih hk).imp .right .right

/-- The trees of two children have no node in common. -/
theorem Under.child_eq (hi : 1 ≤ i) (hc : c / 2 = i) (hd : d / 2 = i) (h : Under c k)
    (h' : Under d k) : c = d := by
  induction k using Nat.strongRecOn with
  | ind k ih =>
    have hck := h.le
    have hdk := h'.le
    by_cases hkc : k = c
    · by_cases hkd : k = d
      · omega
      · have := (h'.half hkd).le
        omega
    · by_cases hkd : k = d
      · have := (h.half hkc).le
        omega
      · exact ih (k / 2) (by omega) (h.half hkc) (h'.half hkd)

theorem under_child (hc : c / 2 = i) : Under i c := .of_half (hc ▸ .root)

theorem under_one (hk : 1 ≤ k) : Under 1 k := by
  induction k using Nat.strongRecOn with
  | ind k ih =>
    by_cases h1 : k = 1
    · exact h1 ▸ .root
    · exact .of_half (ih (k / 2) (by omega) (by omega))

variable [LinearOrder α]

/-- The top of a tree in heap order is its greatest element. -/
theorem SubHeap.le_top (h : SubHeap a n i) : ∀ k : Nat, k ≤ n → Under i k → a k ≤ a i := by
  intro k
  induction k using Nat.strongRecOn with
  | ind k ih =>
    intro hk hu
    by_cases hki : k = i
    · rw [hki]
    · have hhalf := hu.half hki
      have hk0 : 0 < k := by
        have := hu.le
        omega
      exact le_trans (h k hk hhalf) (ih (k / 2) (by omega) (by omega) hhalf)

theorem HeapFrom.subHeap (h : HeapFrom a n i) (hc : i ≤ c) : SubHeap a n c :=
  fun k hk hu => h k hk (Nat.le_trans hc hu.le)

theorem MaxHeap.le_first (h : MaxHeap a n) (hk : 1 ≤ k) (hn : k ≤ n) : a k ≤ a (1 : Nat) :=
  (HeapFrom.subHeap h (Nat.le_refl 1)).le_top k hn (under_one hk)

/-- A tree put in heap order below which everything was. -/
theorem HeapFrom.sifted (hi : 1 ≤ i) (h : HeapFrom a n (i + 1)) (hs : Sifted a b n i) :
    HeapFrom b n i := by
  intro k hk hik
  by_cases hu : Under i (k / 2)
  · exact hs.heap k hk hu
  · have hne : k / 2 ≠ i := fun he => hu (he ▸ .root)
    have hk' : ¬Under i k := fun h => hu (h.half (by omega))
    rw [hs.frame k hk', hs.frame _ hu]
    exact h k hk (by omega)

/-! ## Moving a node down -/

theorem SubHeap.of_children (h : ∀ c, c / 2 = i → SubHeap a n c)
    (ht : ∀ c : Nat, c / 2 = i → c ≤ n → a c ≤ a i) : SubHeap a n i := by
  intro k hk hu
  by_cases hki : k / 2 = i
  · rw [hki]
    exact ht k hki hk
  · rcases hu.cases_child hki with h' | h'
    · exact h _ (by omega) k hk h'
    · exact h _ (by omega) k hk h'

/-- The node is not below one of its children: it stays. -/
theorem Sifted.stop (h : ∀ c, c / 2 = i → SubHeap a n c)
    (ht : ∀ c : Nat, c / 2 = i → c ≤ n → a c ≤ a i) : Sifted a a n i :=
  ⟨.of_children h ht, .refl a i n, fun _ _ => rfl, fun _ hx => hx⟩

/-- What is below a child after the exchange is as it was. -/
theorem SubHeap.swap (h : SubHeap a n c) (hi : 1 ≤ i) (hc : c / 2 = i) (hd : d / 2 = c) :
    SubHeap (swapAt a i c) n d := by
  intro k hk hu
  have hle := hu.le
  rw [swapAt_of_ne (by omega) (by omega), swapAt_of_ne (by omega) (by omega)]
  exact h k hk ((under_child hd).trans hu)

/-- The node goes below its greatest child `c`, and then on down the tree of `c`. -/
theorem Sifted.step (hi : 1 ≤ i) (h : ∀ c, c / 2 = i → SubHeap a n c) (hc : c / 2 = i) (hcn : c ≤ n)
    (ht : ∀ d : Nat, d / 2 = i → d ≤ n → a d ≤ a c) (hlt : a i ≤ a c)
    (hs : Sifted (swapAt a i c) b n c) : Sifted a b n i := by
  have hroot : b i = a c := by
    rw [hs.frame i fun hu => by have := hu.le; omega, swapAt_left]
  -- Below `c` there are now elements that were there and the one from `i`.
  have hbelow : ∀ x, (∀ k : Nat, k ≤ n → Under i k → a k ≤ x) →
      ∀ k : Nat, k ≤ n → Under c k → b k ≤ x := by
    intro x hx
    apply hs.bound
    intro k hk hu
    by_cases hkc : k = c
    · rw [hkc, swapAt_right]
      exact hx i (by omega) .root
    · have := hu.le
      rw [swapAt_of_ne (by omega) (by omega)]
      exact hx k hk ((under_child hc).trans hu)
  have hmax : ∀ k : Nat, k ≤ n → Under i k → a k ≤ a c := by
    intro k hk hu
    by_cases hki : k = i
    · rw [hki]
      exact hlt
    · rcases hu.cases_child hki with h' | h'
      · have := h'.le
        exact le_trans ((h _ (by omega)).le_top k hk h') (ht _ (by omega) (by omega))
      · have := h'.le
        exact le_trans ((h _ (by omega)).le_top k hk h') (ht _ (by omega) (by omega))
  have hother : ∀ d k : Nat, d / 2 = i → d ≠ c → Under d k → b k = a k := by
    intro d k hd hdc hu
    have hle := hu.le
    have hkc : ¬Under c k := fun h' => hdc (Under.child_eq hi hd hc hu h')
    rw [hs.frame k hkc, swapAt_of_ne (by omega) (fun he => hkc (by
      have he : k = c := by omega
      exact he ▸ .root))]
  refine ⟨?_, ?_, ?_, ?_⟩
  · apply SubHeap.of_children
    · intro d hd
      by_cases hdc : d = c
      · exact hdc ▸ hs.heap
      · intro k hk hu
        rw [hother d k hd hdc (.of_half hu), hother d (k / 2) hd hdc hu]
        exact h d hd k hk hu
    · intro d hd hdn
      rw [hroot]
      by_cases hdc : d = c
      · rw [hdc]
        exact hbelow _ hmax c hcn .root
      · rw [hother d d hd hdc .root]
        exact ht d hd hdn
  · exact (Rearranged.swap (by omega) (by omega)).trans (hs.re.widen (by omega) (Int.le_refl _))
  · intro k hk
    have hki : k ≠ i := fun he => hk (he ▸ .root)
    have hkc : ¬Under c k := fun h' => hk ((under_child hc).trans h')
    have hkc' : k ≠ c := fun he => hkc (he ▸ .root)
    rw [hs.frame k hkc, swapAt_of_ne (by omega) (by omega)]
  · intro x hx k hk hu
    by_cases hki : k = i
    · rw [hki, hroot]
      exact hx c hcn (under_child hc)
    · have hchild : ∀ d : Nat, d / 2 = i → Under d k → b k ≤ x := by
        intro d hd hud
        by_cases hdc : d = c
        · exact hbelow x hx k hk (hdc ▸ hud)
        · rw [hother d k hd hdc hud]
          exact hx k hk hu
      rcases hu.cases_child hki with h' | h'
      · exact hchild _ (by omega) h'
      · exact hchild _ (by omega) h'

end LearningNotes
