import Mathlib.Algebra.BigOperators.Group.Finset.Basic
import Mathlib.Algebra.Order.Monoid.Defs
import Mathlib.Data.Finset.Max
import Mathlib.Data.Finset.Powerset
import Mathlib.Data.Finset.Sym
import Mathlib.Logic.Relation

/-!
# Minimum spanning forests

A set of edges links two vertices when a path of its edges joins them; it is acyclic when no edge
has its ends linked by the others, and it spans a set of edges when it links the ends of each. Among
the acyclic spanning subsets of a finite set of edges one has the least weight, and the lightest edge
across a cut that a part of such a set does not cross can be added to the part
(`Minimum.exists_insert`).
-/

namespace LearningNotes

variable {V R : Type} {T T' E A : Finset (Sym2 V)} {a b u v : V}

/-- The edges of `T` join `u` and `v`. -/
def Linked (T : Finset (Sym2 V)) : V → V → Prop := Relation.ReflTransGen fun u v => s(u, v) ∈ T

theorem Linked.refl (T : Finset (Sym2 V)) (u : V) : Linked T u u := Relation.ReflTransGen.refl

theorem Linked.trans {w : V} (h : Linked T u v) (h' : Linked T v w) : Linked T u w :=
  Relation.ReflTransGen.trans h h'

theorem Linked.symm (h : Linked T u v) : Linked T v u := by
  induction h with
  | refl => exact .refl T u
  | tail _ he ih => exact .head (Sym2.eq_swap ▸ he) ih

theorem Linked.edge (h : s(u, v) ∈ T) : Linked T u v := .single h

/-- Edges whose ends are linked by `T'` link nothing that `T'` does not. -/
theorem Linked.lift (hT : ∀ x y, s(x, y) ∈ T → Linked T' x y) (h : Linked T u v) : Linked T' u v := by
  induction h with
  | refl => exact .refl T' u
  | tail _ he ih => exact ih.trans (hT _ _ he)

theorem Linked.mono (hT : T ⊆ T') (h : Linked T u v) : Linked T' u v :=
  h.lift fun _ _ he => .edge (hT he)

/-- What stays on one side of a cut along every edge does so along every path. -/
theorem Linked.cut {S : V → Prop} (hS : ∀ x y, s(x, y) ∈ T → S x → S y) (h : Linked T u v)
    (hu : S u) : S v := by
  induction h with
  | refl => exact hu
  | tail _ he ih => exact hS _ _ he ih

variable [DecidableEq V]

/-- A path that uses one more edge goes through it from one end to the other. -/
theorem linked_insert : Linked (insert s(a, b) T) u v ↔
    Linked T u v ∨ Linked T u a ∧ Linked T b v ∨ Linked T u b ∧ Linked T a v := by
  constructor
  · intro h
    induction h with
    | refl => exact .inl (.refl T u)
    | @tail x y _ he ih =>
      rcases Finset.mem_insert.1 he with he | he
      · rcases Sym2.eq_iff.1 he with ⟨rfl, rfl⟩ | ⟨rfl, rfl⟩
        · rcases ih with h | ⟨h, -⟩ | ⟨h, -⟩
          · exact .inr (.inl ⟨h, .refl T _⟩)
          · exact .inr (.inl ⟨h, .refl T _⟩)
          · exact .inl h
        · rcases ih with h | ⟨h, -⟩ | ⟨h, -⟩
          · exact .inr (.inr ⟨h, .refl T _⟩)
          · exact .inl h
          · exact .inr (.inr ⟨h, .refl T _⟩)
      · have hxy := Linked.edge he
        exact ih.imp (·.trans hxy) (Or.imp (And.imp_right (·.trans hxy)) (And.imp_right (·.trans hxy)))
  · have hsub := Finset.subset_insert s(a, b) T
    have hab : Linked (insert s(a, b) T) a b := .edge (Finset.mem_insert_self ..)
    rintro (h | ⟨h, h'⟩ | ⟨h, h'⟩)
    · exact h.mono hsub
    · exact ((h.mono hsub).trans hab).trans (h'.mono hsub)
    · exact ((h.mono hsub).trans hab.symm).trans (h'.mono hsub)

/-- No edge has its ends linked by the others. -/
def Acyclic (T : Finset (Sym2 V)) : Prop := ∀ a b, s(a, b) ∈ T → ¬ Linked (T.erase s(a, b)) a b

theorem Acyclic.subset (h : Acyclic T) (hT : T' ⊆ T) : Acyclic T' := fun a b he hl =>
  h a b (hT he) (hl.mono (Finset.erase_subset_erase _ hT))

/-- An edge between vertices that are not linked closes no cycle. -/
theorem Acyclic.insert_edge (h : Acyclic T) (hab : ¬ Linked T a b) : Acyclic (insert s(a, b) T) := by
  have hnot : s(a, b) ∉ T := fun he => hab (.edge he)
  intro x y he hl
  by_cases hxy : s(x, y) = s(a, b)
  · rw [hxy, Finset.erase_insert hnot] at hl
    rcases Sym2.eq_iff.1 hxy with ⟨rfl, rfl⟩ | ⟨rfl, rfl⟩
    · exact hab hl
    · exact hab hl.symm
  · have heT := Finset.mem_of_mem_insert_of_ne he hxy
    have hsub := Finset.erase_subset s(x, y) T
    rw [Finset.erase_insert_of_ne (Ne.symm hxy)] at hl
    rcases linked_insert.1 hl with hl | ⟨h₁, h₂⟩ | ⟨h₁, h₂⟩
    · exact h x y heT hl
    · exact hab (((h₁.mono hsub).symm.trans (.edge heT)).trans (h₂.mono hsub).symm)
    · exact hab (((h₂.mono hsub).trans (Linked.edge heT).symm).trans (h₁.mono hsub))

/-- `T` is an acyclic part of `E` that links the ends of every edge of `E`. -/
structure Spanning (E T : Finset (Sym2 V)) : Prop where
  subset : T ⊆ E
  acyclic : Acyclic T
  spans : ∀ a b, s(a, b) ∈ E → Linked T a b

theorem exists_spanning (E : Finset (Sym2 V)) : ∃ T, Spanning E T := by
  induction E using Finset.induction_on with
  | empty => exact ⟨∅, ⟨Finset.Subset.refl _, by simp [Acyclic], by simp⟩⟩
  | insert e E _ ih =>
    obtain ⟨T, hT⟩ := ih
    induction e using Sym2.ind with
    | _ a b =>
      have hlift : ∀ {T'}, T ⊆ T' → Linked T' a b → ∀ x y, s(x, y) ∈ insert s(a, b) E →
          Linked T' x y := by
        intro T' hsub hab x y he
        rcases Finset.mem_insert.1 he with he | he
        · rcases Sym2.eq_iff.1 he with ⟨rfl, rfl⟩ | ⟨rfl, rfl⟩
          · exact hab
          · exact hab.symm
        · exact (hT.spans x y he).mono hsub
      by_cases hab : Linked T a b
      · exact ⟨T, hT.subset.trans (Finset.subset_insert ..), hT.acyclic,
          hlift (Finset.Subset.refl T) hab⟩
      · exact ⟨insert s(a, b) T, Finset.insert_subset_insert _ hT.subset, hT.acyclic.insert_edge hab,
          hlift (Finset.subset_insert ..) (.edge (Finset.mem_insert_self ..))⟩

/-- Across a cut an acyclic set has an edge that its paths from one side to the other cannot do
without. -/
theorem Acyclic.exists_crossing (h : Acyclic T) {S : V → Prop} (hab : Linked T a b) (ha : S a)
    (hb : ¬ S b) : ∃ x y, s(x, y) ∈ T ∧ S x ∧ ¬ S y ∧ ¬ Linked (T.erase s(x, y)) a b := by
  classical
  by_contra hno
  push Not at hno
  -- then the edges across the cut can be taken away one after the other
  have hall : ∀ C : Finset (Sym2 V), (∀ e ∈ C, ∃ x y, e = s(x, y) ∧ s(x, y) ∈ T ∧ S x ∧ ¬ S y) →
      Linked (T \ C) a b := by
    intro C
    induction C using Finset.induction_on with
    | empty => exact fun _ => by simpa using hab
    | insert e C he ih =>
      intro hC
      obtain ⟨x, y, rfl, hxy, hx, hy⟩ := hC e (Finset.mem_insert_self ..)
      have hlC := ih fun e' he' => hC e' (Finset.mem_insert_of_mem he')
      have hle := hno x y hxy hx hy
      have hins : insert s(x, y) ((T \ C).erase s(x, y)) = T \ C :=
        Finset.insert_erase (Finset.mem_sdiff.2 ⟨hxy, he⟩)
      have hsub : (T \ C).erase s(x, y) ⊆ T.erase s(x, y) :=
        Finset.erase_subset_erase _ Finset.sdiff_subset
      rw [← hins, linked_insert] at hlC
      rw [Finset.sdiff_insert]
      rcases hlC with hl | ⟨h₁, h₂⟩ | ⟨h₁, h₂⟩
      · exact hl
      · exact absurd (((h₁.mono hsub).symm.trans hle).trans (h₂.mono hsub).symm) (h x y hxy)
      · exact absurd (((h₂.mono hsub).trans hle.symm).trans (h₁.mono hsub)) (h x y hxy)
  refine hb ((hall (T.filter fun e => ∃ x y, e = s(x, y) ∧ S x ∧ ¬ S y) ?_).cut ?_ ha)
  · intro e he
    obtain ⟨heT, x, y, rfl, hx, hy⟩ := Finset.mem_filter.1 he
    exact ⟨x, y, rfl, heT, hx, hy⟩
  · intro x y he hx
    by_contra hy
    rw [Finset.mem_sdiff, Finset.mem_filter, not_and] at he
    exact he.2 he.1 ⟨x, y, rfl, hx, hy⟩

section

variable [AddCommMonoid R] [LinearOrder R] [IsOrderedAddMonoid R] {w : Sym2 V → R}

/-- `T` is a spanning forest of `E` of the least weight. -/
structure Minimum (E : Finset (Sym2 V)) (w : Sym2 V → R) (T : Finset (Sym2 V)) : Prop where
  spanning : Spanning E T
  le : ∀ T', Spanning E T' → ∑ e ∈ T, w e ≤ ∑ e ∈ T', w e

omit [IsOrderedAddMonoid R] in
theorem exists_minimum (E : Finset (Sym2 V)) (w : Sym2 V → R) : ∃ T, Minimum E w T := by
  classical
  obtain ⟨T₀, hT₀⟩ := exists_spanning E
  obtain ⟨T, hT, hmin⟩ := (E.powerset.filter (Spanning E ·)).exists_min_image
    (fun T => ∑ e ∈ T, w e) ⟨T₀, Finset.mem_filter.2 ⟨Finset.mem_powerset.2 hT₀.subset, hT₀⟩⟩
  exact ⟨T, (Finset.mem_filter.1 hT).2, fun T' hT' =>
    hmin T' (Finset.mem_filter.2 ⟨Finset.mem_powerset.2 hT'.subset, hT'⟩)⟩

/-- The lightest edge across a cut can join any part of a minimum spanning forest that does not
cross the cut. -/
theorem Minimum.exists_insert (hT : Minimum E w T) (hA : A ⊆ T) {S : V → Prop} (hab : s(a, b) ∈ E)
    (ha : S a) (hb : ¬ S b) (hcut : ∀ x y, s(x, y) ∈ A → S x → S y)
    (hmin : ∀ x y, s(x, y) ∈ E → S x → ¬ S y → w s(a, b) ≤ w s(x, y)) :
    ∃ T', Minimum E w T' ∧ insert s(a, b) A ⊆ T' := by
  by_cases heT : s(a, b) ∈ T
  · exact ⟨T, hT, Finset.insert_subset heT hA⟩
  obtain ⟨x, y, hxy, hx, hy, hno⟩ :=
    hT.spanning.acyclic.exists_crossing (hT.spanning.spans a b hab) ha hb
  -- the edge that the forest has across the cut makes way
  have hA' : A ⊆ T.erase s(x, y) := by
    intro e he
    exact Finset.mem_erase.2 ⟨fun h => hy (hcut x y (h ▸ he) hx), hA he⟩
  have hsub : T.erase s(x, y) ⊆ insert s(a, b) (T.erase s(x, y)) := Finset.subset_insert ..
  have hxy' : Linked (insert s(a, b) (T.erase s(x, y))) x y := by
    have hl := hT.spanning.spans a b hab
    rw [← Finset.insert_erase hxy, linked_insert] at hl
    have he : Linked (insert s(a, b) (T.erase s(x, y))) a b := .edge (Finset.mem_insert_self ..)
    rcases hl with hl | ⟨h₁, h₂⟩ | ⟨h₁, h₂⟩
    · exact absurd hl hno
    · exact ((h₁.mono hsub).symm.trans he).trans (h₂.mono hsub).symm
    · exact ((h₂.mono hsub).trans he.symm).trans (h₁.mono hsub)
  have hspan : Spanning E (insert s(a, b) (T.erase s(x, y))) := by
    refine ⟨Finset.insert_subset hab ((Finset.erase_subset ..).trans hT.spanning.subset),
      (hT.spanning.acyclic.subset (Finset.erase_subset ..)).insert_edge hno, fun u v he => ?_⟩
    refine (hT.spanning.spans u v he).lift fun p q hpq => ?_
    by_cases h : s(p, q) = s(x, y)
    · rcases Sym2.eq_iff.1 h with ⟨rfl, rfl⟩ | ⟨rfl, rfl⟩
      · exact hxy'
      · exact hxy'.symm
    · exact .edge (hsub (Finset.mem_erase.2 ⟨h, hpq⟩))
  refine ⟨_, ⟨hspan, fun T' hT' => le_trans ?_ (hT.le T' hT')⟩, Finset.insert_subset_insert _ hA'⟩
  rw [Finset.sum_insert fun h => heT (Finset.mem_of_mem_erase h), ← Finset.add_sum_erase T w hxy]
  exact add_le_add_left (hmin x y (hT.spanning.subset hxy) hx hy) _

omit [IsOrderedAddMonoid R] in
/-- A part of a minimum spanning forest that links as much is all of it. -/
theorem Minimum.of_spans (hT : Minimum E w T) (hA : A ⊆ T)
    (hspan : ∀ a b, s(a, b) ∈ E → Linked A a b) : Minimum E w A := by
  obtain rfl : A = T := by
    refine Finset.Subset.antisymm hA fun e he => ?_
    induction e using Sym2.ind with
    | _ a b =>
      by_contra hno
      refine hT.spanning.acyclic a b he ((hspan a b (hT.spanning.subset he)).mono fun e' he' => ?_)
      exact Finset.mem_erase.2 ⟨fun h => hno (h ▸ he'), hA he'⟩
  exact hT

end

end LearningNotes
