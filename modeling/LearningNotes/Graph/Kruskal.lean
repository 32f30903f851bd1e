import LearningNotes.Lib.Spanning
import Mathlib.Algebra.Order.Group.Int
import Mathlib.Logic.Function.Basic

/-!
# Kruskal's algorithm

The sets that `UNION` builds are the vertices the chosen edges link (`Forested.find`), so that an edge
between two of them is the lightest across the cut around either, and the chosen edges are part of a
minimum spanning forest.

The condition of the pseudocode compares `FIND-SET(v)` with itself, and the steps below it describe a
comparison of the sets of `u` and `v`. `left` says which end stands on the left of the comparison:
`Prod.snd` is the line as printed, `Prod.fst` is the described one.

Mirroring notes:
- The disjoint sets are given by the representative `FIND-SET` returns for each vertex.
- The edges are given in the order in which the loop takes them.
-/

namespace LearningNotes.Graph

variable {V R : Type} [DecidableEq V]

/-- The edges chosen so far, and the representatives of the sets. -/
structure Kruskal (V : Type) where
  A : Finset (Sym2 V)
  FIND_SET : V → V

def UNION (find : V → V) (u v : V) : V → V := fun x => if find x = find u then find v else find x

/-- The body of the second `for` loop. -/
def takeEdge (left : V × V → V) (x : Kruskal V) (e : V × V) : Kruskal V :=
  if x.FIND_SET (left e) ≠ x.FIND_SET e.2 then
    { A := insert s(e.1, e.2) x.A, FIND_SET := UNION x.FIND_SET e.2 e.1 }
  else x

def MST_KRUSKAL (left : V × V → V) (es : List (V × V)) : Finset (Sym2 V) :=
  (es.foldl (takeEdge left) { A := ∅, FIND_SET := id }).A

/-- The edges of a list, without their directions -/
def undirected (es : List (V × V)) : Finset (Sym2 V) := (es.map fun e => s(e.1, e.2)).toFinset

theorem mem_undirected {es : List (V × V)} {e : Sym2 V} :
    e ∈ undirected es ↔ ∃ p ∈ es, s(p.1, p.2) = e := by
  simp [undirected]

variable {x : Kruskal V} {done rest : List (V × V)} {e : V × V}

/-- The sets are the vertices linked by the chosen edges, which link the ends of every edge taken so
far. -/
structure Forested (done : List (V × V)) (x : Kruskal V) : Prop where
  find : ∀ a b, x.FIND_SET a = x.FIND_SET b ↔ Linked x.A a b
  spans : ∀ p ∈ done, Linked x.A p.1 p.2

omit [DecidableEq V] in
theorem Forested.start : Forested [] ({ A := ∅, FIND_SET := id } : Kruskal V) where
  find a b := by
    refine ⟨fun h => ?_, fun h => ?_⟩
    · obtain rfl : a = b := h
      exact .refl _ a
    · exact h.cut (S := fun y => a = y) (fun u v he => absurd he (Finset.notMem_empty _)) rfl
  spans := by simp

theorem Forested.take (h : Forested done x) : Forested (done ++ [e]) (takeEdge Prod.fst x e) := by
  unfold takeEdge
  split
  next hne =>
    refine ⟨fun a b => ?_, fun p hp => ?_⟩
    · simp only [linked_insert, UNION, ← h.find]
      grind
    · rcases List.mem_append.1 hp with hp | hp
      · exact (h.spans p hp).mono (Finset.subset_insert ..)
      · rw [List.mem_singleton.1 hp]
        exact .edge (Finset.mem_insert_self ..)
  next heq =>
    refine ⟨h.find, fun p hp => ?_⟩
    rcases List.mem_append.1 hp with hp | hp
    · exact h.spans p hp
    · rw [List.mem_singleton.1 hp]
      exact (h.find _ _).1 (not_not.1 heq)

/-- The printed comparison never holds. -/
theorem takeEdge_snd (es : List (V × V)) (x : Kruskal V) :
    es.foldl (takeEdge Prod.snd) x = x := by
  induction es with
  | nil => rfl
  | cons e es ih =>
    have : takeEdge Prod.snd x e = x := by simp [takeEdge]
    rw [List.foldl_cons, this, ih]

variable [AddCommMonoid R] [LinearOrder R] [IsOrderedAddMonoid R] {E : Finset (Sym2 V)}
  {w : Sym2 V → R}

/-- An edge between two of the sets is the lightest across the cut around one of them. -/
theorem part_take (h : Forested done x) (hE : undirected (done ++ e :: rest) = E)
    (hsort : ∀ f ∈ rest, w s(e.1, e.2) ≤ w s(f.1, f.2)) (hT : ∃ T, Minimum E w T ∧ x.A ⊆ T) :
    ∃ T, Minimum E w T ∧ (takeEdge Prod.fst x e).A ⊆ T := by
  unfold takeEdge
  split
  next hne =>
    obtain ⟨T, hT, hA⟩ := hT
    refine hT.exists_insert hA (S := Linked x.A e.1) ?_ (.refl _ _) (fun hl => hne ((h.find _ _).2 hl))
      (fun a b he ha => ha.trans (.edge he)) fun a b he ha hb => ?_
    · rw [← hE, mem_undirected]
      exact ⟨e, by simp, rfl⟩
    · -- an edge taken before has its ends in one set
      rw [← hE, mem_undirected] at he
      obtain ⟨p, hp, hpe⟩ := he
      rw [← hpe]
      rcases List.mem_append.1 hp with hp | hp
      · have hl := h.spans p hp
        rcases Sym2.eq_iff.1 hpe with ⟨rfl, rfl⟩ | ⟨rfl, rfl⟩
        · exact absurd (ha.trans hl) hb
        · exact absurd (ha.trans hl.symm) hb
      · rcases List.mem_cons.1 hp with rfl | hp
        · exact le_rfl
        · exact hsort p hp
  next => exact hT

theorem kruskal_part (es : List (V × V)) (h : Forested done x) (hE : undirected (done ++ es) = E)
    (hsort : es.Pairwise fun e f => w s(e.1, e.2) ≤ w s(f.1, f.2))
    (hT : ∃ T, Minimum E w T ∧ x.A ⊆ T) :
    Forested (done ++ es) (es.foldl (takeEdge Prod.fst) x) ∧
      ∃ T, Minimum E w T ∧ (es.foldl (takeEdge Prod.fst) x).A ⊆ T := by
  induction es generalizing done x with
  | nil => exact ⟨(List.append_nil done).symm ▸ h, hT⟩
  | cons e es ih =>
    obtain ⟨hle, hsort⟩ := List.pairwise_cons.1 hsort
    rw [List.append_cons] at hE ⊢
    exact ih h.take hE hsort (part_take h (by rwa [List.append_cons]) hle hT)

/-- With the comparison that the steps below the pseudocode describe, `MST_KRUSKAL` returns a
spanning forest of the least weight for every list of edges sorted by weight. With the comparison as
printed it returns one only when no edge has two different ends. -/
theorem mst_kruskal_minimum (es : List (V × V))
    (hsort : es.Pairwise fun e f => w s(e.1, e.2) ≤ w s(f.1, f.2)) :
    Minimum (undirected es) w (MST_KRUSKAL Prod.fst es) ∧
      (Minimum (undirected es) w (MST_KRUSKAL Prod.snd es) ↔ ∀ e ∈ es, e.1 = e.2) := by
  obtain ⟨T₀, hT₀⟩ := exists_minimum (undirected es) w
  obtain ⟨hf, T, hT, hA⟩ := kruskal_part es Forested.start rfl hsort
    ⟨T₀, hT₀, Finset.empty_subset T₀⟩
  have hmin : Minimum (undirected es) w (MST_KRUSKAL Prod.fst es) := by
    refine hT.of_spans hA fun a b he => ?_
    obtain ⟨p, hp, he⟩ := mem_undirected.1 he
    have hl := hf.spans p hp
    rcases Sym2.eq_iff.1 he with ⟨rfl, rfl⟩ | ⟨rfl, rfl⟩
    · exact hl
    · exact hl.symm
  have hnone : MST_KRUSKAL Prod.snd es = ∅ := by rw [MST_KRUSKAL, takeEdge_snd]
  refine ⟨hmin, fun h e he => ?_, fun hall => ?_⟩
  · have hl := h.spanning.spans e.1 e.2 (mem_undirected.2 ⟨e, he, rfl⟩)
    rw [hnone] at hl
    exact hl.cut (S := fun y => e.1 = y) (fun u v he => absurd he (Finset.notMem_empty _)) rfl
  · rw [hnone]
    refine hmin.of_spans (Finset.empty_subset _) fun a b he => ?_
    obtain ⟨p, hp, he⟩ := mem_undirected.1 he
    rcases Sym2.eq_iff.1 he with ⟨rfl, rfl⟩ | ⟨rfl, rfl⟩
    · rw [hall p hp]
      exact .refl _ _
    · rw [hall p hp]
      exact .refl _ _

/-- A path of two edges of the same weight. -/
theorem mst_kruskal_minimum_path :
    Minimum (undirected [((0 : Nat), 1), (1, 2)]) (fun _ => (1 : Int))
        (MST_KRUSKAL Prod.fst [(0, 1), (1, 2)]) ∧
      (Minimum (undirected [((0 : Nat), 1), (1, 2)]) (fun _ => (1 : Int))
        (MST_KRUSKAL Prod.snd [(0, 1), (1, 2)]) ↔ ∀ e ∈ [((0 : Nat), 1), (1, 2)], e.1 = e.2) :=
  mst_kruskal_minimum [(0, 1), (1, 2)] (by simp)

end LearningNotes.Graph
