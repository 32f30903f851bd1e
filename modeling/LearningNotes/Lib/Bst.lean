import LearningNotes.Lib.PTree

/-!
# Search trees

A tree is a search tree when no key on the left of a node is greater than the node's, and no key on
the right is smaller; that is, when its nodes in order are sorted by key. `pathTo k t` is the path
that the search for `k` takes, to the right where the keys are equal: what is on its left is at most
`k`, and what is on its right is greater, so a node that is put there comes after the equal ones.
-/

namespace LearningNotes

variable {α κ : Type} [LinearOrder κ] {key : α → κ} {k : κ} {t l r : PTree α} {c : Path α}
  {p a : Nat} {v : α}

namespace PTree

/-- The tree is a search tree. -/
def Bst (key : α → κ) : PTree α → Prop
  | .nil => True
  | .node l _ v r => l.Bst key ∧ r.Bst key ∧ (∀ x ∈ l.nodes, key x.2 ≤ key v) ∧
      ∀ x ∈ r.nodes, key v ≤ key x.2

theorem bst_iff : t.Bst key ↔ t.nodes.Pairwise fun x y => key x.2 ≤ key y.2 := by
  induction t with
  | nil => simp [Bst]
  | node l p v r ihl ihr =>
    rw [Bst, ihl, ihr, nodes_node, List.pairwise_append, List.pairwise_cons]
    constructor
    · intro ⟨hl, hr, hlv, hvr⟩
      refine ⟨hl, ⟨hvr, hr⟩, fun x hx y hy => ?_⟩
      rcases List.mem_cons.mp hy with rfl | hy
      · exact hlv x hx
      · exact (hlv x hx).trans (hvr y hy)
    · intro ⟨hl, ⟨hvr, hr⟩, hlr⟩
      exact ⟨hl, hr, fun x hx => hlr x hx _ List.mem_cons_self, hvr⟩

/-- The path of the search for `k`, from the hole of `c` down. -/
def pathTo (key : α → κ) (k : κ) : PTree α → Path α → Path α
  | .nil, c => c
  | .node l p v r, c =>
    if k < key v then pathTo key k l (⟨.left, p, v, r⟩ :: c)
    else pathTo key k r (⟨.right, p, v, l⟩ :: c)

theorem plug_pathTo : plug (t.pathTo key k c) .nil = plug c t := by
  induction t generalizing c with
  | nil => rfl
  | node l p v r ihl ihr =>
    unfold pathTo
    split
    · exact ihl
    · exact ihr

/-- What is on the left of the path is at most `k`, and what is on the right is greater. -/
theorem pathTo_split (ht : t.Bst key) : ∃ lo hi, t.nodes = lo ++ hi ∧
    (t.pathTo key k c).before = c.before ++ lo ∧ (t.pathTo key k c).after = hi ++ c.after ∧
    (∀ x ∈ lo, key x.2 ≤ k) ∧ ∀ x ∈ hi, k < key x.2 := by
  induction t generalizing c with
  | nil => exact ⟨[], [], by simp [pathTo]⟩
  | node l p v r ihl ihr =>
    obtain ⟨hl, hr, hlv, hvr⟩ := ht
    unfold pathTo
    split
    next hk =>
      obtain ⟨lo, hi, hn, hb, ha, hlo, hhi⟩ := ihl (c := ⟨.left, p, v, r⟩ :: c) hl
      refine ⟨lo, hi ++ (p, v) :: r.nodes, by simp [hn], by rw [hb]; rfl, ?_, hlo, fun x hx => ?_⟩
      · rw [ha, Path.after]
        simp
      · simp only [List.mem_append, List.mem_cons] at hx
        rcases hx with hx | rfl | hx
        · exact hhi x hx
        · exact hk
        · exact hk.trans_le (hvr x hx)
    next hk =>
      obtain ⟨lo, hi, hn, hb, ha, hlo, hhi⟩ := ihr (c := ⟨.right, p, v, l⟩ :: c) hr
      refine ⟨l.nodes ++ (p, v) :: lo, hi, by simp [hn], ?_, by rw [ha]; rfl, fun x hx => ?_, hhi⟩
      · rw [hb, Path.before]
        simp
      · simp only [List.mem_append, List.mem_cons] at hx
        have hk := not_lt.mp hk
        rcases hx with hx | rfl | hx
        · exact (hlv x hx).trans hk
        · exact hk
        · exact hlo x hx

/-- The last step of the search went where the comparison tells. -/
theorem pathTo_side (hc : ∀ f ∈ c.head?, f.side = .left ↔ k < key f.v) :
    ∀ f ∈ (t.pathTo key k c).head?, f.side = .left ↔ k < key f.v := by
  induction t generalizing c with
  | nil => exact hc
  | node l p v r ihl ihr =>
    unfold pathTo
    split
    next hk =>
      refine ihl fun f hf => ?_
      cases hf
      exact iff_of_true rfl hk
    next hk =>
      refine ihr fun f hf => ?_
      cases hf
      exact iff_of_false (by simp) hk

/-- The order in which nodes are found: by key, and a new one after those with its key. -/
abbrev Before (key : α → κ) (x y : Nat × α) : Prop := key x.2 < key y.2

theorem orderedInsert_split {lo hi : List (Nat × α)} (hlo : ∀ x ∈ lo, key x.2 ≤ key v)
    (hhi : ∀ x ∈ hi, key v < key x.2) :
    (lo ++ hi).orderedInsert (Before key) (a, v) = lo ++ (a, v) :: hi := by
  induction lo with
  | nil =>
    cases hi with
    | nil => rfl
    | cons x hi => exact List.orderedInsert_cons_of_le _ _ (hhi x List.mem_cons_self)
  | cons x lo ih =>
    rw [List.cons_append, List.orderedInsert_of_not_le, ih fun y hy => hlo y (by simp [hy])]
    · rfl
    · exact not_lt.mpr (hlo x List.mem_cons_self)

/-- **A new leaf**, at the end of the search: it stands after the equal keys. -/
theorem nodes_plug_pathTo (ht : t.Bst key) :
    (plug (t.pathTo key (key v) []) (.node .nil a v .nil)).nodes =
      t.nodes.orderedInsert (Before key) (a, v) := by
  obtain ⟨lo, hi, hn, hb, ha, hlo, hhi⟩ := pathTo_split (k := key v) (c := []) ht
  rw [nodes_plug, hb, ha, hn, orderedInsert_split hlo hhi]
  simp [Path.before, Path.after]

theorem Bst.insert (ht : t.Bst key) :
    (plug (t.pathTo key (key v) []) (.node .nil a v .nil)).Bst key := by
  obtain ⟨lo, hi, hn, hb, ha, hlo, hhi⟩ := pathTo_split (k := key v) (c := []) ht
  rw [bst_iff, hn, List.pairwise_append] at ht
  obtain ⟨hplo, hphi, hcross⟩ := ht
  rw [bst_iff, nodes_plug, hb, ha]
  simp only [Path.before, Path.after, List.nil_append, List.append_nil, nodes_node, nodes_nil,
    List.append_assoc, List.singleton_append, List.pairwise_append, List.pairwise_cons]
  refine ⟨hplo, ⟨fun x hx => (hhi x hx).le, hphi⟩, fun x hx y hy => ?_⟩
  rcases List.mem_cons.mp hy with rfl | hy
  · exact hlo x hx
  · exact hcross x hx y hy

/-- Nodes may be left out. -/
theorem Bst.of_sublist {t' : PTree α} (ht : t.Bst key) (h : t'.nodes.Sublist t.nodes) :
    t'.Bst key :=
  bst_iff.mpr ((bst_iff.mp ht).sublist h)

end PTree

end LearningNotes
