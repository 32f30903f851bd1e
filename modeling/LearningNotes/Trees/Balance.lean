import LearningNotes.Lib.Bst
import LearningNotes.Trees.RBTree

/-!
# The red-black rules

`Rb n t`: no red node of `t` has a red child, and there are `n` black nodes on each path from the
root of `t` to `NULL`. `RbPath n c`: so it is in the tree around the hole of `c`, when what is in
the hole has `n` black nodes on its paths, and a black root if the parent is red.
-/

namespace LearningNotes.Trees.RBTree

open PTree

variable {n m : Nat} {d : Side} {t s o l r : PTree Entry} {c : Path Entry} {f g : Frame Entry}
  {p z : Nat} {v : Entry}

/-- The colour of a tree is that of its root; `NULL` is black. -/
def colorOf : PTree Entry → Color
  | .nil => .BLACK
  | .node _ _ v _ => v.color

/-- A red node has black children, and every way down has `n` black nodes. -/
def Rb : Nat → PTree Entry → Prop
  | n, .nil => n = 0
  | n, .node l _ v r =>
    (v.color = .RED ∧ colorOf l = .BLACK ∧ colorOf r = .BLACK ∧ Rb n l ∧ Rb n r) ∨
      (v.color = .BLACK ∧ ∃ m, n = m + 1 ∧ Rb m l ∧ Rb m r)

/-- The nodes in order, without their colours. -/
def pairs (t : PTree Entry) : List (Nat × Int × Int) :=
  t.nodes.map fun x => (x.1, x.2.key, x.2.data)

@[simp] theorem colorOf_mk : colorOf (.mk d s p v o) = v.color := by cases d <;> rfl

@[simp] theorem colorOf_fill : colorOf (f.fill t) = f.v.color := colorOf_mk

/-- The root has the colour it is painted with. -/
theorem colorOf_setRoot (k : Color) (ht : t ≠ .nil) : colorOf (t.setRoot (Entry.paint k)) = k := by
  cases t with
  | nil => exact absurd rfl ht
  | node l p v r => rfl

/-- A red node. -/
theorem rb_red (hv : v.color = .RED) : Rb n (.mk d s p v o) ↔
    colorOf s = .BLACK ∧ colorOf o = .BLACK ∧ Rb n s ∧ Rb n o := by
  cases d
  · simp [mk, Rb, hv]
  · simp only [mk, Rb, hv, true_and, reduceCtorEq, false_and, or_false]
    tauto

/-- A black node. -/
theorem rb_black (hv : v.color = .BLACK) : Rb (n + 1) (.mk d s p v o) ↔ Rb n s ∧ Rb n o := by
  cases d
  · simp [mk, Rb, hv]
  · simp [mk, Rb, hv, and_comm]

/-- A black node counts. -/
theorem Rb.exists_succ (h : Rb n (.mk d s p v o)) (hv : v.color = .BLACK) : ∃ m, n = m + 1 := by
  cases d
  all_goals
    simp only [mk, Rb, hv, reduceCtorEq, false_and, false_or, true_and] at h
    obtain ⟨m, hm, -⟩ := h
    exact ⟨m, hm⟩

/-- Without black nodes, a tree with a black root is empty. -/
theorem Rb.eq_nil (h : Rb 0 t) (hc : colorOf t = .BLACK) : t = .nil := by
  cases t with
  | nil => rfl
  | node l p v r =>
    obtain ⟨m, hm⟩ := Rb.exists_succ (d := .left) h hc
    omega

/-- A red root may be painted black. -/
theorem Rb.setRoot_black (h : Rb n t) (hc : colorOf t = .RED) :
    Rb (n + 1) (t.setRoot (Entry.paint .BLACK)) := by
  cases t with
  | nil => cases hc
  | node l p v r =>
    obtain ⟨-, -, hl, hr⟩ := (rb_red (d := .left) hc).mp h
    exact (rb_black (d := .left) rfl).mpr ⟨hl, hr⟩

/-- The parent is red. -/
def ParentRed (c : Path Entry) : Prop := ∃ f ∈ c.head?, f.v.color = .RED

@[simp] theorem parentRed_cons : ParentRed (f :: c) ↔ f.v.color = .RED := by
  simp [ParentRed]

/-- The tree around a hole for a subtree with `n` black nodes on every way down. -/
def RbPath : Nat → Path Entry → Prop
  | _, [] => True
  | n, f :: c =>
    Rb n f.sib ∧ (f.v.color = .RED ∧ colorOf f.sib = .BLACK ∧
        (∃ g ∈ c.head?, g.v.color = .BLACK) ∧ RbPath n c ∨
      f.v.color = .BLACK ∧ RbPath (n + 1) c)

/-- What is around the hole, and what is in it, make a red-black tree. -/
theorem rb_plug (hc : RbPath n c) (ht : Rb n t) (hred : ParentRed c → colorOf t = .BLACK)
    (hroot : c = [] → colorOf t = .BLACK) :
    colorOf (plug c t) = .BLACK ∧ ∃ m, Rb m (plug c t) := by
  induction c generalizing n t with
  | nil => exact ⟨hroot rfl, n, ht⟩
  | cons f c ih =>
    obtain ⟨hsib, ⟨hf, hblack, ⟨g, hg, hgc⟩, hc⟩ | ⟨hf, hc⟩⟩ := hc
    · have htc := hred (parentRed_cons.mpr hf)
      refine ih hc ((rb_red hf).mpr ⟨htc, hblack, ht, hsib⟩) ?_ ?_
      · intro ⟨g', hg', hg'c⟩
        rw [Option.mem_unique hg' hg, hgc] at hg'c
        cases hg'c
      · intro he
        rw [he] at hg
        cases hg
    · refine ih hc ((rb_black hf).mpr ⟨ht, hsib⟩) ?_ ?_
      · intro _
        exact colorOf_fill.trans hf
      · intro _
        exact colorOf_fill.trans hf

/-- A red-black tree is one around any of its nodes. -/
theorem rb_of_plug (h : Rb m (plug c t)) (hroot : colorOf (plug c t) = .BLACK) :
    ∃ n, RbPath n c ∧ Rb n t ∧ (ParentRed c → colorOf t = .BLACK) ∧
      (c = [] → colorOf t = .BLACK) := by
  induction c generalizing t with
  | nil => exact ⟨m, trivial, h, fun ⟨_, hf, _⟩ => by (cases hf), fun _ => hroot⟩
  | cons f c ih =>
    obtain ⟨n, hc, ht, hred, hnil⟩ := ih h hroot
    cases hf : f.v.color with
    | RED =>
      obtain ⟨htc, hsc, ht, hs⟩ := (rb_red hf).mp ht
      refine ⟨n, ⟨hs, .inl ⟨hf, hsc, ?_, hc⟩⟩, ht, fun _ => htc, nofun⟩
      cases c with
      | nil => cases hf.symm.trans (colorOf_fill.symm.trans (hnil rfl))
      | cons g c =>
        refine ⟨g, rfl, ?_⟩
        cases hg : g.v.color with
        | BLACK => rfl
        | RED => cases hf.symm.trans (colorOf_fill.symm.trans (hred (parentRed_cons.mpr hg)))
    | BLACK =>
      obtain ⟨n, rfl⟩ := Rb.exists_succ ht hf
      obtain ⟨ht, hs⟩ := (rb_black hf).mp ht
      refine ⟨n, ⟨hs, .inr ⟨hf, hc⟩⟩, ht, fun hr => ?_, nofun⟩
      cases hf.symm.trans (parentRed_cons.mp hr)

/-! ## Order and colours -/

/-- The keys from left to right: those in front of the hole, those in it, and those behind it. -/
theorem pairs_plug : pairs (plug c t) =
    (Path.before c).map (fun x => (x.1, x.2.key, x.2.data)) ++ pairs t ++
      (Path.after c).map (fun x => (x.1, x.2.key, x.2.data)) := by
  simp [pairs, nodes_plug]

/-- Only the keys in the hole matter. -/
theorem pairs_plug_congr {t' : PTree Entry} (h : pairs t = pairs t') :
    pairs (plug c t) = pairs (plug c t') := by
  rw [pairs_plug, pairs_plug, h]

/-- Paint changes no key. -/
@[simp] theorem pairs_setRoot (k : Color) : pairs (t.setRoot (Entry.paint k)) = pairs t := by
  cases t with
  | nil => rfl
  | node l p v r => simp [pairs, setRoot, Entry.paint]

/-- The order of a tree does not depend on the colours. -/
theorem bst_iff_pairs : t.Bst Entry.key ↔ (pairs t).Pairwise fun x y => x.2.1 ≤ y.2.1 := by
  rw [bst_iff, pairs, List.pairwise_map]

end LearningNotes.Trees.RBTree
