import LearningNotes.Trees.Balance
import LearningNotes.Trees.Search

/-!
# Rotations

`rotate d` is the rotation that takes a node down on side `d`. `left_rotate` is `rotate .left`;
`right_rotate` is `rotate .right` only if the right child of the node is, by accident, the one that
the rotation has to move, which is so when there is neither.
-/

namespace LearningNotes.Trees.RBTree

open PTree

variable {s s' : Tree} {t a b e : PTree Entry} {c : Path Entry} {d : Side} {x y z n : Nat}
  {v w : Entry} {par q : Option Nat} {k : Color} {cell : Cell Entry}

def rotate (d : Side) (s : Tree) (x : Option Nat) : Option Tree := do
  let x₁ ← s.get x
  let y := x₁.child d.other
  let y₁ ← s.get y
  let s ← setChild d.other s x (y₁.child d)
  let y₂ ← s.get y
  let s ← setParentIf s (y₂.child d) x
  let x₂ ← s.get x
  let s ← setParent s y x₂.parent
  let s ← relink s x y
  let s ← setChild d s y x
  setParent s x y

/-- What `right_rotate` reads instead of the child to be moved may be the same. -/
theorem right_rotate_eq {y : Option Nat} {y₁ x₁ : Cell Entry} (hy : s.get y = some y₁)
    (hx : s.get y₁.left = some x₁) (h : y₁.right = x₁.right) :
    right_rotate s y = rotate .right s y := by
  simp only [right_rotate, rotate, Side.other, Cell.child, hy, hx, h, Option.bind_eq_bind,
    Option.bind_some]

/-- `if(b!=NULL) b->parent=q` -/
theorem setParentIf_spec (hb : b.In s.cells par) (hn : b.addrs.Nodup) :
    ∃ s', setParentIf s b.root q = some s' ∧ b.In s'.cells q ∧ s'.root = s.root ∧
      s'.size = s.size ∧ ∀ i, b.root ≠ some i → s'.cells i = s.cells i := by
  cases b with
  | nil => exact ⟨s, rfl, trivial, rfl, rfl, fun _ _ => rfl⟩
  | node l p u r =>
    refine ⟨_, setParent_some hb.1, hb.reparent hn ?_ ?_, rfl, rfl, fun i hi => ?_⟩
    · intro i x' hi hx'
      cases hi
      rw [hb.1] at hx'
      cases hx'
      exact State.upd_self
    · intro i _ hi
      exact State.upd_of_ne fun he => hi (by rw [he, root_node])
    · exact State.upd_of_ne fun he => hi (by rw [he, root_node])

/-- **A rotation.** -/
theorem rotate_spec (h : Rep s (plug c (mk d a x v (mk d b y w e)))) :
    ∃ s', rotate d s (some x) = some s' ∧ Rep s' (plug c (mk d (mk d a x v b) y w e)) := by
  obtain ⟨hxin, ha, hyin, hb, he⟩ : s.cells x = some (.mk' d v a.root (some y) c.parent) ∧
      a.In s.cells (some x) ∧ s.cells y = some (.mk' d w b.root e.root (some x)) ∧
      b.In s.cells (some y) ∧ e.In s.cells (some y) := by
    have hin := h.in_hole
    rwa [in_mk, in_mk, root_mk] at hin
  have hn := h.nodup
  have hlen := h.size
  rw [addrs_plug.length_eq, List.length_append] at hlen
  rw [nodup_plug, nodup_mk, nodup_mk] at hn
  simp only [mem_addrs_mk, not_or] at hn
  obtain ⟨hcn, ⟨han, ⟨hbn, hen, hyb, hye, hbe⟩, hxa, ⟨hxy, hxb, hxe⟩, hab⟩, hc⟩ := hn
  have hxc : x ∉ c.addrs := fun hm => (hc x hm).1 rfl
  have hyc : y ∉ c.addrs := fun hm => (hc y hm).2.2.1 rfl
  have hya : y ∉ a.addrs := fun hm => (hab y hm).1 rfl
  have hbx : b.root ≠ some x := fun hr => hxb (mem_addrs_of_root hr)
  have hby : b.root ≠ some y := fun hr => hyb (mem_addrs_of_root hr)
  -- `x` gets the inner child, which gets `x` as its parent
  generalize hs₁ : s.upd x (.mk' d v a.root b.root c.parent) = s₁
  have hs₁x : s₁.cells x = some (.mk' d v a.root b.root c.parent) := by
    rw [← hs₁, State.upd_self]
  have hs₁n : ∀ i, i ≠ x → s₁.cells i = s.cells i := by
    intro i hi
    rw [← hs₁, State.upd_of_ne hi]
  obtain ⟨s₂, hrun₂, hb₂, hroot₂, hsize₂, hsame₂⟩ := setParentIf_spec (q := some x)
    (hb.congr fun i hi => hs₁n i (ne_of_mem_of_not_mem hi hxb)) hbn
  -- `y` gets the parent of `x`
  generalize hs₃ : s₂.upd y (.mk' d w b.root e.root c.parent) = s₃
  have hs₃y : s₃.cells y = some (.mk' d w b.root e.root c.parent) := by
    rw [← hs₃, State.upd_self]
  have hs₃n : ∀ i, i ≠ y → s₃.cells i = s₂.cells i := by
    intro i hi
    rw [← hs₃, State.upd_of_ne hi]
  have hs₃x : s₃.cells x = some (.mk' d v a.root b.root c.parent) := by
    rw [hs₃n x hxy, hsame₂ x hbx, hs₁x]
  have hfar : ∀ i, i ≠ x → i ≠ y → b.root ≠ some i → s₃.cells i = s.cells i :=
    fun i hix hiy hib => by rw [hs₃n i hiy, hsame₂ i hib, hs₁n i hix]
  have haround₃ : Around s₃ c (some x) := by
    have haround := h.around
    rw [root_mk] at haround
    refine haround.congr ?_ fun i hi => hfar i (ne_of_mem_of_not_mem hi hxc)
      (ne_of_mem_of_not_mem hi hyc) fun hr => (hc i hi).2.2.2.1 (mem_addrs_of_root hr)
    rw [← hs₃, State.upd_root, hroot₂, ← hs₁, State.upd_root]
  obtain ⟨s₄, hrun₄, hs₄, hsize₄, hsame₄⟩ := relink_spec haround₃ hs₃x Cell.parent_mk' hxc (some y)
  have hcx : c.parent ≠ some x := fun hp => hxc (Path.parent_mem hp)
  have hcy : c.parent ≠ some y := fun hp => hyc (Path.parent_mem hp)
  -- `x` becomes a child of `y`
  have hs₄y := (hsame₄ y hcy).trans hs₃y
  have hs₄x := (hsame₄ x hcx).trans hs₃x
  generalize hs₅ : s₄.upd y (.mk' d w (some x) e.root c.parent) = s₅
  have hs₅x : s₅.cells x = some (.mk' d v a.root b.root c.parent) := by
    rw [← hs₅, State.upd_of_ne hxy, hs₄x]
  generalize hs₆ : s₅.upd x (.mk' d v a.root b.root (some y)) = s₆
  have hs₆n : ∀ i, i ≠ x → i ≠ y → s₆.cells i = s₄.cells i := by
    intro i hix hiy
    rw [← hs₆, State.upd_of_ne hix, ← hs₅, State.upd_of_ne hiy]
  have hinner : ∀ i, i ≠ x → i ≠ y → c.parent ≠ some i → s₆.cells i = s₃.cells i :=
    fun i hix hiy hic => by rw [hs₆n i hix hiy, hsame₄ i hic]
  have hrun : rotate d s (some x) = some s₆ := by
    have hy₁ : s₁.cells y = some (.mk' d w b.root e.root (some x)) := by
      rw [hs₁n y (Ne.symm hxy), hyin]
    have hy₂ : s₂.cells y = some (.mk' d w b.root e.root (some x)) := by
      rw [hsame₂ y hby, hy₁]
    have hx₂ : s₂.cells x = some (.mk' d v a.root b.root c.parent) := by
      rw [hsame₂ x hbx, hs₁x]
    have hset₁ : setChild d.other s (some x) b.root = some s₁ := by
      rw [setChild_some hxin, ← hs₁]
      cases d <;> rfl
    have hset₃ : setParent s₂ (some y) c.parent = some s₃ := by
      rw [setParent_some hy₂, Cell.setParent_mk', hs₃]
    have hset₅ : setChild d s₄ (some y) (some x) = some s₅ := by
      rw [setChild_some hs₄y, Cell.setChild_mk', hs₅]
    have hset₆ : setParent s₅ (some x) (some y) = some s₆ := by
      rw [setParent_some hs₅x, Cell.setParent_mk', hs₆]
    simp only [rotate, get_some, hxin, hyin, hy₁, hx₂, hset₁, hrun₂, hset₃, hrun₄, hset₅, hset₆,
      Cell.child_mk', Cell.child_other_mk', Cell.parent_mk', Option.bind_eq_bind, Option.bind_some]
  have hc_ne : ∀ i ∈ (mk d a x v (mk d b y w e)).addrs, c.parent ≠ some i := by
    intro i hi hp
    have := hc i (Path.parent_mem hp)
    simp only [mem_addrs_mk] at hi
    tauto
  have haround₆ : Around s₆ c (mk d (mk d a x v b) y w e).root := by
    rw [root_mk]
    refine hs₄.congr ?_ fun i hi => hs₆n i (ne_of_mem_of_not_mem hi hxc)
      (ne_of_mem_of_not_mem hi hyc)
    rw [← hs₆, State.upd_root, ← hs₅, State.upd_root]
  refine ⟨s₆, hrun, haround₆.plug ?_ (nodup_plug.mpr ⟨hcn, ?_, ?_⟩), ?_⟩
  · rw [in_mk, in_mk, root_mk]
    refine ⟨?_, ⟨?_, ?_, ?_⟩, ?_⟩
    · rw [← hs₆, State.upd_of_ne (Ne.symm hxy), ← hs₅, State.upd_self]
    · rw [← hs₆, State.upd_self]
    · refine ha.congr fun i hi => ?_
      have hix := ne_of_mem_of_not_mem hi hxa
      have hiy := ne_of_mem_of_not_mem hi hya
      rw [hinner i hix hiy (hc_ne i (by simp [hi])), hfar i hix hiy]
      intro hr
      exact (hab i hi).2.1 (mem_addrs_of_root hr)
    · refine hb₂.congr fun i hi => ?_
      have hix := ne_of_mem_of_not_mem hi hxb
      have hiy := ne_of_mem_of_not_mem hi hyb
      rw [hinner i hix hiy (hc_ne i (by simp [hi])), hs₃n i hiy]
    · refine he.congr fun i hi => ?_
      have hix := ne_of_mem_of_not_mem hi hxe
      have hiy := ne_of_mem_of_not_mem hi hye
      rw [hinner i hix hiy (hc_ne i (by simp [hi])), hfar i hix hiy]
      intro hr
      exact hbe i (mem_addrs_of_root hr) hi
  · rw [nodup_mk, nodup_mk]
    simp only [mem_addrs_mk, not_or]
    refine ⟨⟨han, hbn, hxa, hxb, fun i hi => (hab i hi).2.1⟩, hen, ⟨Ne.symm hxy, hya, hyb⟩, hye, ?_⟩
    rintro i (rfl | hi | hi)
    · exact hxe
    · exact (hab i hi).2.2
    · exact hbe i hi
  · intro i hi
    have := hc i hi
    simp only [mem_addrs_mk, not_or]
    tauto
  · have hcount : (mk d (mk d a x v b) y w e).addrs.length =
        (mk d a x v (mk d b y w e)).addrs.length := by
      cases d
      · simp only [mk, addrs_node, List.length_append, List.length_cons]
        omega
      · simp only [mk, addrs_node, List.length_append, List.length_cons]
        omega
    rw [addrs_plug.length_eq, List.length_append, hcount, ← hlen, ← hs₆, State.upd_size, ← hs₅, State.upd_size, hsize₄, ← hs₃,
      State.upd_size, hsize₂, ← hs₁, State.upd_size]

end LearningNotes.Trees.RBTree
