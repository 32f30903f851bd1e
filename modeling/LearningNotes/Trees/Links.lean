import LearningNotes.Trees.Nodes

/-!
# The pointer operations, on trees

`Rep s t`: the memory holds the tree `t`. `Around s c q`: the memory holds the path `c`, with `q` in
its hole. Each operation of `Nodes` is described once, by what it does to the tree at the node where
it is called; the rest of the tree is the path around it.
-/

namespace LearningNotes.Trees

variable {α : Type} {s s' : State α} {t w l r : PTree α} {c : Path α} {z y a : Nat} {v vy : α}
  {q par ptr : Option Nat} {x : Cell α} {g : Cell α → Cell α} {d : Side}

/-- The memory holds the tree `t`. -/
structure Held (s : State α) (t : PTree α) : Prop where
  mem : t.In s.cells none
  root : s.root = t.root
  nodup : t.addrs.Nodup

/-- The memory holds the tree `t`, and there are no other nodes. -/
structure Rep (s : State α) (t : PTree α) : Prop extends Held s t where
  size : s.size = t.addrs.length

/-- The memory holds the path `c`, and `q` is the pointer into its hole. -/
structure Around (s : State α) (c : Path α) (q : Option Nat) : Prop where
  mem : c.In s.cells q
  root : s.root = c.top q
  nodup : c.addrs.Nodup

theorem Held.around (h : Held s (plug c t)) : Around s c t.root :=
  ⟨(in_plug.mp h.mem).1, h.root.trans root_plug, (nodup_plug.mp h.nodup).1⟩

theorem Held.in_hole (h : Held s (plug c t)) : t.In s.cells c.parent := (in_plug.mp h.mem).2

/-- A path and what is in its hole make a tree. -/
theorem Around.plug (h : Around s c t.root) (ht : t.In s.cells c.parent)
    (hn : (plug c t).addrs.Nodup) : Held s (plug c t) where
  mem := in_plug.mpr ⟨h.mem, ht⟩
  root := h.root.trans root_plug.symm
  nodup := hn

/-- Changes outside of the path. -/
theorem Around.congr (h : Around s c q) (hroot : s'.root = s.root)
    (heq : ∀ a ∈ c.addrs, s'.cells a = s.cells a) : Around s' c q :=
  ⟨h.mem.congr heq, hroot.trans h.root, h.nodup⟩

/-! ## Single assignments -/

theorem get_some : s.get (some a) = s.cells a := rfl

/-- The memory after an assignment to a field of the node at `a`. -/
def State.upd (s : State α) (a : Nat) (x : Cell α) : State α :=
  { s with cells := Function.update s.cells a (some x) }

@[simp] theorem State.upd_root : (s.upd a x).root = s.root := rfl
@[simp] theorem State.upd_size : (s.upd a x).size = s.size := rfl
@[simp] theorem State.upd_self : (s.upd a x).cells a = some x := Function.update_self ..

theorem State.upd_of_ne {b : Nat} (h : b ≠ a) : (s.upd a x).cells b = s.cells b :=
  Function.update_of_ne h ..

theorem put_some (h : s.cells a = some x) : s.put (some a) g = some (s.upd a (g x)) := by
  simp [State.put, State.upd, h]

theorem setChild_some (h : s.cells a = some x) :
    setChild d s (some a) q = some (s.upd a (x.setChild d q)) :=
  put_some h

theorem setParent_some (h : s.cells a = some x) :
    setParent s (some a) q = some (s.upd a { x with parent := q }) :=
  put_some h

/-! ## `relink` and `transplant` -/

/-- What the parent of `z` points to is changed, and nothing else. -/
theorem relink_spec (h : Around s c (some z)) (hz : s.cells z = some x) (hx : x.parent = c.parent)
    (hzc : z ∉ c.addrs) (q : Option Nat) :
    ∃ s', relink s (some z) q = some s' ∧ Around s' c q ∧ s'.size = s.size ∧
      ∀ a, c.parent ≠ some a → s'.cells a = s.cells a := by
  cases c with
  | nil =>
    refine ⟨{ s with root := q }, ?_, ⟨trivial, rfl, List.nodup_nil⟩, rfl, fun _ _ => rfl⟩
    simp only [relink, get_some, hz, Option.bind_eq_bind, Option.bind_some, hx, Path.parent_nil,
      if_true]
  | cons f c =>
    obtain ⟨hf, hsib, hc⟩ := h.mem
    have hparent : x.parent = some f.p := hx
    have hother : f.sib.root ≠ some z := by
      intro he
      exact hzc (List.mem_cons_of_mem _ (List.mem_append_left _ (PTree.mem_addrs_of_root he)))
    have hrun : relink s (some z) q = setChild f.side s (some f.p) q := by
      unfold relink
      simp only [get_some, hz, Option.bind_eq_bind, Option.bind_some, hparent, hf, reduceCtorEq,
        if_false]
      obtain ⟨side, p, v, sib⟩ := f
      cases side
      · simp [Cell.mk']
      · rw [if_neg]
        exact Ne.symm hother
    refine ⟨_, hrun.trans (setChild_some hf), ⟨h.mem.refill h.nodup ?_ ?_, h.root, h.nodup⟩, rfl,
      fun a ha => State.upd_of_ne ?_⟩
    · intro f' hf' x' hx'
      cases hf'
      rw [State.upd_self]
      rw [hf] at hx'
      cases hx'
      rfl
    · intro a _ ha
      exact State.upd_of_ne fun he => ha (by rw [he, Path.parent_cons])
    · intro he
      exact ha (by rw [he, Path.parent_cons])

/-- **`transplant`**: the tree `w` is put where the node `z` is. -/
theorem transplant_spec (h : Around s c (some z)) (hz : s.cells z = some x)
    (hx : x.parent = c.parent) (hzc : z ∉ c.addrs) (hw : w.In s.cells par) (hwn : w.addrs.Nodup)
    (hwc : ∀ a ∈ c.addrs, a ∉ w.addrs) (hzw : z ∉ w.addrs) :
    ∃ s', transplant s (some z) w.root = some s' ∧ Around s' c w.root ∧ s'.size = s.size ∧
      w.In s'.cells c.parent ∧
      ∀ a, c.parent ≠ some a → w.root ≠ some a → s'.cells a = s.cells a := by
  obtain ⟨s₁, hrun, hs₁, hsize, hsame⟩ := relink_spec h hz hx hzc w.root
  have hcz : c.parent ≠ some z := fun he => hzc (Path.parent_mem he)
  have hz₁ : s₁.cells z = some x := (hsame z hcz).trans hz
  have hw₁ : w.In s₁.cells par := hw.congr fun a ha =>
    hsame a fun he => hwc a (Path.parent_mem he) ha
  have hfirst : transplant s (some z) w.root = setParentIf s₁ w.root c.parent := by
    simp only [transplant, hrun, Option.bind_eq_bind, Option.bind_some, get_some, hz₁, hx]
  cases w with
  | nil => exact ⟨s₁, hfirst, hs₁, hsize, trivial, fun a ha _ => hsame a ha⟩
  | node l p v r =>
    have hp := hw₁.1
    refine ⟨_, hfirst.trans (setParent_some hp), ?_, hsize, ?_, fun a ha hap => ?_⟩
    · exact hs₁.congr rfl fun a ha => State.upd_of_ne fun he =>
        hwc a ha (PTree.mem_addrs_of_root (by rw [he, PTree.root_node]))
    · refine hw₁.reparent hwn ?_ ?_
      · intro q x' hq hx'
        cases hq
        rw [State.upd_self]
        rw [hp] at hx'
        cases hx'
        rfl
      · intro a _ ha
        exact State.upd_of_ne fun he => ha (by rw [he, PTree.root_node])
    · rw [State.upd_of_ne fun he => hap (by rw [he, PTree.root_node])]
      exact hsame a ha

/-! ## A node is replaced by the least one of its right subtree -/

/-- The node `z` is in the hole of `c`, without its right child; the node `y` with the right child
that it will have is somewhere else. -/
structure Parted (s : State α) (c : Path α) (l : PTree α) (z : Nat) (v : α) (y : Nat) (vy : α)
    (r : PTree α) : Prop where
  around : Around s c (some z)
  cell : ∃ q, s.cells z = some ⟨v, l.root, q, c.parent⟩
  left : l.In s.cells (some z)
  right : ∃ par, (PTree.node .nil y vy r).In s.cells par

/-- **`promote`**: `y` takes the place of `z`, with its left child. -/
theorem promote_spec (h : Parted s c l z v y vy r) (hl : l ≠ .nil)
    (hn : (plug c (.node l z v (.node .nil y vy r))).addrs.Nodup) :
    ∃ s', promote s (some z) (some y) = some s' ∧ Around s' c (some y) ∧
      (PTree.node l y vy r).In s'.cells c.parent ∧ s'.size = s.size ∧
      s'.cells z = s.cells z := by
  obtain ⟨hc, ⟨q, hz⟩, hlin, par, hr⟩ := h
  simp only [nodup_plug, PTree.addrs_node, PTree.addrs_nil, List.nil_append, List.nodup_append,
    List.nodup_cons, List.mem_append, List.mem_cons, not_or] at hn
  obtain ⟨hcn, ⟨hln, ⟨⟨hzy, hzr⟩, hyr, hrn⟩, hlr⟩, hout⟩ := hn
  have hzc : z ∉ c.addrs := fun hm => (hout z hm).2.1 rfl
  -- first `y` takes the place of `z`, and then the left child is linked to it
  obtain ⟨s₁, hrun, hs₁, hsize, hr₁, hsame⟩ := transplant_spec (w := .node .nil y vy r) hc hz rfl hzc
    hr (by simp [hyr, hrn]) (fun a ha => by simpa using (hout a ha).2.2) (by simp [hzy, hzr])
  have hcz : c.parent ≠ some z := fun he => hzc (Path.parent_mem he)
  have hz₁ := (hsame z hcz (by simpa using Ne.symm hzy)).trans hz
  cases l with
  | nil => exact absurd rfl hl
  | node ll p lv lr =>
    have hyl : ∀ a ∈ (PTree.node ll p lv lr).addrs, a ≠ y ∧ a ≠ z := by
      intro a ha
      exact ⟨fun he => hlr a ha y (.inr (.inl rfl)) he, fun he => hlr a ha z (.inl rfl) he⟩
    have hp : p ∈ (PTree.node ll p lv lr).addrs := PTree.mem_addrs_of_root rfl
    -- the first of them does not touch the left child
    have hlin₁ : (PTree.node ll p lv lr).In s₁.cells (some z) := hlin.congr fun a ha => by
      refine hsame a (fun he => (hout a (Path.parent_mem he)).1 ha) fun he => ?_
      exact (hyl a ha).1 (Option.some_inj.mp he).symm
    have hy₁ := hr₁.1
    have hp₂ : (s₁.upd y ⟨vy, some p, r.root, c.parent⟩).cells p = s₁.cells p :=
      State.upd_of_ne (hyl p hp).1
    have hrun' : promote s (some z) (some y) =
        some ((s₁.upd y ⟨vy, some p, r.root, c.parent⟩).upd p ⟨lv, ll.root, lr.root, some y⟩) := by
      unfold promote
      rw [show some y = (PTree.node .nil y vy r).root from rfl, hrun]
      simp only [Option.bind_eq_bind, Option.bind_some, get_some, hz₁, PTree.root_node,
        setChild_some hy₁, Cell.setChild, State.upd_self]
      rw [setParent_some (hp₂.trans hlin₁.1)]
    refine ⟨_, hrun', ?_, ⟨?_, ?_, ?_⟩, hsize, ?_⟩
    · refine hs₁.congr rfl fun a ha => ?_
      have hap : a ≠ p := fun he => (hout a ha).1 (he ▸ hp)
      rw [State.upd_of_ne hap, State.upd_of_ne (hout a ha).2.2.1]
    · rw [State.upd_of_ne (hyl p hp).1.symm, State.upd_self, PTree.root_node]
    · refine hlin₁.reparent hln ?_ ?_
      · intro q x' hq hx'
        cases hq
        rw [State.upd_self]
        rw [hlin₁.1] at hx'
        cases hx'
        rfl
      · intro a ha hap
        rw [State.upd_of_ne fun he => hap (by rw [he, PTree.root_node]),
          State.upd_of_ne (hyl a ha).1]
    · refine hr₁.2.2.congr fun a ha => ?_
      have hap : a ≠ p := fun he => hlr p hp a (.inr (.inr ha)) he.symm
      rw [State.upd_of_ne hap, State.upd_of_ne (ne_of_mem_of_not_mem ha hyr)]
    · rw [State.upd_of_ne (hyl p hp).2.symm, State.upd_of_ne hzy]
      exact hz₁.trans hz.symm

/-- The least node of the right subtree is its root: nothing has to be done before. -/
theorem Held.parted (h : Held s (plug c (.node l z v (.node .nil y vy r)))) :
    Parted s c l z v y vy r :=
  ⟨h.around, ⟨_, h.in_hole.1⟩, h.in_hole.2.1, _, h.in_hole.2.2⟩

/-- The parent of the least node, deeper down. -/
theorem Held.least_parent {f : Frame α} {c₂ : Path α}
    (h : Held s (plug c (.node l z v (plug (f :: c₂) (.node .nil y vy r))))) :
    s.cells y = some ⟨vy, none, r.root, some f.p⟩ ∧ f.p ≠ z := by
  have h' : Held s (plug (f :: c₂ ++ ⟨.right, z, v, l⟩ :: c) (.node .nil y vy r)) := by
    rw [plug_append]
    exact h
  refine ⟨h'.in_hole.1, ?_⟩
  have hn := h.nodup
  simp only [nodup_plug, PTree.addrs_node, List.nodup_append, List.nodup_cons] at hn
  obtain ⟨-, ⟨-, ⟨hz, -⟩, -⟩, -⟩ := hn
  exact ne_of_mem_of_not_mem (mem_addrs_plug.mpr (.inl List.mem_cons_self)) hz

/-- **`detach`**: the least node of the right subtree, deeper down, is taken out and becomes the
parent of what is left. -/
theorem detach_spec {f : Frame α} {c₂ : Path α}
    (h : Held s (plug c (.node l z v (plug (f :: c₂) (.node .nil y vy r))))) :
    ∃ s', detach s (some z) (some y) = some s' ∧
      Parted s' c l z v y vy (plug (f :: c₂) r) ∧ s'.size = s.size := by
  -- the path from the least node up
  have h' : Held s (plug (f :: c₂ ++ ⟨.right, z, v, l⟩ :: c) (.node .nil y vy r)) := by
    rw [plug_append]
    exact h
  obtain ⟨hpn, hyn, hout⟩ := nodup_plug.mp h'.nodup
  simp only [PTree.addrs_node, PTree.addrs_nil, List.nil_append, List.nodup_cons, List.mem_cons,
    not_or] at hyn hout
  have hyp : y ∉ Path.addrs (f :: c₂ ++ ⟨.right, z, v, l⟩ :: c) := fun hm => (hout y hm).1 rfl
  obtain ⟨s₁, hrun, hs₁, hsize, hr₁, hsame⟩ := transplant_spec h'.around h'.in_hole.1 rfl hyp
    h'.in_hole.2.2 hyn.2 (fun a ha => (hout a ha).2) hyn.1
  have hy₁ : s₁.cells y = some ⟨vy, none, r.root, some f.p⟩ := by
    refine (hsame y (fun he => hyp (Path.parent_mem he)) fun he => ?_).trans h'.in_hole.1
    exact hyn.1 (PTree.mem_addrs_of_root he)
  -- what is left without `y`
  have hwhole : plug (f :: c₂ ++ ⟨.right, z, v, l⟩ :: c) r =
      plug c (.node l z v (plug (f :: c₂) r)) := plug_append
  have hmem₁ := in_plug.mpr ⟨hs₁.mem, hr₁⟩
  have hroot₁ := hs₁.root.trans root_plug.symm
  have hn₁ := nodup_plug.mpr ⟨hpn, hyn.2, fun a ha => (hout a ha).2⟩
  have hy : y ∉ (plug (f :: c₂ ++ ⟨.right, z, v, l⟩ :: c) r).addrs := by
    intro hm
    exact (mem_addrs_plug.mp hm).elim hyp hyn.1
  have hne : plug (f :: c₂) r ≠ .nil := plug_ne_nil
  rw [hwhole] at hmem₁ hroot₁ hn₁ hy
  generalize plug (f :: c₂) r = r' at hmem₁ hroot₁ hn₁ hy hne ⊢
  obtain ⟨hcmem, hzin, hlin, hrin⟩ := in_plug.mp hmem₁
  rw [root_plug] at hroot₁
  simp only [nodup_plug, mem_addrs_plug, PTree.addrs_node, List.nodup_append, List.nodup_cons,
    List.mem_append, List.mem_cons, not_or] at hn₁ hy
  obtain ⟨hcn, ⟨hln, ⟨hzr, hrn⟩, hlr⟩, hcout⟩ := hn₁
  obtain ⟨hyc, hyl, hyz, hyr⟩ := hy
  cases r' with
  | nil => exact absurd rfl hne
  | node rl p rv rr =>
    have hp : p ∈ (PTree.node rl p rv rr).addrs := PTree.mem_addrs_of_root rfl
    have hpy : p ≠ y := fun he => hyr (he ▸ hp)
    have hp₂ : (s₁.upd y ⟨vy, none, some p, some f.p⟩).cells p = s₁.cells p := State.upd_of_ne hpy
    have hrun' : detach s (some z) (some y) =
        some ((s₁.upd y ⟨vy, none, some p, some f.p⟩).upd p ⟨rv, rl.root, rr.root, some y⟩) := by
      unfold detach
      simp only [Option.bind_eq_bind, Option.bind_some, get_some, h'.in_hole.1, hrun, hzin,
        setChild_some hy₁, Cell.setChild, PTree.root_node, State.upd_self]
      rw [setParent_some (hp₂.trans hrin.1)]
    have hkeep : ∀ a, a ≠ y → a ≠ p → ((s₁.upd y ⟨vy, none, some p, some f.p⟩).upd p
        ⟨rv, rl.root, rr.root, some y⟩).cells a = s₁.cells a := by
      intro a hay hap
      rw [State.upd_of_ne hap, State.upd_of_ne hay]
    refine ⟨_, hrun', ⟨⟨?_, hroot₁, hcn⟩, ⟨some p, ?_⟩, ?_,
      some f.p, ?_, trivial, ?_⟩, hsize⟩
    · exact hcmem.congr fun a ha =>
        hkeep a (ne_of_mem_of_not_mem ha hyc) fun he => (hcout a ha).2.2 (he ▸ hp)
    · exact (hkeep z (Ne.symm hyz) (ne_of_mem_of_not_mem hp hzr).symm).trans hzin
    · exact hlin.congr fun a ha =>
        hkeep a (ne_of_mem_of_not_mem ha hyl) (hlr a ha p (.inr hp))
    · rw [State.upd_of_ne hpy.symm, State.upd_self]
      rfl
    · refine hrin.reparent hrn ?_ ?_
      · intro q x' hq hx'
        cases hq
        rw [State.upd_self]
        rw [hrin.1] at hx'
        cases hx'
        rfl
      · intro a ha hap
        exact hkeep a (ne_of_mem_of_not_mem ha hyr) fun he => hap (by rw [he, PTree.root_node])

/-! ## `delete` -/

/-- **A node that is no longer in the tree is deleted.** -/
theorem Held.free (h : Held s t) (hz : s.cells z = some x) (hzt : z ∉ t.addrs)
    (hsize : s.size = t.addrs.length + 1) : ∃ s', free s (some z) = some s' ∧ Rep s' t := by
  have hfree : Trees.free s (some z) =
      some { s with cells := Function.update s.cells z none, size := s.size - 1 } := by
    rw [Trees.free, Option.bind_some, hz, Option.map_some]
  refine ⟨_, hfree, ⟨h.mem.congr fun a ha => ?_, h.root, h.nodup⟩, ?_⟩
  · exact Function.update_of_ne (ne_of_mem_of_not_mem ha hzt) ..
  · dsimp only
    omega

end LearningNotes.Trees
