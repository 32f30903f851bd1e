import LearningNotes.Trees.Rotate

/-!
# `rb_insert_fixup`

The invariant of the loop: the tree is a red-black tree around a red node `z`, except that the
parent of `z` may be red. A round with a red uncle moves `z` two levels up; the others end with a
rotation, after which the parent of `z` is black.

`right_rotate` does what it should only where no child has to be moved. That is so in the first
round, as the nodes around a new leaf have no other children, but not further up. `harmless` tells
whether there is a rotation to the right further up.
-/

namespace LearningNotes.Trees.RBTree

open PTree

variable {s s' : Tree} {t u a b e T : PTree Entry} {c : Path Entry} {f g : Frame Entry} {d : Side}
  {p x y z n m : Nat} {v w : Entry} {par : Option Nat} {k : Color}

/-- The fix-up of a node that has got under the path `c` does not rotate to the right. -/
def turnsLeft : Path Entry → Bool
  | f :: g :: c =>
    if f.v.color = .RED then
      if colorOf g.sib = .RED then turnsLeft c else f.side = .right && g.side = .right
    else true
  | _ => true

/-- The fix-up of a new leaf under the path `c` does not rotate to the right after the first
round. -/
def harmless : Path Entry → Bool
  | f :: g :: c => if f.v.color = .RED ∧ colorOf g.sib = .RED then turnsLeft c else true
  | _ => true

/-! ## Colours -/

@[simp] theorem setRoot_mk (h : Entry → Entry) :
    (mk d a x v b).setRoot h = mk d a x (h v) b := by
  cases d <;> rfl

theorem setRoot_of_color (h : colorOf t = k) : t.setRoot (Entry.paint k) = t := by
  subst h
  cases t <;> rfl

/-- **A node is painted.** -/
theorem Held.setColor (h : Held s (plug c t)) (ht : t.root = some p) (k : Color) :
    ∃ s', setColor s (some p) k = some s' ∧ Held s' (plug c (t.setRoot (Entry.paint k))) ∧
      s'.size = s.size ∧ ∀ i, i ≠ p → s'.cells i = s.cells i := by
  cases t with
  | nil => cases ht
  | node l q v r =>
    cases ht
    obtain ⟨hp, hl, hr⟩ := h.in_hole
    have hn := h.nodup
    have hpaint : (plug c ((PTree.node l p v r).setRoot (Entry.paint k))).addrs.Perm
        (plug c (PTree.node l p v r)).addrs := by
      refine addrs_plug.trans ?_
      rw [addrs_setRoot]
      exact addrs_plug.symm
    simp only [nodup_plug, addrs_node, List.nodup_append, List.nodup_cons, List.mem_append,
      List.mem_cons, not_or] at hn
    obtain ⟨-, ⟨-, ⟨hpr, -⟩, hlr⟩, hout⟩ := hn
    have hpl : p ∉ l.addrs := fun hm => hlr p hm p (.inl rfl) rfl
    refine ⟨_, put_some hp, Around.plug ?_ ⟨State.upd_self, ?_, ?_⟩ (hpaint.nodup_iff.mpr h.nodup),
      rfl, fun i hi => State.upd_of_ne hi⟩
    · exact h.around.congr rfl fun a ha => State.upd_of_ne (hout a ha).2.1
    · exact hl.congr fun a ha => State.upd_of_ne (ne_of_mem_of_not_mem ha hpl)
    · exact hr.congr fun a ha => State.upd_of_ne (ne_of_mem_of_not_mem ha hpr)

theorem setColor_spec (h : Rep s (plug c t)) (ht : t.root = some p) (k : Color) :
    ∃ s', setColor s (some p) k = some s' ∧ Rep s' (plug c (t.setRoot (Entry.paint k))) := by
  obtain ⟨s', hrun, hs', hsize, -⟩ := Held.setColor h.toHeld ht k
  refine ⟨s', hrun, hs', ?_⟩
  rw [hsize, h.size, addrs_plug.length_eq, addrs_plug.length_eq, List.length_append,
    List.length_append, addrs_setRoot]

theorem isRed_spec (hu : u.In s.cells par) : isRed s u.root = some (decide (colorOf u = .RED)) := by
  cases u with
  | nil => rfl
  | node l p v r =>
    simp only [isRed, color, get_some, hu.1, root_node, reduceCtorEq, if_false, Option.map_some,
      Option.bind_eq_bind, Option.bind_some]
    rfl

/-! ## Where the loop stands -/

theorem Rep.node_parent (h : Rep s (plug c t)) (hz : t.root = some z) :
    ∃ x, s.cells z = some x ∧ x.parent = c.parent := by
  cases t with
  | nil => cases hz
  | node l q v r =>
    cases hz
    exact ⟨_, h.in_hole.1, rfl⟩

theorem Rep.frame (h : Rep s (plug (f :: c) t)) :
    s.cells f.p = some (.mk' f.side f.v t.root f.sib.root (Path.parent c)) :=
  h.around.mem.1

theorem Rep.frame₂ (h : Rep s (plug (f :: g :: c) t)) :
    s.cells g.p = some (.mk' g.side g.v (some f.p) g.sib.root (Path.parent c)) :=
  h.around.mem.2.2.1

theorem unfixed_nil (h : Rep s t) (hz : t.root = some z) : unfixed s (some z) = some false := by
  rw [unfixed, if_pos (h.root.trans hz)]

theorem unfixed_cons (h : Rep s (plug (f :: c) t)) (hz : t.root = some z) :
    unfixed s (some z) = some (decide (f.v.color = .RED)) := by
  obtain ⟨x, hx, hparent⟩ := Rep.node_parent h hz
  have hne : s.root ≠ some z := by
    intro he
    have htop : (plug (f :: c) (.nil : PTree Entry)).root = some z := by
      rw [root_plug, ← he, h.root, root_plug]
      rfl
    have hmem := (mem_addrs_plug.mp (mem_addrs_of_root htop)).resolve_right (by simp)
    exact (nodup_plug.mp h.nodup).2.2 z hmem (mem_addrs_of_root hz)
  simp only [unfixed, if_neg hne, color, get_some, hx, hparent, Path.parent_cons, Rep.frame h,
    Option.map_some, Cell.val_mk', Option.bind_eq_bind, Option.bind_some]

/-- The branch is chosen by the side of the grandparent that the parent is on. -/
theorem fixupRound_eq (h : Rep s (plug (f :: g :: c) t)) (hz : t.root = some z) :
    fixupRound s (some z) = fixupSide s g.side (some z) := by
  obtain ⟨x, hx, hparent⟩ := Rep.node_parent h hz
  simp only [fixupRound, get_some, hx, hparent, Path.parent_cons, Rep.frame h, Cell.parent_mk',
    Rep.frame₂ h, Option.bind_eq_bind, Option.bind_some]
  have hother : g.sib.root ≠ some f.p := by
    intro he
    have hn := (nodup_plug.mp h.nodup).1
    simp only [Path.addrs, List.nodup_cons, List.mem_append, List.mem_cons, not_or] at hn
    exact hn.1.2.2.1 (mem_addrs_of_root he)
  cases hs : g.side with
  | left => rw [if_pos (by simp [Cell.mk'])]
  | right => rw [if_neg (by simpa [Cell.mk'] using Ne.symm hother)]

/-- What `fixupSide` does is decided by the uncle, and by the side that `z` is on. -/
theorem fixupSide_eq (h : Rep s (plug (f :: g :: c) t)) (hz : t.root = some z) :
    fixupSide s g.side (some z) =
      if colorOf g.sib = .RED then
        (recolour s (some f.p) g.sib.root (some g.p)).map (·, some g.p)
      else if f.side = g.side.other then (turn g.side s (some f.p)).map (·, some f.p)
      else (raise s g.side (some f.p) (some g.p)).map (·, some z) := by
  obtain ⟨x, hx, hparent⟩ := Rep.node_parent h hz
  have huncle := isRed_spec h.around.mem.2.2.2.1
  have hz' : (some z = (Cell.mk' f.side f.v (some z) f.sib.root (some g.p)).child g.side.other) ↔
      f.side = g.side.other := by
    have hother : f.sib.root ≠ some z := by
      intro he
      refine (nodup_plug.mp h.nodup).2.2 z ?_ (mem_addrs_of_root hz)
      exact List.mem_cons_of_mem _ (List.mem_append_left _ (mem_addrs_of_root he))
    rcases Side.eq_or_eq_other f.side g.side with hs | hs
    · rw [hs, Cell.child_other_mk']
      refine iff_of_false (Ne.symm hother) ?_
      cases g.side <;> simp [Side.other]
    · rw [hs, Cell.child_mk']
      exact iff_of_true rfl rfl
  simp only [fixupSide, get_some, hx, hparent, Path.parent_cons, Rep.frame h, Rep.frame₂ h, hz,
    Cell.parent_mk', Cell.child_other_mk', huncle, hz', Option.bind_eq_bind, Option.bind_some,
    decide_eq_true_eq]

/-! ## The three kinds of rounds -/

/-- `turn` is a rotation; to the right, if no child has to be moved. -/
theorem turn_spec (h : Rep s (plug c (mk d a x v (mk d b y w e))))
    (hd : d = .right → a.root = b.root) :
    ∃ s', turn d s (some x) = some s' ∧ Rep s' (plug c (mk d (mk d a x v b) y w e)) := by
  obtain ⟨s', hrun, hs'⟩ := rotate_spec h
  refine ⟨s', ?_, hs'⟩
  cases d with
  | left => exact hrun
  | right =>
    have hin := h.in_hole
    rw [in_mk, in_mk, root_mk] at hin
    obtain ⟨hx, -, hy, -⟩ := hin
    exact (right_rotate_eq (s := s) (y := some x) hx hy (hd rfl)).trans hrun

/-- **A red uncle.** -/
theorem recolour_spec (h : Rep s (plug (f :: g :: c) t)) (hu : colorOf g.sib = .RED) :
    ∃ s', recolour s (some f.p) g.sib.root (some g.p) = some s' ∧
      Rep s' (plug c (mk g.side (mk f.side t f.p (f.v.paint .BLACK) f.sib) g.p (g.v.paint .RED)
        (g.sib.setRoot (Entry.paint .BLACK)))) := by
  have h₁ : Rep s (plug (g :: c) (mk f.side t f.p f.v f.sib)) := h
  obtain ⟨s₁, hrun₁, hs₁⟩ := setColor_spec h₁ root_mk .BLACK
  rw [setRoot_mk] at hs₁
  -- the uncle is in the hole of a path, too
  obtain ⟨u, hroot⟩ : ∃ u, g.sib.root = some u := by
    cases hsib : g.sib with
    | nil => rw [hsib] at hu; cases hu
    | node l u r => exact ⟨_, rfl⟩
  have hflip : ∀ o : PTree Entry, plug c (mk g.side (mk f.side t f.p (f.v.paint .BLACK) f.sib)
      g.p g.v o) = plug (⟨g.side.other, g.p, g.v, mk f.side t f.p (f.v.paint .BLACK) f.sib⟩ :: c)
        o := fun o => by
    rw [plug_cons, Frame.fill, mk_other]
  have h₂ : Rep s₁ (plug c (mk g.side (mk f.side t f.p (f.v.paint .BLACK) f.sib) g.p g.v g.sib)) :=
    hs₁
  rw [hflip] at h₂
  obtain ⟨s₂, hrun₂, hs₂⟩ := setColor_spec h₂ hroot .BLACK
  rw [← hflip] at hs₂
  obtain ⟨s₃, hrun₃, hs₃⟩ := setColor_spec hs₂ root_mk .RED
  rw [setRoot_mk] at hs₃
  refine ⟨s₃, ?_, hs₃⟩
  simp only [recolour, hrun₁, hroot, hrun₂, hrun₃, Option.bind_eq_bind, Option.bind_some]

/-- **An outer child.** -/
theorem raise_spec (h : Rep s (plug (f :: g :: c) t)) (hside : f.side = g.side)
    (hright : g.side = .left → g.sib.root = f.sib.root) :
    ∃ s', raise s g.side (some f.p) (some g.p) = some s' ∧
      Rep s' (plug (⟨g.side, f.p, f.v.paint .BLACK,
        mk g.side.other g.sib g.p (g.v.paint .RED) f.sib⟩ :: c) t) := by
  have h₁ : Rep s (plug (g :: c) (mk f.side t f.p f.v f.sib)) := h
  obtain ⟨s₁, hrun₁, hs₁⟩ := setColor_spec h₁ root_mk .BLACK
  rw [setRoot_mk] at hs₁
  have h₂ : Rep s₁ (plug c (mk g.side (mk f.side t f.p (f.v.paint .BLACK) f.sib) g.p g.v g.sib)) :=
    hs₁
  obtain ⟨s₂, hrun₂, hs₂⟩ := setColor_spec h₂ root_mk .RED
  rw [setRoot_mk, hside, ← mk_other, ← mk_other (d := g.side) (s := f.sib)] at hs₂
  obtain ⟨s₃, hrun₃, hs₃⟩ := turn_spec hs₂ fun hd => hright (by
    cases hs : g.side with
    | left => rfl
    | right => rw [hs] at hd; cases hd)
  refine ⟨s₃, ?_, ?_⟩
  · simp only [raise, hrun₁, hrun₂, hrun₃, Option.bind_eq_bind, Option.bind_some]
  · rw [plug_cons, Frame.fill, ← mk_other]
    exact hs₃

/-- **An inner child.** -/
theorem turn_inner (h : Rep s (plug (f :: g :: c) (mk g.side b z v e)))
    (hside : f.side = g.side.other) (hright : g.side = .right → f.sib.root = b.root) :
    ∃ s', turn g.side s (some f.p) = some s' ∧
      Rep s' (plug (⟨g.side, z, v, e⟩ :: g :: c) (mk g.side f.sib f.p f.v b)) := by
  have h₁ : Rep s (plug (g :: c) (mk f.side (mk g.side b z v e) f.p f.v f.sib)) := h
  rw [hside, mk_other] at h₁
  exact turn_spec h₁ hright

/-! ## The loop -/

/-- The loop ends, with a red-black tree of the same pairs. -/
def Mends (n : Nat) (s : Tree) (z : Nat) (T : PTree Entry) : Prop :=
  ∃ s' T', rb_insert_fixup n s (some z) = some s' ∧ Rep s' T' ∧ pairs T' = pairs T ∧
    colorOf T' = .BLACK ∧ ∃ m, Rb m T'

theorem mends_step {z' : Nat} (hmore : unfixed s (some z) = some true)
    (hround : fixupRound s (some z) = some (s', some z')) (h : Mends n s' z' t)
    (hpairs : pairs t = pairs T) : Mends (n + 1) s z T := by
  obtain ⟨s'', T', hrun, hrep, hp, hcolor, hrb⟩ := h
  refine ⟨s'', T', ?_, hrep, hp.trans hpairs, hcolor, hrb⟩
  simp only [rb_insert_fixup, hmore, hround, hrun, if_true, Option.bind_eq_bind, Option.bind_some]

/-- The parent of `z` is not red: the root is painted black. -/
theorem mends_stop (h : Rep s (plug c t)) (hz : t.root = some z) (ht : Rb m t)
    (hred : colorOf t = .RED) (hc : RbPath m c) (hstop : ¬ ParentRed c) :
    Mends (n + 1) s z (plug c t) := by
  have hunfixed : unfixed s (some z) = some false := by
    cases c with
    | nil => exact unfixed_nil h hz
    | cons f c =>
      rw [unfixed_cons h hz, decide_eq_false fun hf => hstop (parentRed_cons.mpr hf)]
  obtain ⟨r, hr⟩ : ∃ r, (plug c t).root = some r := by
    cases hp : plug c t with
    | nil =>
      have hmem := mem_addrs_plug (c := c).mpr (.inr (mem_addrs_of_root hz))
      rw [hp] at hmem
      cases hmem
    | node l r v o => exact ⟨r, rfl⟩
  obtain ⟨s', hrun, hs'⟩ := setColor_spec (c := []) h hr .BLACK
  refine ⟨s', _, ?_, hs', pairs_setRoot _, ?_, ?_⟩
  · simp only [rb_insert_fixup, hunfixed, h.root, hr, hrun, Bool.false_eq_true, if_false,
      Option.bind_eq_bind, Option.bind_some]
  · refine colorOf_setRoot _ fun he => ?_
    rw [he] at hr
    cases hr
  · cases c with
    | nil => exact ⟨_, ht.setRoot_black hred⟩
    | cons f c =>
      obtain ⟨hroot, hrb⟩ := rb_plug hc ht (fun hp => absurd hp hstop) nofun
      rw [setRoot_of_color hroot]
      exact hrb

/-- What is known when the parent of `z` is red and the uncle is not. -/
structure Rotates (m : Nat) (c : Path Entry) (f g : Frame Entry) (t : PTree Entry) : Prop where
  hole : Rb m t
  red : colorOf t = .RED
  parent : f.v.color = .RED
  sib : Rb m f.sib
  sib_black : colorOf f.sib = .BLACK
  grand : g.v.color = .BLACK
  uncle : Rb m g.sib
  uncle_black : colorOf g.sib = .BLACK
  path : RbPath (m + 1) c

theorem mends_outer (h : Rep s (plug (f :: g :: c) t)) (hz : t.root = some z)
    (hr : Rotates m c f g t) (hside : f.side = g.side)
    (hright : g.side = .left → g.sib.root = f.sib.root) :
    Mends (n + 2) s z (plug (f :: g :: c) t) := by
  obtain ⟨s', hrun, hs'⟩ := raise_spec h hside hright
  have hround : fixupRound s (some z) = some (s', some z) := by
    rw [fixupRound_eq h hz, fixupSide_eq h hz, if_neg (by simp [hr.uncle_black]), if_neg, hrun,
      Option.map_some]
    rw [hside]
    cases g.side <;> simp [Side.other]
  have hmore : unfixed s (some z) = some true := by
    rw [unfixed_cons h hz, decide_eq_true hr.parent]
  refine mends_step hmore hround (mends_stop hs' hz hr.hole hr.red ?_ (by simp [Entry.paint])) ?_
  · refine ⟨?_, .inr ⟨rfl, hr.path⟩⟩
    exact (rb_red rfl).mpr ⟨hr.uncle_black, hr.sib_black, hr.uncle, hr.sib⟩
  · rw [plug_cons, plug_cons, plug_cons]
    refine pairs_plug_congr ?_
    simp only [Frame.fill, hside]
    cases g.side <;> simp [mk, Side.other, pairs, Entry.paint]

theorem mends_inner (h : Rep s (plug (f :: g :: c) (mk g.side b z v e)))
    (hr : Rotates m c f g (mk g.side b z v e)) (hside : f.side = g.side.other)
    (hright₁ : g.side = .right → f.sib.root = b.root)
    (hright₂ : g.side = .left → g.sib.root = e.root) :
    Mends (n + 3) s z (plug (f :: g :: c) (mk g.side b z v e)) := by
  obtain ⟨s', hrun, hs'⟩ := turn_inner h hside hright₁
  have hround : fixupRound s (some z) = some (s', some f.p) := by
    rw [fixupRound_eq h root_mk, fixupSide_eq h root_mk, if_neg (by simp [hr.uncle_black]),
      if_pos hside, hrun, Option.map_some]
  have hmore : unfixed s (some z) = some true := by
    rw [unfixed_cons h root_mk, decide_eq_true hr.parent]
  obtain ⟨hb, he, hbm, hem⟩ := (rb_red (by simpa using hr.red)).mp hr.hole
  have hr' : Rotates m c ⟨g.side, z, v, e⟩ g (mk g.side f.sib f.p f.v b) :=
    { hr with
      hole := (rb_red hr.parent).mpr ⟨hr.sib_black, hb, hr.sib, hbm⟩
      red := by simpa using hr.parent
      parent := by simpa using hr.red
      sib := hem
      sib_black := he }
  refine mends_step hmore hround (mends_outer hs' root_mk hr' rfl hright₂) ?_
  rw [plug_cons, plug_cons, plug_cons, plug_cons]
  refine pairs_plug_congr ?_
  simp only [Frame.fill, hside]
  cases g.side <;> simp [mk, Side.other, pairs]

/-- Where the path may lead: no rotation to the right, unless it is in the first round. -/
def Harmless (m : Nat) (c : Path Entry) : Prop :=
  (m = 0 ∧ harmless c = true) ∨ turnsLeft c = true

theorem Harmless.climb (h : Harmless m (f :: g :: c)) (hf : f.v.color = .RED)
    (hg : colorOf g.sib = .RED) : turnsLeft c = true := by
  rcases h with ⟨-, h⟩ | h
  · simpa [harmless, hf, hg] using h
  · simpa [turnsLeft, hf, hg] using h

/-- In the first round there is no child to be moved; later the rotation is to the left. -/
theorem Harmless.rotates (h : Harmless m (f :: g :: c)) (hf : f.v.color = .RED)
    (hg : colorOf g.sib = .BLACK) : m = 0 ∨ (f.side = .right ∧ g.side = .right) := by
  rcases h with ⟨h, -⟩ | h
  · exact .inl h
  · exact .inr (by simpa [turnsLeft, hf, hg] using h)

/-- **A rotation**, if no child has to be moved to the right. -/
theorem mends_rotates (h : Rep s (plug (f :: g :: c) t)) (hz : t.root = some z)
    (hr : Rotates m c f g t) (hwhere : m = 0 ∨ (f.side = .right ∧ g.side = .right)) :
    Mends (n + 3) s z (plug (f :: g :: c) t) := by
  have hnil : ∀ {u : PTree Entry}, Rb m u → colorOf u = .BLACK → m = 0 → u.root = none :=
    fun hu hub hm => root_eq_none.mpr (Rb.eq_nil (hm ▸ hu) hub)
  rcases Side.eq_or_eq_other f.side g.side with hside | hside
  · refine mends_outer h hz hr hside fun hleft => ?_
    rcases hwhere with hm | ⟨-, hright⟩
    · rw [hnil hr.uncle hr.uncle_black hm, hnil hr.sib hr.sib_black hm]
    · cases hright.symm.trans hleft
  · have hm : m = 0 := hwhere.resolve_right fun ⟨hf, hg⟩ => by
      rw [hf, hg] at hside
      cases hside
    obtain ⟨b, e, v, rfl⟩ : ∃ b e v, t = mk g.side b z v e := by
      cases t with
      | nil => cases hz
      | node l p v r =>
        cases hz
        cases g.side with
        | left => exact ⟨l, r, v, rfl⟩
        | right => exact ⟨r, l, v, rfl⟩
    obtain ⟨hb, he, hbm, hem⟩ := (rb_red (by simpa using hr.red)).mp hr.hole
    refine mends_inner h hr hside (fun _ => ?_) fun _ => ?_
    · rw [hnil hr.sib hr.sib_black hm, hnil hbm hb hm]
    · rw [hnil hr.uncle hr.uncle_black hm, hnil hem he hm]

/-- Over a red parent there is a black grandparent. -/
theorem RbPath.grandparent (hc : RbPath m c) (hred : ParentRed c) :
    ∃ f g c', c = f :: g :: c' ∧ f.v.color = .RED ∧ Rb m f.sib ∧ colorOf f.sib = .BLACK ∧
      g.v.color = .BLACK ∧ Rb m g.sib ∧ RbPath (m + 1) c' := by
  match c, hc with
  | [], _ => exact absurd hred (by simp [ParentRed])
  | [f], hc =>
    obtain ⟨-, ⟨-, -, ⟨g, hg, -⟩, -⟩ | ⟨hf, -⟩⟩ := hc
    · cases hg
    · cases hf.symm.trans (parentRed_cons.mp hred)
  | f :: g :: c', hc =>
    obtain ⟨hsib, ⟨hf, hsibc, ⟨g', hg', hgblack⟩, huncle, hc⟩ | ⟨hf, -⟩⟩ := hc
    · cases hg'
      rcases hc with ⟨hgred, -⟩ | ⟨-, hc⟩
      · cases hgred.symm.trans hgblack
      · exact ⟨f, g, c', rfl, hf, hsib, hsibc, hgblack, huncle, hc⟩
    · cases hf.symm.trans (parentRed_cons.mp hred)

/-- **`rb_insert_fixup`** mends the tree. -/
theorem mends (h : Rep s (plug c t)) (hz : t.root = some z) (ht : Rb m t)
    (hred : colorOf t = .RED) (hc : RbPath m c) (hsafe : Harmless m c) (hn : c.length < n) :
    Mends n s z (plug c t) := by
  induction n generalizing s c t z m with
  | zero => omega
  | succ n ih =>
    by_cases hparent : ParentRed c
    · obtain ⟨f, g, c, rfl, hf, hsib, hsibc, hg, huncle, hc⟩ := hc.grandparent hparent
      rw [List.length_cons, List.length_cons] at hn
      cases hu : colorOf g.sib with
      | RED =>
        -- two levels up
        obtain ⟨s', hrun, hs'⟩ := recolour_spec h hu
        have hround : fixupRound s (some z) = some (s', some g.p) := by
          rw [fixupRound_eq h hz, fixupSide_eq h hz, if_pos hu, hrun, Option.map_some]
        have hmore : unfixed s (some z) = some true := by
          rw [unfixed_cons h hz, decide_eq_true hf]
        have hne : g.sib ≠ .nil := by
          intro he
          rw [he] at hu
          cases hu
        refine mends_step hmore hround (ih (m := m + 1) hs' root_mk ?_ ?_ hc
          (.inr (hsafe.climb hf hu)) (by omega)) ?_
        · refine (rb_red rfl).mpr ⟨by simp [Entry.paint], colorOf_setRoot _ hne, ?_,
            huncle.setRoot_black hu⟩
          exact (rb_black rfl).mpr ⟨ht, hsib⟩
        · simp [Entry.paint]
        · rw [plug_cons, plug_cons]
          refine pairs_plug_congr ?_
          have hsame := pairs_setRoot (t := g.sib) .BLACK
          simp only [pairs] at hsame
          simp only [Frame.fill]
          cases g.side <;> cases f.side <;> simp [mk, pairs, Entry.paint, hsame]
      | BLACK =>
        obtain ⟨n, rfl⟩ := Nat.exists_eq_add_of_le' (show 2 ≤ n by omega)
        exact mends_rotates h hz ⟨ht, hred, hf, hsib, hsibc, hg, huncle, hu, hc⟩
          (hsafe.rotates hf hu)
    · exact mends_stop h hz ht hred hc hparent

end LearningNotes.Trees.RBTree
