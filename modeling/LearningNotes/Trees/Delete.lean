import LearningNotes.Trees.Insert

/-!
# `rb_delete`

In a red-black tree, the node that is handed to the fix-up is red or `NULL`. A red node is painted
black, and that is all; with `NULL` the fix-up fails, as it does where the parent of `NULL` is to be
set before. So the loop of `rb_delete_fixup` never makes a round that succeeds, and a node can be
deleted exactly if a black node is not lost or has a red child to replace it, on the side where the
program looks for it (`Deletable`).
-/

namespace LearningNotes.Trees.RBTree

open PTree

variable {s s' s₁ : Tree} {t t' l r w ry : PTree Entry} {c c₂ : Path Entry} {f : Frame Entry}
  {p y z n m : Nat} {v vy : Entry} {x : Cell Entry}

/-- The first node's value, and its right child. -/
def least : PTree Entry → Option (Entry × PTree Entry)
  | .nil => none
  | .node l _ v r => (least l).or (some (v, r))

/-- A node with value `v` and these children can be deleted: it is a red leaf; or it has only a left
child; or its successor is its right child and has a child; or its successor is further down, and is
red or has a child. -/
def Deletable : PTree Entry → Entry → PTree Entry → Prop
  | .nil, v, r => r = .nil ∧ v.color = .RED
  | .node .., _, .nil => True
  | .node .., _, .node .nil _ _ ry => ry ≠ .nil
  | .node .., _, .node (.node rl p v rr) _ _ _ =>
    ∃ vy ry, least (.node rl p v rr) = some (vy, ry) ∧ (vy.color = .RED ∨ ry ≠ .nil)

theorem least_plug (hb : Path.before c = []) (h : least t = some (v, r)) :
    least (plug c t) = some (v, r) := by
  induction c generalizing t with
  | nil => exact h
  | cons f c ih =>
    cases hs : f.side with
    | left =>
      simp only [Path.before, hs] at hb
      refine ih hb ?_
      simp only [Frame.fill, hs, mk, least, h, Option.some_or]
    | right => simp [Path.before, hs] at hb

/-! ## The fix-up -/

theorem fixup_null (n : Nat) (s : Tree) : rb_delete_fixup n s none = none := by
  cases n with
  | zero => rfl
  | succ n =>
    by_cases h : none = s.root
    · simp [rb_delete_fixup, undeleted, setColor, State.put, ← h]
    · simp [rb_delete_fixup, undeleted, h, deleteRound, State.get]

/-- A red node is painted black. -/
theorem fixup_red (h : Held s (plug c w)) (hw : colorOf w = .RED) :
    ∃ s', rb_delete_fixup (n + 1) s w.root = some s' ∧
      Held s' (plug c (w.setRoot (Entry.paint .BLACK))) ∧ s'.size = s.size ∧
      ∀ i, w.root ≠ some i → s'.cells i = s.cells i := by
  cases w with
  | nil => cases hw
  | node wl p vw wr =>
    obtain ⟨s', hrun, hs', hsize, hsame⟩ := Held.setColor h (p := p) rfl .BLACK
    have hdone : undeleted s (some p) = some false := by
      by_cases hroot : some p = s.root
      · rw [undeleted, if_pos hroot]
      · have hcolor : color s (some p) = some .RED := by
          rw [color, get_some, h.in_hole.1, Option.map_some]
          exact congrArg some hw
        rw [undeleted, if_neg hroot, if_neg (Option.some_ne_none p), hcolor]
        rfl
    refine ⟨s', ?_, hs', hsize, fun i hi => hsame i fun he => hi (by rw [he, root_node])⟩
    simp only [rb_delete_fixup, root_node, hdone, hrun, Bool.false_eq_true, if_false,
      Option.bind_eq_bind, Option.bind_some]

/-! ## The tree around the node -/

/-- What is in the hole is replaced by something with the same black nodes. -/
theorem rb_replace (h : Rb m (plug c t)) (hrb : ∀ n, Rb n t → Rb n t')
    (hcolor : colorOf t = .BLACK → colorOf t' = .BLACK) :
    Rb m (plug c t') ∧ (colorOf (plug c t) = .BLACK → colorOf (plug c t') = .BLACK) := by
  induction c generalizing t t' with
  | nil => exact ⟨hrb m h, hcolor⟩
  | cons f c ih =>
    refine ih h (fun n hn => ?_) fun hf => ?_
    · cases hv : f.v.color with
      | RED =>
        obtain ⟨ht, hs, htn, hsn⟩ := (rb_red hv).mp hn
        exact (rb_red hv).mpr ⟨hcolor ht, hs, hrb n htn, hsn⟩
      | BLACK =>
        obtain ⟨n, rfl⟩ := Rb.exists_succ hn hv
        obtain ⟨htn, hsn⟩ := (rb_black hv).mp hn
        exact (rb_black hv).mpr ⟨hrb n htn, hsn⟩
    · rw [colorOf_fill] at hf ⊢
      exact hf

theorem pairs_node : pairs (.node l p v r) = pairs l ++ (p, v.key, v.data) :: pairs r := by
  simp [pairs]

theorem addrs_eq_pairs (t : PTree Entry) : t.addrs = (pairs t).map Prod.fst := by
  rw [addrs, pairs, List.map_map]
  rfl

/-- **The node has been replaced** by what has its other pairs and its black nodes, and is
deleted. -/
theorem Valid.finish (hv : Valid s (plug c (.node l z v r)))
    (hlen : 2 ≤ (plug c (.node l z v r)).nodes.length) (hw : pairs w = pairs l ++ pairs r)
    (hheld : Held s₁ (plug c w)) (hsize : s₁.size = s.size) (hz : s₁.cells z = some x)
    (hrb : ∀ n, Rb n (.node l z v r) → Rb n w)
    (hcolor : v.color = .BLACK → colorOf w = .BLACK) :
    ∃ s', free s₁ (some z) = some s' ∧ Valid s' (plug c w) ∧
      ∃ l₁ x l₂, pairs (plug c (.node l z v r)) = l₁ ++ (z, x) :: l₂ ∧
        pairs (plug c w) = l₁ ++ l₂ := by
  generalize hT : plug c (.node l z v r) = T at hv hlen
  obtain ⟨l₁, l₂, hold, hnew⟩ : ∃ l₁ l₂, pairs T = l₁ ++ (z, v.key, v.data) :: l₂ ∧
      pairs (plug c w) = l₁ ++ l₂ := by
    refine ⟨c.before.map (fun x => (x.1, x.2.key, x.2.data)) ++ pairs l,
      pairs r ++ c.after.map (fun x => (x.1, x.2.key, x.2.data)), ?_, ?_⟩
    · simp only [← hT, pairs_plug, pairs_node, List.append_assoc, List.cons_append]
    · simp only [pairs_plug, hw, List.append_assoc]
  have hn := hv.rep.nodup
  have hsz := hv.rep.size
  rw [addrs_eq_pairs, hold, List.map_append, List.map_cons] at hn hsz
  -- the node is not in the new tree, so its cell can go
  obtain ⟨hz', -⟩ := List.nodup_cons.mp (List.perm_middle.nodup_iff.mp hn)
  obtain ⟨s', hfree, hrep⟩ := hheld.free hz
    (by rw [addrs_eq_pairs, hnew, List.map_append]; exact hz')
    (by
      rw [hsize, hsz, addrs_eq_pairs, hnew, List.map_append]
      simp only [List.length_append, List.length_cons]
      omega)
  obtain ⟨m, hm⟩ := hv.rb
  have hblack := hv.black
  rw [← hT] at hm hblack
  obtain ⟨hrb', hcolor'⟩ := rb_replace hm hrb hcolor
  refine ⟨s', hfree, ⟨hrep, fun he => ?_, ?_, hcolor' hblack, m, hrb'⟩, l₁, _, l₂, hold, hnew⟩
  · -- at least one node is left
    have hlen' : 2 ≤ (pairs T).length := by rwa [pairs, List.length_map]
    have hempty := congrArg List.length hnew
    rw [he] at hempty
    rw [hold] at hlen'
    simp only [pairs, nodes_nil, List.map_nil, List.length_nil, List.length_append,
      List.length_cons] at hempty hlen'
    omega
  · rw [bst_iff_pairs, hnew]
    refine (hold ▸ bst_iff_pairs.mp hv.bst).sublist ?_
    exact List.Sublist.append_left (List.sublist_cons_self _ _) _

theorem nodup_of_pairs (hn : (plug c (.node l z v r)).addrs.Nodup)
    (hw : pairs w = pairs l ++ pairs r) : z ∉ (plug c w).addrs ∧ (plug c w).addrs.Nodup := by
  rw [addrs_eq_pairs, pairs_plug, pairs_node] at hn
  rw [addrs_eq_pairs, pairs_plug, hw]
  simp only [List.append_assoc, List.cons_append, List.map_append, List.map_cons] at hn ⊢
  rw [← List.append_assoc, List.perm_middle.nodup_iff, List.nodup_cons] at hn
  simpa only [List.append_assoc] using hn

/-! ## No left child -/

/-- The fix-up is called with `NULL`. -/
theorem delete_black (hz : s.cells z = some x) (hl : x.left = none) (hx : x.val.color = .BLACK)
    (n : Nat) : rb_delete s n (some z) = none := by
  simp only [rb_delete, unlink, get_some, hz, hl, hx, if_true, Option.bind_eq_bind,
    Option.bind_some]
  cases transplant s (some z) none with
  | none => rfl
  | some s₁ =>
    simp only [Option.map_some, Option.bind_some, fixIfBlack, if_true, fixup_null, Option.bind_none]

/-- A red node without a left child is a leaf. -/
theorem Rb.red_leaf (h : Rb n (.node .nil z v r)) (hv : v.color = .RED) : n = 0 ∧ r = .nil := by
  obtain ⟨-, hr, hn, hrn⟩ := (rb_red (d := .left) hv).mp h
  cases hn
  exact ⟨rfl, hrn.eq_nil hr⟩

theorem delete_red_leaf (hv : Valid s (plug c (.node .nil z v .nil)))
    (hlen : 2 ≤ (plug c (.node .nil z v .nil)).nodes.length) (hred : v.color = .RED) :
    ∃ s' t', rb_delete s n (some z) = some s' ∧ Valid s' t' ∧
      ∃ l₁ x l₂, pairs (plug c (.node .nil z v .nil)) = l₁ ++ (z, x) :: l₂ ∧
        pairs t' = l₁ ++ l₂ := by
  obtain ⟨hz, -, -⟩ := hv.rep.in_hole
  have hzc : z ∉ c.addrs := fun hm => (nodup_plug.mp hv.rep.nodup).2.2 z hm (by simp)
  have hnil : (PTree.nil : PTree Entry).In s.cells none := trivial
  obtain ⟨s₁, hrun, hs₁, hsize, hin, hsame⟩ := transplant_spec hv.rep.around hz rfl hzc hnil
    List.nodup_nil (fun _ _ => by simp) (by simp)
  obtain ⟨-, hnodup⟩ := nodup_of_pairs (w := .nil) hv.rep.nodup rfl
  have hz₁ := (hsame z (fun he => hzc (Path.parent_mem he)) nofun).trans hz
  obtain ⟨s', hfree, hvalid, hpairs⟩ := hv.finish (w := .nil) hlen rfl (hs₁.plug hin hnodup) hsize
    hz₁ (fun n hn => (Rb.red_leaf hn hred).1) fun hb => by (cases hred.symm.trans hb)
  refine ⟨s', _, ?_, hvalid, hpairs⟩
  rw [root_nil] at hrun
  simp only [rb_delete, unlink, get_some, hz, hred, root_nil, hrun, fixIfBlack, reduceCtorEq,
    if_true, if_false, Option.map_some, Option.bind_eq_bind, Option.bind_some, hfree]

/-! ## No right child -/

/-- A node with one child is black, and the child is red. -/
theorem Rb.one_child (h : Rb n (.node l z v .nil)) (hl : l ≠ .nil) :
    v.color = .BLACK ∧ colorOf l = .RED ∧ n = 1 ∧ Rb 0 l := by
  cases hv : v.color with
  | RED =>
    obtain ⟨hlc, -, hln, hn⟩ := (rb_red (d := .left) hv).mp h
    cases hn
    exact absurd (hln.eq_nil hlc) hl
  | BLACK =>
    obtain ⟨m, rfl⟩ := Rb.exists_succ (d := .left) h hv
    obtain ⟨hln, hm⟩ := (rb_black (d := .left) hv).mp h
    cases hm
    refine ⟨rfl, ?_, rfl, hln⟩
    cases hlc : colorOf l with
    | RED => rfl
    | BLACK => exact absurd (hln.eq_nil hlc) hl

theorem delete_left_only (hv : Valid s (plug c (.node l z v .nil)))
    (hlen : 2 ≤ (plug c (.node l z v .nil)).nodes.length) (hl : l ≠ .nil) :
    ∃ s' t', rb_delete s (n + 1) (some z) = some s' ∧ Valid s' t' ∧
      ∃ l₁ x l₂, pairs (plug c (.node l z v .nil)) = l₁ ++ (z, x) :: l₂ ∧
        pairs t' = l₁ ++ l₂ := by
  obtain ⟨hz, hlin, -⟩ := hv.rep.in_hole
  have hn := hv.rep.nodup
  simp only [nodup_plug, addrs_node, addrs_nil, List.nodup_append, List.mem_append, List.mem_cons,
    not_or] at hn
  obtain ⟨-, ⟨hln, -, hlz⟩, hout⟩ := hn
  have hzl : z ∉ l.addrs := fun hm => hlz z hm z (.inl rfl) rfl
  have hzc : z ∉ c.addrs := fun hm => (hout z hm).2.1 rfl
  obtain ⟨s₁, hrun, hs₁, hsize, hin, hsame⟩ := transplant_spec hv.rep.around hz rfl hzc hlin hln
    (fun a ha => (hout a ha).1) hzl
  have hpairs₁ : pairs l = pairs l ++ pairs .nil := (List.append_nil _).symm
  obtain ⟨-, hnodup⟩ := nodup_of_pairs hv.rep.nodup hpairs₁
  obtain ⟨k, hk⟩ := hv.rb
  obtain ⟨k, -, hk, -⟩ := rb_of_plug hk hv.black
  obtain ⟨hblack, hred, -, -⟩ := hk.one_child hl
  have hroot : l.root ≠ some z := fun he => hzl (mem_addrs_of_root he)
  obtain ⟨s₂, hfix, hs₂, hsize₂, hsame₂⟩ := fixup_red (n := n) (hs₁.plug hin hnodup) hred
  have hz₂ := (hsame₂ z hroot).trans ((hsame z (fun he => hzc (Path.parent_mem he)) hroot).trans hz)
  obtain ⟨s', hfree, hvalid, hpairs⟩ := hv.finish (w := l.setRoot (Entry.paint .BLACK)) hlen
    ((pairs_setRoot _).trans hpairs₁) hs₂ (hsize₂.trans hsize) hz₂
    (fun n hn => by
      obtain ⟨-, hred, rfl, hl0⟩ := hn.one_child hl
      exact hl0.setRoot_black hred)
    fun _ => colorOf_setRoot _ hl
  refine ⟨s', _, ?_, hvalid, hpairs⟩
  have hlroot : l.root ≠ none := fun he => hl (root_eq_none.mp he)
  simp only [rb_delete, unlink, get_some, hz, hblack, hlroot, root_nil, hrun, fixIfBlack, if_true,
    if_false, Option.map_some, Option.bind_eq_bind, Option.bind_some, hfix, hfree]

/-! ## Two children -/

/-- The successor takes the place and the colour of the node. -/
theorem replace_spec (hl : l ≠ .nil) (hb : Path.before c₂ = []) (hne : c₂ = [] → ry ≠ .nil)
    (h : Held s (plug c (.node l z v (plug c₂ (.node .nil y vy ry))))) :
    ∃ s', replace s (some z) (some y) ry.root = some s' ∧
      Held s' (plug c (.node l y (vy.paint v.color) (plug c₂ ry))) ∧ s'.size = s.size ∧
      ∃ x, s'.cells z = some x := by
  have hnodup : (plug c (.node l z v (.node .nil y vy (plug c₂ ry)))).addrs.Nodup := by
    have hn := h.nodup
    simpa only [addrs, nodes_plug, nodes_node, nodes_nil, hb, List.nil_append,
      List.cons_append] using hn
  obtain ⟨s₁, hroom, hparted, hsize₁⟩ : ∃ s₁, makeRoom s (some z) (some y) ry.root = some s₁ ∧
      Parted s₁ c l z v y vy (plug c₂ ry) ∧ s₁.size = s.size := by
    cases c₂ with
    | nil =>
      -- the child has that parent already
      obtain ⟨-, -, hy, -, hry⟩ := h.in_hole
      refine ⟨s, ?_, h.parted, rfl⟩
      cases ry with
      | nil => exact absurd rfl (hne rfl)
      | node ryl q vq ryr =>
        simp only [makeRoom, get_some, hy, if_true, Option.bind_eq_bind, Option.bind_some,
          root_node]
        rw [setParent_some hry.1]
        exact congrArg some (State.upd_same hry.1)
    | cons f c₂ =>
      obtain ⟨s₁, hrun, hparted, hsize⟩ := detach_spec h
      obtain ⟨hy, hfz⟩ := h.least_parent
      refine ⟨s₁, ?_, hparted, hsize⟩
      simp only [makeRoom, get_some, hy, Option.bind_eq_bind, Option.bind_some]
      rw [if_neg (by simpa using hfz), hrun]
  obtain ⟨s₂, hpromote, hs₂, hin, hsize₂, hz₂⟩ := promote_spec hparted hl hnodup
  obtain ⟨q, hq⟩ := hparted.cell
  have hn₂ : (plug c (.node l y vy (plug c₂ ry))).addrs.Nodup :=
    (nodup_of_pairs (w := .node l y vy (plug c₂ ry)) hnodup (by simp [pairs])).2
  obtain ⟨s₃, hpaint, hs₃, hsize₃, hsame₃⟩ := Held.setColor (hs₂.plug hin hn₂) (p := y) rfl v.color
  have hzy : z ≠ y := by
    intro he
    simp only [nodup_plug, addrs_node, List.nodup_append, List.nodup_cons] at hnodup
    exact hnodup.2.1.2.1.1 (by simp [he])
  refine ⟨s₃, ?_, hs₃, ?_, _, (hsame₃ z hzy).trans (hz₂.trans hq)⟩
  · simp only [replace, hroom, hpromote, color, get_some, hz₂.trans hq, hpaint, Option.map_some,
      Option.bind_eq_bind, Option.bind_some]
  · rw [hsize₃, hsize₂, hsize₁]

/-- The successor is red and a leaf, or black; its child is red, if it has one. -/
theorem Rb.successor (h : Rb n (.node .nil y vy ry)) (hok : vy.color = .RED ∨ ry ≠ .nil) :
    Rb n (ry.setRoot (Entry.paint .BLACK)) ∧
      (vy.color = .RED ∧ ry = .nil ∨ vy.color = .BLACK ∧ colorOf ry = .RED) := by
  cases hvy : vy.color with
  | RED =>
    obtain ⟨rfl, rfl⟩ := h.red_leaf hvy
    exact ⟨rfl, .inl ⟨rfl, rfl⟩⟩
  | BLACK =>
    obtain ⟨m, rfl⟩ := Rb.exists_succ (d := .left) h hvy
    obtain ⟨hm, hry⟩ := (rb_black (d := .left) hvy).mp h
    cases hm
    have hne : ry ≠ .nil := hok.resolve_left (by simp [hvy])
    have hred : colorOf ry = .RED := by
      cases hc : colorOf ry with
      | RED => rfl
      | BLACK => exact absurd (hry.eq_nil hc) hne
    exact ⟨hry.setRoot_black hred, .inr ⟨rfl, hred⟩⟩

theorem delete_two (hv : Valid s (plug c (.node l z v (plug c₂ (.node .nil y vy ry)))))
    (hlen : 2 ≤ (plug c (.node l z v (plug c₂ (.node .nil y vy ry)))).nodes.length) (hl : l ≠ .nil)
    (hb : Path.before c₂ = []) (hne : c₂ = [] → ry ≠ .nil) (hok : vy.color = .RED ∨ ry ≠ .nil)
    (hmin : minimum s (n + 1) (plug c₂ (.node .nil y vy ry)).root = some (some y)) :
    ∃ s' t', rb_delete s (n + 1) (some z) = some s' ∧ Valid s' t' ∧
      ∃ l₁ x l₂, pairs (plug c (.node l z v (plug c₂ (.node .nil y vy ry)))) = l₁ ++ (z, x) :: l₂ ∧
        pairs t' = l₁ ++ l₂ := by
  obtain ⟨hz, -, hrin⟩ := hv.rep.in_hole
  have hlroot : l.root ≠ none := fun he => hl (root_eq_none.mp he)
  have hrroot : (plug c₂ (.node .nil y vy ry)).root ≠ none := by
    intro he
    have hmem : y ∈ (plug c₂ (.node .nil y vy ry)).addrs := mem_addrs_plug.mpr (.inr (by simp))
    rw [root_eq_none.mp he] at hmem
    cases hmem
  obtain ⟨py, hy⟩ : ∃ py, s.cells y = some ⟨vy, none, ry.root, py⟩ := by
    cases c₂ with
    | nil => exact ⟨_, hrin.1⟩
    | cons f c₂ => exact ⟨_, hv.rep.least_parent.1⟩
  obtain ⟨s₁, hreplace, hs₁, hsize₁, x, hz₁⟩ := replace_spec hl hb hne hv.rep.toHeld
  -- the successor and its child are in the holes of paths
  have hhole : ∀ p' v' w, plug c (.node l p' v' (plug c₂ w)) =
      plug (c₂ ++ ⟨.right, p', v', l⟩ :: c) w := by
    intro p' v' w
    rw [plug_append]
    rfl
  obtain ⟨k, hk⟩ := hv.rb
  have hblack := hv.black
  rw [hhole] at hk hblack
  obtain ⟨k, -, hk, -⟩ := rb_of_plug hk hblack
  obtain ⟨-, hcases⟩ := hk.successor hok
  obtain ⟨s₂, hfix, hs₂, hsize₂, hz₂⟩ : ∃ s₂, fixIfBlack s₁ (n + 1) vy.color ry.root = some s₂ ∧
      Held s₂ (plug c (.node l y (vy.paint v.color)
        (plug c₂ (ry.setRoot (Entry.paint .BLACK))))) ∧ s₂.size = s₁.size ∧
      s₂.cells z = s₁.cells z := by
    rcases hcases with ⟨hred, rfl⟩ | ⟨hvb, hred⟩
    · exact ⟨s₁, by rw [fixIfBlack, hred, if_neg nofun], hs₁, rfl, rfl⟩
    · rw [hhole] at hs₁
      obtain ⟨s₂, hrun, hs₂, hsize₂, hsame₂⟩ := fixup_red (n := n) hs₁ hred
      have hzry : ry.root ≠ some z := by
        intro he
        have hn := hv.rep.nodup
        simp only [nodup_plug, addrs_node, List.nodup_append, List.nodup_cons] at hn
        exact hn.2.1.2.1.1 (mem_addrs_plug.mpr (.inr (by simp [mem_addrs_of_root he])))
      rw [← hhole] at hs₂
      exact ⟨s₂, by rw [fixIfBlack, if_pos hvb, hrun], hs₂, hsize₂, hsame₂ z hzry⟩
  have hpairs : pairs (.node l y (vy.paint v.color) (plug c₂ (ry.setRoot (Entry.paint .BLACK)))) =
      pairs l ++ pairs (plug c₂ (.node .nil y vy ry)) := by
    rw [pairs_node, pairs_plug, pairs_plug, pairs_setRoot, pairs_node, hb]
    rfl
  -- below the successor there are as many black nodes as before
  have hright : ∀ k, Rb k (plug c₂ (.node .nil y vy ry)) →
      Rb k (plug c₂ (ry.setRoot (Entry.paint .BLACK))) ∧
        (colorOf (plug c₂ (.node .nil y vy ry)) = .BLACK →
          colorOf (plug c₂ (ry.setRoot (Entry.paint .BLACK))) = .BLACK) := fun k hk => by
    refine rb_replace hk (fun j hj => (hj.successor hok).1) fun _ => ?_
    by_cases hry : ry = .nil
    · rw [hry]
      rfl
    · exact colorOf_setRoot _ hry
  have hrb : ∀ k, Rb k (.node l z v (plug c₂ (.node .nil y vy ry))) →
      Rb k (.node l y (vy.paint v.color) (plug c₂ (ry.setRoot (Entry.paint .BLACK)))) :=
    fun k hk => by
      cases hvc : v.color with
      | RED =>
        obtain ⟨hlc, hrc, hln, hrn⟩ := (rb_red (d := .left) hvc).mp hk
        exact (rb_red (d := .left) rfl).mpr ⟨hlc, (hright k hrn).2 hrc, hln, (hright k hrn).1⟩
      | BLACK =>
        obtain ⟨k, rfl⟩ := Rb.exists_succ (d := .left) hk hvc
        obtain ⟨hln, hrn⟩ := (rb_black (d := .left) hvc).mp hk
        exact (rb_black (d := .left) rfl).mpr ⟨hln, (hright k hrn).1⟩
  obtain ⟨s', hfree, hvalid, hpairs'⟩ := hv.finish hlen hpairs hs₂ (hsize₂.trans hsize₁)
    (hz₂.trans hz₁) hrb fun hvc => hvc
  refine ⟨s', _, ?_, hvalid, hpairs'⟩
  simp only [rb_delete, unlink, get_some, hz, hlroot, hrroot, hmin, hy, hreplace, if_false,
    Option.map_some, Option.bind_eq_bind, Option.bind_some, hfix, hfree]

/-- The parent of `NULL` is to be set, or the fix-up is called with `NULL`. -/
theorem delete_two_fails {py : Option Nat} (hz : s.cells z = some x) (hl : x.left ≠ none)
    (hr : x.right ≠ none) (hmin : ∀ q, minimum s n x.right = some q → q = some y)
    (hy : s.cells y = some ⟨vy, none, none, py⟩) (hbad : py = some z ∨ vy.color = .BLACK) :
    rb_delete s n (some z) = none := by
  simp only [rb_delete, unlink, get_some, hz, hl, hr, if_false, Option.bind_eq_bind,
    Option.bind_some]
  cases hm : minimum s n x.right with
  | none => rfl
  | some q =>
    cases hmin q hm
    simp only [get_some, hy, Option.bind_some]
    cases hreplace : replace s (some z) (some y) none with
    | none => rfl
    | some s₁ =>
      rcases hbad with rfl | hblack
      · simp [replace, makeRoom, get_some, hy, setParent, State.put] at hreplace
      · simp only [Option.map_some, Option.bind_some, fixIfBlack, hblack, if_true, fixup_null,
          Option.bind_none]

/-- **`rb_delete`.** In a red-black tree with two nodes or more, the deletion of a node returns,
and leaves a red-black search tree without that node, exactly if it is one that can be deleted. -/
theorem rb_delete_iff (hv : Valid s t) (hlen : 2 ≤ t.nodes.length) (hz : z ∈ t.addrs) :
    (∃ n s' t', rb_delete s n (some z) = some s' ∧ Valid s' t' ∧
      ∃ l₁ x l₂, pairs t = l₁ ++ (z, x) :: l₂ ∧ pairs t' = l₁ ++ l₂) ↔
    ∃ c l v r, t = plug c (.node l z v r) ∧ Deletable l v r := by
  constructor
  · rintro ⟨n, s', t', hrun, -⟩
    obtain ⟨c, l, v, r, rfl⟩ := exists_plug hz
    obtain ⟨hzin, -, hrin⟩ := hv.rep.in_hole
    refine ⟨c, l, v, r, rfl, ?_⟩
    cases l with
    | nil =>
      cases hvc : v.color with
      | RED =>
        obtain ⟨k, hk⟩ := hv.rb
        obtain ⟨k, -, hk, -⟩ := rb_of_plug hk hv.black
        exact ⟨(hk.red_leaf hvc).2, hvc⟩
      | BLACK =>
        -- a black node without a left child: the call does not return
        rw [delete_black hzin rfl hvc] at hrun
        cases hrun
    | node ll pl vl rl =>
      have hl : (PTree.node ll pl vl rl).root ≠ none := Option.some_ne_none pl
      cases r with
      | nil => trivial
      | node rl q vq rq =>
        have hr : (PTree.node rl q vq rq).root ≠ none := Option.some_ne_none q
        cases rl with
        | nil =>
          rintro rfl
          rw [delete_two_fails hzin hl hr (fun q' hq => ?_) hrin.1 (.inl rfl)] at hrun
          · cases hrun
          · cases n with
            | zero => cases hq
            | succ n =>
              simp [minimum, get_some, hrin.1] at hq
              exact hq.symm
        | node rl p vr rr =>
          -- two children: what counts is the least node on the right
          obtain ⟨c₂, y, vy, ry, hplug, hb, -, honly⟩ := minimum_spec hrin (by simp)
          have hleast : least (.node (.node rl p vr rr) q vq rq) = some (vy, ry) := by
            rw [hplug]
            exact least_plug hb rfl
          obtain ⟨f, c₂, rfl⟩ : ∃ f c', c₂ = f :: c' := by
            cases c₂ with
            | nil => cases hplug
            | cons f c₂ => exact ⟨f, c₂, rfl⟩
          have hy : s.cells y = some ⟨vy, none, ry.root, some f.p⟩ := by
            have hheld := hv.rep.toHeld
            rw [hplug] at hheld
            exact hheld.least_parent.1
          refine ⟨vy, ry, ?_, ?_⟩
          · rw [← hleast, least]
            simp [least]
          · by_contra hbad
            rw [not_or, not_not] at hbad
            obtain ⟨hred, rfl⟩ := hbad
            rw [delete_two_fails hzin hl hr (honly n) hy (.inr ?_)] at hrun
            · cases hrun
            · cases hvy : vy.color with
              | RED => exact absurd hvy hred
              | BLACK => rfl
  · rintro ⟨c, l, v, r, ht, hok⟩
    subst ht
    have hrin := hv.rep.in_hole.2.2
    cases l with
    | nil =>
      obtain ⟨rfl, hred⟩ := hok
      exact ⟨0, delete_red_leaf hv hlen hred⟩
    | node ll pl vl rl =>
      have hl : PTree.node ll pl vl rl ≠ .nil := by simp
      cases r with
      | nil => exact ⟨1, delete_left_only hv hlen hl⟩
      | node rl q vq rq =>
        cases rl with
        | nil =>
          have hmin : minimum s 1 (plug [] (.node .nil q vq rq)).root = some (some q) := by
            simp [minimum, get_some, hrin.1]
          rw [← plug_nil (t := .node .nil q vq rq)] at hv hlen ⊢
          exact ⟨1, delete_two hv hlen hl rfl (fun _ => hok) (.inr hok) hmin⟩
        | node rl p vr rr =>
          obtain ⟨w, o, hleast, hok⟩ := hok
          obtain ⟨c₂, y, vy, ry, hplug, hb, hmin, -⟩ := minimum_spec hrin (by simp)
          have hleast' : least (.node (.node rl p vr rr) q vq rq) = some (vy, ry) := by
            rw [hplug]
            exact least_plug hb rfl
          have hne : c₂ ≠ [] := by
            rintro rfl
            cases hplug
          rw [least, hleast] at hleast'
          cases hleast'
          -- there are rounds enough to find it
          have hmin' := hmin (s.size + 1) (by
            have hle := hv.rep.size
            rw [addrs_plug.length_eq] at hle
            simp only [List.length_append, addrs_node, List.length_cons] at hle ⊢
            omega)
          rw [hplug] at hv hlen hmin' ⊢
          exact ⟨_, delete_two hv hlen hl hb (fun he => absurd he hne) hok hmin'⟩

/-- Two nodes: the root, and its right child. -/
def pairTree : Tree where
  cells
    | 1 => some ⟨⟨8, 0, .BLACK⟩, none, some 2, none⟩
    | 2 => some ⟨⟨9, 0, .RED⟩, none, none, some 1⟩
    | _ => none
  root := some 1
  size := 2

theorem pairTree_valid :
    Valid pairTree (.node .nil 1 ⟨8, 0, .BLACK⟩ (.node .nil 2 ⟨9, 0, .RED⟩ .nil)) where
  rep := ⟨⟨⟨rfl, trivial, rfl, trivial, trivial⟩, rfl, by decide⟩, rfl⟩
  ne := nofun
  bst := bst_iff.mpr (by decide)
  black := rfl
  rb := ⟨1, (rb_black (d := .left) rfl).mpr ⟨rfl, (rb_red (d := .left) rfl).mpr ⟨rfl, rfl, rfl, rfl⟩⟩⟩

/-- The red leaf can be deleted. -/
theorem rb_delete_leaf : ∃ n s' t', rb_delete pairTree n (some 2) = some s' ∧ Valid s' t' := by
  obtain ⟨n, s', t', hrun, hvalid, -⟩ := (rb_delete_iff pairTree_valid (by decide)
    (z := 2) (by decide)).mpr ⟨[⟨.right, 1, ⟨8, 0, .BLACK⟩, .nil⟩], .nil, ⟨9, 0, .RED⟩, .nil, rfl,
      rfl, rfl⟩
  exact ⟨n, s', t', hrun, hvalid⟩

/-- The root cannot be deleted. -/
theorem rb_delete_root : ∃ s t z, Valid s t ∧ 2 ≤ t.nodes.length ∧ z ∈ t.addrs ∧
    ∀ n, rb_delete s n (some z) = none :=
  ⟨pairTree, _, 1, pairTree_valid, by decide, by decide, delete_black rfl rfl rfl⟩

end LearningNotes.Trees.RBTree
