import LearningNotes.Trees.Search
import LearningNotes.Lib.Runs

/-!
# The binary search tree

`tree_build`, `tree_insert`, `tree_search` and `tree_delete` for the nodes with a parent pointer.

Mirroring notes:
- Keys and data are `int`s, which are only compared and copied.
- The variable of `main` with the root is `root`; `tree_insert` and `tree_search` are called with it
  and `tree_delete` with its address.
- `new` gives any address where there is no node.
-/

namespace LearningNotes.Trees.Bst

open PTree

/-- `struct node`, without its pointers. -/
structure Pair where
  key : Int
  data : Int
  deriving DecidableEq, Repr

/-- `tree_build`: a tree of one node. -/
def tree_build (a : Nat) (k d : Int) : State Pair :=
  { alloc ⟨fun _ => none, none, 0⟩ a ⟨k, d⟩ with root := some a }

/-- `tree_insert`, with the node that `malloc` gives. -/
def tree_insert (s : State Pair) (a : Nat) (k d : Int) : Option (State Pair) := do
  let t := s.root
  let s := alloc s a ⟨k, d⟩
  let y ← descend Pair.key s k s.size t none
  let s ← setParent s (some a) y
  attach Pair.key s (some a) y

/-- `tree_search` -/
def tree_search (s : State Pair) (key : Int) : Option (Option Nat) :=
  search Pair.key s key (s.size + 1) s.root

/-- The two children of `z`: its successor `y` takes its place. -/
def replace {α : Type} (s : State α) (z y : Option Nat) : Option (State α) := do
  let y₁ ← s.get y
  if y₁.parent ≠ z then (detach s z y).bind fun s => promote s z y
  else promote s z y

/-- `tree_delete`, up to `delete z` -/
def unlink {α : Type} (s : State α) (z : Option Nat) : Option (State α) := do
  let z₁ ← s.get z
  if z₁.left = none then transplant s z z₁.right
  else if z₁.right = none then transplant s z z₁.left
  else (minimum s s.size z₁.right).bind fun y => replace s z y

/-- `tree_delete` -/
def tree_delete (s : State Pair) (z : Option Nat) : Option (State Pair) := do
  let s ← unlink s z
  free s z

/-- A call. -/
inductive Act where
  /-- a pair is inserted, with its node at `a` -/
  | insert (a : Nat) (k d : Int)
  /-- the node `z` of the tree is deleted, which is not the only one -/
  | delete (z : Nat)

/-- What a call does. -/
def act : Act → State Pair → Option (State Pair)
  | .insert a k d, s => if s.cells a = none then tree_insert s a k d else none
  | .delete z, s => do
    let nodes ← inorder s (s.size + 1) s.root
    if z ∈ nodes.map Prod.fst ∧ 1 < nodes.length then tree_delete s (some z) else none

/-! ## Insertion -/

variable {α : Type} {s s' : State Pair} {t l r : PTree Pair} {c : Path Pair} {z a : Nat} {v : Pair}
  {k d : Int}

/-- **`tree_insert`**: the new node is where the search ends. -/
theorem tree_insert_spec (h : Rep s t) (hne : t ≠ .nil) (ha : s.cells a = none) :
    ∃ s', tree_insert s a k d = some s' ∧
      Rep s' (plug (t.pathTo Pair.key k []) (.node .nil a ⟨k, d⟩ .nil)) := by
  obtain ⟨y, s', hdescend, hrun, hrep⟩ := leaf_spec (v := (⟨k, d⟩ : Pair)) h hne ha
  refine ⟨s', ?_, hrep⟩
  rw [tree_insert, h.root]
  exact Option.bind_eq_some_iff.mpr ⟨_, hdescend, hrun⟩

/-! ## Deletion -/

/-- Around a node there is what was around it, when what has taken its place has its other
nodes. -/
theorem held_of_nodes {w : PTree Pair} (h : Rep s (plug c (.node l z v r)))
    (hw : w.nodes = l.nodes ++ r.nodes) (hs' : Around s' c w.root)
    (hw' : w.In s'.cells c.parent) (hsize : s'.size = s.size) :
    Held s' (plug c w) ∧ z ∉ (plug c w).addrs ∧ s'.size = (plug c w).addrs.length + 1 := by
  have haddrs : ((plug c (.node l z v r)).addrs).Perm (z :: (plug c w).addrs) := by
    simp only [addrs, nodes_plug, nodes_node, hw, List.append_assoc, List.map_append, List.map_cons,
      List.cons_append]
    rw [← List.append_assoc]
    exact List.perm_middle.trans (.of_eq (by rw [List.append_assoc]))
  have hn := haddrs.nodup_iff.mp h.nodup
  rw [List.nodup_cons] at hn
  refine ⟨hs'.plug hw' hn.2, hn.1, ?_⟩
  rw [hsize, h.size, haddrs.length_eq, List.length_cons]

/-- Two children: the successor takes the place of the node. -/
theorem replace_spec {c₂ : Path Pair} {y : Nat} {vy : Pair} (hl : l ≠ .nil)
    (hb : Path.before c₂ = []) (h : Rep s (plug c (.node l z v (plug c₂ (.node .nil y vy r))))) :
    ∃ s', replace s (some z) (some y) = some s' ∧ Around s' c (some y) ∧
      (PTree.node l y vy (plug c₂ r)).In s'.cells c.parent ∧ s'.size = s.size ∧
      ∃ x, s'.cells z = some x := by
  have hnodup := h.nodup
  cases c₂ with
  | nil =>
    obtain ⟨-, -, hrin⟩ := h.in_hole
    have hparted := h.parted
    obtain ⟨s', hrun, hs', hin, hsize, hz⟩ := promote_spec hparted hl hnodup
    refine ⟨s', ?_, hs', hin, hsize, ?_⟩
    · simp only [replace, get_some, hrin.1, Option.bind_eq_bind, Option.bind_some, ne_eq,
        not_true_eq_false, if_false, hrun]
    · obtain ⟨q, hq⟩ := hparted.cell
      exact ⟨_, hz.trans hq⟩
  | cons f c₂ =>
    obtain ⟨s₁, hrun₁, hparted, hsize₁⟩ := detach_spec h.toHeld
    have hn : (plug c (.node l z v (.node .nil y vy (plug (f :: c₂) r)))).addrs.Nodup := by
      simpa only [addrs, nodes_plug, nodes_node, nodes_nil, hb, List.nil_append,
        List.cons_append] using hnodup
    obtain ⟨s', hrun, hs', hin, hsize, hz⟩ := promote_spec hparted hl hn
    obtain ⟨hy, hfz⟩ := h.least_parent
    refine ⟨s', ?_, hs', hin, hsize.trans hsize₁, ?_⟩
    · simp only [replace, get_some, hy, Option.bind_eq_bind, Option.bind_some]
      rw [if_pos (by simpa using hfz), hrun₁, Option.bind_some, hrun]
    · obtain ⟨q, hq⟩ := hparted.cell
      exact ⟨_, hz.trans hq⟩

/-- **`tree_delete`**, up to the `delete`. -/
theorem unlink_spec (h : Rep s (plug c (.node l z v r))) :
    ∃ s', ∃ w : PTree Pair, unlink s (some z) = some s' ∧ w.nodes = l.nodes ++ r.nodes ∧ Around s' c w.root ∧
      w.In s'.cells c.parent ∧ s'.size = s.size ∧ ∃ x, s'.cells z = some x := by
  obtain ⟨hz, hlin, hrin⟩ := h.in_hole
  have hn := h.nodup
  have hlen := h.size
  rw [addrs_plug.length_eq] at hlen
  simp only [nodup_plug, addrs_node, List.nodup_append, List.nodup_cons, List.mem_append,
    List.mem_cons, not_or, List.length_append, List.length_cons] at hn hlen
  obtain ⟨-, ⟨hln, ⟨hzr, hrn⟩, hlr⟩, hout⟩ := hn
  have hzc : z ∉ c.addrs := fun hm => (hout z hm).2.1 rfl
  have hzl : z ∉ l.addrs := fun hm => hlr z hm z (.inl rfl) rfl
  have hcz : c.parent ≠ some z := fun he => hzc (Path.parent_mem he)
  by_cases hl : l = .nil
  · obtain ⟨s', hrun, hs', hsize, hin, hsame⟩ := transplant_spec h.around hz rfl hzc hrin hrn
      (fun a ha => (hout a ha).2.2) hzr
    refine ⟨s', r, ?_, by simp [hl], hs', hin, hsize, _,
      (hsame z hcz fun he => hzr (mem_addrs_of_root he)).trans hz⟩
    simp only [unlink, get_some, hz, hl, Option.bind_eq_bind, Option.bind_some, root_nil, if_true,
      hrun]
  · have hlroot : l.root ≠ none := fun he => hl (root_eq_none.mp he)
    by_cases hr : r = .nil
    · obtain ⟨s', hrun, hs', hsize, hin, hsame⟩ := transplant_spec h.around hz rfl hzc hlin hln
        (fun a ha => (hout a ha).1) hzl
      refine ⟨s', l, ?_, by simp [hr], hs', hin, hsize, _,
        (hsame z hcz fun he => hzl (mem_addrs_of_root he)).trans hz⟩
      simp only [unlink, get_some, hz, hr, Option.bind_eq_bind, Option.bind_some, hlroot, if_false,
        root_nil, if_true, hrun]
    · have hrroot : r.root ≠ none := fun he => hr (root_eq_none.mp he)
      obtain ⟨c₂, y, vy, ry, hplug, hb, hmin, -⟩ := minimum_spec hrin hr
      obtain ⟨s', hrun, hs', hin, hsize, hx⟩ := replace_spec hl hb (hplug ▸ h)
      refine ⟨s', .node l y vy (plug c₂ ry), ?_, ?_, hs', hin, hsize, hx⟩
      · simp only [unlink, get_some, hz, Option.bind_eq_bind, Option.bind_some, hlroot, hrroot,
          if_false, hmin s.size (by omega), hrun]
      · rw [hplug, nodes_node, nodes_plug, nodes_plug, hb]
        rfl

/-- **`tree_delete`** takes the node out, and no other. -/
theorem tree_delete_spec (h : Rep s t) (hz : z ∈ t.addrs) :
    ∃ s' t', tree_delete s (some z) = some s' ∧ Rep s' t' ∧
      ∃ l₁ v l₂, t.nodes = l₁ ++ (z, v) :: l₂ ∧ t'.nodes = l₁ ++ l₂ := by
  obtain ⟨c, l, v, r, rfl⟩ := exists_plug hz
  obtain ⟨s₁, w, hrun, hw, hs₁, hin, hsize, x, hx⟩ := unlink_spec h
  obtain ⟨hheld, hzw, hlen⟩ := held_of_nodes h hw hs₁ hin hsize
  obtain ⟨s', hfree, hrep⟩ := hheld.free hx hzw hlen
  refine ⟨s', plug c w, ?_, hrep, c.before ++ l.nodes, v, r.nodes ++ c.after, ?_, ?_⟩
  · exact Option.bind_eq_some_iff.mpr ⟨s₁, hrun, hfree⟩
  · simp [nodes_plug]
  · simp [nodes_plug, hw]

/-! ## Runs -/

/-- A search tree with a node. -/
def Valid (s : State Pair) (t : PTree Pair) : Prop := Rep s t ∧ t ≠ .nil ∧ t.Bst Pair.key

/-- A tree of one node is a search tree. -/
theorem tree_build_valid (a : Nat) (k d : Int) :
    Valid (tree_build a k d) (.node .nil a ⟨k, d⟩ .nil) :=
  ⟨⟨⟨⟨Function.update_self .., trivial, trivial⟩, rfl, List.nodup_singleton a⟩, rfl⟩, nofun,
    trivial, trivial, nofun, nofun⟩

/-- `tree_insert` puts the pair behind those whose key is not greater. -/
theorem Valid.insert (h : Valid s t) (ha : s.cells a = none) :
    ∃ s' t', tree_insert s a k d = some s' ∧ Valid s' t' ∧
      t'.nodes = t.nodes.orderedInsert (Before Pair.key) (a, ⟨k, d⟩) := by
  obtain ⟨hrep, hne, hbst⟩ := h
  obtain ⟨s', hrun, hrep'⟩ := tree_insert_spec (k := k) (d := d) hrep hne ha
  have hnodes := nodes_plug_pathTo (v := (⟨k, d⟩ : Pair)) (a := a) hbst
  refine ⟨s', _, hrun, ⟨hrep', fun he => ?_, Bst.insert (v := (⟨k, d⟩ : Pair)) hbst⟩, hnodes⟩
  have hmem := congrArg List.length hnodes
  rw [he, List.orderedInsert_length] at hmem
  exact absurd hmem (by simp)

/-- `tree_delete` takes the node out of the sequence. -/
theorem Valid.delete (h : Valid s t) (hz : z ∈ t.addrs) (hlen : 1 < t.nodes.length) :
    ∃ s' t', tree_delete s (some z) = some s' ∧ Valid s' t' ∧
      ∃ l₁ v l₂, t.nodes = l₁ ++ (z, v) :: l₂ ∧ t'.nodes = l₁ ++ l₂ := by
  obtain ⟨hrep, hne, hbst⟩ := h
  obtain ⟨s', t', hrun, hrep', l₁, v, l₂, hn, hn'⟩ := tree_delete_spec hrep hz
  refine ⟨s', t', hrun, ⟨hrep', ?_, hbst.of_sublist ?_⟩, l₁, v, l₂, hn, hn'⟩
  · rintro rfl
    have := congrArg List.length hn'
    rw [hn] at hlen
    simp only [nodes_nil, List.length_nil, List.length_append, List.length_cons] at this hlen
    omega
  · rw [hn, hn']
    exact List.Sublist.append_left (List.sublist_cons_self _ _) _

/-- The walk of the source is the one of the tree. -/
theorem Rep.inorder (h : Rep s t) : inorder s (s.size + 1) s.root = some t.nodes := by
  rw [h.root]
  exact inorder_spec h.mem (by rw [h.size]; omega)

/-- **One call.** -/
theorem act_valid {x : Act} (h : ∃ t, Valid s t) (hs : act x s = some s') : ∃ t, Valid s' t := by
  obtain ⟨t, h⟩ := h
  cases x with
  | insert a k d =>
    simp only [act] at hs
    split at hs
    next ha =>
      obtain ⟨s₁, t', hrun, hvalid, -⟩ := h.insert (k := k) (d := d) ha
      rw [hrun] at hs
      cases hs
      exact ⟨t', hvalid⟩
    next => cases hs
  | delete z =>
    simp only [act, Rep.inorder h.1, Option.bind_eq_bind, Option.bind_some] at hs
    split at hs
    next hz =>
      obtain ⟨s₁, t', hrun, hvalid, -⟩ := h.delete hz.1 hz.2
      rw [hrun] at hs
      cases hs
      exact ⟨t', hvalid⟩
    next => cases hs

/-- **The binary search tree.** After any sequence of insertions and deletions from a search tree,
the memory holds a search tree; a search finds a node with the key when there is one; an insertion
puts the pair behind the pairs with its key; and a deletion takes out that node only. -/
theorem bst_run (s₀ s : State Pair) (hinit : ∃ t, Valid s₀ t) (h : Run act s₀ AnyStep s) :
    ∃ t, Rep s t ∧ t ≠ .nil ∧ t.Bst Pair.key ∧ Trees.inorder s (s.size + 1) s.root = some t.nodes ∧
      (∀ k, ∃ found, tree_search s k = some found ∧
        (∀ a, found = some a → ∃ v, (a, v) ∈ t.nodes ∧ v.key = k) ∧
        (found = none → ∀ x ∈ t.nodes, x.2.key ≠ k)) ∧
      (∀ a k d, s.cells a = none → ∃ s' t', tree_insert s a k d = some s' ∧ Valid s' t' ∧
        t'.nodes = t.nodes.orderedInsert (Before Pair.key) (a, ⟨k, d⟩)) ∧
      ∀ z ∈ t.addrs, 1 < t.nodes.length → ∃ s' t', tree_delete s (some z) = some s' ∧
        Valid s' t' ∧ ∃ l₁ v l₂, t.nodes = l₁ ++ (z, v) :: l₂ ∧ t'.nodes = l₁ ++ l₂ := by
  obtain ⟨t, hvalid⟩ := h.inv (I := fun s => ∃ t, Valid s t) hinit fun _ _ _ _ _ hs hi => act_valid hi hs
  have ⟨hrep, hne, hbst⟩ := hvalid
  refine ⟨t, hrep, hne, hbst, Rep.inorder hrep, fun k => ?_, fun a k d ha => hvalid.insert ha,
    fun z hz hlen => hvalid.delete hz hlen⟩
  rw [tree_search, hrep.root]
  exact search_spec hrep.mem hbst (by rw [hrep.size]; omega)

/-- The tree of `main`, of which the root is deleted. -/
theorem bst_run_main : ∃ s t, Run act (tree_build 1 3 20) AnyStep s ∧ Rep s t ∧
    t.nodes = [(2, ⟨1, 50⟩), (4, ⟨2, 10⟩), (3, ⟨4, 30⟩), (5, ⟨5, 40⟩)] := by
  have hrun : (perform act [.insert 2 1 50, .insert 3 4 30, .insert 4 2 10, .insert 5 5 40,
      .delete 1] (tree_build 1 3 20)).any (fun s => inorder s (s.size + 1) s.root =
        some [(2, ⟨1, 50⟩), (4, ⟨2, 10⟩), (3, ⟨4, 30⟩), (5, ⟨5, 40⟩)]) = true := by
    decide +kernel
  obtain ⟨s, hs, hnodes⟩ := (Option.any_eq_true _ _).mp hrun
  have h : Run act (tree_build 1 3 20) AnyStep s := Run.of_perform hs
  obtain ⟨t, hrep, -, -, hinorder, -⟩ := bst_run _ s ⟨_, tree_build_valid 1 3 20⟩ h
  refine ⟨s, t, h, hrep, Option.some_inj.mp (hinorder.symm.trans ?_)⟩
  exact of_decide_eq_true hnodes

end LearningNotes.Trees.Bst
