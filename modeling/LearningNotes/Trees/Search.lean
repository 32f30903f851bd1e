import LearningNotes.Trees.Links
import LearningNotes.Lib.Bst

/-!
# The loops that go down a tree

Each round goes to a child, so there are no more rounds than nodes.
-/

namespace LearningNotes.Trees

open PTree

variable {α : Type} {key : α → Int} {s s' : State α} {t l r : PTree α} {c : Path α}
  {a y p n : Nat} {v : α} {k : Int} {par : Option Nat} {x : Cell α} {f : Frame α}

/-- **`tree_minimum`** finds the first node, and no other. -/
theorem minimum_spec (ht : t.In s.cells par) (hne : t ≠ .nil) :
    ∃ c y vy r, t = plug c (.node .nil y vy r) ∧ Path.before c = [] ∧
      (∀ n, t.addrs.length ≤ n → minimum s n t.root = some (some y)) ∧
      ∀ n q, minimum s n t.root = some q → q = some y := by
  induction t generalizing par with
  | nil => exact absurd rfl hne
  | node l p v r ihl ihr =>
    obtain ⟨hp, hl, -⟩ := ht
    by_cases hnil : l = .nil
    · have hstop : ∀ n, minimum s (n + 1) (some p) = some (some p) := by
        intro n
        rw [minimum, get_some, hp, Option.bind_eq_bind, Option.bind_some, if_neg (by simp [hnil])]
      refine ⟨[], p, v, r, by rw [hnil, plug_nil], rfl, fun n hn => ?_, fun n q hq => ?_⟩
      · rw [addrs_node, List.length_append, List.length_cons] at hn
        obtain ⟨n, rfl⟩ := Nat.exists_eq_add_of_le' (show 1 ≤ n by omega)
        exact hstop n
      · cases n with
        | zero => cases hq
        | succ n =>
          rw [root_node, hstop] at hq
          exact (Option.some_inj.mp hq).symm
    · have hmore : ∀ n, minimum s (n + 1) (some p) = minimum s n l.root := by
        intro n
        rw [minimum, get_some, hp, Option.bind_eq_bind, Option.bind_some,
          if_pos (by simpa [root_eq_none] using hnil)]
      obtain ⟨c, y, vy, r', hplug, hbefore, hrun, honly⟩ := ihl hl hnil
      refine ⟨c ++ [⟨.left, p, v, r⟩], y, vy, r', by rw [plug_append, ← hplug]; rfl, ?_,
        fun n hn => ?_, fun n q hq => ?_⟩
      · rw [Path.before_append, hbefore]
        rfl
      · rw [addrs_node, List.length_append, List.length_cons] at hn
        obtain ⟨n, rfl⟩ := Nat.exists_eq_add_of_le' (show 1 ≤ n by omega)
        rw [root_node, hmore]
        exact hrun n (by omega)
      · cases n with
        | zero => cases hq
        | succ n =>
          rw [root_node, hmore] at hq
          exact honly n q hq

/-- **The loop of `tree_insert`.** -/
theorem descend_spec (ht : t.In s.cells c.parent) (hn : t.addrs.length < n) :
    descend key s k n t.root c.parent = some (t.pathTo key k c).parent := by
  induction t generalizing c n with
  | nil =>
    obtain ⟨n, rfl⟩ := Nat.exists_eq_add_of_le' (show 1 ≤ n by omega)
    rfl
  | node l p v r ihl ihr =>
    obtain ⟨hp, hl, hr⟩ := ht
    rw [addrs_node, List.length_append, List.length_cons] at hn
    obtain ⟨n, rfl⟩ := Nat.exists_eq_add_of_le' (show 1 ≤ n by omega)
    rw [root_node, descend, if_neg (Option.some_ne_none p), get_some, hp, Option.bind_eq_bind,
      Option.bind_some, pathTo]
    split
    · exact ihl (c := ⟨.left, p, v, r⟩ :: c) hl (by omega)
    · exact ihr (c := ⟨.right, p, v, l⟩ :: c) hr (by omega)

/-- **`tree_search`** finds a node with the key, if there is one. -/
theorem search_spec (ht : t.In s.cells par) (hbst : t.Bst key) (hn : t.addrs.length < n) :
    ∃ found, search key s k n t.root = some found ∧
      (∀ a, found = some a → ∃ v, (a, v) ∈ t.nodes ∧ key v = k) ∧
      (found = none → ∀ x ∈ t.nodes, key x.2 ≠ k) := by
  induction t generalizing par n with
  | nil =>
    obtain ⟨n, rfl⟩ := Nat.exists_eq_add_of_le' (show 1 ≤ n by omega)
    exact ⟨none, rfl, by simp, fun _ _ hx => by cases hx⟩
  | node l p v r ihl ihr =>
    obtain ⟨hp, hl, hr⟩ := ht
    obtain ⟨hbl, hbr, hlv, hvr⟩ := hbst
    rw [addrs_node, List.length_append, List.length_cons] at hn
    obtain ⟨n, rfl⟩ := Nat.exists_eq_add_of_le' (show 1 ≤ n by omega)
    rw [root_node, search, if_neg (Option.some_ne_none p), get_some, hp, Option.bind_eq_bind,
      Option.bind_some]
    dsimp only
    split
    next hk =>
      split
      next hlt =>
        -- what is on the right is not smaller than this key
        obtain ⟨found, hrun, hfound, hnone⟩ := ihl hl hbl (show _ < n by omega)
        refine ⟨found, hrun, fun a ha => ?_, fun ha x hx => ?_⟩
        · obtain ⟨w, hw, hwk⟩ := hfound a ha
          exact ⟨w, List.mem_append_left _ hw, hwk⟩
        · simp only [nodes_node, List.mem_append, List.mem_cons] at hx
          rcases hx with hx | rfl | hx
          · exact hnone ha x hx
          · exact Ne.symm hk
          · have := hvr x hx
            omega
      next hge =>
        obtain ⟨found, hrun, hfound, hnone⟩ := ihr hr hbr (show _ < n by omega)
        refine ⟨found, hrun, fun a ha => ?_, fun ha x hx => ?_⟩
        · obtain ⟨w, hw, hwk⟩ := hfound a ha
          exact ⟨w, List.mem_append_right _ (List.mem_cons_of_mem _ hw), hwk⟩
        · simp only [nodes_node, List.mem_append, List.mem_cons] at hx
          rcases hx with hx | rfl | hx
          · have := hlv x hx
            omega
          · exact Ne.symm hk
          · exact hnone ha x hx
    next hk =>
      refine ⟨some p, rfl, fun a ha => ?_, by simp⟩
      cases ha
      exact ⟨v, by simp, (not_not.mp hk).symm⟩

/-- **`tree_inorder`** visits the nodes in order. -/
theorem inorder_spec (ht : t.In s.cells par) (hn : t.addrs.length < n) :
    inorder s n t.root = some t.nodes := by
  induction t generalizing par n with
  | nil =>
    obtain ⟨n, rfl⟩ := Nat.exists_eq_add_of_le' (show 1 ≤ n by omega)
    rfl
  | node l p v r ihl ihr =>
    obtain ⟨hp, hl, hr⟩ := ht
    rw [addrs_node, List.length_append, List.length_cons] at hn
    obtain ⟨n, rfl⟩ := Nat.exists_eq_add_of_le' (show 1 ≤ n by omega)
    rw [root_node, inorder, hp, Option.bind_eq_bind, Option.bind_some, ihl hl (by omega),
      Option.bind_eq_bind, Option.bind_some, ihr hr (by omega)]
    rfl

theorem tree_spec (ht : t.In s.cells par) (hn : t.addrs.length < n) :
    s.tree n t.root = some t := by
  induction t generalizing par n with
  | nil =>
    obtain ⟨n, rfl⟩ := Nat.exists_eq_add_of_le' (show 1 ≤ n by omega)
    rfl
  | node l p v r ihl ihr =>
    obtain ⟨hp, hl, hr⟩ := ht
    rw [addrs_node, List.length_append, List.length_cons] at hn
    obtain ⟨n, rfl⟩ := Nat.exists_eq_add_of_le' (show 1 ≤ n by omega)
    rw [root_node, State.tree, hp, Option.bind_eq_bind, Option.bind_some, ihl hl (by omega),
      Option.bind_eq_bind, Option.bind_some, ihr hr (by omega)]
    rfl

/-- **A new leaf** is put at the end of the search. -/
theorem attach_spec {z : Nat} (h : Around s (f :: c) none) (hz : s.cells z = some x)
    (hside : f.side = .left ↔ key x.val < key f.v) :
    ∃ s', attach key s (some z) (some f.p) = some s' ∧ Around s' (f :: c) (some z) ∧
      s'.size = s.size ∧ ∀ a, a ≠ f.p → s'.cells a = s.cells a := by
  have hf := h.mem.1
  have hrun : attach key s (some z) (some f.p) = setChild f.side s (some f.p) (some z) := by
    simp only [attach, get_some, hz, hf, Option.bind_eq_bind, Option.bind_some, Cell.val_mk']
    by_cases hk : key x.val < key f.v
    · rw [if_pos hk, hside.mpr hk]
    · rw [if_neg hk]
      cases hs : f.side with
      | left => exact absurd (hside.mp hs) hk
      | right => rfl
  refine ⟨_, hrun.trans (setChild_some hf), ⟨h.mem.refill h.nodup ?_ ?_, h.root, h.nodup⟩, rfl,
    fun a ha => State.upd_of_ne ha⟩
  · intro f' hf' x' hx'
    cases hf'
    rw [State.upd_self]
    rw [hf] at hx'
    cases hx'
    rfl
  · intro a _ ha
    exact State.upd_of_ne fun he => ha (by rw [he, Path.parent_cons])

/-- **A node is added** where the search for its key ends. -/
theorem leaf_spec (h : Rep s t) (hne : t ≠ .nil) (ha : s.cells a = none) :
    ∃ y s', descend key (alloc s a v) (key v) (s.size + 1) t.root none = some (some y) ∧
      ((setParent (alloc s a v) (some a) (some y)).bind fun s => attach key s (some a) (some y)) =
        some s' ∧
      Rep s' (plug (t.pathTo key (key v) []) (.node .nil a v .nil)) := by
  have hat : a ∉ t.addrs := h.mem.not_mem ha
  have hne_of_mem : ∀ b ∈ t.addrs, b ≠ a := by
    intro b hb
    exact ne_of_mem_of_not_mem hb hat
  -- the memory with the new node
  have hsame₁ : ∀ b ∈ t.addrs, (alloc s a v).cells b = s.cells b := by
    intro b hb
    exact Function.update_of_ne (hne_of_mem b hb) ..
  have hin : t.In (alloc s a v).cells (Path.parent ([] : Path α)) := h.mem.congr hsame₁
  have hfuel : t.addrs.length < s.size + 1 := by
    rw [h.size]
    omega
  have hdescend : descend key (alloc s a v) (key v) (s.size + 1) t.root none =
      some (t.pathTo key (key v) []).parent := descend_spec hin hfuel
  have hpath : plug (t.pathTo key (key v) []) .nil = t := plug_pathTo
  have hside : ∀ f ∈ (t.pathTo key (key v) []).head?, f.side = .left ↔ key v < key f.v :=
    pathTo_side nofun
  generalize t.pathTo key (key v) [] = c at hdescend hpath hside ⊢
  cases c with
  | nil => exact absurd hpath.symm hne
  | cons f c =>
    subst hpath
    have hmem : ∀ b ∈ Path.addrs (f :: c), b ∈ (plug (f :: c) (.nil : PTree α)).addrs :=
      fun b hb => mem_addrs_plug.mpr (.inl hb)
    have hcell : (alloc s a v).cells a = some ⟨v, none, none, none⟩ := Function.update_self ..
    have haround : Around ((alloc s a v).upd a ⟨v, none, none, some f.p⟩) (f :: c) none :=
      h.around.congr rfl fun b hb =>
        (State.upd_of_ne (hne_of_mem b (hmem b hb))).trans (hsame₁ b (hmem b hb))
    obtain ⟨s', hrun, hs', hsize, hsame⟩ := attach_spec haround State.upd_self (hside f rfl)
    have haf : a ≠ f.p := fun he => hat (hmem a (he ▸ List.mem_cons_self))
    have hn := h.nodup
    have hlen := h.size
    rw [nodup_plug] at hn
    rw [addrs_plug.length_eq, List.length_append, addrs_nil, List.length_nil] at hlen
    refine ⟨f.p, s', hdescend, ?_, hs'.plug ⟨?_, trivial, trivial⟩ (nodup_plug.mpr ?_), ?_⟩
    · rw [setParent_some hcell, Option.bind_some, hrun]
    · rw [hsame a haf, State.upd_self]
      rfl
    · refine ⟨hn.1, by simp, fun b hb hba => ?_⟩
      rw [addrs_node, addrs_nil, List.nil_append, List.mem_singleton] at hba
      exact hne_of_mem b (hmem b hb) hba
    · rw [hsize, addrs_plug.length_eq, List.length_append, addrs_node, addrs_nil, List.nil_append,
        List.length_singleton]
      exact congrArg (· + 1) hlen

end LearningNotes.Trees
