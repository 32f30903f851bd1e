import Mathlib.Data.List.Basic
import LearningNotes.Trees.Search

/-!
# The next node

`tree_next` for the nodes with a parent pointer: the first node of the right subtree or, if there
is none, the first node on the way up that is reached from its left child. On the way up everything
on the left has been visited, so with a path to the root the next node is the first one of
`Path.after`.

`tree_next_visits`: from `tree_minimum` on, the nodes come in the order of `tree_inorder`, and then
`NULL`.

Mirroring notes:
- The loops make no more rounds than there are nodes on the way; `size` counts the nodes, and serves
  for nothing else.
-/

namespace LearningNotes.Trees

open PTree

variable {α : Type} {s : State α} {t l r : PTree α} {c : Path α} {p q n : Nat} {v : α}
  {par : Option Nat}

/-- The loop of `tree_next`: `y` is the parent of `x`. -/
def climb (s : State α) : Nat → Option Nat → Option Nat → Option (Option Nat)
  | 0, _, _ => none
  | n + 1, x, y =>
    if y = none then some none
    else do
      let y' ← s.get y
      if x = y'.right then climb s n y y'.parent else some y

def tree_next (s : State α) (x : Option Nat) : Option (Option Nat) := do
  let x' ← s.get x
  if x'.right ≠ none then minimum s s.size x'.right else climb s (s.size + 1) x x'.parent

/-- `x = tree_next(x)` from `x` on, until it is `NULL`: the nodes that `x` has been. -/
def visits (s : State α) : Nat → Option Nat → Option (List Nat)
  | 0, _ => none
  | _ + 1, none => some []
  | n + 1, some a => do
    let y ← tree_next s (some a)
    let rest ← visits s n y
    some (a :: rest)

/-- The node that follows what is in the hole. -/
def Path.next (c : Path α) : Option Nat := (Path.after c).head?.map Prod.fst

/-- **The way up.** -/
theorem climb_spec (hc : Path.In s.cells c (some q)) (hq : q ∉ Path.addrs c) (hn : c.length < n)
    (hnodup : (Path.addrs c).Nodup) : climb s n (some q) (Path.parent c) = some (Path.next c) := by
  induction c generalizing q n with
  | nil =>
    obtain ⟨n, rfl⟩ := Nat.exists_eq_add_of_le' (show 1 ≤ n by omega)
    rfl
  | cons f c ih =>
    obtain ⟨hf, hsib, hrest⟩ := hc
    rw [List.length_cons] at hn
    obtain ⟨n, rfl⟩ := Nat.exists_eq_add_of_le' (show 1 ≤ n by omega)
    rw [Path.addrs, List.mem_cons, List.mem_append, not_or, not_or] at hq
    rw [Path.addrs, List.nodup_cons, List.mem_append, not_or, List.nodup_append] at hnodup
    obtain ⟨⟨hpsib, hpc⟩, -, hcnodup, -⟩ := hnodup
    have hup : climb s n (some f.p) (Path.parent c) = some (Path.next c) :=
      ih hrest hpc (by omega) hcnodup
    rw [Path.parent_cons, climb, if_neg (Option.some_ne_none _), get_some, hf, Option.bind_eq_bind,
      Option.bind_some]
    obtain ⟨side, p, v, sib⟩ := f
    cases side with
    | left =>
      -- the sibling is on the right, and what is in the hole is not the sibling
      have hne : some q ≠ sib.root := fun he => hq.2.1 (mem_addrs_of_root he.symm)
      exact if_neg hne
    | right =>
      exact (if_pos rfl).trans hup

theorem length_le_addrs (c : Path α) : c.length ≤ (Path.addrs c).length := by
  induction c with
  | nil => exact Nat.le_refl 0
  | cons f c ih =>
    rw [Path.addrs, List.length_cons, List.length_cons, List.length_append]
    omega

theorem addrs_plug_eq (c : Path α) (t : PTree α) : (plug c t).addrs =
    (Path.before c).map Prod.fst ++ t.addrs ++ (Path.after c).map Prod.fst := by
  unfold addrs
  rw [nodes_plug, List.map_append, List.map_append]

/-- **`tree_next`** at a node gives the first node of its right subtree, or of what comes after it. -/
theorem tree_next_spec (h : Rep s (plug c (.node l p v r))) :
    tree_next s (some p) = some (r.addrs ++ (Path.after c).map Prod.fst).head? := by
  obtain ⟨hp, -, hr⟩ := h.in_hole
  have hnodup := nodup_plug.mp h.nodup
  have hsize : s.size = (Path.addrs c).length + (PTree.node l p v r).addrs.length := by
    rw [h.size, addrs_plug.length_eq, List.length_append]
  rw [addrs_node, List.length_append, List.length_cons] at hsize
  rw [tree_next, get_some, hp, Option.bind_eq_bind, Option.bind_some]
  dsimp only
  by_cases hnil : r = .nil
  · subst hnil
    have hmem : p ∉ Path.addrs c := fun hm => hnodup.2.2 p hm (by simp)
    have hlen := length_le_addrs c
    rw [if_neg (by simp), climb_spec h.around.mem hmem (by omega) hnodup.1, Path.next, addrs_nil,
      List.nil_append, List.head?_map]
  · rw [if_pos (by simpa [root_eq_none] using hnil)]
    obtain ⟨c', y, vy, r', hplug, hbefore, hrun, -⟩ := minimum_spec hr hnil
    have hhead : r.addrs.head? = some y := by
      rw [hplug, addrs_plug_eq, hbefore]
      simp
    rw [hrun s.size (by omega), List.head?_append, hhead]
    rfl

/-- **The nodes from one on**: what follows it in order, and then `NULL`. -/
theorem visits_spec (h : Rep s t) {suf : List Nat} :
    ∀ {pre : List Nat} {n : Nat}, t.addrs = pre ++ suf → suf.length < n →
      visits s n suf.head? = some suf := by
  induction suf with
  | nil =>
    intro pre n _ hn
    obtain ⟨n, rfl⟩ := Nat.exists_eq_add_of_le' (show 1 ≤ n by omega)
    rfl
  | cons a suf ih =>
    intro pre n hsplit hn
    rw [List.length_cons] at hn
    obtain ⟨n, rfl⟩ := Nat.exists_eq_add_of_le' (show 1 ≤ n by omega)
    have hmem : a ∈ t.addrs := hsplit ▸ List.mem_append_right _ List.mem_cons_self
    obtain ⟨c, l, v, r, rfl⟩ := exists_plug hmem
    -- the node is at one place in the order
    have hnodup := h.nodup
    have horder : (plug c (.node l a v r)).addrs = ((Path.before c).map Prod.fst ++ l.addrs) ++
        a :: (r.addrs ++ (Path.after c).map Prod.fst) := by
      rw [addrs_plug_eq, addrs_node]
      simp
    rw [hsplit, List.nodup_append, List.nodup_cons] at hnodup
    have hpre : a ∉ pre := fun hm => hnodup.2.2 a hm a List.mem_cons_self rfl
    have hsuf : suf = r.addrs ++ (Path.after c).map Prod.fst :=
      ((List.append_cons_inj_of_notMem hpre hnodup.2.1.1).mp (hsplit.symm.trans horder)).2.2
    have hnext : tree_next s (some a) = some suf.head? := by
      rw [tree_next_spec h, hsuf]
    have hrest : visits s n suf.head? = some suf :=
      ih (hsplit.trans (List.append_cons pre a suf)) (by omega)
    rw [List.head?_cons, visits, hnext, Option.bind_eq_bind, Option.bind_some, hrest]
    rfl

/-- **`tree_next` visits every node once, in order.** -/
theorem tree_next_visits (h : Rep s t) (hne : t ≠ .nil) :
    ∃ m nodes, minimum s s.size s.root = some m ∧
      inorder s (s.size + 1) s.root = some nodes ∧
      visits s (s.size + 1) m = some (nodes.map Prod.fst) ∧ (nodes.map Prod.fst).Nodup ∧
      nodes.length = s.size := by
  obtain ⟨c, y, vy, r, hplug, hbefore, hrun, -⟩ := minimum_spec h.mem hne
  have hhead : t.addrs.head? = some y := by
    rw [hplug, addrs_plug_eq, hbefore]
    simp
  have hfuel : t.addrs.length < s.size + 1 := Nat.lt_succ_of_le (Nat.le_of_eq h.size.symm)
  refine ⟨some y, t.nodes, ?_, ?_, ?_, h.nodup, ?_⟩
  · rw [h.root]
    exact hrun s.size (Nat.le_of_eq h.size.symm)
  · rw [h.root]
    exact inorder_spec h.mem hfuel
  · rw [← hhead]
    exact visits_spec h (List.nil_append t.addrs).symm hfuel
  · rw [h.size, addrs, List.length_map]

/-- A root and its two children. -/
def threeNodes : State Int where
  cells
    | 1 => some ⟨20, some 2, some 3, none⟩
    | 2 => some ⟨10, none, none, some 1⟩
    | 3 => some ⟨30, none, none, some 1⟩
    | _ => none
  root := some 1
  size := 3

/-- A root with two children. -/
theorem tree_next_visits_three : Rep threeNodes (.node (.node .nil 2 10 .nil) 1 20
      (.node .nil 3 30 .nil)) ∧
    ∃ m nodes, minimum threeNodes 3 (some 1) = some m ∧
      inorder threeNodes 4 (some 1) = some nodes ∧
      visits threeNodes 4 m = some (nodes.map Prod.fst) ∧ (nodes.map Prod.fst).Nodup ∧
      nodes.length = 3 := by
  have h : Rep threeNodes (.node (.node .nil 2 10 .nil) 1 20 (.node .nil 3 30 .nil)) :=
    { mem := ⟨rfl, ⟨rfl, trivial, trivial⟩, rfl, trivial, trivial⟩
      root := rfl
      nodup := by decide
      size := rfl }
  exact ⟨h, tree_next_visits h nofun⟩

end LearningNotes.Trees
