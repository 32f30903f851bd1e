import Mathlib.Data.List.Sort

/-!
# Binary trees with a hole

A tree whose nodes have addresses, and a path from a node to the root: a `Frame` is a node on the
path without the child that the path goes through. `plug path t` is the whole tree, with `t` where
the path begins; the first frame is the parent of `t`.

`mk` and `Frame` take the side as an argument, so that an operation and its mirror image are one.
-/

namespace LearningNotes

/-- The two sides of a node. -/
inductive Side where
  | left
  | right
  deriving DecidableEq, Repr

def Side.other : Side → Side
  | .left => .right
  | .right => .left

@[simp] theorem Side.other_other (d : Side) : d.other.other = d := by
  cases d <;> rfl

theorem Side.eq_or_eq_other (d e : Side) : d = e ∨ d = e.other := by
  cases d <;> cases e <;> simp [Side.other]

/-- A binary tree whose nodes have addresses. -/
inductive PTree (α : Type) where
  | nil
  | node (l : PTree α) (p : Nat) (v : α) (r : PTree α)
  deriving DecidableEq, Repr

namespace PTree

variable {α β : Type} {d : Side} {l r s t o : PTree α} {p q : Nat} {v : α}

/-- The pointer to the tree. -/
def root : PTree α → Option Nat
  | .nil => none
  | .node _ p _ _ => some p

/-- The nodes in order. -/
def nodes : PTree α → List (Nat × α)
  | .nil => []
  | .node l p v r => l.nodes ++ (p, v) :: r.nodes

/-- The addresses from left to right. -/
def addrs (t : PTree α) : List Nat := t.nodes.map Prod.fst

/-- `s` is the child on side `d`. -/
def mk (d : Side) (s : PTree α) (p : Nat) (v : α) (o : PTree α) : PTree α :=
  match d with
  | .left => .node s p v o
  | .right => .node o p v s

/-- The root has another value. -/
def setRoot (f : α → α) : PTree α → PTree α
  | .nil => .nil
  | .node l p v r => .node l p (f v) r

@[simp] theorem root_nil : (nil : PTree α).root = none := rfl
@[simp] theorem root_node : (node l p v r).root = some p := rfl
@[simp] theorem nodes_nil : (nil : PTree α).nodes = [] := rfl
@[simp] theorem nodes_node : (node l p v r).nodes = l.nodes ++ (p, v) :: r.nodes := rfl
@[simp] theorem addrs_nil : (nil : PTree α).addrs = [] := rfl

@[simp] theorem addrs_node : (node l p v r).addrs = l.addrs ++ p :: r.addrs := by
  simp [addrs]

@[simp] theorem root_mk : (mk d s p v o).root = some p := by
  cases d <;> rfl

/-- The two subtrees, the other way round. -/
theorem mk_other : mk d.other s p v o = mk d o p v s := by
  cases d <;> rfl

@[simp] theorem mem_addrs_mk : q ∈ (mk d s p v o).addrs ↔ q = p ∨ q ∈ s.addrs ∨ q ∈ o.addrs := by
  cases d <;> simp [mk] <;> tauto

/-- Only the empty tree has no root. -/
theorem root_eq_none : t.root = none ↔ t = nil := by
  cases t <;> simp

theorem mem_addrs_of_root (h : t.root = some p) : p ∈ t.addrs := by
  cases t with
  | nil => cases h
  | node l q v r =>
    cases h
    simp

/-- A new value at the root leaves the addresses alone. -/
@[simp] theorem root_setRoot (f : α → α) (t : PTree α) : (t.setRoot f).root = t.root := by
  cases t <;> rfl

@[simp] theorem addrs_setRoot (f : α → α) (t : PTree α) : (t.setRoot f).addrs = t.addrs := by
  cases t <;> simp [setRoot]

/-- No address is used twice, said of the parts. -/
theorem nodup_mk : (mk d s p v o).addrs.Nodup ↔
    s.addrs.Nodup ∧ o.addrs.Nodup ∧ p ∉ s.addrs ∧ p ∉ o.addrs ∧ ∀ a ∈ s.addrs, a ∉ o.addrs := by
  cases d
  · simp only [mk, addrs_node, List.nodup_append, List.nodup_cons, List.mem_cons]
    constructor
    · rintro ⟨hl, ⟨hp, hr⟩, hd⟩
      exact ⟨hl, hr, fun h => hd _ h p (.inl rfl) rfl, hp, fun a ha ha' => hd a ha a (.inr ha') rfl⟩
    · rintro ⟨hl, hr, hp, hp', hd⟩
      refine ⟨hl, ⟨hp', hr⟩, ?_⟩
      rintro a ha b (rfl | hb) rfl
      · exact hp ha
      · exact hd a ha hb
  · simp only [mk, addrs_node, List.nodup_append, List.nodup_cons, List.mem_cons]
    constructor
    · rintro ⟨hl, ⟨hp, hr⟩, hd⟩
      exact ⟨hr, hl, hp, fun h => hd _ h p (.inl rfl) rfl, fun a ha ha' => hd a ha' a (.inr ha) rfl⟩
    · rintro ⟨hl, hr, hp, hp', hd⟩
      refine ⟨hr, ⟨hp, hl⟩, ?_⟩
      rintro a ha b (rfl | hb) rfl
      · exact hp' ha
      · exact hd a hb ha

end PTree

/-- A node on the path, without the child on side `side`. -/
structure Frame (α : Type) where
  side : Side
  p : Nat
  v : α
  sib : PTree α
  deriving DecidableEq, Repr

/-- The path from the parent of a node to the root. -/
abbrev Path (α : Type) := List (Frame α)

section Paths

variable {α : Type} {c c' : Path α} {f : Frame α} {t t' s : PTree α} {p : Nat}

/-- The node of the frame, with a tree in the hole. -/
def Frame.fill (f : Frame α) (t : PTree α) : PTree α := .mk f.side t f.p f.v f.sib

/-- The whole tree around a subtree. -/
def plug : Path α → PTree α → PTree α
  | [], t => t
  | f :: c, t => plug c (f.fill t)

/-- The parent pointer of what is in the hole. -/
def Path.parent (c : Path α) : Option Nat := c.head?.map Frame.p

/-- The pointer to the whole tree, when `q` points to what is in the hole. -/
def Path.top : Path α → Option Nat → Option Nat
  | [], q => q
  | f :: c, _ => Path.top c (some f.p)

/-- The addresses outside of the hole. -/
def Path.addrs : Path α → List Nat
  | [] => []
  | f :: c => f.p :: (f.sib.addrs ++ Path.addrs c)

/-- The nodes on the left of the hole. -/
def Path.before : Path α → List (Nat × α)
  | [] => []
  | f :: c => match f.side with
    | .left => Path.before c
    | .right => Path.before c ++ (f.sib.nodes ++ [(f.p, f.v)])

/-- The nodes on the right of the hole. -/
def Path.after : Path α → List (Nat × α)
  | [] => []
  | f :: c => match f.side with
    | .left => (f.p, f.v) :: f.sib.nodes ++ Path.after c
    | .right => Path.after c

@[simp] theorem Path.parent_nil : Path.parent ([] : Path α) = none := rfl
@[simp] theorem Path.parent_cons : Path.parent (f :: c) = some f.p := rfl
@[simp] theorem plug_nil : plug [] t = t := rfl
@[simp] theorem plug_cons : plug (f :: c) t = plug c (f.fill t) := rfl
@[simp] theorem Frame.root_fill : (f.fill t).root = some f.p := PTree.root_mk

/-- A path in two parts. -/
theorem plug_append : plug (c ++ c') t = plug c' (plug c t) := by
  induction c generalizing t with
  | nil => rfl
  | cons f c ih => exact ih

/-- The root of the whole tree is that of the path, if there is one. -/
theorem root_plug : (plug c t).root = Path.top c t.root := by
  induction c generalizing t with
  | nil => rfl
  | cons f c ih => rw [plug_cons, ih, Frame.root_fill, Path.top]

theorem plug_ne_nil : plug (f :: c) t ≠ .nil := by
  rw [ne_eq, ← PTree.root_eq_none, root_plug, Path.top]
  induction c generalizing f with
  | nil => exact Option.some_ne_none _
  | cons f c ih => exact ih

/-- The nodes from left to right: those in front of the hole, those in it, and those behind it. -/
theorem nodes_plug : (plug c t).nodes = Path.before c ++ t.nodes ++ Path.after c := by
  induction c generalizing t with
  | nil => simp [Path.before, Path.after]
  | cons f c ih =>
    rw [plug_cons, ih]
    obtain ⟨side, p, v, sib⟩ := f
    cases side <;> simp [Frame.fill, PTree.mk, Path.before, Path.after]

theorem Path.before_append : Path.before (c ++ c') = Path.before c' ++ Path.before c := by
  induction c with
  | nil => simp [Path.before]
  | cons f c ih =>
    rw [List.cons_append]
    cases hs : f.side <;> simp [Path.before, hs, ih]

/-- Every address is outside of the hole or in it. -/
theorem addrs_plug : (plug c t).addrs.Perm (Path.addrs c ++ t.addrs) := by
  induction c generalizing t with
  | nil => exact .rfl
  | cons f c ih =>
    refine ih.trans ?_
    obtain ⟨side, p, v, sib⟩ := f
    have hfill : (Frame.fill ⟨side, p, v, sib⟩ t).addrs.Perm (p :: (sib.addrs ++ t.addrs)) := by
      cases side
      · simpa only [Frame.fill, PTree.mk, PTree.addrs_node] using
          List.perm_middle.trans (.cons _ List.perm_append_comm)
      · simp [Frame.fill, PTree.mk, List.perm_middle]
    refine (List.Perm.append_left _ hfill).trans (List.perm_middle.trans (.cons _ ?_))
    rw [← List.append_assoc]
    exact List.perm_append_comm.append_right _

theorem mem_addrs_plug {a : Nat} : a ∈ (plug c t).addrs ↔ a ∈ Path.addrs c ∨ a ∈ t.addrs := by
  rw [addrs_plug.mem_iff, List.mem_append]

/-- No address is used twice, said of the path and of what is in the hole. -/
theorem nodup_plug : (plug c t).addrs.Nodup ↔
    (Path.addrs c).Nodup ∧ t.addrs.Nodup ∧ ∀ a ∈ Path.addrs c, a ∉ t.addrs := by
  rw [addrs_plug.nodup_iff, List.nodup_append]
  refine and_congr_right fun _ => and_congr_right fun _ => ?_
  exact ⟨fun h a ha ha' => h a ha a ha' rfl, fun h a ha b hb hab => h a ha (hab ▸ hb)⟩

/-- The parent of the hole is on the path. -/
theorem Path.parent_mem (h : Path.parent c = some p) : p ∈ Path.addrs c := by
  cases c with
  | nil => cases h
  | cons f c =>
    cases h
    exact List.mem_cons_self

/-- Every node is where some path begins. -/
theorem exists_plug (h : p ∈ t.addrs) : ∃ c l v r, t = plug c (.node l p v r) := by
  induction t with
  | nil => cases h
  | node l q v r ihl ihr =>
    rw [PTree.addrs_node, List.mem_append, List.mem_cons] at h
    rcases h with h | rfl | h
    · obtain ⟨c, l', v', r', rfl⟩ := ihl h
      exact ⟨c ++ [⟨.left, q, v, r⟩], l', v', r', by rw [plug_append]; rfl⟩
    · exact ⟨[], l, v, r, rfl⟩
    · obtain ⟨c, l', v', r', rfl⟩ := ihr h
      exact ⟨c ++ [⟨.right, q, v, l⟩], l', v', r', by rw [plug_append]; rfl⟩

end Paths

end LearningNotes
