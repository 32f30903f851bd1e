import LearningNotes.Lib.PTree
import Mathlib.Logic.Function.Basic

/-!
# Trees with parent pointers in memory

A node in memory has a value and three pointers. `t.In h par` says that the tree `t` is in the
memory `h`, its root with the parent pointer `par`; `c.In h q` says the same of a path whose hole is
filled with something at `q`. A tree with a hole is in memory exactly when its path is and what is
in the hole is (`in_plug`), so an operation at a node is reasoned about at that node: the path does
not notice what happens in the hole, except that the frame next to it has the pointer
(`Path.In.refill`), and what is in the hole does not notice the path, except for the parent pointer
(`PTree.In.reparent`).
-/

namespace LearningNotes

/-- A node with its pointers. -/
structure Cell (α : Type) where
  val : α
  left : Option Nat
  right : Option Nat
  parent : Option Nat
  deriving DecidableEq, Repr

/-- The memory of a tree. -/
abbrev Cells (α : Type) := Nat → Option (Cell α)

variable {α : Type} {h h' : Cells α} {d : Side} {t s o l r : PTree α} {c : Path α} {f : Frame α}
  {p q : Nat} {v : α} {par par' ptr ptr' : Option Nat}

/-- The pointer to one side. -/
def Cell.child (x : Cell α) : Side → Option Nat
  | .left => x.left
  | .right => x.right

/-- The pointer to one side is set. -/
def Cell.setChild (x : Cell α) (d : Side) (q : Option Nat) : Cell α :=
  match d with
  | .left => { x with left := q }
  | .right => { x with right := q }

/-- A node with child `q` on side `d`, and child `o` on the other. -/
def Cell.mk' (d : Side) (v : α) (q o par : Option Nat) : Cell α :=
  match d with
  | .left => ⟨v, q, o, par⟩
  | .right => ⟨v, o, q, par⟩

section Cells

variable {x : Cell α} {o' : Option Nat}

@[simp] theorem Cell.child_mk' : (Cell.mk' d v ptr o' par).child d = ptr := by cases d <;> rfl
@[simp] theorem Cell.child_other_mk' : (Cell.mk' d v ptr o' par).child d.other = o' := by
  cases d <;> rfl
@[simp] theorem Cell.val_mk' : (Cell.mk' d v ptr o' par).val = v := by cases d <;> rfl
@[simp] theorem Cell.parent_mk' : (Cell.mk' d v ptr o' par).parent = par := by cases d <;> rfl

@[simp] theorem Cell.setChild_mk' :
    (Cell.mk' d v ptr o' par).setChild d ptr' = Cell.mk' d v ptr' o' par := by
  cases d <;> rfl

@[simp] theorem Cell.setParent_mk' :
    { Cell.mk' d v ptr o' par with parent := par' } = Cell.mk' d v ptr o' par' := by
  cases d <;> rfl

end Cells

/-- The tree `t` is in memory, and `par` is the parent of its root. -/
def PTree.In (h : Cells α) : Option Nat → PTree α → Prop
  | _, .nil => True
  | par, .node l p v r =>
    h p = some ⟨v, l.root, r.root, par⟩ ∧ PTree.In h (some p) l ∧ PTree.In h (some p) r

/-- The path `c` is in memory, and `ptr` is the pointer to what is in the hole. -/
def Path.In (h : Cells α) : Path α → Option Nat → Prop
  | [], _ => True
  | f :: c, ptr =>
    h f.p = some (.mk' f.side f.v ptr f.sib.root (Path.parent c)) ∧
      f.sib.In h (some f.p) ∧ Path.In h c (some f.p)

/-- Both pointers of a node, said for a side. -/
theorem PTree.in_mk : (PTree.mk d s p v o).In h par ↔
    h p = some (.mk' d v s.root o.root par) ∧ s.In h (some p) ∧ o.In h (some p) := by
  cases d
  · rfl
  · exact and_congr_right fun _ => and_comm

/-- A tree with a hole is in memory when its parts are. -/
theorem in_plug : (plug c t).In h none ↔ Path.In h c t.root ∧ t.In h (Path.parent c) := by
  induction c generalizing t with
  | nil => simp [Path.In]
  | cons f c ih =>
    rw [plug_cons, ih, Frame.root_fill, Frame.fill, PTree.in_mk, Path.In, Path.parent_cons]
    tauto

/-! ## What other addresses hold is of no matter -/

/-- A tree stays when none of its nodes changes. -/
theorem PTree.In.congr (ht : t.In h par) (heq : ∀ a ∈ t.addrs, h' a = h a) : t.In h' par := by
  induction t generalizing par with
  | nil => trivial
  | node l p v r ihl ihr =>
    simp only [addrs_node, List.mem_append, List.mem_cons] at heq
    obtain ⟨hp, hl, hr⟩ := ht
    exact ⟨(heq p (by tauto)).trans hp, ihl hl fun a ha => heq a (by tauto),
      ihr hr fun a ha => heq a (by tauto)⟩

/-- A path stays when none of its nodes changes. -/
theorem Path.In.congr (hc : Path.In h c ptr) (heq : ∀ a ∈ Path.addrs c, h' a = h a) :
    Path.In h' c ptr := by
  induction c generalizing ptr with
  | nil => trivial
  | cons f c ih =>
    simp only [Path.addrs, List.mem_append, List.mem_cons] at heq
    obtain ⟨hp, hs, hc⟩ := hc
    exact ⟨(heq f.p (by tauto)).trans hp, hs.congr fun a ha => heq a (by tauto),
      ih hc fun a ha => heq a (by tauto)⟩

/-- What is in memory has its cells there. -/
theorem PTree.In.exists_cell (ht : t.In h par) (hp : p ∈ t.addrs) : ∃ x, h p = some x := by
  induction t generalizing par with
  | nil => cases hp
  | node l q v r ihl ihr =>
    obtain ⟨hq, hl, hr⟩ := ht
    simp only [addrs_node, List.mem_append, List.mem_cons] at hp
    rcases hp with hp | rfl | hp
    · exact ihl hl hp
    · exact ⟨_, hq⟩
    · exact ihr hr hp

/-- Memory that is free is not in the tree. -/
theorem PTree.In.not_mem (ht : t.In h par) (hp : h p = none) : p ∉ t.addrs := fun hm => by
  obtain ⟨x, hx⟩ := ht.exists_cell hm
  rw [hp] at hx
  cases hx

/-! ## The two pointers between the hole and the path -/

/-- The parent pointer of a tree is changed. -/
theorem PTree.In.reparent (ht : t.In h par) (hn : t.addrs.Nodup)
    (hroot : ∀ q x, t.root = some q → h q = some x → h' q = some { x with parent := par' })
    (heq : ∀ a ∈ t.addrs, t.root ≠ some a → h' a = h a) : t.In h' par' := by
  cases t with
  | nil => trivial
  | node l q v r =>
    obtain ⟨hq, hl, hr⟩ := ht
    rw [addrs_node, List.nodup_append, List.nodup_cons] at hn
    obtain ⟨-, ⟨hqr, -⟩, hd⟩ := hn
    simp only [addrs_node, List.mem_append, List.mem_cons, root_node, ne_eq, Option.some_inj]
      at heq
    refine ⟨hroot q _ rfl hq, hl.congr fun a ha => heq a (.inl ha) ?_,
      hr.congr fun a ha => heq a (.inr (.inr ha)) ?_⟩
    · intro he
      exact hd _ ha _ List.mem_cons_self he.symm
    · intro he
      exact hqr (he ▸ ha)

/-- The pointer into the hole is changed. -/
theorem Path.In.refill (hc : Path.In h c ptr) (hn : (Path.addrs c).Nodup)
    (hhead : ∀ f ∈ c.head?, ∀ x, h f.p = some x → h' f.p = some (x.setChild f.side ptr'))
    (heq : ∀ a ∈ Path.addrs c, Path.parent c ≠ some a → h' a = h a) : Path.In h' c ptr' := by
  cases c with
  | nil => trivial
  | cons f c =>
    obtain ⟨hf, hs, hc⟩ := hc
    rw [addrs, List.nodup_cons, List.mem_append] at hn
    simp only [addrs, List.mem_append, List.mem_cons, parent_cons, ne_eq, Option.some_inj] at heq
    refine ⟨(hhead f rfl _ hf).trans ?_, hs.congr fun a ha => heq a (.inr (.inl ha)) ?_,
      hc.congr fun a ha => heq a (.inr (.inr ha)) ?_⟩
    · rw [Cell.setChild_mk']
    · intro he
      exact hn.1 (.inl (he ▸ ha))
    · intro he
      exact hn.1 (.inr (he ▸ ha))

end LearningNotes
