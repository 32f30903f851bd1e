import LearningNotes.Lib.PHeap

/-!
# What the two search trees have in common

The plain search tree and the red-black tree of `Alogrithm.md` are linked in the same way, and
search, find the minimum and replace a subtree with the same code; the nodes differ in the colour.

A node has an address, and `NULL` is `none`. An operation gives `none` when it uses a pointer that
is `NULL` or has been deleted, or when a loop has made more rounds than there are nodes (`size`
counts them, and serves for nothing else).
-/

namespace LearningNotes.Trees

variable {α : Type}

structure State (α : Type) where
  cells : Cells α
  root : Option Nat
  size : Nat

/-- `*p` -/
def State.get (s : State α) (p : Option Nat) : Option (Cell α) := p.bind s.cells

/-- An assignment to a field of `*p`. -/
def State.put (s : State α) (p : Option Nat) (g : Cell α → Cell α) : Option (State α) :=
  p.bind fun a => (s.cells a).map fun x => { s with cells := Function.update s.cells a (some (g x)) }

def setChild (d : Side) (s : State α) (p q : Option Nat) : Option (State α) :=
  s.put p (·.setChild d q)

def setParent (s : State α) (p q : Option Nat) : Option (State α) :=
  s.put p fun x => { x with parent := q }

/-- `if(p!=NULL) p->parent=q` -/
def setParentIf (s : State α) (p q : Option Nat) : Option (State α) :=
  if p = none then some s else setParent s p q

/-- `new node()`, at an address where there is none. -/
def alloc (s : State α) (a : Nat) (v : α) : State α :=
  { s with cells := Function.update s.cells a (some ⟨v, none, none, none⟩), size := s.size + 1 }

/-- `delete z` -/
def free (s : State α) (z : Option Nat) : Option (State α) :=
  z.bind fun a => (s.cells a).map fun _ =>
    { s with cells := Function.update s.cells a none, size := s.size - 1 }

/-- The parent of `u`, or the root, gets `v` instead of `u`. -/
def relink (s : State α) (u v : Option Nat) : Option (State α) := do
  let x ← s.get u
  if x.parent = none then some { s with root := v }
  else do
    let y ← s.get x.parent
    if u = y.left then setChild .left s x.parent v else setChild .right s x.parent v

/-- `tree_transplant`, `rb_transplant` -/
def transplant (s : State α) (u v : Option Nat) : Option (State α) := do
  let s ← relink s u v
  let x ← s.get u
  setParentIf s v x.parent

/-- `tree_minimum`, in at most that many rounds. -/
def minimum (s : State α) : Nat → Option Nat → Option (Option Nat)
  | 0, _ => none
  | n + 1, t => do
    let x ← s.get t
    if x.left ≠ none then minimum s n x.left else some t

/-- The loop of `tree_insert`: from `x`, whose parent is `y`, to the parent of a new node. -/
def descend (key : α → Int) (s : State α) (k : Int) : Nat → Option Nat → Option Nat →
    Option (Option Nat)
  | 0, _, _ => none
  | n + 1, x, y =>
    if x = none then some y
    else do
      let x' ← s.get x
      if k < key x'.val then descend key s k n x'.left x else descend key s k n x'.right x

/-- The loop of `tree_search`. -/
def search (key : α → Int) (s : State α) (k : Int) : Nat → Option Nat → Option (Option Nat)
  | 0, _ => none
  | n + 1, t =>
    if t = none then some none
    else do
      let x ← s.get t
      if k ≠ key x.val then
        if k < key x.val then search key s k n x.left else search key s k n x.right
      else some t

/-- `tree_inorder`: what it prints, with the addresses, in recursion at most that deep. -/
def inorder (s : State α) : Nat → Option Nat → Option (List (Nat × α))
  | 0, _ => none
  | _ + 1, none => some []
  | n + 1, some a => do
    let x ← s.cells a
    let l ← inorder s n x.left
    let r ← inorder s n x.right
    some (l ++ (a, x.val) :: r)

/-- The tree that the pointer leads to, if it is no deeper than that. -/
def State.tree (s : State α) : Nat → Option Nat → Option (PTree α)
  | 0, _ => none
  | _ + 1, none => some .nil
  | n + 1, some a => do
    let x ← s.cells a
    let l ← s.tree n x.left
    let r ← s.tree n x.right
    some (.node l a x.val r)

/-- `z` becomes a child of `y`. -/
def attach (key : α → Int) (s : State α) (z y : Option Nat) : Option (State α) := do
  let x ← s.get z
  let y' ← s.get y
  if key x.val < key y'.val then setChild .left s y z else setChild .right s y z

/-- `tree_transplant(t,y,y->right); y->right=z->right; y->right->parent=y` -/
def detach (s : State α) (z y : Option Nat) : Option (State α) := do
  let y₁ ← s.get y
  let s ← transplant s y y₁.right
  let z₁ ← s.get z
  let s ← setChild .right s y z₁.right
  let y₂ ← s.get y
  setParent s y₂.right y

/-- `tree_transplant(t,z,y); y->left=z->left; y->left->parent=y` -/
def promote (s : State α) (z y : Option Nat) : Option (State α) := do
  let s ← transplant s z y
  let z₁ ← s.get z
  let s ← setChild .left s y z₁.left
  let y₁ ← s.get y
  setParent s y₁.left y

end LearningNotes.Trees
