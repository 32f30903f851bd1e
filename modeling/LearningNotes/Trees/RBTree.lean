import LearningNotes.Trees.Nodes

/-!
# The red-black tree

The class `RBTree`, without its test code and its destructor. `root` is the member of that name.

Mirroring notes:
- Keys and data are `int`s, which are only compared and copied.
- Both branches of `rb_insert_fixup` are one definition, with the side of the grandparent that the
  parent is on; those of `rb_delete_fixup` are not mirror images of each other.
- A loop that makes more rounds than `n` is `none`.
-/

namespace LearningNotes.Trees.RBTree

inductive Color where
  | RED
  | BLACK
  deriving DecidableEq, Repr

/-- `struct node`, without its pointers. -/
structure Entry where
  key : Int
  data : Int
  color : Color
  deriving DecidableEq, Repr

abbrev Tree := State Entry

variable (s : Tree)

/-- `p->color` -/
def color (p : Option Nat) : Option Color := (s.get p).map (·.val.color)

def Entry.paint (c : Color) (v : Entry) : Entry := { v with color := c }

/-- `p->color=c` -/
def setColor (p : Option Nat) (c : Color) : Option Tree :=
  s.put p fun x => { x with val := x.val.paint c }

/-- `if(p!=NULL) p->color=c` -/
def setColorIf (p : Option Nat) (c : Color) : Option Tree :=
  if p = none then some s else setColor s p c

def left_rotate (x : Option Nat) : Option Tree := do
  let x₁ ← s.get x
  let y := x₁.right
  let y₁ ← s.get y
  let s ← setChild .right s x y₁.left
  let y₂ ← s.get y
  let s ← setParentIf s y₂.left x
  let x₂ ← s.get x
  let s ← setParent s y x₂.parent
  let s ← relink s x y
  let s ← setChild .left s y x
  setParent s x y

def right_rotate (y : Option Nat) : Option Tree := do
  let y₁ ← s.get y
  let x := y₁.left
  let s ← setChild .left s y y₁.right
  let x₂ ← s.get x
  let s ← setParentIf s x₂.right y
  let y₂ ← s.get y
  let s ← setParent s x y₂.parent
  let s ← relink s y x
  let s ← setChild .right s x y
  setParent s y x

/-- The rotation that takes a node down on that side. -/
def turn : Side → Tree → Option Nat → Option Tree
  | .left, s => left_rotate s
  | .right, s => right_rotate s

/-! ## Insertion -/

/-- `root!=z&&z->parent->color==RED` -/
def unfixed (z : Option Nat) : Option Bool :=
  if s.root = z then some false
  else do
    let z₁ ← s.get z
    let c ← color s z₁.parent
    some (c = .RED)

/-- `y!=NULL&&y->color==RED` -/
def isRed (y : Option Nat) : Option Bool :=
  if y = none then some false
  else do
    let c ← color s y
    some (c = .RED)

/-- The uncle is red. -/
def recolour (p y g : Option Nat) : Option Tree := do
  let s ← setColor s p .BLACK
  let s ← setColor s y .BLACK
  setColor s g .RED

/-- The uncle is not red, and `z` is the outer child. -/
def raise (d : Side) (p g : Option Nat) : Option Tree := do
  let s ← setColor s p .BLACK
  let s ← setColor s g .RED
  turn d.other s g

/-- One round, with the parent of `z` on side `d` of the grandparent; gives the new `z`. -/
def fixupSide (d : Side) (z : Option Nat) : Option (Tree × Option Nat) := do
  let z₁ ← s.get z
  let p := z₁.parent
  let p₁ ← s.get p
  let g := p₁.parent
  let g₁ ← s.get g
  let y := g₁.child d.other
  let red ← isRed s y
  if red then (recolour s p y g).map (·, g)
  else if z = p₁.child d.other then (turn d s p).map (·, p)
  else (raise s d p g).map (·, z)

/-- One round of the loop. -/
def fixupRound (z : Option Nat) : Option (Tree × Option Nat) := do
  let z₁ ← s.get z
  let p₁ ← s.get z₁.parent
  let g₁ ← s.get p₁.parent
  if z₁.parent = g₁.left then fixupSide s .left z else fixupSide s .right z

def rb_insert_fixup : Nat → Tree → Option Nat → Option Tree
  | 0, _, _ => none
  | n + 1, s, z => do
    let more ← unfixed s z
    if more then (fixupRound s z).bind fun x => rb_insert_fixup n x.1 x.2
    else setColor s s.root .BLACK

/-- `z` becomes the root, or a child of `y`. -/
def place (z y : Option Nat) : Option Tree :=
  if y = none then some { s with root := z } else attach Entry.key s z y

/-- `tree_insert`, of a node that is in memory; in at most `n` rounds. -/
def tree_insert (n : Nat) (z : Option Nat) : Option Tree := do
  let z₁ ← s.get z
  let y ← descend Entry.key s z₁.val.key n s.root none
  let s ← setParent s z y
  let s ← place s z y
  let s ← setChild .right s z none
  let s ← setChild .left s z none
  let s ← setColor s z .RED
  rb_insert_fixup n s z

def make_node (a : Nat) (k d : Int) : Tree := alloc s a ⟨k, d, .RED⟩

/-- The constructor, on a node that `make_node` has made. -/
def init (a : Nat) (k d : Int) : Tree :=
  { alloc ⟨fun _ => none, none, 0⟩ a ⟨k, d, .BLACK⟩ with root := some a }

/-! ## Deletion -/

/-- `x!=root&&(x==NULL||x->color==BLACK)` -/
def undeleted (x : Option Nat) : Option Bool :=
  if x = s.root then some false
  else if x = none then some true
  else do
    let c ← color s x
    some (c = .BLACK)

/-- `p==NULL||p->color==BLACK` -/
def isBlack (p : Option Nat) : Option Bool :=
  if p = none then some true
  else do
    let c ← color s p
    some (c = .BLACK)

/-- Both children of `w` are black. -/
def bothBlack (w : Cell Entry) : Option Bool := do
  let l ← isBlack s w.left
  if l then isBlack s w.right else some false

/-- The sibling `w` of `x` is red: the parent is turned to side `d`, and the new sibling taken. -/
def redSibling (d : Side) (x w : Option Nat) : Option (Tree × Option Nat) := do
  let c ← color s w
  let x₁ ← s.get x
  if c = .RED then do
    let s ← setColor s w .BLACK
    let s ← setColor s x₁.parent .RED
    let s ← turn d s x₁.parent
    let x₂ ← s.get x
    let p ← s.get x₂.parent
    some (s, p.child d.other)
  else some (s, w)

/-- The child of `w` on side `d.other` is black: `w` is turned away from it. The new sibling is the
right child of the parent, on either side. -/
def nearRed (d : Side) (x w : Option Nat) : Option (Tree × Option Nat) := do
  let w₁ ← s.get w
  let black ← isBlack s (w₁.child d.other)
  if black then do
    let s ← setColorIf s (w₁.child d) .BLACK
    let s ← setColor s w .RED
    let s ← turn d.other s w
    let x₂ ← s.get x
    let p ← s.get x₂.parent
    some (s, p.right)
  else some (s, w)

/-- The last case: the parent is turned to the left, on either side. -/
def farRed (d : Side) (x w : Option Nat) : Option Tree := do
  let x₁ ← s.get x
  let c ← color s x₁.parent
  let s ← setColor s w c
  let s ← setColor s x₁.parent .BLACK
  let w₁ ← s.get w
  let s ← setColorIf s (w₁.child d.other) .BLACK
  left_rotate s x₁.parent

/-- One round, with `x` on side `d` of its parent; gives the new `x`. -/
def deleteSide (d : Side) (x : Option Nat) : Option (Tree × Option Nat) := do
  let x₁ ← s.get x
  let p ← s.get x₁.parent
  let (s, w) ← redSibling s d x (p.child d.other)
  let w₁ ← s.get w
  let both ← bothBlack s w₁
  if both then do
    let s ← setColor s w .RED
    let x₂ ← s.get x
    some (s, x₂.parent)
  else do
    let (s, w) ← nearRed s d x w
    let s ← farRed s d x w
    some (s, s.root)

/-- One round of the loop. -/
def deleteRound (x : Option Nat) : Option (Tree × Option Nat) := do
  let x₁ ← s.get x
  let p ← s.get x₁.parent
  if x = p.left then deleteSide s .left x else deleteSide s .right x

def rb_delete_fixup : Nat → Tree → Option Nat → Option Tree
  | 0, _, _ => none
  | n + 1, s, x => do
    let more ← undeleted s x
    if more then (deleteRound s x).bind fun r => rb_delete_fixup n r.1 r.2
    else setColor s x .BLACK

/-- `if(y->parent==z) x->parent=y; else ...` -/
def makeRoom (z y x : Option Nat) : Option Tree := do
  let y₁ ← s.get y
  if y₁.parent = z then setParent s x y else detach s z y

/-- The two children of `z`: the successor `y` takes its place and its colour. -/
def replace (z y x : Option Nat) : Option Tree := do
  let s ← makeRoom s z y x
  let s ← promote s z y
  let c ← color s z
  setColor s y c

/-- What `rb_delete` does before the fix-up: the tree, `y_original_color` and `x`. -/
def unlink (n : Nat) (z : Option Nat) : Option (Tree × Color × Option Nat) := do
  let z₁ ← s.get z
  if z₁.left = none then
    (transplant s z z₁.left).map (·, z₁.val.color, z₁.left)
  else if z₁.right = none then
    (transplant s z z₁.left).map (·, z₁.val.color, z₁.left)
  else do
    let y ← minimum s n z₁.right
    let y₁ ← s.get y
    (replace s z y y₁.right).map (·, y₁.val.color, y₁.right)

/-- `if(y_original_color==BLACK) rb_delete_fixup(x)` -/
def fixIfBlack (n : Nat) (c : Color) (x : Option Nat) : Option Tree :=
  if c = .BLACK then rb_delete_fixup n s x else some s

/-- `rb_delete`, in loops of at most `n` rounds. -/
def rb_delete (n : Nat) (z : Option Nat) : Option Tree := do
  let r ← unlink s n z
  let s ← fixIfBlack r.1 n r.2.1 r.2.2
  free s z

end LearningNotes.Trees.RBTree
