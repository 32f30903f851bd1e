import Mathlib.Logic.Function.Basic

/-!
# The lists with a head node

The singly linked list of `DataStructure.md` (lines 150-279) and the circular one (lines 466-608).
Behind a node without an element the first ends at `NULL`, the second at this node again (`stop`). At
positions from 1 on both answer as a list does, and `DestroyList` frees every node. At the others they
differ: the first inserts and deletes in front and reads the head node, the second refuses and reads
the first element (`answer`).

Mirroring notes:
- A pointer names a node and not its address: memory that is used again is another node. `NULL` is 0,
  and `malloc` succeeds.
- An operation gives `none` when it uses a node that is not there. Loops have more rounds than there
  have been nodes.
- What `GetElem` and `ListDelete` store in `e` is part of their answer; the newline behind the elements is
  not part of what `DispList` answers.
- Positions and counts are `Int`: `i-1` and the number of elements fit an `int`.
-/

namespace LearningNotes.HeadList

abbrev ElemType := UInt8

/-- A node of either list. -/
structure LNode where
  data : ElemType
  next : Nat

/-- Nodes from `fresh` on have not been allocated yet. -/
structure State where
  L : Nat
  nodes : Nat → Option LNode
  fresh : Nat

/-- A call. -/
inductive Op where
  | listEmpty
  | listLength
  | dispList
  | getElem (i : Int)
  | locateElem (e : ElemType)
  | listInsert (i : Int) (e : ElemType)
  | listDelete (i : Int)

/-- What a call returns or prints. -/
inductive Answer where
  | bool (b : Bool)
  | int (i : Int)
  | elem (e : Option ElemType)
  | text (s : List ElemType)
  deriving DecidableEq

variable (nodes : Nat → Option LNode) (stop : Nat)

/-! ## Loops of both -/

/-- `while(j<i&&p!=stop)` -/
def seek : Nat → Int → Int → Nat → Option Nat
  | 0, _, _, _ => none
  | n + 1, i, j, p =>
    if j < i ∧ p ≠ stop then do
      let x ← nodes p
      seek n i (j + 1) x.next
    else some p

/-- `while(p!=stop&&p->data!=e)`, and what is returned behind it -/
def locateFrom (e : ElemType) : Nat → Int → Nat → Option Int
  | 0, _, _ => none
  | n + 1, i, p =>
    if p = stop then some 0
    else do
      let x ← nodes p
      if x.data = e then some i else locateFrom e n (i + 1) x.next

/-- `while(p!=stop)` -/
def dispFrom : Nat → Nat → Option (List ElemType)
  | 0, _ => none
  | n + 1, p =>
    if p = stop then some []
    else do
      let x ← nodes p
      let s ← dispFrom n x.next
      some (x.data :: s)

/-- Memory that has been freed cannot be read. -/
def free (p : Nat) : Option (Nat → Option LNode) :=
  (nodes p).map fun _ => Function.update nodes p none

/-- `while(q!=stop)`, and the `free` behind it -/
def destroyFrom (stop : Nat) : Nat → Nat → Nat → (Nat → Option LNode) → Option (Nat → Option LNode)
  | 0, _, _, _ => none
  | n + 1, p, q, nodes =>
    if q = stop then free nodes p
    else do
      let nodes ← free nodes p
      let x ← nodes q
      destroyFrom stop n q x.next nodes

/-- No loop goes round more often than there are nodes. -/
def State.rounds (s : State) : Nat := s.fresh + 1

/-- `p->next=next` -/
def State.setNext (s : State) (p next : Nat) : Option State :=
  (s.nodes p).map fun x => { s with nodes := Function.update s.nodes p (some { x with next }) }

/-- A new node. -/
def State.malloc (s : State) (x : LNode) : State :=
  { s with nodes := Function.update s.nodes s.fresh (some x), fresh := s.fresh + 1 }

/-- The calls of one of the lists. -/
def run (call : Op → State → Option (Answer × State)) : List Op → State → Option (List Answer × State)
  | [], s => some ([], s)
  | op :: ops, s => do
    let r ← call op s
    let rs ← run call ops r.2
    some (r.1 :: rs.1, rs.2)

/-! ## The singly linked list -/

namespace Single

/-- `garbage` is what `malloc` finds in the node. -/
def initList (garbage : ElemType) : State :=
  ⟨1, Function.update (fun _ => none) 1 (some ⟨garbage, 0⟩), 2⟩

/-- `DestroyList` (`DestoryList` in the circular list) -/
def destroyList (s : State) : Option (Nat → Option LNode) := do
  let x ← s.nodes s.L
  destroyFrom 0 s.rounds s.L x.next s.nodes

/-- `ListEmpty` -/
def listEmpty (s : State) : Option Bool := do
  let x ← s.nodes s.L
  some (x.next = 0)

/-- `while(p->next!=NULL)` -/
def lengthFrom (nodes : Nat → Option LNode) : Nat → Int → Nat → Option Int
  | 0, _, _ => none
  | n + 1, i, p => do
    let x ← nodes p
    if x.next ≠ 0 then lengthFrom nodes n (i + 1) x.next else some i

/-- `ListLength` -/
def listLength (s : State) : Option Int := lengthFrom s.nodes s.rounds 0 s.L

/-- `DispList` -/
def dispList (s : State) : Option (List ElemType) := do
  let x ← s.nodes s.L
  dispFrom s.nodes 0 s.rounds x.next

/-- `GetElem`: the data of the head node, or nothing. -/
def getElem (i : Int) (s : State) : Option (Option ElemType) := do
  let p ← seek s.nodes 0 s.rounds i 0 s.L
  if p = 0 then some none
  else do
    let x ← s.nodes p
    some (some x.data)

/-- `LocateElem` -/
def locateElem (e : ElemType) (s : State) : Option Int := do
  let x ← s.nodes s.L
  locateFrom s.nodes 0 e s.rounds 1 x.next

/-- `ListInsert` -/
def listInsert (i : Int) (e : ElemType) (s : State) : Option (Bool × State) := do
  let p ← seek s.nodes 0 s.rounds (i - 1) 0 s.L
  if p = 0 then some (false, s)
  else do
    let x ← s.nodes p
    let s' ← (s.malloc ⟨e, x.next⟩).setNext p s.fresh
    some (true, s')

/-- `ListDelete` -/
def listDelete (i : Int) (s : State) : Option (Option ElemType × State) := do
  let p ← seek s.nodes 0 s.rounds (i - 1) 0 s.L
  if p = 0 then some (none, s)
  else do
    let x ← s.nodes p
    if x.next = 0 then some (none, s)
    else do
      let q ← s.nodes x.next
      let s' ← s.setNext p q.next
      let nodes ← free s'.nodes x.next
      some (some q.data, { s' with nodes })

/-- The calls on a list that has been initialised. -/
def call : Op → State → Option (Answer × State)
  | .listEmpty, s => (listEmpty s).map fun b => (.bool b, s)
  | .listLength, s => (listLength s).map fun i => (.int i, s)
  | .dispList, s => (dispList s).map fun t => (.text t, s)
  | .getElem i, s => (getElem i s).map fun e => (.elem e, s)
  | .locateElem e, s => (locateElem e s).map fun i => (.int i, s)
  | .listInsert i e, s => (listInsert i e s).map fun r => (.bool r.1, r.2)
  | .listDelete i, s => (listDelete i s).map fun r => (.elem r.1, r.2)

end Single

/-! ## The circular list -/

namespace Circular

/-- `InitList` -/
def initList (garbage : ElemType) : State :=
  ⟨1, Function.update (fun _ => none) 1 (some ⟨garbage, 1⟩), 2⟩

/-- `DestroyList` (`DestoryList` in the circular list) -/
def destroyList (s : State) : Option (Nat → Option LNode) := do
  let x ← s.nodes s.L
  destroyFrom s.L s.rounds s.L x.next s.nodes

/-- `ListEmpty` -/
def listEmpty (s : State) : Option Bool := do
  let x ← s.nodes s.L
  some (x.next = s.L)

/-- `while(p!=L)` -/
def lengthFrom (nodes : Nat → Option LNode) (L : Nat) : Nat → Int → Nat → Option Int
  | 0, _, _ => none
  | n + 1, i, p =>
    if p ≠ L then do
      let x ← nodes p
      lengthFrom nodes L n (i + 1) x.next
    else some i

/-- `ListLength` -/
def listLength (s : State) : Option Int := do
  let x ← s.nodes s.L
  lengthFrom s.nodes s.L s.rounds 0 x.next

/-- `DispList` -/
def dispList (s : State) : Option (List ElemType) := do
  let x ← s.nodes s.L
  dispFrom s.nodes s.L s.rounds x.next

/-- `GetElem`: the data of the head node, or nothing. -/
def getElem (i : Int) (s : State) : Option (Option ElemType) := do
  let x ← s.nodes s.L
  let p ← seek s.nodes s.L s.rounds (i - 1) 0 x.next
  if p = s.L then some none
  else do
    let x ← s.nodes p
    some (some x.data)

/-- `LocateElem` -/
def locateElem (e : ElemType) (s : State) : Option Int := do
  let x ← s.nodes s.L
  locateFrom s.nodes s.L e s.rounds 1 x.next

/-- `while(p->next!=L&&j<i)`; `p` and `j` behind it -/
def seekBefore (nodes : Nat → Option LNode) (L : Nat) : Nat → Int → Int → Nat → Option (Nat × Int)
  | 0, _, _, _ => none
  | n + 1, i, j, p => do
    let x ← nodes p
    if x.next ≠ L ∧ j < i then seekBefore nodes L n i (j + 1) x.next else some (p, j)

/-- `ListInsert` -/
def listInsert (i : Int) (e : ElemType) (s : State) : Option (Bool × State) := do
  let r ← seekBefore s.nodes s.L s.rounds (i - 1) 0 s.L
  if r.2 ≠ i - 1 then some (false, s)
  else do
    let x ← s.nodes r.1
    if x.next = s.L then do
      let s' ← (s.malloc ⟨e, s.L⟩).setNext r.1 s.fresh
      some (true, s')
    else do
      let s' ← (s.malloc ⟨e, x.next⟩).setNext r.1 s.fresh
      some (true, s')

/-- `ListDelete` -/
def listDelete (i : Int) (s : State) : Option (Option ElemType × State) := do
  let r ← seekBefore s.nodes s.L s.rounds (i - 1) 0 s.L
  if r.2 ≠ i - 1 then some (none, s)
  else do
    let x ← s.nodes r.1
    if x.next = s.L then some (none, s)
    else do
      let q ← s.nodes x.next
      let s' ← s.setNext r.1 (if q.next = s.L then s.L else q.next)
      let nodes ← free s'.nodes x.next
      some (some q.data, { s' with nodes })

/-- The calls on a list that has been initialised. -/
def call : Op → State → Option (Answer × State)
  | .listEmpty, s => (listEmpty s).map fun b => (.bool b, s)
  | .listLength, s => (listLength s).map fun i => (.int i, s)
  | .dispList, s => (dispList s).map fun t => (.text t, s)
  | .getElem i, s => (getElem i s).map fun e => (.elem e, s)
  | .locateElem e, s => (locateElem e s).map fun i => (.int i, s)
  | .listInsert i e, s => (listInsert i e s).map fun r => (.bool r.1, r.2)
  | .listDelete i, s => (listDelete i s).map fun r => (.elem r.1, r.2)

end Circular

/-! ## What they should answer -/

/-- What a list answers that has `xs` in it, and what it has in it then. Both agree on positions from 1
on; `garbage` is what the head node has for an element. -/
def answer (circular : Bool) (garbage : ElemType) : Op → List ElemType → Answer × List ElemType
  | .listEmpty, xs => (.bool xs.isEmpty, xs)
  | .listLength, xs => (.int xs.length, xs)
  | .dispList, xs => (.text xs, xs)
  | .getElem i, xs =>
    (.elem (if i < 1 ∧ circular = false then some garbage else xs[(i - 1).toNat]?), xs)
  | .locateElem e, xs => (.int (if e ∈ xs then xs.idxOf e + 1 else 0), xs)
  | .listInsert i e, xs =>
    if (i < 1 → circular = false) ∧ (i - 1).toNat ≤ xs.length then
      (.bool true, xs.insertIdx (i - 1).toNat e)
    else (.bool false, xs)
  | .listDelete i, xs =>
    if (i < 1 → circular = false) then (.elem xs[(i - 1).toNat]?, xs.eraseIdx (i - 1).toNat)
    else (.elem none, xs)

/-- The answers of the calls one after the other. -/
def answers (circular : Bool) (garbage : ElemType) : List Op → List ElemType → List Answer
  | [], _ => []
  | op :: ops, xs =>
    (answer circular garbage op xs).1 :: answers circular garbage ops (answer circular garbage op xs).2

/-- The position, if there is one, is at least 1. -/
def Op.Positive : Op → Prop
  | .getElem i | .listInsert i _ | .listDelete i => 1 ≤ i
  | _ => True

/-- At positions from 1 on the two lists answer alike. -/
theorem answer_agree {garbage : ElemType} {op : Op} (h : op.Positive) (xs : List ElemType) :
    answer false garbage op xs = answer true garbage op xs := by
  cases op with
  | getElem i | listInsert i _ | listDelete i =>
    have hi : ¬ i < 1 := Int.not_lt.2 h
    simp [answer, hi]
  | _ => rfl

/-- So do all the calls together. -/
theorem answers_agree {garbage : ElemType} {ops : List Op} (h : ∀ op ∈ ops, op.Positive)
    (xs : List ElemType) : answers false garbage ops xs = answers true garbage ops xs := by
  induction ops generalizing xs with
  | nil => rfl
  | cons op ops ih =>
    rw [answers, answers, answer_agree (h op List.mem_cons_self),
      ih fun op' hop => h op' (List.mem_cons_of_mem _ hop)]

end LearningNotes.HeadList
