import LearningNotes.Lib.Linked
import Mathlib.Logic.Function.Basic

/-!
# The linked queue

`InitQueue`, `EnQueue` and `DeQueue` of `DataStructure.md`. The list starts with a node that holds
no element; the queue is empty when both pointers point to it.

When `DeQueue` takes the last element, it is `front` that gets the value of `rear`, and not the
other way round, so both pointers point to the node that it frees then (`Emptied`). The queue is
empty from there on, and the next `EnQueue` writes to that node. After it has taken an element
`DeQueue` ends without `return true`.

`run_eq_fifo_iff`: the operations are those of a queue if and only if nothing is put into the queue
after it has been emptied, and what `DeQueue` happens to return each time it takes an element is
`true`.

Mirroring notes:
- A pointer names a node and not its address: memory that is used again is another node. `NULL` is
  0, and `malloc` succeeds.
- An operation gives `none` when it uses a node that is not there.
- `ret` is what the caller of `DeQueue` finds where it expects the value returned.
-/

namespace LearningNotes.Lists

abbrev QElemType := UInt8

structure QNode where
  data : QElemType
  next : Nat

structure LinkQueue where
  front : Nat
  rear : Nat

/-- The nodes, and the queue; nodes from `fresh` on have not been allocated yet. -/
structure State extends LinkQueue where
  nodes : Nat → Option QNode
  fresh : Nat

/-- `garbage` is what `malloc` finds in the node. -/
def initQueue (garbage : QElemType) : State where
  front := 1
  rear := 1
  nodes := Function.update (fun _ => none) 1 (some ⟨garbage, 0⟩)
  fresh := 2

def enQueue (e : QElemType) (s : State) : Option State :=
  let p := s.fresh
  let nodes := Function.update s.nodes p (some ⟨e, 0⟩)
  (nodes s.rear).map fun x =>
    { front := s.front
      rear := p
      nodes := Function.update nodes s.rear (some { x with next := p })
      fresh := p + 1 }

/-- What `DeQueue` returns, and what it has stored in `e`. -/
structure Answer where
  ret : Bool
  e : Option QElemType
  deriving DecidableEq

def deQueue (ret : Bool) (s : State) : Option (Answer × State) :=
  if s.front = s.rear then some (⟨false, none⟩, s)
  else do
    let head ← s.nodes s.front
    let p := head.next
    let x ← s.nodes p
    let nodes := Function.update s.nodes s.front (some { head with next := x.next })
    let front := if p = s.rear then s.rear else s.front
    let _ ← nodes p
    some (⟨ret, some x.data⟩, { s with front := front, nodes := Function.update nodes p none })

inductive Op where
  | enQueue (e : QElemType)
  | deQueue (ret : Bool)

/-- What `DeQueue` answers in a sequence of calls. -/
def run : List Op → State → Option (List Answer)
  | [], _ => some []
  | .enQueue e :: ops, s => do
    let s ← enQueue e s
    run ops s
  | .deQueue ret :: ops, s => do
    let (a, s) ← deQueue ret s
    let answers ← run ops s
    some (a :: answers)

/-- What it answers if the queue is one, and has `q` in it. -/
def fifo : List Op → List QElemType → List Answer
  | [], _ => []
  | .enQueue e :: ops, q => fifo ops (q ++ [e])
  | .deQueue _ :: ops, [] => ⟨false, none⟩ :: fifo ops []
  | .deQueue _ :: ops, x :: q => ⟨true, some x⟩ :: fifo ops q

/-- Nothing is put into the queue once it has been emptied, and `ret` is `true` whenever an element
is taken. -/
def Spared : List Op → List QElemType → Bool → Prop
  | [], _, _ => True
  | .enQueue e :: ops, q, emptied => emptied = false ∧ Spared ops (q ++ [e]) false
  | .deQueue _ :: ops, [], emptied => Spared ops [] emptied
  | .deQueue ret :: ops, [_], _ => ret = true ∧ Spared ops [] true
  | .deQueue ret :: ops, _ :: y :: q, _ => ret = true ∧ Spared ops (y :: q) false

variable {s : State} {c : List (Nat × QNode)} {q : List QElemType} {e x y : QElemType} {ret : Bool}

/-- The nodes from `front` on are `c`, and the last one is that at `rear`. -/
structure Rep (s : State) (c : List (Nat × QNode)) : Prop where
  seg : Seg 0 QNode.next s.front c 0
  held : InStore s.nodes c
  rear : c.getLast?.map Prod.fst = some s.rear
  fresh : ∀ n ∈ c, n.1 < s.fresh
  pos : 0 < s.fresh

/-- The elements in the queue; the first node holds none. -/
def elems (c : List (Nat × QNode)) : List QElemType := c.tail.map fun n => n.2.data

/-- Both pointers point to a node that has been freed. -/
structure Emptied (s : State) : Prop where
  same : s.front = s.rear
  freed : s.nodes s.rear = none
  fresh : s.rear < s.fresh

theorem initQueue_rep (garbage : QElemType) : Rep (initQueue garbage) [(1, ⟨garbage, 0⟩)] where
  seg := ⟨rfl, Nat.one_ne_zero, rfl⟩
  held := fun n hn => by rw [List.mem_singleton.mp hn]; rfl
  rear := rfl
  fresh := fun n hn => by rw [List.mem_singleton.mp hn]; exact Nat.lt_succ_self 1
  pos := Nat.two_pos

theorem Rep.nodup (h : Rep s c) : (c.map Prod.fst).Nodup := h.seg.nodup h.held

/-- The last node is at `rear`, and there is none behind it. -/
theorem Rep.last (h : Rep s c) :
    ∃ c₀ x, c = c₀ ++ [(s.rear, x)] ∧ Seg 0 QNode.next s.front c₀ s.rear ∧ x.next = 0 := by
  obtain ⟨⟨r, x⟩, hlast, hr⟩ := Option.map_eq_some_iff.mp h.rear
  obtain ⟨c₀, rfl⟩ := List.getLast?_eq_some_iff.mp hlast
  obtain rfl : r = s.rear := hr
  obtain ⟨k, hseg, hk, -, hnext⟩ := seg_append.mp h.seg
  exact ⟨c₀, x, rfl, hk ▸ hseg, hnext⟩

theorem enQueue_rep (h : Rep s c) : ∃ s' c', enQueue e s = some s' ∧ Rep s' c' ∧
    elems c' = elems c ++ [e] := by
  obtain ⟨c₀, x, rfl, hseg, hnext⟩ := h.last
  have hrear : s.rear < s.fresh := h.fresh (s.rear, x) (by simp)
  have hheld : s.nodes s.rear = some x := h.held (s.rear, x) (by simp)
  have hpos : s.rear ≠ 0 := Seg.ne_nil h.seg (s.rear, x) (by simp)
  have hnodup := h.nodup
  rw [List.map_append, List.nodup_append] at hnodup
  have hrun : enQueue e s = some
      { front := s.front
        rear := s.fresh
        nodes := Function.update (Function.update s.nodes s.fresh (some ⟨e, 0⟩)) s.rear
          (some { x with next := s.fresh })
        fresh := s.fresh + 1 } := by
    rw [enQueue, Function.update_of_ne (Nat.ne_of_lt hrear), hheld]
    rfl
  refine ⟨_, c₀ ++ [(s.rear, { x with next := s.fresh }), (s.fresh, ⟨e, 0⟩)], hrun, ?_, ?_⟩
  · refine ⟨seg_append.mpr ⟨s.rear, hseg, rfl, hpos, rfl, Nat.ne_of_gt h.pos, rfl⟩, ?_, ?_, ?_,
      Nat.succ_pos _⟩
    · intro n hn
      obtain hn | hn := List.mem_append.mp hn
      · -- the other nodes are neither the old last one nor the new one
        have hlt := h.fresh n (List.mem_append_left _ hn)
        have hne : n.1 ≠ s.rear :=
          hnodup.2.2 n.1 (List.mem_map_of_mem hn) s.rear (List.mem_singleton_self s.rear)
        dsimp only
        rw [Function.update_of_ne hne, Function.update_of_ne (Nat.ne_of_lt hlt)]
        exact h.held n (List.mem_append_left _ hn)
      · obtain rfl | hn := List.mem_cons.mp hn
        · exact Function.update_self ..
        · obtain rfl := List.mem_singleton.mp hn
          dsimp only
          rw [Function.update_of_ne (Nat.ne_of_gt hrear), Function.update_self]
    · simp
    · intro n hn
      obtain hn | hn := List.mem_append.mp hn
      · exact Nat.lt_succ_of_lt (h.fresh n (List.mem_append_left _ hn))
      · obtain rfl | hn := List.mem_cons.mp hn
        · exact Nat.lt_succ_of_lt hrear
        · obtain rfl := List.mem_singleton.mp hn
          exact Nat.lt_succ_self s.fresh
  · unfold elems
    cases c₀ with
    | nil => rfl
    | cons n c₀ => simp

/-- A new node would be linked to one that has been freed. -/
theorem enQueue_emptied (h : Emptied s) : enQueue e s = none := by
  rw [enQueue, Function.update_of_ne (Nat.ne_of_lt h.fresh), h.freed]
  rfl

theorem deQueue_same (h : s.front = s.rear) : deQueue ret s = some (⟨false, none⟩, s) := if_pos h

/-- A queue without elements. -/
theorem Rep.same (h : Rep s c) (hq : elems c = []) : s.front = s.rear := by
  obtain ⟨c₀, x, rfl, hseg, -⟩ := h.last
  cases c₀ with
  | nil => exact hseg
  | cons n c₀ => simp [elems] at hq

/-- The first two nodes of a queue with elements. -/
theorem Rep.cons (h : Rep s c) (hq : elems c = x :: q) :
    ∃ head y c', c = (s.front, head) :: (head.next, y) :: c' ∧ y.data = x ∧
      q = c'.map fun n => n.2.data := by
  cases c with
  | nil => cases hq
  | cons n c =>
    obtain ⟨a, head⟩ := n
    cases c with
    | nil => cases hq
    | cons n c =>
      obtain ⟨b, y⟩ := n
      obtain ⟨hfront, -, hb, -⟩ := h.seg
      obtain ⟨hx, hq⟩ := List.cons.inj hq
      exact ⟨head, y, c, by rw [hfront, hb], hx, hq.symm⟩

section Cons

variable {head z : QNode} (h : Rep s ((s.front, head) :: (head.next, z) :: c))

include h

/-- The last node is one behind the first. -/
theorem Rep.rear_mem : s.rear ∈ ((head.next, z) :: c).map Prod.fst := by
  have hrear := h.rear
  rw [List.getLast?_cons_cons] at hrear
  obtain ⟨n, hlast, hn⟩ := Option.map_eq_some_iff.mp hrear
  exact hn ▸ List.mem_map_of_mem (List.mem_of_getLast? hlast)

theorem Rep.front_notMem : s.front ∉ ((head.next, z) :: c).map Prod.fst :=
  (List.nodup_cons.mp h.nodup).1

theorem deQueue_cons : deQueue ret s = some (⟨ret, some z.data⟩,
    { s with
      front := if head.next = s.rear then s.rear else s.front
      nodes := Function.update (Function.update s.nodes s.front (some { head with next := z.next }))
        head.next none }) := by
  have hhead : s.nodes s.front = some head := h.held (s.front, head) (by simp)
  have hnext : s.nodes head.next = some z := h.held (head.next, z) (by simp)
  have hne : head.next ≠ s.front := fun heq => h.front_notMem (by simp [heq])
  have hrear : s.front ≠ s.rear := fun heq => h.front_notMem (heq ▸ h.rear_mem)
  rw [deQueue, if_neg hrear, hhead, Option.bind_eq_bind, Option.bind_some]
  dsimp only
  rw [hnext, Option.bind_some, Function.update_of_ne hne, hnext]
  rfl

end Cons

/-- The last element is taken: both pointers point to its node, which is freed. -/
theorem deQueue_last (h : Rep s c) (hq : elems c = [x]) :
    ∃ s', deQueue ret s = some (⟨ret, some x⟩, s') ∧ Emptied s' := by
  obtain ⟨head, z, c, rfl, rfl, hc⟩ := h.cons hq
  obtain rfl : c = [] := List.map_eq_nil_iff.mp hc.symm
  have hrear : head.next = s.rear := Option.some_inj.mp h.rear
  refine ⟨_, deQueue_cons h, if_pos hrear, ?_, h.fresh (s.rear, z) (by simp [hrear])⟩
  dsimp only
  rw [hrear, Function.update_self]

/-- An element is taken that is not the last. -/
theorem deQueue_more (h : Rep s c) (hq : elems c = x :: y :: q) :
    ∃ s' c', deQueue ret s = some (⟨ret, some x⟩, s') ∧ Rep s' c' ∧ elems c' = y :: q := by
  obtain ⟨head, z, c, rfl, rfl, hc⟩ := h.cons hq
  have hnodup := h.nodup
  rw [List.map_cons, List.map_cons, List.nodup_cons, List.nodup_cons] at hnodup
  obtain ⟨hfront, hnext, -⟩ := hnodup
  have hlast : c.getLast?.map Prod.fst = some s.rear := by
    cases c with
    | nil => cases hc
    | cons n c => exact h.rear
  -- the node that is taken is not the last one
  have hrear : head.next ≠ s.rear := by
    intro heq
    obtain ⟨n, hn, hns⟩ := Option.map_eq_some_iff.mp hlast
    exact hnext (List.mem_map.mpr ⟨n, List.mem_of_getLast? hn, hns.trans heq.symm⟩)
  refine ⟨_, (s.front, { head with next := z.next }) :: c, deQueue_cons h, ?_, hc.symm⟩
  rw [if_neg hrear]
  obtain ⟨-, hpos, -, -, hseg⟩ := h.seg
  refine ⟨⟨rfl, hpos, hseg⟩, ?_, ?_, ?_, h.pos⟩
  · intro n hn
    have hne : n.1 ≠ head.next := by
      obtain rfl | hn := List.mem_cons.mp hn
      · intro heq
        exact hfront (heq ▸ List.mem_cons_self)
      · intro heq
        exact hnext (List.mem_map.mpr ⟨n, hn, heq⟩)
    dsimp only
    rw [Function.update_of_ne hne]
    obtain rfl | hn := List.mem_cons.mp hn
    · exact Function.update_self ..
    · have hne' : n.1 ≠ s.front :=
        fun heq => hfront (List.mem_cons_of_mem _ (List.mem_map.mpr ⟨n, hn, heq⟩))
      rw [Function.update_of_ne hne']
      exact h.held n (List.mem_cons_of_mem _ (List.mem_cons_of_mem _ hn))
  · cases c with
    | nil => cases hc
    | cons n c => exact hlast
  · intro n hn
    obtain rfl | hn := List.mem_cons.mp hn
    · exact h.fresh (s.front, head) List.mem_cons_self
    · exact h.fresh n (List.mem_cons_of_mem _ (List.mem_cons_of_mem _ hn))

/-! ## Runs -/

/-- The queue holds `q`, or it has been emptied. -/
def Sim (s : State) (q : List QElemType) (emptied : Bool) : Prop :=
  match emptied with
  | false => ∃ c, Rep s c ∧ elems c = q
  | true => Emptied s ∧ q = []

theorem Sim.same {emptied : Bool} (h : Sim s [] emptied) : s.front = s.rear := by
  cases emptied with
  | false =>
    obtain ⟨c, hrep, hq⟩ := h
    exact hrep.same hq
  | true => exact h.1.same

/-- An element is taken. -/
theorem deQueue_sim {emptied : Bool} (ret : Bool) (h : Sim s (x :: q) emptied) :
    ∃ s', deQueue ret s = some (⟨ret, some x⟩, s') ∧ Sim s' q (q = []) := by
  cases emptied with
  | true => cases h.2
  | false =>
    obtain ⟨c, hrep, hq⟩ := h
    cases q with
    | nil =>
      obtain ⟨s', hrun, hemptied⟩ := deQueue_last hrep hq
      exact ⟨s', hrun, hemptied, rfl⟩
    | cons y q =>
      obtain ⟨s', c', hrun, hrep', hq'⟩ := deQueue_more hrep hq
      exact ⟨s', hrun, c', hrep', hq'⟩

theorem answers_iff {a b : Answer} {answers : Option (List Answer)} {rest : List Answer} :
    (do let as ← answers; some (a :: as)) = some (b :: rest) ↔ a = b ∧ answers = some rest := by
  cases answers with
  | none => simp
  | some as => simp

/-- **A run from any state**, by induction on the calls. -/
theorem run_iff (ops : List Op) : ∀ {s q emptied}, Sim s q emptied →
    (run ops s = some (fifo ops q) ↔ Spared ops q emptied) := by
  induction ops with
  | nil => exact fun _ => ⟨fun _ => trivial, fun _ => rfl⟩
  | cons op ops ih =>
    intro s q emptied h
    cases op with
    | enQueue e =>
      cases emptied with
      | true =>
        rw [run, enQueue_emptied h.1]
        exact ⟨nofun, nofun⟩
      | false =>
        obtain ⟨c, hrep, rfl⟩ := h
        obtain ⟨s', c', hrun, hrep', hq'⟩ := enQueue_rep (e := e) hrep
        rw [run, hrun, Option.bind_eq_bind, Option.bind_some, fifo, Spared, ← hq',
          ih (show Sim s' (elems c') false from ⟨c', hrep', rfl⟩)]
        exact ⟨fun h => ⟨rfl, h⟩, fun h => h.2⟩
    | deQueue ret =>
      cases q with
      | nil =>
        rw [run, deQueue_same h.same, Option.bind_eq_bind, Option.bind_some, fifo, Spared, ← ih h]
        exact answers_iff.trans (and_iff_right rfl)
      | cons x q =>
        obtain ⟨s', hrun, hsim⟩ := deQueue_sim ret h
        have hret : (⟨ret, some x⟩ : Answer) = ⟨true, some x⟩ ↔ ret = true := by simp
        rw [run, hrun, Option.bind_eq_bind, Option.bind_some, fifo]
        refine answers_iff.trans ?_
        rw [hret, ih hsim]
        cases q with
        | nil => rfl
        | cons y q => rfl

/-- **The operations are those of a queue** if and only if nothing is put into it after it has been
emptied, and `DeQueue` happens to return `true` when it takes an element. -/
theorem run_eq_fifo_iff (garbage : QElemType) (ops : List Op) :
    run ops (initQueue garbage) = some (fifo ops []) ↔ Spared ops [] false :=
  run_iff ops (show Sim (initQueue garbage) [] false from ⟨_, initQueue_rep garbage, rfl⟩)

/-- An element is put in, taken out, and another one put in. -/
theorem emptied_and_used : ¬ ∀ garbage ops, run ops (initQueue garbage) = some (fifo ops []) := by
  intro h
  have hrun := h 0 [.enQueue 1, .deQueue true, .enQueue 2]
  have hnone : run [.enQueue 1, .deQueue true, .enQueue 2] (initQueue 0) = none := by decide
  rw [hnone] at hrun
  cases hrun

end LearningNotes.Lists
