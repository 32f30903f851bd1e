import Mathlib.Data.List.Basic
import Mathlib.Logic.Function.Basic

/-!
# Doubly linked lists in a heap

Nodes with a `next` and a `prev` pointer, in a heap in which a freed address has no node.
`Chain h es` says that the heap links the entries `es`, each an address with the value that is
stored there, in both directions: whatever stands in front of an entry, its last address is the
`prev` of the entry, and whatever stands behind it, its first address is the `next`.

`Dlist` adds a head and a tail. The three operations are written as C programs write them, with
the cases of the empty list and of the ends. Dereferencing a freed address fails. The
theorems say that an operation does not fail on a linked list, what the entries are then, and
that no node elsewhere is touched.
-/

namespace LearningNotes

variable {α : Type}

/-- A node; `none` is the null pointer. -/
structure Node (α : Type) where
  next : Option Nat
  prev : Option Nat
  val : α

/-- The heap; `none` is an address that is not allocated. -/
abbrev Heap (α : Type) := Nat → Option (Node α)

namespace Heap

/-- `malloc` of a node, or a change of it. -/
def set (h : Heap α) (a : Nat) (n : Node α) : Heap α := Function.update h a (some n)

/-- `free`. -/
def free (h : Heap α) (a : Nat) : Heap α := Function.update h a none

/-- `a->next = p`. -/
def setNext (h : Heap α) (a : Nat) (p : Option Nat) : Option (Heap α) :=
  (h a).map fun n => h.set a { n with next := p }

/-- `a->prev = p`. -/
def setPrev (h : Heap α) (a : Nat) (p : Option Nat) : Option (Heap α) :=
  (h a).map fun n => h.set a { n with prev := p }

variable {h h' : Heap α} {a b : Nat} {n : Node α} {p : Option Nat}

/-- The node that is set. -/
@[simp] theorem set_self (h : Heap α) (a : Nat) (n : Node α) : h.set a n a = some n :=
  Function.update_self ..

/-- The other nodes. -/
theorem set_of_ne (n : Node α) (hb : b ≠ a) : h.set a n b = h b := Function.update_of_ne hb ..

/-- The node that is freed. -/
@[simp] theorem free_self (h : Heap α) (a : Nat) : h.free a a = none := Function.update_self ..

/-- The other nodes. -/
theorem free_of_ne (hb : b ≠ a) : h.free a b = h b := Function.update_of_ne hb ..

/-- A store through the pointer to a node. -/
theorem setNext_eq (hn : h a = some n) (p : Option Nat) :
    h.setNext a p = some (h.set a { n with next := p }) := by
  unfold setNext
  rw [hn, Option.map_some]

/-- A store through the pointer to a node. -/
theorem setPrev_eq (hn : h a = some n) (p : Option Nat) :
    h.setPrev a p = some (h.set a { n with prev := p }) := by
  unfold setPrev
  rw [hn, Option.map_some]

end Heap

/-! ## Linked entries -/

/-- The address of the first entry. -/
def first (es : List (Nat × α)) : Option Nat := es.head?.map Prod.fst

/-- The address of the last entry. -/
def last (es : List (Nat × α)) : Option Nat := es.getLast?.map Prod.fst

section Ends

variable {a : Nat} {v : α} {es l r : List (Nat × α)}

/-- An empty list has no first element. -/
@[simp] theorem first_nil : first ([] : List (Nat × α)) = none := rfl

/-- An empty list has no last element. -/
@[simp] theorem last_nil : last ([] : List (Nat × α)) = none := rfl

/-- The first element. -/
@[simp] theorem first_cons : first ((a, v) :: es) = some a := rfl

/-- The last element. -/
@[simp] theorem last_concat : last (es ++ [(a, v)]) = some a := by
  simp [last]

/-- The first element of two lists. -/
theorem first_append (l r : List (Nat × α)) : first (l ++ r) = (first l).or (first r) := by
  cases l with
  | nil => rfl
  | cons e l => rfl

/-- The last element of two lists. -/
theorem last_append (l r : List (Nat × α)) : last (l ++ r) = (last r).or (last l) := by
  rcases List.eq_nil_or_concat r with rfl | ⟨r, e, rfl⟩
  · simp
  · obtain ⟨a, v⟩ := e
    simp [last]

/-- The last element of a longer list. -/
theorem last_cons (a : Nat) (v : α) (es : List (Nat × α)) :
    last ((a, v) :: es) = (last es).or (some a) := last_append [(a, v)] es

/-- The last address is one of the addresses. -/
theorem mem_of_last (h : last es = some a) : a ∈ es.map Prod.fst := by
  obtain ⟨e, he, rfl⟩ := Option.map_eq_some_iff.mp h
  exact List.mem_map_of_mem (List.mem_of_getLast? he)

/-- The first address is one of the addresses. -/
theorem mem_of_first (h : first es = some a) : a ∈ es.map Prod.fst := by
  obtain ⟨e, he, rfl⟩ := Option.map_eq_some_iff.mp h
  exact List.mem_map_of_mem (List.mem_of_head? he)

/-- Only an empty list has no first element. -/
theorem first_eq_none (h : first es = none) : es = [] := by
  cases es with
  | nil => rfl
  | cons e es => exact absurd h (by simp [first])

end Ends

/-- The entries are linked in both directions. -/
structure Chain (h : Heap α) (es : List (Nat × α)) : Prop where
  nodup : (es.map Prod.fst).Nodup
  node : ∀ l a v r, es = l ++ (a, v) :: r → h a = some ⟨first r, last l, v⟩

/-- Following `link` from the pointer `p` one comes along the addresses `as`, to the null
pointer. -/
def Follows (link : Node α → Option Nat) (h : Heap α) : Option Nat → List Nat → Prop
  | p, [] => p = none
  | p, a :: as => p = some a ∧ ∃ n, h a = some n ∧ Follows link h (link n) as

section Chain

variable {h h' : Heap α} {es l r : List (Nat × α)} {a b : Nat} {v : α} {n : Node α}

/-- Nothing to be linked. -/
theorem Chain.nil (h : Heap α) : Chain h [] := by
  refine ⟨List.nodup_nil, fun l a v r he => ?_⟩
  exact absurd he (by simp)

/-- The entries only look at their own nodes. -/
theorem Chain.congr (hc : Chain h es) (heq : ∀ a ∈ es.map Prod.fst, h' a = h a) : Chain h' es := by
  refine ⟨hc.nodup, fun l a v r he => ?_⟩
  rw [heq a (by simp [he])]
  exact hc.node l a v r he

/-- There is a node at every address. -/
theorem Chain.alloc (hc : Chain h es) (ha : a ∈ es.map Prod.fst) : h a ≠ none := by
  obtain ⟨⟨a', v⟩, he, rfl⟩ := List.mem_map.mp ha
  obtain ⟨l, r, hs⟩ := List.append_of_mem he
  rw [hc.node l a' v r hs]
  exact Option.some_ne_none _

/-- Forwards. -/
theorem Chain.follows_next (hc : Chain h es) :
    Follows Node.next h (first es) (es.map Prod.fst) := by
  -- from every point of the list on
  have hsuffix : ∀ r l, es = l ++ r → Follows Node.next h (first r) (r.map Prod.fst) := by
    intro r
    induction r with
    | nil => exact fun _ _ => rfl
    | cons e r ih =>
      obtain ⟨a, v⟩ := e
      intro l he
      exact ⟨rfl, _, hc.node l a v r he, ih (l ++ [(a, v)]) (by simp [he])⟩
  exact hsuffix es [] rfl

/-- Backwards. -/
theorem Chain.follows_prev (hc : Chain h es) :
    Follows Node.prev h (last es) (es.map Prod.fst).reverse := by
  have hprefix : ∀ k l r, l.length = k → es = l ++ r →
      Follows Node.prev h (last l) (l.map Prod.fst).reverse := by
    intro k
    induction k with
    | zero =>
      intro l r hk _
      rw [List.length_eq_zero_iff.mp hk]
      rfl
    | succ k ih =>
      intro l r hk he
      rcases List.eq_nil_or_concat l with rfl | ⟨l, ⟨a, v⟩, rfl⟩
      · exact absurd hk (by simp)
      · have hnode := hc.node l a v r (by simp [he])
        rw [List.concat_eq_append, last_concat, List.map_append, List.reverse_append]
        exact ⟨rfl, _, hnode, ih l ((a, v) :: r) (by simpa using hk) (by simp [he])⟩
  exact hprefix es.length es [] rfl (List.append_nil es).symm

/-- A new entry at the front: the node gets its pointers, and the first entry leads back to it. -/
theorem Chain.cons (hc : Chain h es) (hfresh : a ∉ es.map Prod.fst)
    (ha : h' a = some ⟨first es, none, v⟩)
    (hfirst : ∀ b w r, es = (b, w) :: r → h' b = some ⟨first r, some a, w⟩)
    (hrest : ∀ b ∈ (es.map Prod.fst).tail, h' b = h b) : Chain h' ((a, v) :: es) := by
  refine ⟨List.nodup_cons.mpr ⟨hfresh, hc.nodup⟩, fun l b w r he => ?_⟩
  cases l with
  | nil =>
    cases he
    exact ha
  | cons e l =>
    obtain ⟨rfl, hes⟩ : (a, v) = e ∧ es = l ++ (b, w) :: r := List.cons.inj he
    cases l with
    | nil => exact hfirst b w r hes
    | cons e l =>
      have hb : b ∈ (es.map Prod.fst).tail := by simp [hes]
      rw [hrest b hb, hc.node (e :: l) b w r hes]
      have hlast : last ((a, v) :: e :: l) = last (e :: l) := by
        rw [last_cons, last_cons]
        cases last l <;> rfl
      rw [hlast]

/-- A new entry at the end. -/
theorem Chain.concat (hc : Chain h es) (hfresh : a ∉ es.map Prod.fst)
    (ha : h' a = some ⟨none, last es, v⟩)
    (hlast : ∀ b w l, es = l ++ [(b, w)] → h' b = some ⟨some a, last l, w⟩)
    (hrest : ∀ b w l r, es = l ++ (b, w) :: r → r ≠ [] → h' b = h b) : Chain h' (es ++ [(a, v)]) := by
  refine ⟨?_, fun l b w r he => ?_⟩
  · rw [List.map_append, List.nodup_append]
    refine ⟨hc.nodup, by simp, fun x hx y hy hxy => ?_⟩
    have hy : y = a := by simpa using hy
    subst hy
    subst hxy
    exact hfresh hx
  · rcases List.eq_nil_or_concat r with rfl | ⟨r, e, rfl⟩
    · obtain ⟨rfl, h₂⟩ := List.append_inj' he rfl
      cases h₂
      exact ha
    · have he : es ++ [(a, v)] = (l ++ (b, w) :: r) ++ [e] := by simpa using he
      obtain ⟨rfl, h₂⟩ := List.append_inj' he rfl
      cases h₂
      cases r with
      | nil => exact hlast b w l rfl
      | cons e r =>
        rw [hrest b w l (e :: r) rfl (by simp), hc.node l b w (e :: r) rfl]
        rfl

/-- An entry is taken out: its neighbours are linked with each other. -/
theorem Chain.erase (hc : Chain h (l ++ (a, v) :: r))
    (hleft : ∀ b w l', l = l' ++ [(b, w)] → h' b = some ⟨first r, last l', w⟩)
    (hright : ∀ b w r', r = (b, w) :: r' → h' b = some ⟨first r', last l, w⟩)
    (hrest : ∀ b, last l ≠ some b → first r ≠ some b → b ≠ a → h' b = h b) :
    Chain h' (l ++ r) := by
  have hnodup := hc.nodup
  rw [List.map_append, List.map_cons, List.nodup_append, List.nodup_cons] at hnodup
  obtain ⟨hl, ⟨har, hr⟩, hdis⟩ := hnodup
  have hal : a ∉ l.map Prod.fst := fun h => hdis a h a (List.mem_cons_self ..) rfl
  have hlr : ∀ b ∈ l.map Prod.fst, b ∉ r.map Prod.fst :=
    fun b hb hb' => hdis b hb b (List.mem_cons_of_mem _ hb') rfl
  refine ⟨?_, fun l₀ b w r₀ he => ?_⟩
  · rw [List.map_append, List.nodup_append]
    exact ⟨hl, hr, fun x hx y hy hxy => hlr x hx (hxy ▸ hy)⟩
  rcases List.append_eq_append_iff.mp he with ⟨m, rfl, hm⟩ | ⟨m, hm, hm'⟩
  · -- the entry is behind the gap
    cases m with
    | nil =>
      rw [hright b w r₀ hm, List.append_nil]
    | cons e m =>
      subst hm
      have hb : b ∈ ((e :: m ++ (b, w) :: r₀).map Prod.fst).tail := by simp
      have hne : e.1 ≠ b := by
        intro hne
        rw [List.map_append, List.map_cons, List.cons_append, List.nodup_cons] at hr
        exact hr.1 (hne ▸ by simp)
      rw [hrest b ?_ ?_ ?_, hc.node (l ++ (a, v) :: e :: m) b w r₀ (by simp)]
      · rw [last_append, last_cons, last_append l (e :: m), last_cons e.1 e.2 m]
        cases last m <;> rfl
      · intro hlast
        exact hlr b (mem_of_last hlast) (List.mem_of_mem_tail hb)
      · intro hfirst
        exact hne (Option.some.inj hfirst)
      · intro hba
        exact har (hba ▸ List.mem_of_mem_tail hb)
  · cases m with
    | nil =>
      subst hm
      rw [hright b w r₀ hm'.symm, List.append_nil]
    | cons e m =>
      -- the entry is in front of the gap
      obtain ⟨rfl, rfl⟩ : (b, w) = e ∧ r₀ = m ++ r := List.cons.inj hm'
      subst hm
      have hb : b ∈ (l₀ ++ (b, w) :: m).map Prod.fst := by simp
      cases m with
      | nil => exact hleft b w l₀ rfl
      | cons e m =>
        rw [hrest b ?_ ?_ ?_, hc.node l₀ b w (e :: m ++ (a, v) :: r) (by simp)]
        · rfl
        · intro hlast
          rw [last_append, last_cons, last_cons] at hlast
          rw [List.map_append, List.map_cons, List.nodup_append, List.nodup_cons] at hl
          refine hl.2.1.1 ?_
          cases hm : last m with
          | none =>
            rw [hm] at hlast
            have heb : e.1 = b := Option.some.inj hlast
            exact heb ▸ List.mem_cons_self ..
          | some c =>
            rw [hm] at hlast
            have hcb : c = b := Option.some.inj hlast
            subst hcb
            exact List.mem_cons_of_mem _ (mem_of_last hm)
        · intro hfirst
          exact hlr b hb (mem_of_first hfirst)
        · intro hba
          exact hal (hba ▸ hb)

end Chain

/-! ## Lists with a head and a tail -/

/-- A heap with the head and the tail of a list. -/
structure Dlist (α : Type) where
  heap : Heap α
  head : Option Nat
  tail : Option Nat

namespace Dlist

/-- The list has these entries. -/
structure Is (d : Dlist α) (es : List (Nat × α)) : Prop where
  chain : Chain d.heap es
  head : d.head = first es
  tail : d.tail = last es

/-- Link the node at `a`, whose `next` is null, behind the last one. -/
def pushBack (d : Dlist α) (a : Nat) : Option (Dlist α) := do
  let heap ← d.heap.setPrev a d.tail
  match d.tail with
  | none => some { heap := heap, head := some a, tail := some a }
  | some t =>
    let heap ← heap.setNext t (some a)
    some { d with heap := heap, tail := some a }

/-- Link the node at `a` in front of the first one. -/
def pushFront (d : Dlist α) (a : Nat) : Option (Dlist α) := do
  let heap ← d.heap.setPrev a none
  let heap ← heap.setNext a d.head
  match d.head with
  | none => some { heap := heap, head := some a, tail := some a }
  | some b =>
    let heap ← heap.setPrev b (some a)
    some { d with heap := heap, head := some a }

/-- What is behind the node `n` gets its `prev`. -/
def closeNext (d : Dlist α) (n : Node α) : Option (Dlist α) :=
  match n.next with
  | some b => (d.heap.setPrev b n.prev).map fun heap => { d with heap := heap }
  | none => some { d with tail := n.prev }

/-- What is in front of the node `n` gets its `next`. -/
def closePrev (d : Dlist α) (n : Node α) : Option (Dlist α) :=
  match n.prev with
  | some b => (d.heap.setNext b n.next).map fun heap => { d with heap := heap }
  | none => some { d with head := n.next }

/-- Take out the node at `a`; its own pointers stay as they are. -/
def erase (d : Dlist α) (a : Nat) : Option (Dlist α) := do
  let n ← d.heap a
  let d ← d.closeNext n
  let n ← d.heap a
  d.closePrev n

variable {d : Dlist α} {es l r : List (Nat × α)} {a : Nat} {v : α} {n : Node α}

/-- What an operation on the nodes `as` leaves alone. -/
def SameOff (h h' : Heap α) (as : List Nat) : Prop := ∀ b, b ∉ as → h' b = h b

/-- The list has one more entry, at the end. -/
theorem pushBack_is (h : d.Is es) (ha : d.heap a = some n) (hnext : n.next = none)
    (hfresh : a ∉ es.map Prod.fst) :
    ∃ d', d.pushBack a = some d' ∧ d'.Is (es ++ [(a, n.val)]) ∧
      SameOff d.heap d'.heap (a :: es.map Prod.fst) := by
  unfold pushBack
  rw [Heap.setPrev_eq ha, h.tail, Option.bind_eq_bind, Option.bind_some, hnext]
  rcases List.eq_nil_or_concat es with rfl | ⟨l, ⟨t, w⟩, hl⟩
  · refine ⟨_, rfl, ⟨?_, rfl, rfl⟩, fun b hb => ?_⟩
    · refine h.chain.concat hfresh (Heap.set_self ..) ?_ ?_
      · intro _ _ l he
        exact absurd he (by simp)
      · intro _ _ l _ he _
        exact absurd he (by simp)
    · exact Heap.set_of_ne _ fun hba => hb (hba ▸ List.mem_cons_self ..)
  · rw [List.concat_eq_append] at hl
    subst hl
    -- the last node `t` gets a successor
    have hta : t ≠ a := fun hta => hfresh (hta ▸ by simp)
    have htail : d.heap t = some ⟨none, last l, w⟩ := h.chain.node l t w [] rfl
    rw [last_concat]
    dsimp only
    rw [Heap.setNext_eq ((Heap.set_of_ne _ hta).trans htail), Option.bind_some]
    refine ⟨_, rfl, ⟨?_, ?_, ?_⟩, fun b hb => ?_⟩
    · refine h.chain.concat hfresh ?_ ?_ ?_
      · rw [last_concat]
        exact (Heap.set_of_ne _ hta.symm).trans (Heap.set_self ..)
      · intro b w' l' he
        obtain ⟨rfl, h₂⟩ := List.append_inj' he rfl
        cases h₂
        exact Heap.set_self ..
      · intro b w' l' r' he hr
        have hnode := h.chain.node l' b w' r' he
        -- a node in front of the last one stays as it is
        have hbt : b ≠ t := by
          rintro rfl
          rw [htail] at hnode
          cases r' with
          | nil => exact hr rfl
          | cons e r' => exact absurd hnode (by simp [first])
        have hba : b ≠ a := fun hba => hfresh (hba ▸ he ▸ by simp)
        exact (Heap.set_of_ne _ hbt).trans (Heap.set_of_ne _ hba)
    · show d.head = _
      rw [h.head, first_append, first_append, first_append]
      cases first l <;> rfl
    · exact last_concat.symm
    · have hbt : b ≠ t := fun hbt => hb (hbt ▸ by simp)
      have hba : b ≠ a := fun hba => hb (hba ▸ by simp)
      exact (Heap.set_of_ne _ hbt).trans (Heap.set_of_ne _ hba)

/-- The list has one more entry, at the front. -/
theorem pushFront_is (h : d.Is es) (ha : d.heap a = some n) (hfresh : a ∉ es.map Prod.fst) :
    ∃ d', d.pushFront a = some d' ∧ d'.Is ((a, n.val) :: es) ∧
      SameOff d.heap d'.heap (a :: es.map Prod.fst) := by
  unfold pushFront
  rw [Heap.setPrev_eq ha, Option.bind_eq_bind, Option.bind_some,
    Heap.setNext_eq (Heap.set_self ..), Option.bind_some, h.head]
  cases es with
  | nil =>
    refine ⟨_, rfl, ⟨?_, rfl, rfl⟩, fun b hb => ?_⟩
    · refine h.chain.cons hfresh (Heap.set_self ..) (fun _ _ _ he => absurd he (by simp)) ?_
      intro b hb
      exact absurd hb List.not_mem_nil
    · have hba : b ≠ a := fun hba => hb (hba ▸ List.mem_cons_self ..)
      exact (Heap.set_of_ne _ hba).trans (Heap.set_of_ne _ hba)
  | cons e es =>
    obtain ⟨t, w⟩ := e
    have hta : t ≠ a := fun hta => hfresh (hta ▸ by simp)
    have hhead : d.heap t = some ⟨first es, none, w⟩ := h.chain.node [] t w es rfl
    have hsame : ∀ b, b ≠ a → ((d.heap.set a { n with prev := none }).set a
        ⟨some t, none, n.val⟩) b = d.heap b :=
      fun b hba => (Heap.set_of_ne _ hba).trans (Heap.set_of_ne _ hba)
    dsimp only [first_cons]
    rw [Heap.setPrev_eq ((hsame t hta).trans hhead), Option.bind_some]
    refine ⟨_, rfl, ⟨?_, rfl, ?_⟩, fun b hb => ?_⟩
    · refine h.chain.cons hfresh ?_ ?_ ?_
      · exact (Heap.set_of_ne _ hta.symm).trans (Heap.set_self ..)
      · intro b w' r he
        cases he
        exact Heap.set_self ..
      · intro b hb
        have hnodup := h.chain.nodup
        rw [List.map_cons, List.nodup_cons] at hnodup
        have hbt : b ≠ t := fun hbt => hnodup.1 (hbt ▸ hb)
        have hba : b ≠ a := fun hba => hfresh (hba ▸ List.mem_of_mem_tail hb)
        exact (Heap.set_of_ne _ hbt).trans (hsame b hba)
    · show d.tail = _
      rw [h.tail, last_cons, last_cons, last_cons]
      cases last es <;> rfl
    · have hbt : b ≠ t := fun hbt => hb (hbt ▸ by simp)
      have hba : b ≠ a := fun hba => hb (hba ▸ by simp)
      exact (Heap.set_of_ne _ hbt).trans (hsame b hba)

/-- The link over the node from the left. -/
theorem closeNext_is (h : d.Is (l ++ (a, v) :: r)) :
    ∃ d', d.closeNext ⟨first r, last l, v⟩ = some d' ∧ d'.head = d.head ∧
      d'.tail = last (l ++ r) ∧
      (∀ b w r', r = (b, w) :: r' → d'.heap b = some ⟨first r', last l, w⟩) ∧
      ∀ b, first r ≠ some b → d'.heap b = d.heap b := by
  unfold closeNext
  cases r with
  | nil =>
    refine ⟨_, rfl, rfl, ?_, fun _ _ _ he => absurd he (by simp), fun _ _ => rfl⟩
    rw [List.append_nil]
  | cons e r =>
    obtain ⟨b, w⟩ := e
    have hb := h.chain.node (l ++ [(a, v)]) b w r (by simp)
    dsimp only [first_cons]
    rw [Heap.setPrev_eq hb, Option.map_some]
    refine ⟨_, rfl, rfl, ?_, ?_, ?_⟩
    · show d.tail = _
      rw [h.tail, last_append, last_append, last_cons, last_cons]
      cases last r <;> rfl
    · intro b' w' r' he
      cases he
      exact Heap.set_self ..
    · intro b' hb'
      exact Heap.set_of_ne _ fun hbb => hb' (congrArg some hbb.symm)

/-- The link over the node from the right. -/
theorem closePrev_is {d₀ : Dlist α} (h : d₀.Is (l ++ (a, v) :: r)) (hhead : d.head = d₀.head)
    (hheap : ∀ b ∈ l.map Prod.fst, d.heap b = d₀.heap b) :
    ∃ d', d.closePrev ⟨first r, last l, v⟩ = some d' ∧ d'.tail = d.tail ∧
      d'.head = first (l ++ r) ∧
      (∀ b w l', l = l' ++ [(b, w)] → d'.heap b = some ⟨first r, last l', w⟩) ∧
      ∀ b, last l ≠ some b → d'.heap b = d.heap b := by
  unfold closePrev
  rcases List.eq_nil_or_concat l with rfl | ⟨l, ⟨b, w⟩, hl⟩
  · exact ⟨_, rfl, rfl, rfl, fun _ _ _ he => absurd he (by simp), fun _ _ => rfl⟩
  · rw [List.concat_eq_append] at hl
    subst hl
    have hb := h.chain.node l b w ((a, v) :: r) (by simp)
    rw [← hheap b (by simp)] at hb
    rw [last_concat]
    dsimp only
    rw [Heap.setNext_eq hb, Option.map_some]
    refine ⟨_, rfl, rfl, ?_, ?_, ?_⟩
    · show d.head = _
      rw [hhead, h.head, first_append, first_append (l ++ [(b, w)]) r, first_append l]
      cases first l <;> rfl
    · intro b' w' l' he
      obtain ⟨rfl, h₂⟩ := List.append_inj' he rfl
      cases h₂
      exact Heap.set_self ..
    · intro b' hb'
      exact Heap.set_of_ne _ fun hbb => hb' (congrArg some hbb.symm)

/-- The list has one entry less. The node itself stays as it is. -/
theorem erase_is (h : d.Is (l ++ (a, v) :: r)) :
    ∃ d', d.erase a = some d' ∧ d'.Is (l ++ r) ∧ d'.heap a = d.heap a ∧
      SameOff d.heap d'.heap ((l ++ r).map Prod.fst) := by
  have hnodup := h.chain.nodup
  rw [List.map_append, List.map_cons, List.nodup_append, List.nodup_cons] at hnodup
  obtain ⟨-, ⟨har, -⟩, hdis⟩ := hnodup
  have hal : a ∉ l.map Prod.fst := fun h => hdis a h a (List.mem_cons_self ..) rfl
  have hlr : ∀ b ∈ l.map Prod.fst, first r ≠ some b :=
    fun b hb hf => hdis b hb b (List.mem_cons_of_mem _ (mem_of_first hf)) rfl
  have hrl : ∀ b ∈ r.map Prod.fst, last l ≠ some b :=
    fun b hb hf => hdis b (mem_of_last hf) b (List.mem_cons_of_mem _ hb) rfl
  have ha : d.heap a = some ⟨first r, last l, v⟩ := h.chain.node l a v r rfl
  obtain ⟨d₁, hd₁, hhead₁, htail₁, hnext₁, hsame₁⟩ := closeNext_is h
  have ha₁ : d₁.heap a = d.heap a := hsame₁ a fun hf => har (mem_of_first hf)
  obtain ⟨d₂, hd₂, htail₂, hhead₂, hprev₂, hsame₂⟩ :=
    closePrev_is h hhead₁ fun b hb => hsame₁ b (hlr b hb)
  have ha₂ : d₂.heap a = d₁.heap a := hsame₂ a fun hf => hal (mem_of_last hf)
  unfold erase
  simp only [ha, hd₁, ha₁, Option.bind_eq_bind, Option.bind_some]
  refine ⟨d₂, hd₂, ⟨?_, hhead₂, htail₂.trans htail₁⟩, ha₂.trans (ha₁.trans ha), fun b hb => ?_⟩
  · refine h.chain.erase hprev₂ ?_ fun b hl hr _ => (hsame₂ b hl).trans (hsame₁ b hr)
    intro b w r' he
    exact (hsame₂ b (hrl b (he ▸ by simp))).trans (hnext₁ b w r' he)
  · rw [List.map_append, List.mem_append, not_or] at hb
    refine (hsame₂ b fun hf => hb.1 (mem_of_last hf)).trans (hsame₁ b fun hf => hb.2 (mem_of_first hf))

/-! What no operation on the pointers changes. -/

/-- Every node of the heap was there before, with the same value. -/
def SameVals (h h' : Heap α) : Prop := ∀ b n', h' b = some n' → ∃ n, h b = some n ∧ n.val = n'.val

/-- No step at all. -/
theorem SameVals.refl (h : Heap α) : SameVals h h := fun _ n hn => ⟨n, hn, rfl⟩

/-- One step after the other. -/
theorem SameVals.trans {h₁ h₂ h₃ : Heap α} (h : SameVals h₁ h₂) (h' : SameVals h₂ h₃) :
    SameVals h₁ h₃ := by
  intro b n₃ hn₃
  obtain ⟨n₂, hn₂, hv₂⟩ := h' b n₃ hn₃
  obtain ⟨n₁, hn₁, hv₁⟩ := h b n₂ hn₂
  exact ⟨n₁, hn₁, hv₁.trans hv₂⟩

/-- A node with the same value. -/
theorem sameVals_set {h : Heap α} {n' : Node α} (hn : h a = some n) (hv : n'.val = n.val) :
    SameVals h (h.set a n') := by
  intro b n₂ hn₂
  by_cases hb : b = a
  · subst hb
    rw [Heap.set_self] at hn₂
    cases hn₂
    exact ⟨n, hn, hv.symm⟩
  · rw [Heap.set_of_ne _ hb] at hn₂
    exact ⟨n₂, hn₂, rfl⟩

/-- A link forward does not change the values. -/
theorem sameVals_setNext {h h' : Heap α} {p : Option Nat} (hs : h.setNext a p = some h') :
    SameVals h h' := by
  obtain ⟨n, hn, rfl⟩ := Option.map_eq_some_iff.mp hs
  exact sameVals_set hn rfl

/-- A link back does not change the values. -/
theorem sameVals_setPrev {h h' : Heap α} {p : Option Nat} (hs : h.setPrev a p = some h') :
    SameVals h h' := by
  obtain ⟨n, hn, rfl⟩ := Option.map_eq_some_iff.mp hs
  exact sameVals_set hn rfl

/-- The values stay when one is put at the end. -/
theorem pushBack_vals {d' : Dlist α} (h : d.pushBack a = some d') : SameVals d.heap d'.heap := by
  unfold pushBack at h
  obtain ⟨h₁, hs₁, h⟩ := Option.bind_eq_some_iff.mp h
  split at h
  · cases h
    exact sameVals_setPrev hs₁
  · obtain ⟨h₂, hs₂, h⟩ := Option.bind_eq_some_iff.mp h
    cases h
    exact (sameVals_setPrev hs₁).trans (sameVals_setNext hs₂)

/-- The values stay when one is put in front. -/
theorem pushFront_vals {d' : Dlist α} (h : d.pushFront a = some d') :
    SameVals d.heap d'.heap := by
  unfold pushFront at h
  obtain ⟨h₁, hs₁, h⟩ := Option.bind_eq_some_iff.mp h
  obtain ⟨h₂, hs₂, h⟩ := Option.bind_eq_some_iff.mp h
  have h₁₂ := (sameVals_setPrev hs₁).trans (sameVals_setNext hs₂)
  split at h
  · cases h
    exact h₁₂
  · obtain ⟨h₃, hs₃, h⟩ := Option.bind_eq_some_iff.mp h
    cases h
    exact h₁₂.trans (sameVals_setPrev hs₃)

/-- The values stay when the link is closed from the left. -/
theorem closeNext_vals {d' : Dlist α} (h : d.closeNext n = some d') :
    SameVals d.heap d'.heap := by
  unfold closeNext at h
  split at h
  · obtain ⟨h₁, hs₁, rfl⟩ := Option.map_eq_some_iff.mp h
    exact sameVals_setPrev hs₁
  · cases h
    exact .refl _

/-- The values stay when the link is closed from the right. -/
theorem closePrev_vals {d' : Dlist α} (h : d.closePrev n = some d') :
    SameVals d.heap d'.heap := by
  unfold closePrev at h
  split at h
  · obtain ⟨h₁, hs₁, rfl⟩ := Option.map_eq_some_iff.mp h
    exact sameVals_setNext hs₁
  · cases h
    exact .refl _

/-- The values stay when one is taken out. -/
theorem erase_vals {d' : Dlist α} (h : d.erase a = some d') : SameVals d.heap d'.heap := by
  unfold erase at h
  obtain ⟨n, -, h⟩ := Option.bind_eq_some_iff.mp h
  obtain ⟨d₁, h₁, h⟩ := Option.bind_eq_some_iff.mp h
  obtain ⟨n', -, h₂⟩ := Option.bind_eq_some_iff.mp h
  exact (closeNext_vals h₁).trans (closePrev_vals h₂)

end Dlist

end LearningNotes
