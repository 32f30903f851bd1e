import LearningNotes.Lib.PHeap
import Mathlib.Data.List.Induction

/-!
# Iterators of `rb_tree`

The nodes of an `rb_tree` hang under a header: the root and the header are each other's parent, and
the header points to the first and to the last node. `increment` and `decrement` go through the
nodes in order, with the header behind the last one; the header is told from the root by its color.

Mirroring notes:
- A pointer is an address or `none`; to follow `none`, or an address with no node, fails.
- A color is a `Bool`, as in the source. The header has a value that nothing reads.
- The loops run on fuel, and give `none` when that is used up.
-/

namespace LearningNotes.Stl

variable {α : Type}

def rb_tree_red : Bool := false

def rb_tree_black : Bool := true

/-- The loops of `minimum` and `maximum`: `while (x->left != 0) x = x->left`, and the same to the
right. -/
def extreme (h : Cells (Bool × α)) (d : Side) : Nat → Nat → Option Nat
  | 0, _ => none
  | n + 1, x => do
    let x' ← h x
    match x'.child d with
    | none => some x
    | some y => extreme h d n y

/-- The loops `while (node == y->right) { node = y; y = y->parent; }`, and the same to the left: the
values of `node` and `y` at the end. -/
def climb (h : Cells (Bool × α)) (d : Side) : Nat → Nat → Option Nat → Option (Nat × Nat)
  | 0, _, _ => none
  | n + 1, node, y => do
    let y ← y
    let y' ← h y
    if y'.child d = some node then climb h d n y y'.parent else some (node, y)

def increment (h : Cells (Bool × α)) (n node : Nat) : Option Nat := do
  let x ← h node
  match x.right with
  | some r => extreme h .left n r
  | none => do
    let (node, y) ← climb h .right n node x.parent
    let x ← h node
    some (if x.right ≠ some y then y else node)

/-- `node->color == __rb_tree_red && node->parent->parent == node` -/
def isHeader (h : Cells (Bool × α)) (node : Nat) : Option Bool := do
  let x ← h node
  if x.val.1 = rb_tree_red then do
    let p ← x.parent
    let p' ← h p
    some (p'.parent = some node)
  else some false

def decrement (h : Cells (Bool × α)) (n node : Nat) : Option Nat := do
  let x ← h node
  if (← isHeader h node) = true then x.right
  else match x.left with
    | some l => extreme h .right n l
    | none => do
      let (_, y) ← climb h .left n node x.parent
      some y

/-- `begin`, given the header -/
def leftmost (h : Cells (Bool × α)) (header : Nat) : Option Nat := (h header).bind Cell.left

variable {h : Cells (Bool × α)} {d : Side} {t l r s : PTree (Bool × α)} {c c₁ c₂ : Path (Bool × α)}
  {f : Frame (Bool × α)} {v : Bool × α} {a b p q m n header : Nat} {par : Option Nat}
  {pre suf : List Nat}

/-- The memory holds the tree `t` under the header. -/
structure Headed (h : Cells (Bool × α)) (header : Nat) (t : PTree (Bool × α)) : Prop where
  mem : t.In h (some header)
  nodup : t.addrs.Nodup
  fresh : header ∉ t.addrs
  header : ∃ v : α, h header = some ⟨(rb_tree_red, v), t.addrs.head?, t.addrs.getLast?, t.root⟩
  black : ∀ p, t.root = some p → ∀ x, h p = some x → x.val.1 = rb_tree_black

/-- The path is in memory under a node with the address `header`. -/
def Under (h : Cells (Bool × α)) (header : Nat) : Path (Bool × α) → Option Nat → Prop
  | [], _ => True
  | f :: c, ptr =>
    h f.p = some (.mk' f.side f.v ptr f.sib.root (some ((Path.parent c).getD header))) ∧
      Under h header c (some f.p)

theorem under_plug (ht : (plug c s).In h (some header)) :
    Under h header c s.root ∧ s.In h (some ((Path.parent c).getD header)) := by
  induction c generalizing s with
  | nil => exact ⟨trivial, ht⟩
  | cons f c ih =>
    obtain ⟨hc, hf⟩ := ih ht
    rw [Frame.root_fill] at hc
    obtain ⟨hp, hs, -⟩ := PTree.in_mk.1 hf
    exact ⟨⟨hp, hc⟩, hs⟩

/-- Each path goes to one side only, or turns for the first time. -/
theorem exists_turn (d : Side) (c : Path (Bool × α)) :
    (∀ g ∈ c, g.side = d) ∨
      ∃ c₁ f c₂, c = c₁ ++ f :: c₂ ∧ (∀ g ∈ c₁, g.side = d) ∧ f.side = d.other := by
  induction c with
  | nil => exact .inl (by simp)
  | cons f c ih =>
    rcases Side.eq_or_eq_other f.side d with hf | hf
    · rcases ih with hall | ⟨c₁, g, c₂, rfl, hc₁, hg⟩
      · exact .inl (by simpa [hf] using hall)
      · exact .inr ⟨f :: c₁, g, c₂, rfl, by simpa [hf] using hc₁, hg⟩
    · exact .inr ⟨[], f, c, rfl, by simp, hf⟩

theorem after_append (c₁ c₂ : Path (Bool × α)) :
    Path.after (c₁ ++ c₂) = Path.after c₁ ++ Path.after c₂ := by
  induction c₁ with
  | nil => rfl
  | cons f c ih =>
    rw [List.cons_append]
    cases hs : f.side <;> simp [Path.after, hs, ih]

theorem after_eq_nil (hc : ∀ g ∈ c, g.side = .right) : Path.after c = [] := by
  induction c with
  | nil => rfl
  | cons f c ih =>
    obtain ⟨hf, hc⟩ := List.forall_mem_cons.1 hc
    simp [Path.after, hf, ih hc]

theorem before_eq_nil (hc : ∀ g ∈ c, g.side = .left) : Path.before c = [] := by
  induction c with
  | nil => rfl
  | cons f c ih =>
    obtain ⟨hf, hc⟩ := List.forall_mem_cons.1 hc
    simp [Path.before, hf, ih hc]

theorem addrs_append (c₁ c₂ : Path (Bool × α)) :
    Path.addrs (c₁ ++ c₂) = Path.addrs c₁ ++ Path.addrs c₂ := by
  induction c₁ with
  | nil => rfl
  | cons f c ih => simp [Path.addrs, ih]

/-- The way down ends at the first or at the last node. -/
theorem extreme_spec (ht : t.In h par) (hroot : t.root = some p) (hn : t.addrs.length ≤ n) :
    extreme h d n p = match d with
      | .left => t.addrs.head?
      | .right => t.addrs.getLast? := by
  induction t generalizing par p n with
  | nil => simp at hroot
  | node l q v r ihl ihr =>
    obtain ⟨hq, hl, hr⟩ := ht
    obtain rfl : q = p := by simpa using hroot
    rw [PTree.addrs_node, List.length_append, List.length_cons] at hn
    obtain ⟨n, rfl⟩ := Nat.exists_eq_add_of_le' (show 1 ≤ n by omega)
    rw [extreme, hq, Option.bind_eq_bind, Option.bind_some]
    cases d with
    | left =>
      cases hlr : l.root with
      | none =>
        obtain rfl := PTree.root_eq_none.1 hlr
        simp [Cell.child]
      | some a =>
        have := ihl hl hlr (n := n) (by omega)
        have hne : l.addrs ≠ [] := List.ne_nil_of_mem (PTree.mem_addrs_of_root hlr)
        simp [Cell.child, this, List.head?_append, Option.or_of_isSome, List.isSome_head?, hne]
    | right =>
      cases hrr : r.root with
      | none =>
        obtain rfl := PTree.root_eq_none.1 hrr
        simp [Cell.child]
      | some a =>
        have := ihr hr hrr (n := n) (by omega)
        have hne : r.addrs ≠ [] := List.ne_nil_of_mem (PTree.mem_addrs_of_root hrr)
        simp [Cell.child, this, List.getLast?_cons, List.getLast?_append,
          List.getLast?_eq_some_getLast hne]

/-- The way up to the first turn: it ends at the node above, with its last step not a child of that
one on the side of the climb. -/
theorem climb_turn (hc : Under h header (c₁ ++ f :: c₂) (some q)) (hside : ∀ g ∈ c₁, g.side = d)
    (hf : f.side = d.other) (hq : q ∉ Path.addrs (c₁ ++ f :: c₂))
    (hnodup : (Path.addrs (c₁ ++ f :: c₂)).Nodup) (hn : c₁.length < n)
    (hcell : ∃ x, h q = some x ∧ ∀ a ∈ Path.addrs (c₁ ++ f :: c₂), x.child d ≠ some a) :
    ∃ m x, climb h d n q (some ((Path.parent (c₁ ++ f :: c₂)).getD header)) = some (m, f.p) ∧
      h m = some x ∧ x.child d ≠ some f.p := by
  induction c₁ generalizing q n with
  | nil =>
    obtain ⟨n, rfl⟩ := Nat.exists_eq_add_of_le' (Nat.one_le_of_lt hn)
    obtain ⟨hp, -⟩ := hc
    obtain ⟨x, hx, hchild⟩ := hcell
    rw [List.nil_append] at hq hchild ⊢
    -- the node above has what was climbed from on its other side
    have hsib : f.sib.root ≠ some q := by
      intro he
      exact hq (by
        simp [Path.addrs, PTree.mem_addrs_of_root he])
    refine ⟨q, x, ?_, hx, hchild f.p (by simp [Path.addrs])⟩
    rw [Path.parent_cons, Option.getD_some, climb, Option.bind_eq_bind, Option.bind_some, hp,
      Option.bind_eq_bind, Option.bind_some, if_neg]
    rw [← Side.other_other d, ← hf, Cell.child_other_mk']
    exact hsib
  | cons g c₁ ih =>
    obtain ⟨hg, hc₁⟩ := List.forall_mem_cons.1 hside
    rw [List.cons_append] at hc hq hnodup ⊢
    obtain ⟨hp, hrest⟩ := hc
    rw [Path.addrs, List.mem_cons, List.mem_append, not_or, not_or] at hq
    rw [Path.addrs, List.nodup_cons, List.nodup_append, List.mem_append, not_or] at hnodup
    obtain ⟨⟨-, hgc⟩, -, hcnodup, -⟩ := hnodup
    rw [List.length_cons] at hn
    obtain ⟨n, rfl⟩ := Nat.exists_eq_add_of_le' (show 1 ≤ n by omega)
    have hlen : c₁.length < n := by omega
    obtain ⟨m, x, hclimb, hm⟩ := ih hrest hc₁ hgc hcnodup hlen ⟨_, hp, fun a ha => by
      rw [hg, Cell.child_mk', ne_eq, Option.some_inj]
      intro he
      exact hq.2.2 (he ▸ ha)⟩
    refine ⟨m, x, ?_, hm⟩
    rw [Path.parent_cons, Option.getD_some, climb, Option.bind_eq_bind, Option.bind_some, hp,
      Option.bind_eq_bind, Option.bind_some, hg, if_pos Cell.child_mk', Cell.parent_mk']
    exact hclimb

/-- The way up without a turn ends below the header. -/
theorem climb_straight (hc : Under h header c (some q)) (hside : ∀ g ∈ c, g.side = d) :
    climb h d (n + c.length) q (some ((Path.parent c).getD header)) =
      climb h d n ((Path.top c (some q)).getD q) (some header) := by
  induction c generalizing q with
  | nil => rfl
  | cons g c ih =>
    obtain ⟨hg, hc'⟩ := List.forall_mem_cons.1 hside
    obtain ⟨hp, hrest⟩ := hc
    rw [List.length_cons, ← Nat.add_assoc, Path.parent_cons, Option.getD_some, climb,
      Option.bind_eq_bind, Option.bind_some, hp, Option.bind_eq_bind, Option.bind_some, hg,
      if_pos Cell.child_mk', Cell.parent_mk', ih hrest hc', Path.top]
    cases htop : Path.top c (some g.p) with
    | none =>
      cases c with
      | nil => simp [Path.top] at htop
      | cons f c =>
        have := plug_ne_nil (c := c) (f := f) (t := (.nil : PTree (Bool × α)))
        rw [ne_eq, ← PTree.root_eq_none, root_plug, Path.top] at this
        exact absurd htop this
    | some a => rfl

theorem length_le_addrs (c : Path (Bool × α)) : c.length ≤ (Path.addrs c).length := by
  induction c with
  | nil => exact Nat.le_refl 0
  | cons f c ih =>
    rw [Path.addrs, List.length_cons, List.length_cons, List.length_append]
    omega

/-- The nodes around one of them. -/
theorem addrs_around (c : Path (Bool × α)) (l r : PTree (Bool × α)) (a : Nat) (v : Bool × α) :
    (plug c (.node l a v r)).addrs =
      ((Path.before c).map Prod.fst ++ l.addrs) ++ a :: (r.addrs ++ (Path.after c).map Prod.fst) := by
  unfold PTree.addrs
  rw [nodes_plug]
  simp

/-- What follows a node, or the header. -/
theorem increment_spec (hh : Headed h header (plug c (.node l a v r)))
    (hn : (plug c (.node l a v r)).addrs.length + 2 ≤ n) :
    increment h n a = (r.addrs ++ (Path.after c).map Prod.fst ++ [header]).head? := by
  obtain ⟨hc, ha, hl, hr⟩ := under_plug hh.mem
  obtain ⟨hcn, htn, hdisj⟩ := nodup_plug.1 hh.nodup
  have hac : a ∉ Path.addrs c := fun h => hdisj a h (by simp)
  have hlen := length_le_addrs c
  rw [addrs_plug.length_eq, List.length_append, PTree.addrs_node, List.length_append,
    List.length_cons] at hn
  rw [increment, ha, Option.bind_eq_bind, Option.bind_some]
  cases hrr : r.root with
  | some b =>
    -- the first node on the right
    have hne : r.addrs ≠ [] := List.ne_nil_of_mem (PTree.mem_addrs_of_root hrr)
    have hext := extreme_spec (d := .left) hr hrr (n := n) (by omega)
    simp only [hext, List.append_assoc, List.head?_append, List.head?_eq_some_head hne,
      Option.some_or]
  | none =>
    obtain rfl := PTree.root_eq_none.1 hrr
    have hcell : ∃ x, h a = some x ∧ ∀ b ∈ Path.addrs c, x.child .right ≠ some b :=
      ⟨_, ha, fun b _ => by simp [Cell.child]⟩
    rcases exists_turn .right c with hall | ⟨c₁, f, c₂, rfl, hc₁, hf⟩
    · -- the last node: the way up ends at the header or, from the root, one step beyond it
      have hlast : (plug c (.node l a v .nil)).addrs.getLast? = some a := by
        rw [addrs_around, after_eq_nil hall]
        simp
      have htop : Path.top c (some a) = (plug c (.node l a v .nil)).root := by
        rw [root_plug, PTree.root_node]
      have hafter : ([] ++ (Path.after c).map Prod.fst ++ [header]).head? = some header := by
        rw [after_eq_nil hall]
        rfl
      obtain ⟨k, rfl⟩ := Nat.exists_eq_add_of_le' (show c.length + 2 ≤ n by omega)
      rw [show k + (c.length + 2) = k + 2 + c.length by omega, climb_straight hc hall, htop,
        PTree.addrs_nil, hafter]
      obtain ⟨w, hw⟩ := hh.header
      rw [hlast] at hw
      have hmem := hh.mem
      have hfresh := hh.fresh
      cases hT : plug c (.node l a v .nil) with
      | nil =>
        rw [hT] at hlast
        simp at hlast
      | node L p u R =>
        rw [hT] at hmem hfresh hw
        obtain ⟨hp, -, -⟩ := hmem
        have hR : R.root ≠ some header := by
          intro he
          exact hfresh (by simp [PTree.mem_addrs_of_root he])
        by_cases hpa : p = a
        · subst hpa
          simp [climb, hw, hp, Cell.child, hR]
        · have hap : ¬ a = p := fun h => hpa h.symm
          simp [climb, hw, hp, Cell.child, hR, hap]
    · -- the node where the way up turns
      obtain ⟨m, x, hclimb, hm, hx⟩ := climb_turn hc hc₁ hf hac hcn (n := n)
        (by rw [List.length_append] at hlen; omega) hcell
      have hside : f.side = .left := hf
      simp only [Option.bind_eq_bind, hclimb, Option.bind_some, hm]
      rw [after_append, after_eq_nil hc₁]
      have hx' : x.right ≠ some f.p := hx
      simp [Path.after, hside, hx']

/-- A node is not taken for the header. -/
theorem isHeader_node (hh : Headed h header (plug c (.node l a v r))) :
    isHeader h a = some false := by
  obtain ⟨hc, ha, -, -⟩ := under_plug hh.mem
  have hac : a ∉ Path.addrs c := fun hm => (nodup_plug.1 hh.nodup).2.2 a hm (by simp)
  have hfresh := hh.fresh
  rw [mem_addrs_plug, not_or] at hfresh
  rw [isHeader, ha, Option.bind_eq_bind, Option.bind_some]
  cases c with
  | nil =>
    -- the root is black
    have hv : v.1 = rb_tree_black := hh.black a rfl _ ha
    simp [hv, rb_tree_black, rb_tree_red]
  | cons f c =>
    obtain ⟨hp, -⟩ := hc
    simp only [Path.addrs, List.mem_cons, List.mem_append, not_or] at hac hfresh
    have hne : (Path.parent c).getD header ≠ a := by
      cases c with
      | nil => exact fun he => hfresh.2 (by simp [show header = a from he])
      | cons g c => exact fun he => hac.2.2 (by simp [Path.addrs, ← show g.p = a from he])
    simp [hp, hne]

/-- What comes before a node that is not the first one. -/
theorem decrement_spec (hh : Headed h header (plug c (.node l a v r)))
    (hn : (plug c (.node l a v r)).addrs.length + 2 ≤ n)
    (hne : (Path.before c).map Prod.fst ++ l.addrs ≠ []) :
    decrement h n a = ((Path.before c).map Prod.fst ++ l.addrs).getLast? := by
  obtain ⟨hc, ha, hl, hr⟩ := under_plug hh.mem
  obtain ⟨hcn, htn, hdisj⟩ := nodup_plug.1 hh.nodup
  have hac : a ∉ Path.addrs c := fun h => hdisj a h (by simp)
  have hlen := length_le_addrs c
  rw [addrs_plug.length_eq, List.length_append, PTree.addrs_node, List.length_append,
    List.length_cons] at hn
  rw [decrement, ha, Option.bind_eq_bind, Option.bind_some, isHeader_node hh, Option.bind_eq_bind,
    Option.bind_some, if_neg Bool.false_ne_true]
  cases hlr : l.root with
  | some b =>
    -- the last node on the left
    have hnel : l.addrs ≠ [] := List.ne_nil_of_mem (PTree.mem_addrs_of_root hlr)
    have hext := extreme_spec (d := .right) hl hlr (n := n) (by omega)
    simp only [hext, List.getLast?_append, List.getLast?_eq_some_getLast hnel, Option.some_or]
  | none =>
    obtain rfl := PTree.root_eq_none.1 hlr
    have hcell : ∃ x, h a = some x ∧ ∀ b ∈ Path.addrs c, x.child .left ≠ some b :=
      ⟨_, ha, fun b _ => by simp [Cell.child]⟩
    rcases exists_turn .left c with hall | ⟨c₁, f, c₂, rfl, hc₁, hf⟩
    · simp [before_eq_nil hall] at hne
    · -- the node where the way up turns
      obtain ⟨m, x, hclimb, -, -⟩ := climb_turn hc hc₁ hf hac hcn (n := n)
        (by rw [List.length_append] at hlen; omega) hcell
      have hside : f.side = .right := hf
      simp only [Option.bind_eq_bind, hclimb, Option.bind_some]
      rw [Path.before_append, before_eq_nil hc₁]
      simp [Path.before, hside]

/-- From the header `decrement` leads to the last node. -/
theorem decrement_header (hh : Headed h header t) (hne : t ≠ .nil) :
    decrement h n header = t.addrs.getLast? := by
  obtain ⟨w, hw⟩ := hh.header
  obtain ⟨p, hp⟩ : ∃ p, t.root = some p :=
    Option.ne_none_iff_exists'.1 fun h => hne (PTree.root_eq_none.1 h)
  obtain ⟨x, hx, hparent⟩ : ∃ x, h p = some x ∧ x.parent = some header := by
    cases t with
    | nil => exact absurd rfl hne
    | node l q v r =>
      obtain ⟨hq, -, -⟩ := hh.mem
      obtain rfl : q = p := by simpa using hp
      exact ⟨_, hq, rfl⟩
  have hhead : isHeader h header = some true := by
    simp [isHeader, hw, hp, hx, hparent]
  simp [decrement, hw, hhead]

/-- `for (it = begin(); it != end(); ++it)`: the nodes that `it` has been. -/
def forward (h : Cells (Bool × α)) (header n : Nat) : Nat → Nat → Option (List Nat)
  | 0, _ => none
  | k + 1, it =>
    if it = header then some []
    else do
      let next ← increment h n it
      let rest ← forward h header n k next
      some (it :: rest)

/-- `while (it != first) --it;`: the nodes that `it` becomes. -/
def backward (h : Cells (Bool × α)) (first n : Nat) : Nat → Nat → Option (List Nat)
  | 0, _ => none
  | k + 1, it =>
    if it = first then some []
    else do
      let prev ← decrement h n it
      let rest ← backward h first n k prev
      some (prev :: rest)

/-- A node at its place in the order: what is before it, and what is after it. -/
theorem exists_around (hnodup : t.addrs.Nodup) (hs : t.addrs = pre ++ a :: suf) :
    ∃ c l v r, t = plug c (.node l a v r) ∧ pre = (Path.before c).map Prod.fst ++ l.addrs ∧
      suf = r.addrs ++ (Path.after c).map Prod.fst := by
  have hmem : a ∈ t.addrs := hs ▸ List.mem_append_right _ List.mem_cons_self
  obtain ⟨c, l, v, r, rfl⟩ := exists_plug hmem
  have horder := addrs_around c l r a v
  rw [hs, List.nodup_append, List.nodup_cons] at hnodup
  have hpre : a ∉ pre := fun hm => hnodup.2.2 a hm a List.mem_cons_self rfl
  obtain ⟨h₁, -, h₂⟩ :=
    (List.append_cons_inj_of_notMem hpre hnodup.2.1.1).1 (hs.symm.trans horder)
  exact ⟨c, l, v, r, rfl, h₁, h₂⟩

/-- Two places that follow each other in the order of the nodes, with the header at the end: each of
`increment` and `decrement` leads from one to the other. -/
theorem step_both (hh : Headed h header t) (hn : t.addrs.length + 2 ≤ n)
    (hs : t.addrs ++ [header] = pre ++ a :: b :: suf) :
    increment h n a = some b ∧ decrement h n b = some a := by
  rcases List.eq_nil_or_concat' suf with rfl | ⟨suf, z, rfl⟩
  · -- `a` is the last node, and `b` the header
    obtain ⟨hs', hb⟩ := List.append_inj' (hs.trans (List.append_cons pre a [b])) rfl
    clear hs
    obtain rfl : header = b := List.singleton_inj.1 hb
    have hne : t ≠ .nil := by
      rintro rfl
      simp at hs'
    obtain ⟨c, l, v, r, rfl, -, hsuf⟩ := exists_around hh.nodup hs'
    refine ⟨?_, ?_⟩
    · rw [increment_spec hh hn, ← hsuf]
      rfl
    · rw [decrement_header hh hne, hs']
      simp
  · have hcat : pre ++ a :: b :: (suf ++ [z]) = (pre ++ a :: b :: suf) ++ [z] := by simp
    obtain ⟨hs, -⟩ := List.append_inj' (hs.trans hcat) rfl
    refine ⟨?_, ?_⟩
    · obtain ⟨c, l, v, r, rfl, -, hsuf⟩ := exists_around hh.nodup hs
      rw [increment_spec hh hn, ← hsuf]
      rfl
    · rw [List.append_cons] at hs
      obtain ⟨c, l, v, r, rfl, hpre, -⟩ := exists_around hh.nodup hs
      rw [decrement_spec hh hn (hpre ▸ by simp), ← hpre]
      simp

theorem Headed.nodup_header (hh : Headed h header t) : (t.addrs ++ [header]).Nodup :=
  List.nodup_append.2 ⟨hh.nodup, List.nodup_singleton header, fun x hx y hy hxy => by
    rw [List.mem_singleton] at hy
    exact hh.fresh (hy ▸ hxy ▸ hx)⟩

theorem forward_spec {k : Nat} (hh : Headed h header t) (hn : t.addrs.length + 2 ≤ n)
    (hs : t.addrs ++ [header] = pre ++ a :: suf) (hk : suf.length < k) :
    forward h header n k a = some (a :: suf).dropLast := by
  induction suf generalizing pre k a with
  | nil =>
    obtain ⟨k, rfl⟩ := Nat.exists_eq_add_of_le' (Nat.one_le_of_lt hk)
    obtain ⟨-, ha⟩ := List.append_inj' hs rfl
    obtain rfl : header = a := List.singleton_inj.1 ha
    simp [forward]
  | cons b suf ih =>
    obtain ⟨k, rfl⟩ := Nat.exists_eq_add_of_le' (Nat.one_le_of_lt hk)
    rw [List.length_cons] at hk
    -- the header is what comes last, and not before
    have hlast : (b :: suf).getLast? = some header := by
      have := congrArg List.getLast? hs
      simpa using this.symm
    have hne : a ≠ header := by
      intro he
      have hnd := hs ▸ hh.nodup_header
      rw [List.nodup_append, List.nodup_cons] at hnd
      exact hnd.2.1.1 (he ▸ List.mem_of_getLast? hlast)
    have hinc := (step_both hh hn hs).1
    have hrest := ih (hs.trans (List.append_cons pre a (b :: suf))) (Nat.lt_of_succ_lt_succ hk)
    simp only [forward, hne, if_false, hinc, Option.bind_eq_bind, Option.bind_some, hrest]
    rfl

theorem backward_spec {k first : Nat} (hh : Headed h header t) (hn : t.addrs.length + 2 ≤ n)
    (hfirst : (t.addrs ++ [header]).head? = some first)
    (hs : t.addrs ++ [header] = pre ++ a :: suf) (hk : pre.length < k) :
    backward h first n k a = some pre.reverse := by
  induction pre using List.reverseRecOn generalizing k a suf with
  | nil =>
    obtain ⟨k, rfl⟩ := Nat.exists_eq_add_of_le' (Nat.one_le_of_lt hk)
    rw [hs] at hfirst
    obtain rfl : a = first := by simpa using hfirst
    simp [backward]
  | append_singleton pre x ih =>
    obtain ⟨k, rfl⟩ := Nat.exists_eq_add_of_le' (Nat.one_le_of_lt hk)
    rw [List.length_append, List.length_singleton] at hk
    have hne : a ≠ first := by
      intro he
      have hmem : first ∈ pre ++ [x] := by
        rw [hs, List.head?_append_of_ne_nil _ (by simp)] at hfirst
        exact List.mem_of_head? hfirst
      have hnd := hs ▸ hh.nodup_header
      rw [List.nodup_append] at hnd
      exact hnd.2.2 first hmem a List.mem_cons_self he.symm
    rw [← List.append_cons] at hs
    have hdec := (step_both hh hn hs).2
    have hrest := ih hs (Nat.lt_of_succ_lt_succ hk)
    simp only [backward, hne, if_false, hdec, Option.bind_eq_bind, Option.bind_some, hrest,
      List.reverse_append, List.reverse_singleton, List.singleton_append]

/-- The iterators of an `rb_tree`. In the order of the nodes with the header behind them `increment`
and `decrement` lead from each place to the next and back, also at the root and at the header; the
loop from `begin` to `end` visits every node once in order, and the way back from `end` in reverse. -/
theorem rb_tree_iterators (hh : Headed h header t) (hn : t.addrs.length + 2 ≤ n) :
    (∀ pre a b suf, t.addrs ++ [header] = pre ++ a :: b :: suf →
      increment h n a = some b ∧ decrement h n b = some a) ∧
    ∀ first, t.addrs.head? = some first →
      leftmost h header = some first ∧
      forward h header n n first = some t.addrs ∧
      backward h first n n header = some t.addrs.reverse := by
  refine ⟨fun pre a b suf hs => step_both hh hn hs, fun first hfirst => ?_⟩
  obtain ⟨w, hw⟩ := hh.header
  obtain ⟨rest, hrest⟩ := List.head?_eq_some_iff.1 hfirst
  have hs : t.addrs ++ [header] = [] ++ first :: (rest ++ [header]) := by rw [hrest]; rfl
  have hlen : (rest ++ [header]).length < n := by
    have := congrArg List.length hrest
    rw [List.length_cons] at this
    rw [List.length_append, List.length_singleton]
    omega
  refine ⟨by simp [leftmost, hw, hfirst], ?_, ?_⟩
  · rw [forward_spec hh hn hs hlen, hrest, ← List.cons_append, List.dropLast_concat]
  · exact backward_spec hh hn (by rw [hs]; rfl) rfl (by omega)

/-- A root with one child on the left, under a header. -/
def twoNodes : Cells (Bool × Nat)
  | 1 => some ⟨(rb_tree_red, 0), some 3, some 2, some 2⟩
  | 2 => some ⟨(rb_tree_black, 20), some 3, none, some 1⟩
  | 3 => some ⟨(rb_tree_red, 10), none, none, some 2⟩
  | _ => none

theorem twoNodes_headed : Headed twoNodes 1
    (.node (.node .nil 3 (rb_tree_red, 10) .nil) 2 (rb_tree_black, 20) .nil) where
  mem := ⟨rfl, ⟨rfl, trivial, trivial⟩, trivial⟩
  nodup := by decide
  fresh := by decide
  header := ⟨0, rfl⟩
  black p hp x hx := by
    obtain rfl : 2 = p := by simpa using hp
    obtain rfl := Option.some.inj hx
    rfl

/-- Through two nodes, and to the header. -/
theorem rb_tree_iterators_two :
    (∀ pre a b suf, [3, 2] ++ [1] = pre ++ a :: b :: suf →
      increment twoNodes 4 a = some b ∧ decrement twoNodes 4 b = some a) ∧
    ∀ first, [3, 2].head? = some first →
      leftmost twoNodes 1 = some first ∧
      forward twoNodes 1 4 4 first = some [3, 2] ∧
      backward twoNodes first 4 4 1 = some [3, 2].reverse :=
  rb_tree_iterators twoNodes_headed (by decide)

end LearningNotes.Stl
