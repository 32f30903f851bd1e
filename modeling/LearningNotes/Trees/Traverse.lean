import LearningNotes.Lib.PTree

/-!
# Traversals with a stack

`PreOrder` of `DataStructure.md` and the two recursions like it, and the three traversals without
recursion. Their inner loop goes to the left end of a tree, with the nodes that it passes on the
stack; a round of the outer loop from a node is therefore one from its left child with the node on
the stack (`round_left`, `postRound_left`), and a traversal of a tree with a stack below it ends in
`T == NULL` with that stack.

`traverse_eq`: they print what the recursions print.

Mirroring notes:
- A node is read through its address, and there is no result if there is none there, or for the top
  of an empty stack.
- Recursions and loops have a bound on their depth and their rounds.
-/

namespace LearningNotes.Trees.Traverse

abbrev ElemType := UInt8

/-- A node. -/
structure BiTree where
  data : ElemType
  lchild : Option Nat
  rchild : Option Nat

/-- The nodes by their addresses. -/
abbrev Memory := Nat → Option BiTree

/-- `printf("空树\n")` -/
def emptyTree : List ElemType := "空树\n".toUTF8.toList

variable (mem : Memory)

/-! ## The recursions -/

/-- What a recursion prints for a node, given what it prints for the children. -/
abbrev Visit := ElemType → List ElemType → List ElemType → List ElemType

/-- The recursive traversals, each with its `visit`. -/
def recursive (visit : Visit) : Nat → Option Nat → Option (List ElemType)
  | 0, _ => none
  | _ + 1, none => some []
  | n + 1, some a => do
    let x ← mem a
    let l ← recursive visit n x.lchild
    let r ← recursive visit n x.rchild
    some (visit x.data l r)

/-- The node first. -/
def preVisit : Visit := fun d l r => d :: (l ++ r)
/-- The node between its subtrees. -/
def inVisit : Visit := fun d l r => l ++ d :: r
/-- The node last. -/
def postVisit : Visit := fun d l r => l ++ r ++ [d]

/-- `PreOrder` -/
def preOrder := recursive mem preVisit
def inOrder := recursive mem inVisit
def postOrder := recursive mem postVisit

/-! ## The loops -/

/-- `while(T)`: the stack and what has been printed at its end; `print` is what it prints for a
node. -/
def goLeft (print : ElemType → List ElemType) : Nat → Option Nat → List Nat → List ElemType →
    Option (List Nat × List ElemType)
  | 0, _, _, _ => none
  | _ + 1, none, s, out => some (s, out)
  | n + 1, some a, s, out => do
    let x ← mem a
    goLeft print n x.lchild (a :: s) (out ++ print x.data)

/-- `while(T||!s.empty())` of the first two, which print a node when it goes on the stack, or when
it comes off. -/
def traverseLoop (on off : ElemType → List ElemType) (rounds : Nat) : Nat → Option Nat →
    List Nat → List ElemType → Option (List ElemType)
  | 0, _, _, _ => none
  | n + 1, T, s, out =>
    if T = none ∧ s = [] then some out
    else do
      let (s, out) ← goLeft mem on rounds T s out
      let a ← s.head?
      let x ← mem a
      traverseLoop on off rounds n x.rchild s.tail (out ++ off x.data)

/-- `PreOrderTraverse`, with the text for the empty tree. -/
def preOrderTraverse (n : Nat) (T : Option Nat) : Option (List ElemType) :=
  if T = none then some emptyTree
  else traverseLoop mem (fun d => [d]) (fun _ => []) n n T [] []

/-- `InOrderTraverse` -/
def inOrderTraverse (n : Nat) (T : Option Nat) : Option (List ElemType) :=
  if T = none then some emptyTree
  else traverseLoop mem (fun _ => []) (fun d => [d]) n n T [] []

/-- `while(T||!s.empty())` of `PostOrderTraverse`. -/
def postLoop (rounds : Nat) : Nat → Option Nat → Option Nat → List Nat → List ElemType →
    Option (List ElemType)
  | 0, _, _, _, _ => none
  | n + 1, T, pre, s, out =>
    if T = none ∧ s = [] then some out
    else do
      let (s, out) ← goLeft mem (fun _ => []) rounds T s out
      let a ← s.head?
      let x ← mem a
      if x.rchild = none ∨ x.rchild = pre then
        postLoop rounds n none (some a) s.tail (out ++ [x.data])
      else postLoop rounds n x.rchild pre s out

/-- `PostOrderTraverse` -/
def postOrderTraverse (n : Nat) (T : Option Nat) : Option (List ElemType) :=
  if T = none then some emptyTree
  else postLoop mem n n T none [] []

/-! ## A tree in memory -/

/-- The tree `t` is in memory. -/
def Holds : PTree ElemType → Prop
  | .nil => True
  | .node l p v r => mem p = some ⟨v, l.root, r.root⟩ ∧ Holds l ∧ Holds r

/-- What a recursion prints for a tree. -/
def listed (visit : Visit) : PTree ElemType → List ElemType
  | .nil => []
  | .node l _ v r => visit v (listed visit l) (listed visit r)

variable {mem} {t l r : PTree ElemType} {visit : Visit} {on off : ElemType → List ElemType}
  {n k rounds p a : Nat} {v : ElemType} {pre : Option Nat} {s : List Nat} {out : List ElemType}

open PTree

theorem length_addrs_node : (PTree.node l p v r).addrs.length =
    l.addrs.length + r.addrs.length + 1 := by
  rw [addrs_node, List.length_append, List.length_cons]
  omega

/-- The recursive traversal lists the tree. -/
theorem recursive_eq (h : Holds mem t) (hn : t.addrs.length < n) :
    recursive mem visit n t.root = some (listed visit t) := by
  induction t generalizing n with
  | nil =>
    obtain ⟨n, rfl⟩ := Nat.exists_eq_add_of_le' (show 1 ≤ n by omega)
    rfl
  | node l p v r ihl ihr =>
    obtain ⟨hp, hl, hr⟩ := h
    rw [length_addrs_node] at hn
    obtain ⟨n, rfl⟩ := Nat.exists_eq_add_of_le' (show 1 ≤ n by omega)
    rw [root_node, recursive, hp, Option.bind_eq_bind, Option.bind_some]
    dsimp only
    rw [ihl hl (by omega), ihr hr (by omega)]
    rfl

/-! ## To the left end -/

/-- The way to the left end of a tree, from its end. -/
def spine : PTree ElemType → List (Nat × ElemType)
  | .nil => []
  | .node l p v _ => spine l ++ [(p, v)]

/-- The inner loop puts the left spine on the stack. -/
theorem goLeft_eq (h : Holds mem t) (hn : t.addrs.length < n) :
    goLeft mem on n t.root s out =
      some ((spine t).map Prod.fst ++ s, out ++ (spine t).reverse.flatMap fun x => on x.2) := by
  induction t generalizing n s out with
  | nil =>
    obtain ⟨n, rfl⟩ := Nat.exists_eq_add_of_le' (show 1 ≤ n by omega)
    rw [spine, List.map_nil, List.nil_append, List.reverse_nil, List.flatMap_nil, List.append_nil]
    rfl
  | node l p v r ihl ihr =>
    obtain ⟨hp, hl, hr⟩ := h
    rw [length_addrs_node] at hn
    obtain ⟨n, rfl⟩ := Nat.exists_eq_add_of_le' (show 1 ≤ n by omega)
    rw [root_node, goLeft, hp, Option.bind_eq_bind, Option.bind_some, ihl hl (by omega), spine]
    simp

/-- To the left end from a node is from its left child, with the node on the stack. -/
theorem goLeft_node (h : Holds mem (.node l p v r))
    (hn : (PTree.node l p v r).addrs.length < n) :
    goLeft mem on n (some p) s out = goLeft mem on n l.root (p :: s) (out ++ on v) := by
  have hleft : l.addrs.length < n := by
    rw [length_addrs_node] at hn
    omega
  rw [← root_node (l := l) (v := v) (r := r), goLeft_eq h hn, goLeft_eq h.2.1 hleft, spine]
  simp

/-! ## The first two traversals -/

/-- A round from a node is one from its left child, with the node on the stack. -/
theorem round_left (h : Holds mem (.node l p v r))
    (hrounds : (PTree.node l p v r).addrs.length < rounds) (hn : 1 ≤ n) :
    traverseLoop mem on off rounds n (some p) s out =
      traverseLoop mem on off rounds n l.root (p :: s) (out ++ on v) := by
  obtain ⟨n, rfl⟩ := Nat.exists_eq_add_of_le' hn
  rw [traverseLoop, traverseLoop, if_neg (by simp), if_neg (by simp), goLeft_node h hrounds]

/-- A round that takes a node off the stack. -/
theorem round_off (hp : mem p = some ⟨v, l.root, r.root⟩) (hrounds : 1 ≤ rounds) :
    traverseLoop mem on off rounds (n + 1) none (p :: s) out =
      traverseLoop mem on off rounds n r.root s (out ++ off v) := by
  obtain ⟨rounds, rfl⟩ := Nat.exists_eq_add_of_le' hrounds
  rw [traverseLoop, if_neg (by simp), goLeft, Option.bind_eq_bind, Option.bind_some,
    Option.bind_eq_bind]
  dsimp only
  rw [List.head?_cons, Option.bind_some, hp]
  rfl

/-- What the first two traversals print for a tree. -/
def printed (on off : ElemType → List ElemType) : PTree ElemType → List ElemType
  | .nil => []
  | .node l _ v r => on v ++ printed on off l ++ off v ++ printed on off r

/-- **A tree with a stack below it**, by induction on the tree: one round for each node. -/
theorem traverseLoop_eq (h : Holds mem t) (hrounds : t.addrs.length < rounds) :
    traverseLoop mem on off rounds (n + 1 + t.addrs.length) t.root s out =
      traverseLoop mem on off rounds (n + 1) none s (out ++ printed on off t) := by
  induction t generalizing n s out with
  | nil => rw [printed, List.append_nil]; rfl
  | node l p v r ihl ihr =>
    have hnode := h
    obtain ⟨hp, hl, hr⟩ := h
    have hlen := hrounds
    rw [length_addrs_node] at hlen
    have hfuel : n + 1 + (PTree.node l p v r).addrs.length =
        n + 1 + r.addrs.length + 1 + l.addrs.length := by
      rw [length_addrs_node]
      omega
    rw [root_node, round_left hnode hrounds (by omega), hfuel, ihl hl (by omega),
      round_off hp (by omega), ihr hr (by omega), printed]
    simp only [List.append_assoc]

/-- The loop is done with a whole tree. -/
theorem traverseLoop_run (h : Holds mem t) (hn : t.addrs.length < n) :
    traverseLoop mem on off n n t.root [] [] = some (printed on off t) := by
  have hfuel : n = n - t.addrs.length - 1 + 1 + t.addrs.length := by omega
  have hrun : traverseLoop mem on off n (n - t.addrs.length - 1 + 1 + t.addrs.length) t.root [] [] =
      traverseLoop mem on off n (n - t.addrs.length - 1 + 1) none [] ([] ++ printed on off t) :=
    traverseLoop_eq h hn
  rw [← hfuel, List.nil_append] at hrun
  rw [hrun]
  exact if_pos ⟨rfl, rfl⟩

/-- It prints what `PreOrder` prints. -/
theorem preOrderTraverse_eq (h : Holds mem t) (hne : t ≠ .nil) (hn : t.addrs.length < n) :
    preOrderTraverse mem n t.root = some (listed preVisit t) := by
  have hlisted : ∀ t, printed (fun d => [d]) (fun _ => []) t = listed preVisit t := by
    intro t
    induction t with
    | nil => rfl
    | node l p v r ihl ihr =>
      rw [printed, listed, ihl, ihr, List.append_nil]
      rfl
  rw [preOrderTraverse, if_neg (mt root_eq_none.mp hne), traverseLoop_run h hn, hlisted]

/-- It prints what the recursive traversal prints. -/
theorem inOrderTraverse_eq (h : Holds mem t) (hne : t ≠ .nil) (hn : t.addrs.length < n) :
    inOrderTraverse mem n t.root = some (listed inVisit t) := by
  have hlisted : ∀ t, printed (fun _ => []) (fun d => [d]) t = listed inVisit t := by
    intro t
    induction t with
    | nil => rfl
    | node l p v r ihl ihr =>
      rw [printed, listed, ihl, ihr, List.nil_append, List.append_assoc]
      rfl
  rw [inOrderTraverse, if_neg (mt root_eq_none.mp hne), traverseLoop_run h hn, hlisted]

/-! ## The third traversal -/

/-- A round from a node is one from its left child, with the node on the stack. -/
theorem postRound_left (h : Holds mem (.node l p v r))
    (hrounds : (PTree.node l p v r).addrs.length < rounds) (hn : 1 ≤ n) :
    postLoop mem rounds n (some p) pre s out = postLoop mem rounds n l.root pre (p :: s) out := by
  obtain ⟨n, rfl⟩ := Nat.exists_eq_add_of_le' hn
  rw [postLoop, postLoop, if_neg (by simp), if_neg (by simp), goLeft_node h hrounds, List.append_nil]

/-- A round that finds `p` on the stack: it is printed, or its right subtree comes first. -/
theorem postRound_top (hp : mem p = some ⟨v, l.root, r.root⟩) (hrounds : 1 ≤ rounds) :
    postLoop mem rounds (n + 1) none pre (p :: s) out =
      if r.root = none ∨ r.root = pre then postLoop mem rounds n none (some p) s (out ++ [v])
      else postLoop mem rounds n r.root pre (p :: s) out := by
  obtain ⟨rounds, rfl⟩ := Nat.exists_eq_add_of_le' hrounds
  rw [postLoop, if_neg (by simp), goLeft, Option.bind_eq_bind, Option.bind_some,
    Option.bind_eq_bind]
  dsimp only
  rw [List.head?_cons, Option.bind_some, hp]
  rfl

/-- A node is found on the stack twice if it has a right subtree, and once if it has none. -/
def postRounds : PTree ElemType → Nat
  | .nil => 0
  | .node l _ _ r => postRounds l + postRounds r + if r = .nil then 1 else 2

/-- Two rounds for each node are enough. -/
theorem postRounds_le (t : PTree ElemType) : postRounds t ≤ 2 * t.addrs.length := by
  induction t with
  | nil => exact Nat.le_refl 0
  | node l p v r ihl ihr =>
    rw [postRounds, length_addrs_node]
    split <;> omega

/-- The node visited last is not in the right subtree, when the left one has been traversed. -/
theorem visited_notMem (hl : ∀ a ∈ l.addrs, a ∉ r.addrs) (hpre : ∀ a ∈ r.addrs, pre ≠ some a) :
    ∀ a ∈ r.addrs, l.root.or pre ≠ some a := by
  intro a ha heq
  cases hroot : l.root with
  | none =>
    rw [hroot, Option.none_or] at heq
    exact hpre a ha heq
  | some b =>
    rw [hroot, Option.some_or] at heq
    obtain rfl := Option.some_inj.mp heq
    exact hl b (mem_addrs_of_root hroot) ha

/-- **A tree with a stack below it**: at its end `pre` is its root. The node visited before is not
in the tree, so that a right child is `pre` only after its subtree. -/
theorem postLoop_eq (h : Holds mem t) (hnodup : t.addrs.Nodup)
    (hpre : ∀ a ∈ t.addrs, pre ≠ some a) (hrounds : t.addrs.length < rounds) :
    postLoop mem rounds (n + 1 + postRounds t) t.root pre s out =
      postLoop mem rounds (n + 1) none (t.root.or pre) s (out ++ listed postVisit t) := by
  induction t generalizing n pre s out with
  | nil => rw [listed, List.append_nil]; rfl
  | node l p v r ihl ihr =>
    have hnode := h
    obtain ⟨hp, hl, hr⟩ := h
    obtain ⟨hlnodup, hrnodup, -, -, hdisj⟩ := nodup_mk (d := .left) |>.mp hnodup
    have hlen := hrounds
    rw [length_addrs_node] at hlen
    have hprel : ∀ a ∈ l.addrs, pre ≠ some a := by
      intro a ha
      exact hpre a (by simp [ha])
    have hprer : ∀ a ∈ r.addrs, pre ≠ some a := by
      intro a ha
      exact hpre a (by simp [ha])
    have hlisted : listed postVisit (.node l p v r) =
        listed postVisit l ++ listed postVisit r ++ [v] := rfl
    rw [root_node, postRound_left hnode hrounds (by omega), postRounds, hlisted, Option.some_or]
    by_cases hnil : r = .nil
    · have hfuel : n + 1 + (postRounds l + postRounds r + 1) = n + 1 + 1 + postRounds l := by
        rw [hnil, postRounds]
        omega
      rw [if_pos hnil, hfuel, ihl hl hlnodup hprel (by omega), postRound_top hp (by omega),
        if_pos (.inl (root_eq_none.mpr hnil)), hnil, listed]
      simp only [List.append_assoc, List.nil_append]
    · have hfuel : n + 1 + (postRounds l + postRounds r + 2) =
          n + 1 + 1 + postRounds r + 1 + postRounds l := by
        omega
      have hfirst : ¬(r.root = none ∨ r.root = l.root.or pre) := by
        rintro (hnone | hsame)
        · exact hnil (root_eq_none.mp hnone)
        · obtain ⟨b, hb⟩ := Option.ne_none_iff_exists'.mp (mt root_eq_none.mp hnil)
          exact visited_notMem hdisj hprer b (mem_addrs_of_root hb) (hsame.symm.trans hb)
      have hsecond : r.root.or (l.root.or pre) = r.root := by
        obtain ⟨b, hb⟩ := Option.ne_none_iff_exists'.mp (mt root_eq_none.mp hnil)
        rw [hb, Option.some_or]
      -- down to the right, and with `pre` at its root back to `p`
      rw [if_neg hnil, hfuel, ihl hl hlnodup hprel (by omega), postRound_top hp (by omega),
        if_neg hfirst, ihr hr hrnodup (visited_notMem hdisj hprer) (by omega), hsecond,
        postRound_top hp (by omega), if_pos (.inr rfl)]
      simp only [List.append_assoc]

/-- It prints what the recursive traversal prints. -/
theorem postOrderTraverse_eq (h : Holds mem t) (hnodup : t.addrs.Nodup) (hne : t ≠ .nil)
    (hn : 2 * t.addrs.length < n) : postOrderTraverse mem n t.root = some (listed postVisit t) := by
  have hle := postRounds_le t
  have hfuel : n = n - postRounds t - 1 + 1 + postRounds t := by omega
  have hrun : postLoop mem n (n - postRounds t - 1 + 1 + postRounds t) t.root none [] [] =
      postLoop mem n (n - postRounds t - 1 + 1) none (t.root.or none) [] ([] ++ listed postVisit t) :=
    postLoop_eq h hnodup (fun _ _ => nofun) (by omega)
  rw [← hfuel, List.nil_append] at hrun
  rw [postOrderTraverse, if_neg (mt root_eq_none.mp hne), hrun]
  exact if_pos ⟨rfl, rfl⟩

/-- **The traversals without recursion print what the recursions print.** -/
theorem traverse_eq (h : Holds mem t) (hnodup : t.addrs.Nodup) (hne : t ≠ .nil)
    (hn : 2 * t.addrs.length < n) :
    (∃ out, preOrder mem n t.root = some out ∧ preOrderTraverse mem n t.root = some out) ∧
    (∃ out, inOrder mem n t.root = some out ∧ inOrderTraverse mem n t.root = some out) ∧
    ∃ out, postOrder mem n t.root = some out ∧ postOrderTraverse mem n t.root = some out := by
  have hlen : t.addrs.length < n := by omega
  exact ⟨⟨_, recursive_eq h hlen, preOrderTraverse_eq h hne hlen⟩,
    ⟨_, recursive_eq h hlen, inOrderTraverse_eq h hne hlen⟩,
    ⟨_, recursive_eq h hlen, postOrderTraverse_eq h hnodup hne hn⟩⟩

/-- The tree of the notes, `ABC××D××E×F××`, with its nodes at 1 to 6. -/
def notesTree : PTree ElemType :=
  .node (.node (.node .nil 3 67 .nil) 2 66 (.node .nil 4 68 .nil)) 1 65
    (.node .nil 5 69 (.node .nil 6 70 .nil))

def notesMemory : Memory
  | 1 => some ⟨65, some 2, some 5⟩
  | 2 => some ⟨66, some 3, some 4⟩
  | 3 => some ⟨67, none, none⟩
  | 4 => some ⟨68, none, none⟩
  | 5 => some ⟨69, none, some 6⟩
  | 6 => some ⟨70, none, none⟩
  | _ => none

/-- The tree of the notes. -/
theorem traverse_eq_notes :
    (∃ out, preOrder notesMemory 13 (some 1) = some out ∧
      preOrderTraverse notesMemory 13 (some 1) = some out) ∧
    (∃ out, inOrder notesMemory 13 (some 1) = some out ∧
      inOrderTraverse notesMemory 13 (some 1) = some out) ∧
    ∃ out, postOrder notesMemory 13 (some 1) = some out ∧
      postOrderTraverse notesMemory 13 (some 1) = some out := by
  have h : Holds notesMemory notesTree :=
    ⟨rfl, ⟨rfl, ⟨rfl, trivial, trivial⟩, rfl, trivial, trivial⟩, rfl, trivial, rfl, trivial, trivial⟩
  exact traverse_eq h (by decide) nofun (by decide)

end LearningNotes.Trees.Traverse
