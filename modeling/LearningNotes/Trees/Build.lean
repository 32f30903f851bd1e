import LearningNotes.Trees.Traverse
import Mathlib.Data.List.Count
import Mathlib.Logic.Function.Basic

/-!
# Building a tree

`CreateBiTree` of `DataStructure.md` reads a tree in preorder, with a blank for each empty one. `spell`
is how a tree is written for it: what it reads is the spelling of the tree it builds, it reads every
spelling of a tree without blanks in its nodes, and it ends if and only if some part of the input from
its beginning on has more blanks than other characters.

Mirroring notes:
- `malloc i` is what the call number `i` of `malloc` returns.
- At the end of the input there is no result: `scanf` leaves `ch` without a value there.
- The pointer to a node is stored when the node's own children have been built. Nothing reads it before.
-/

namespace LearningNotes.Trees.Traverse

open PTree

/-- `' '` -/
def blank : ElemType := 32

def setLchild (p : Nat) (q : Option Nat) (mem : Memory) : Option Memory :=
  (mem p).map fun x => Function.update mem p (some { x with lchild := q })

def setRchild (p : Nat) (q : Option Nat) (mem : Memory) : Option Memory :=
  (mem p).map fun x => Function.update mem p (some { x with rchild := q })

/-- The memory, the number of the next call of `malloc` and what is left of the input. -/
structure Reading where
  mem : Memory
  calls : Nat
  input : List ElemType

def createBiTree (malloc : Nat → Nat) : Nat → Reading → Option (Reading × Option Nat)
  | 0, _ => none
  | n + 1, x =>
    match x.input with
    | [] => none
    | ch :: input =>
      if ch = blank then some ({ x with input }, none)
      else do
        let p := malloc x.calls
        let mem := Function.update x.mem p (some ⟨ch, none, none⟩)
        let (x, l) ← createBiTree malloc n ⟨mem, x.calls + 1, input⟩
        let mem ← setLchild p l x.mem
        let (x, r) ← createBiTree malloc n { x with mem }
        let mem ← setRchild p r x.mem
        some ({ x with mem }, some p)

/-- A tree as it is written for `CreateBiTree`. -/
def spell : PTree ElemType → List ElemType
  | .nil => [blank]
  | .node l _ v r => v :: (spell l ++ spell r)

/-- No node has a blank. -/
def NoBlank : PTree ElemType → Prop
  | .nil => True
  | .node l _ v r => v ≠ blank ∧ NoBlank l ∧ NoBlank r

/-- How many more blanks there are than other characters. -/
def excess (s : List ElemType) : Int := 2 * (s.count blank : Int) - s.length

variable {mem mem' : Memory} {malloc : Nat → Nat} {t l r : PTree ElemType} {n p k : Nat}
  {v : ElemType} {s s' input rest : List ElemType} {x x' : Reading} {T : Option Nat}

/-! ## Spellings -/

@[simp] theorem excess_nil : excess [] = 0 := rfl

theorem excess_cons (v : ElemType) (s : List ElemType) :
    excess (v :: s) = (if v = blank then 1 else -1) + excess s := by
  unfold excess
  rw [List.count_cons, List.length_cons]
  by_cases hv : v = blank
  · simp [hv]
    omega
  · simp [hv]
    omega

theorem excess_append (s s' : List ElemType) : excess (s ++ s') = excess s + excess s' := by
  unfold excess
  rw [List.count_append, List.length_append]
  omega

theorem excess_spell (h : NoBlank t) : excess (spell t) = 1 := by
  induction t with
  | nil => rfl
  | node l p v r ihl ihr =>
    obtain ⟨hv, hl, hr⟩ := h
    rw [spell, excess_cons, excess_append, ihl hl, ihr hr, if_neg hv]
    rfl

/-- What the recursion prints is the spelling without its blanks. -/
theorem listed_spell (h : NoBlank t) : listed preVisit t = (spell t).filter (· ≠ blank) := by
  induction t with
  | nil => rfl
  | node l p v r ihl ihr =>
    obtain ⟨hv, hl, hr⟩ := h
    rw [listed, ihl hl, ihr hr, spell, List.filter_cons_of_pos (by simpa using hv), List.filter_append]
    rfl

/-- Spellings of `d` trees stand at the beginning of an input with a part of an excess of `d`. -/
theorem exists_spells : ∀ (input : List ElemType) (d k : Nat), (d : Int) ≤ excess (input.take k) →
    ∃ (ts : List (PTree ElemType)) (rest : List ElemType), ts.length = d ∧ (∀ t ∈ ts, NoBlank t) ∧
      input = (ts.map spell).flatten ++ rest
  | input, 0, _, _ => ⟨[], input, rfl, by simp, by simp⟩
  | [], d + 1, k, h => by
    rw [List.take_nil, excess_nil] at h
    omega
  | ch :: input, d + 1, k, h => by
    cases k with
    | zero =>
      rw [List.take_zero, excess_nil] at h
      omega
    | succ k =>
      rw [List.take_succ_cons, excess_cons] at h
      by_cases hch : ch = blank
      · rw [if_pos hch] at h
        obtain ⟨ts, rest, hlen, hts, he⟩ := exists_spells input d k (by omega)
        refine ⟨.nil :: ts, rest, by simp [hlen], ?_, by simp [he, spell, hch]⟩
        simpa [NoBlank] using hts
      · rw [if_neg hch] at h
        obtain ⟨ts, rest, hlen, hts, he⟩ := exists_spells input (d + 2) k (by omega)
        rcases ts with _ | ⟨l, _ | ⟨r, ts⟩⟩
        · simp at hlen
        · simp at hlen
        · simp only [List.length_cons, Nat.add_right_cancel_iff] at hlen
          simp only [List.mem_cons, forall_eq_or_imp] at hts
          refine ⟨.node l 0 ch r :: ts, rest, by simp [hlen], ?_, by simp [he, spell]⟩
          simpa [NoBlank, hch, hts.1, hts.2.1] using hts.2.2

/-- An input begins with a spelling if and only if a part of it has more blanks. -/
theorem exists_spell_iff : (∃ t rest, NoBlank t ∧ input = spell t ++ rest) ↔
    ∃ k, 0 < excess (input.take k) := by
  constructor
  · rintro ⟨t, rest, ht, rfl⟩
    exact ⟨(spell t).length, by rw [List.take_left, excess_spell ht]; decide⟩
  · rintro ⟨k, hk⟩
    obtain ⟨ts, rest, hlen, hts, he⟩ := exists_spells input 1 k (by omega)
    obtain ⟨t, rfl⟩ := List.length_eq_one_iff.1 hlen
    exact ⟨t, rest, hts t (by simp), by simpa using he⟩

/-! ## What is built -/

theorem Holds.congr (h : Holds mem t) (heq : ∀ a ∈ t.addrs, mem' a = mem a) : Holds mem' t := by
  induction t with
  | nil => trivial
  | node l p v r ihl ihr =>
    obtain ⟨hp, hl, hr⟩ := h
    rw [addrs_node] at heq
    refine ⟨(heq p (by simp)).trans hp, ihl hl fun a ha => heq a (by simp [ha]),
      ihr hr fun a ha => heq a (by simp [ha])⟩

/-- From `x` to `x'` the tree `t` has been built, of the nodes that `malloc` returned. -/
structure Built (malloc : Nat → Nat) (x x' : Reading) (t : PTree ElemType) : Prop where
  holds : Holds x'.mem t
  nodup : t.addrs.Nodup
  calls : x.calls ≤ x'.calls
  new : ∀ a ∈ t.addrs, ∃ i, x.calls ≤ i ∧ i < x'.calls ∧ malloc i = a
  frame : ∀ a, (∀ i, x.calls ≤ i → i < x'.calls → malloc i ≠ a) → x'.mem a = x.mem a

/-- Nodes of different calls of `malloc`. -/
theorem Built.disjoint {y y' : Reading} (hinj : malloc.Injective) (h : Built malloc x x' l)
    (h' : Built malloc y y' r) (hle : x'.calls ≤ y.calls) : ∀ a ∈ l.addrs, a ∉ r.addrs := by
  intro a ha ha'
  obtain ⟨i, -, hi, rfl⟩ := h.new a ha
  obtain ⟨j, hj, -, he⟩ := h'.new _ ha'
  have := hinj he
  omega

theorem createBiTree_spell (hinj : malloc.Injective) (ht : NoBlank t) (hx : x.input = spell t ++ rest)
    (hn : (spell t).length < n) :
    ∃ x' t', createBiTree malloc n x = some (x', t'.root) ∧ x'.input = rest ∧ spell t' = spell t ∧
      NoBlank t' ∧ Built malloc x x' t' := by
  induction t generalizing n x rest with
  | nil =>
    obtain ⟨n, rfl⟩ := Nat.exists_eq_add_of_le' (show 1 ≤ n by omega)
    refine ⟨{ x with input := rest }, .nil, ?_, rfl, rfl, trivial, trivial, List.nodup_nil,
      Nat.le_refl _, by simp, fun _ _ => rfl⟩
    simp only [createBiTree, hx, spell, List.singleton_append, if_true]
    rfl
  | node l p v r ihl ihr =>
    obtain ⟨hv, hl, hr⟩ := ht
    rw [spell, List.length_cons, List.length_append] at hn
    obtain ⟨n, rfl⟩ := Nat.exists_eq_add_of_le' (show 1 ≤ n by omega)
    rw [spell, List.cons_append, List.append_assoc] at hx
    obtain ⟨x₁, l', hl₁, hin₁, hsp₁, hb₁, h₁⟩ := ihl (n := n) hl
      (x := ⟨Function.update x.mem (malloc x.calls) (some ⟨v, none, none⟩), x.calls + 1,
        spell l ++ (spell r ++ rest)⟩) rfl (by omega)
    have hp₁ : x₁.mem (malloc x.calls) = some ⟨v, none, none⟩ := by
      rw [h₁.frame _ fun i hi _ he => by have := hinj he; simp at hi; omega]
      simp
    obtain ⟨x₂, r', hr₂, hin₂, hsp₂, hb₂, h₂⟩ := ihr (n := n) hr
      (x := { x₁ with mem := Function.update x₁.mem (malloc x.calls) (some ⟨v, l'.root, none⟩) })
      hin₁ (by omega)
    have hp₂ : x₂.mem (malloc x.calls) = some ⟨v, l'.root, none⟩ := by
      rw [h₂.frame _ fun i hi _ he => by
        have := hinj he
        have := h₁.calls
        simp only at *
        omega]
      simp
    have hc₁ : x.calls + 1 ≤ x₁.calls := h₁.calls
    have hc₂ : x₁.calls ≤ x₂.calls := h₂.calls
    -- the nodes below are not the new one
    have hnot : ∀ a, (∃ i, x.calls + 1 ≤ i ∧ malloc i = a) → a ≠ malloc x.calls := by
      rintro a ⟨i, hi, rfl⟩ he
      have := hinj he
      omega
    have hnew₁ : ∀ a ∈ l'.addrs, a ≠ malloc x.calls := by
      intro a ha
      obtain ⟨i, hi, -, he⟩ := h₁.new a ha
      exact hnot a ⟨i, hi, he⟩
    have hnew₂ : ∀ a ∈ r'.addrs, a ≠ malloc x.calls := by
      intro a ha
      obtain ⟨i, hi, -, he⟩ := h₂.new a ha
      exact hnot a ⟨i, hc₁.trans hi, he⟩
    have hkeep : ∀ a ∈ l'.addrs, x₂.mem a = x₁.mem a := by
      intro a ha
      obtain ⟨i, -, hi, rfl⟩ := h₁.new a ha
      rw [h₂.frame _ fun j hj _ he => by
        have := hinj he
        simp only at hj
        omega]
      exact Function.update_of_ne (hnew₁ _ ha) ..
    have hbuilt : Built malloc x
        { x₂ with mem := Function.update x₂.mem (malloc x.calls) (some ⟨v, l'.root, r'.root⟩) }
        (.node l' (malloc x.calls) v r') := by
      refine ⟨⟨by simp, h₁.holds.congr fun a ha => ?_, h₂.holds.congr fun a ha => ?_⟩, ?_,
        by simp only; omega, fun a ha => ?_, fun a ha => ?_⟩
      · exact (Function.update_of_ne (hnew₁ a ha) ..).trans (hkeep a ha)
      · exact Function.update_of_ne (hnew₂ a ha) ..
      · exact (nodup_mk (d := .left)).2 ⟨h₁.nodup, h₂.nodup, fun h => hnew₁ _ h rfl,
          fun h => hnew₂ _ h rfl, h₁.disjoint hinj h₂ (Nat.le_refl _)⟩
      · rw [addrs_node, List.mem_append, List.mem_cons] at ha
        rcases ha with ha | rfl | ha
        · obtain ⟨i, h₁, h₂, he⟩ := h₁.new a ha
          exact ⟨i, (Nat.le_succ _).trans h₁, Nat.lt_of_lt_of_le h₂ hc₂, he⟩
        · exact ⟨x.calls, Nat.le_refl _, hc₁.trans hc₂, rfl⟩
        · obtain ⟨i, h₁, h₂, he⟩ := h₂.new a ha
          exact ⟨i, ((Nat.le_succ _).trans hc₁).trans h₁, h₂, he⟩
      · have hne : a ≠ malloc x.calls := (ha x.calls (Nat.le_refl _) (hc₁.trans hc₂)).symm
        have h₂' := h₂.frame a fun i hi hlt => ha i (((Nat.le_succ _).trans hc₁).trans hi) hlt
        have h₁' := h₁.frame a fun i hi hlt => ha i ((Nat.le_succ _).trans hi) (hlt.trans_le hc₂)
        simp only [Function.update_of_ne hne] at h₁' h₂' ⊢
        rw [h₂', h₁']
    refine ⟨{ x₂ with mem := Function.update x₂.mem (malloc x.calls) (some ⟨v, l'.root, r'.root⟩) },
      .node l' (malloc x.calls) v r', ?_, hin₂, ?_, ⟨hv, hb₁, hb₂⟩, hbuilt⟩
    · simp only [createBiTree, hx, if_neg hv, hl₁, setLchild, hp₁, hr₂, setRchild, hp₂,
        Option.bind_eq_bind, Option.bind_some, Option.map_some]
      rfl
    · rw [spell, hsp₁, hsp₂, spell]

/-- What has been read is the spelling of a tree. -/
theorem createBiTree_reads (h : createBiTree malloc n x = some (x', T)) :
    ∃ t, NoBlank t ∧ x.input = spell t ++ x'.input := by
  induction n generalizing x x' T with
  | zero => cases h
  | succ n ih =>
    unfold createBiTree at h
    split at h
    next => cases h
    next ch input hinput =>
      split at h
      next hch =>
        cases h
        exact ⟨.nil, trivial, by rw [hinput, hch]; rfl⟩
      next hch =>
        simp only [Option.bind_eq_bind, Option.bind_eq_some_iff, Prod.exists, Option.some.injEq,
          Prod.mk.injEq] at h
        obtain ⟨x₁, l, h₁, mem₁, -, x₂, r, h₂, mem₂, -, rfl, -⟩ := h
        obtain ⟨tl, hl, he₁⟩ := ih h₁
        obtain ⟨tr, hr, he₂⟩ := ih h₂
        refine ⟨.node tl 0 ch tr, ⟨hch, hl, hr⟩, ?_⟩
        simp only at he₁ he₂ ⊢
        rw [hinput, he₁, he₂, spell, List.cons_append, List.append_assoc]

/-- **Built and printed.** `CreateBiTree` ends if and only if some part of the input from its beginning on
has more blanks than other characters. It then has read the spelling of the tree that it leaves in
memory, of new nodes, with all else as it was, and `PreOrder` and `PreOrderTraverse` print what has
been read without the blanks; for the empty tree the second one says so instead. Every spelling is
read to its end. -/
theorem createBiTree_built (hinj : malloc.Injective) (hfree : ∀ i, mem (malloc i) = none)
    (hn : input.length < n) :
    ((createBiTree malloc n ⟨mem, 0, input⟩).isSome ↔ ∃ k, 0 < excess (input.take k)) ∧
      (∀ t rest, NoBlank t → input = spell t ++ rest →
        ∃ x T, createBiTree malloc n ⟨mem, 0, input⟩ = some (x, T) ∧ x.input = rest) ∧
      ∀ x T, createBiTree malloc n ⟨mem, 0, input⟩ = some (x, T) →
        ∃ t, T = t.root ∧ Holds x.mem t ∧ t.addrs.Nodup ∧ (∀ a ∈ t.addrs, mem a = none) ∧
          (∀ a, mem a ≠ none → x.mem a = mem a) ∧ input = spell t ++ x.input ∧
          ∀ m, t.addrs.length < m → preOrder x.mem m T = some ((spell t).filter (· ≠ blank)) ∧
            preOrderTraverse x.mem m T =
              some (if T = none then emptyTree else (spell t).filter (· ≠ blank)) := by
  have hspell : ∀ t rest, NoBlank t → input = spell t ++ rest →
      ∃ x' t', createBiTree malloc n ⟨mem, 0, input⟩ = some (x', t'.root) ∧ x'.input = rest ∧
        spell t' = spell t ∧ NoBlank t' ∧ Built malloc ⟨mem, 0, input⟩ x' t' := by
    intro t rest ht he
    refine createBiTree_spell hinj ht he ?_
    have := congrArg List.length he
    rw [List.length_append] at this
    omega
  refine ⟨?_, fun t rest ht he => ?_, fun x T h => ?_⟩
  · rw [← exists_spell_iff]
    constructor
    · intro h
      obtain ⟨⟨x, T⟩, h⟩ := Option.isSome_iff_exists.1 h
      obtain ⟨t, ht, he⟩ := createBiTree_reads h
      exact ⟨t, x.input, ht, he⟩
    · rintro ⟨t, rest, ht, he⟩
      obtain ⟨x', t', h, -⟩ := hspell t rest ht he
      rw [h, Option.isSome_some]
  · obtain ⟨x', t', h, hrest, -⟩ := hspell t rest ht he
    exact ⟨x', _, h, hrest⟩
  · obtain ⟨t, ht, he⟩ := createBiTree_reads h
    obtain ⟨x', t', h', hrest, hsp, hb, hbuilt⟩ := hspell t x.input ht he
    rw [h] at h'
    cases h'
    have hnew : ∀ a ∈ t'.addrs, mem a = none := by
      intro a ha
      obtain ⟨i, -, -, rfl⟩ := hbuilt.new a ha
      exact hfree i
    refine ⟨t', rfl, hbuilt.holds, hbuilt.nodup, hnew, fun a ha => ?_, hsp ▸ he, fun m hm => ⟨?_, ?_⟩⟩
    · exact hbuilt.frame a fun i _ _ hi => ha (hi ▸ hfree i)
    · exact (recursive_eq hbuilt.holds hm).trans (congrArg some (listed_spell hb))
    · by_cases hT : t'.root = none
      · rw [if_pos hT, preOrderTraverse, if_pos hT]
      · have hne : t' ≠ .nil := fun h => hT (by rw [h]; rfl)
        rw [if_neg hT, preOrderTraverse_eq hbuilt.holds hne hm, listed_spell hb]

/-- `ABC××D××E×F××`, with an address that is not used between any two nodes. -/
theorem createBiTree_built_notes : ∃ x T m,
    createBiTree (fun i => 2 * i) 14
        ⟨fun _ => none, 0, [65, 66, 67, 32, 32, 68, 32, 32, 69, 32, 70, 32, 32]⟩ = some (x, T) ∧
      preOrder x.mem m T = some [65, 66, 67, 68, 69, 70] ∧
      preOrderTraverse x.mem m T = some [65, 66, 67, 68, 69, 70] := by
  let input : List ElemType := [65, 66, 67, 32, 32, 68, 32, 32, 69, 32, 70, 32, 32]
  let r := (createBiTree (fun i => 2 * i) 14 ⟨fun _ => none, 0, input⟩).get rfl
  have hr : createBiTree (fun i => 2 * i) 14 ⟨fun _ => none, 0, input⟩ = some r := rfl
  have hinj : Function.Injective fun i : Nat => 2 * i := by
    intro i j h
    exact Nat.eq_of_mul_eq_mul_left (Nat.zero_lt_two) h
  have h := @createBiTree_built (fun _ => none) _ 14 input hinj (fun _ => rfl) (by decide)
  obtain ⟨t, -, -, -, -, -, he, hprint⟩ := h.2.2 r.1 r.2 hr
  have hread : r.1.input = [] := rfl
  rw [hread, List.append_nil] at he
  obtain ⟨hpre, htraverse⟩ := hprint _ (Nat.lt_succ_self _)
  rw [← he] at hpre htraverse
  exact ⟨r.1, r.2, t.addrs.length + 1, hr, hpre, htraverse⟩

end LearningNotes.Trees.Traverse
