import Mathlib.Data.List.Basic
import Mathlib.Logic.Relation

/-!
# Ordered forests

A forest is given by its first root, the forest below that root and the forest of the roots that
follow. Its vertices in preorder are numbered by an increasing `d`. When the edges of a graph only
lead back to numbered vertices or down into the forest (`Complete`), what lies below a vertex is
exactly what paths through larger numbers reach from it (`below_iff_path`).
-/

namespace LearningNotes

variable {V : Type} {E : V → V → Prop} {seen seen' : V → Prop} {d : V → Nat} {a b c p u v : V}

/-- Trees side by side: a root, what is below it, and the trees to the right. -/
inductive Forest (V : Type) where
  | nil
  | node (u : V) (kids rest : Forest V)

namespace Forest

variable {F k r : Forest V} {q : Option V} {π : V → Option V}

/-- The vertices in preorder. -/
def pre : Forest V → List V
  | nil => []
  | node u k r => u :: (k.pre ++ r.pre)

/-- Every vertex with its parent; `q` is that of the roots. -/
def links : Option V → Forest V → List (V × Option V)
  | _, nil => []
  | q, node u k r => (u, q) :: (k.links (some u) ++ r.links q)

/-- `b` is `a` or lies below it. -/
def Below (a b : V) : Forest V → Prop
  | nil => False
  | node u k r => (a = u ∧ (b = u ∨ b ∈ k.pre)) ∨ k.Below a b ∨ r.Below a b

/-- Every edge leads to a vertex seen before or to one below its start. -/
def Complete (E : V → V → Prop) : (V → Prop) → Forest V → Prop
  | _, nil => True
  | seen, node u k r =>
    (∀ v, E u v → seen v ∨ v = u ∨ v ∈ k.pre) ∧ Complete E (fun v => seen v ∨ v = u) k ∧
      Complete E (fun v => seen v ∨ v = u ∨ v ∈ k.pre) r

/-- Nothing in no tree. -/
@[simp] theorem pre_nil : (nil : Forest V).pre = [] := rfl

/-- The root, what is below it, and the rest. -/
@[simp] theorem pre_node : (node u k r).pre = u :: (k.pre ++ r.pre) := rfl

/-- No links in no tree. -/
@[simp] theorem links_nil : (nil : Forest V).links q = [] := rfl

/-- The root's link, those below it, and the rest. -/
@[simp] theorem links_node : (node u k r).links q = (u, q) :: (k.links (some u) ++ r.links q) := rfl

/-- Every node has one link. -/
theorem map_links (q : Option V) (F : Forest V) : (F.links q).map Prod.fst = F.pre := by
  induction F generalizing q with
  | nil => rfl
  | node u k r ihk ihr => simp [ihk, ihr]

/-- More has been seen. -/
theorem Complete.mono (hc : F.Complete E seen) (h : ∀ v, seen v → seen' v) : F.Complete E seen' := by
  induction F generalizing seen seen' with
  | nil => trivial
  | node u k r ihk ihr =>
    obtain ⟨hu, hk, hr⟩ := hc
    refine ⟨fun v hv => (hu v hv).imp_left (h v), ihk hk fun v => Or.imp_left (h v),
      ihr hr fun v => Or.imp_left (h v)⟩

/-- Both are nodes. -/
theorem Below.mem (h : F.Below a b) : a ∈ F.pre ∧ b ∈ F.pre := by
  induction F with
  | nil => exact h.elim
  | node u k r ihk ihr =>
    rcases h with ⟨rfl, hb⟩ | hk | hr
    · refine ⟨List.mem_cons_self, ?_⟩
      rcases hb with rfl | hb <;> simp [*]
    · have := ihk hk
      simp [this]
    · have := ihr hr
      simp [this]

/-- A node is below itself. -/
theorem below_self (h : a ∈ F.pre) : F.Below a a := by
  induction F with
  | nil => simp at h
  | node u k r ihk ihr =>
    simp only [pre_node, List.mem_cons, List.mem_append] at h
    rcases h with rfl | h | h
    · exact .inl ⟨rfl, .inl rfl⟩
    · exact .inr (.inl (ihk h))
    · exact .inr (.inr (ihr h))

/-- A vertex lies below its parent. -/
theorem below_of_link (h : (b, some a) ∈ F.links q) :
    F.Below a b ∨ q = some a ∧ b ∈ F.pre := by
  induction F generalizing q with
  | nil => simp at h
  | node u k r ihk ihr =>
    simp only [links_node, List.mem_cons, Prod.mk.injEq, List.mem_append] at h
    rcases h with ⟨rfl, hq⟩ | h | h
    · exact .inr ⟨hq.symm, List.mem_cons_self⟩
    · rcases ihk h with hb | ⟨hu, hb⟩
      · exact .inl (.inr (.inl hb))
      · obtain rfl := Option.some.inj hu
        exact .inl (.inl ⟨rfl, .inr hb⟩)
    · rcases ihr h with hb | ⟨hq, hb⟩
      · exact .inl (.inr (.inr hb))
      · exact .inr ⟨hq, by simp [hb]⟩

/-- From the parent of the roots the links lead down to every vertex of the forest. -/
theorem chain_of_mem {T : V → V → Prop} (hT : ∀ e ∈ F.links (some p), ∀ a, e.2 = some a → T a e.1)
    (h : b ∈ F.pre) : Relation.ReflTransGen (fun x y => T x y ∧ y ∈ F.pre) p b := by
  induction F generalizing p with
  | nil => simp at h
  | node u k r ihk ihr =>
    have hu : T p u := hT (u, some p) (by simp) p rfl
    simp only [links_node, List.mem_cons, List.mem_append] at hT
    simp only [pre_node, List.mem_cons, List.mem_append] at h ⊢
    rcases h with rfl | h | h
    · exact .single ⟨hu, .inl rfl⟩
    · refine .head ⟨hu, .inl rfl⟩ ?_
      exact Relation.ReflTransGen.mono (fun _ _ he => ⟨he.1, .inr (.inl he.2)⟩) _ _
        (ihk (fun e he => hT e (.inr (.inl he))) h)
    · exact Relation.ReflTransGen.mono (fun _ _ he => ⟨he.1, .inr (.inr he.2)⟩) _ _
        (ihr (fun e he => hT e (.inr (.inr he))) h)

/-- The links lead from a vertex down to those below it, through vertices not numbered less. -/
theorem Below.chain {T : V → V → Prop} (hT : ∀ e ∈ F.links q, ∀ a, e.2 = some a → T a e.1)
    (hd : F.pre.Pairwise (d · < d ·)) (h : F.Below a b) :
    Relation.ReflTransGen (fun x y => T x y ∧ d a ≤ d y) a b := by
  induction F generalizing q with
  | nil => exact h.elim
  | node u k r ihk ihr =>
    simp only [links_node, List.mem_cons, List.mem_append] at hT
    simp only [pre_node, List.pairwise_cons, List.pairwise_append, List.mem_append] at hd
    obtain ⟨hu, hk, hr, -⟩ := hd
    rcases h with ⟨rfl, hb⟩ | h | h
    · rcases hb with rfl | hb
      · exact .refl
      · exact Relation.ReflTransGen.mono
          (fun _ y hy => ⟨hy.1, Nat.le_of_lt (hu y (.inl hy.2))⟩) _ _
          (chain_of_mem (fun e he => hT e (.inr (.inl he))) hb)
    · exact ihk (fun e he => hT e (.inr (.inl he))) hk h
    · exact ihr (fun e he => hT e (.inr (.inr he))) hr h

section

variable (hd : F.pre.Pairwise (d · < d ·))

include hd

/-- What is below a node below. -/
theorem Below.trans (hab : F.Below a b) (hbc : F.Below b c) : F.Below a c := by
  induction F with
  | nil => exact hab.elim
  | node u k r ihk ihr =>
    simp only [pre_node, List.pairwise_cons, List.pairwise_append, List.mem_append] at hd
    obtain ⟨hu, hk, hr, hkr⟩ := hd
    rcases hbc with ⟨rfl, hc⟩ | hbc | hbc
    · -- below the first root only the root itself is above it
      rcases hab with ⟨rfl, -⟩ | h | h
      · exact .inl ⟨rfl, hc⟩
      · exact absurd (hu b (.inl h.mem.2)) (Nat.lt_irrefl _)
      · exact absurd (hu b (.inr h.mem.2)) (Nat.lt_irrefl _)
    · have hbk := hbc.mem.1
      rcases hab with ⟨rfl, -⟩ | h | h
      · exact .inl ⟨rfl, .inr hbc.mem.2⟩
      · exact .inr (.inl (ihk hk h hbc))
      · exact absurd (hkr b hbk b h.mem.2) (Nat.lt_irrefl _)
    · have hbr := hbc.mem.1
      rcases hab with ⟨rfl, rfl | hb⟩ | h | h
      · exact absurd (hu b (.inr hbr)) (Nat.lt_irrefl _)
      · exact absurd (hkr b hb b hbr) (Nat.lt_irrefl _)
      · exact absurd (hkr b h.mem.2 b hbr) (Nat.lt_irrefl _)
      · exact .inr (.inr (ihr hr h hbc))

/-- A vertex is numbered after its parent. -/
theorem lt_of_link (h : (b, some a) ∈ F.links q) : d a < d b ∨ q = some a ∧ b ∈ F.pre := by
  induction F generalizing q with
  | nil => simp at h
  | node u k r ihk ihr =>
    simp only [pre_node, List.pairwise_cons, List.pairwise_append, List.mem_append] at hd
    obtain ⟨hu, hk, hr, -⟩ := hd
    simp only [links_node, List.mem_cons, Prod.mk.injEq, List.mem_append] at h
    rcases h with ⟨rfl, hq⟩ | h | h
    · exact .inr ⟨hq.symm, List.mem_cons_self⟩
    · rcases ihk hk h with hlt | ⟨hu', hb⟩
      · exact .inl hlt
      · obtain rfl := Option.some.inj hu'
        exact .inl (hu b (.inl hb))
    · rcases ihr hr h with hlt | ⟨hq, hb⟩
      · exact .inl hlt
      · exact .inr ⟨hq, by simp [hb]⟩

/-- What lies below a vertex is an interval of the preorder. -/
theorem Below.between (h : F.Below a c) (hb : b ∈ F.pre) (hab : d a ≤ d b) (hbc : d b ≤ d c) :
    F.Below a b := by
  induction F with
  | nil => exact h.elim
  | node u k r ihk ihr =>
    simp only [pre_node, List.pairwise_cons, List.pairwise_append, List.mem_append] at hd
    obtain ⟨hu, hk, hr, hkr⟩ := hd
    simp only [pre_node, List.mem_cons, List.mem_append] at hb
    rcases h with ⟨rfl, hc⟩ | h | h
    · rcases hb with rfl | hb | hb
      · exact .inl ⟨rfl, .inl rfl⟩
      · exact .inl ⟨rfl, .inr hb⟩
      · rcases hc with rfl | hc
        · have := hu b (.inr hb)
          omega
        · have := hkr c hc b hb
          omega
    · have ha := h.mem.1
      have hc := h.mem.2
      rcases hb with rfl | hb | hb
      · have := hu a (.inl ha)
        omega
      · exact .inr (.inl (ihk hk h hb))
      · have := hkr c hc b hb
        omega
    · have ha := h.mem.1
      rcases hb with rfl | hb | hb
      · have := hu a (.inr ha)
        omega
      · have := hkr b hb a ha
        omega
      · exact .inr (.inr (ihr hr h hb))

/-- An edge leads to a vertex seen before the forest, to one below its start, or back. -/
theorem Complete.edge (hc : F.Complete E seen) (ha : a ∈ F.pre) (he : E a b) :
    seen b ∨ F.Below a b ∨ b ∈ F.pre ∧ d b < d a := by
  induction F generalizing seen with
  | nil => simp at ha
  | node u k r ihk ihr =>
    simp only [pre_node, List.pairwise_cons, List.pairwise_append, List.mem_append] at hd
    obtain ⟨hu, hk, hr, hkr⟩ := hd
    obtain ⟨hcu, hck, hcr⟩ := hc
    simp only [pre_node, List.mem_cons, List.mem_append] at ha ⊢
    rcases ha with rfl | ha | ha
    · rcases hcu b he with h | h
      · exact .inl h
      · exact .inr (.inl (.inl ⟨rfl, h⟩))
    · rcases ihk hk hck ha with (h | rfl) | h | ⟨h, hlt⟩
      · exact .inl h
      · exact .inr (.inr ⟨.inl rfl, hu a (.inl ha)⟩)
      · exact .inr (.inl (.inr (.inl h)))
      · exact .inr (.inr ⟨.inr (.inl h), hlt⟩)
    · rcases ihr hr hcr ha with (h | rfl | h) | h | ⟨h, hlt⟩
      · exact .inl h
      · exact .inr (.inr ⟨.inl rfl, hu a (.inr ha)⟩)
      · exact .inr (.inr ⟨.inr (.inl h), hkr b h a ha⟩)
      · exact .inr (.inl (.inr (.inr h)))
      · exact .inr (.inr ⟨.inr (.inr h), hlt⟩)

/-- In a complete forest whose links are edges, what lies below a vertex is what paths that stay
among the numbers from its own on reach. -/
theorem below_iff_path (hT : ∀ e ∈ F.links q, ∀ a, e.2 = some a → E a e.1)
    (hc : F.Complete E fun _ => False) (ha : a ∈ F.pre) :
    F.Below a b ↔ Relation.ReflTransGen (fun x y => E x y ∧ d a ≤ d y) a b := by
  refine ⟨fun h => h.chain hT hd, fun h => ?_⟩
  induction h with
  | refl => exact below_self ha
  | tail _ he ih =>
    rcases hc.edge hd ih.mem.2 he.1 with h | h | ⟨hmem, hlt⟩
    · exact h.elim
    · exact ih.trans hd h
    · exact ih.between hd hmem he.2 (Nat.le_of_lt hlt)

/-- What lies below a vertex is what the chain of parents leads back to it. -/
theorem below_iff_parents (hall : ∀ v, v ∈ F.pre) (hπ : ∀ e ∈ F.links none, π e.1 = e.2) :
    F.Below a b ↔ Relation.ReflTransGen (fun p v => π v = some p) a b := by
  refine ⟨fun h => ?_, fun h => ?_⟩
  · have hT : ∀ e ∈ F.links none, ∀ p, e.2 = some p → π e.1 = some p := by
      intro e he p hp
      exact (hπ e he).trans hp
    exact Relation.ReflTransGen.mono (fun _ _ he => he.1) _ _
      (Below.chain (T := fun p v => π v = some p) hT hd h)
  · induction h with
    | refl => exact below_self (hall a)
    | @tail p v _ he ih =>
      obtain ⟨⟨w, o⟩, hmem, rfl⟩ := List.mem_map.1 ((map_links none F).symm ▸ hall v)
      have ho : o = some p := (hπ _ hmem).symm.trans he
      subst ho
      rcases below_of_link hmem with h | ⟨h, -⟩
      · exact ih.trans hd h
      · simp at h

end

end Forest

end LearningNotes
