import LearningNotes.Graph.Bfs
import LearningNotes.Lib.Spanning
import Mathlib

/-!
# Prim's algorithm

A vertex in the queue that is adjacent to one outside has as its key the least weight of an edge
from outside, and as its predecessor the other end of such an edge (`Grow.key`). So the edge of the
vertex that `EXTRACT_MIN` gives is the lightest across the cut the queue makes, and the edges of the
extracted vertices are part of a minimum spanning forest. A vertex with key `∞` starts a new tree.

Mirroring notes:
- `∞` is `⊤` and `NIL` is `none`.
- The priority queue is a set; which of the vertices with the least key `EXTRACT_MIN` takes is left
  to `MinQueue`.
- The `while` loop runs on fuel, one pass for each vertex.
-/

namespace LearningNotes.Graph

variable {V R : Type} [DecidableEq V]

/-- An undirected graph with weights. -/
structure Network (V R : Type) extends Digraph V where
  w : V → V → R
  adj_comm : ∀ u v, v ∈ Adj u → u ∈ Adj v
  w_comm : ∀ u v, w u v = w v u

/-- A priority queue over the keys. -/
structure MinQueue (V R : Type) [LinearOrder R] where
  EXTRACT_MIN : (V → WithTop R) → Finset V → V
  mem : ∀ key Q, Q.Nonempty → EXTRACT_MIN key Q ∈ Q
  le : ∀ (key : V → WithTop R) Q, ∀ v ∈ Q, key (EXTRACT_MIN key Q) ≤ key v

section

variable [LinearOrder R]

/-- The attributes `u.key` and `u.π` of the vertices, and the queue. -/
structure Prim (V R : Type) where
  key : V → WithTop R
  π : V → Option V
  Q : Finset V

/-- The lines of `MST_PRIM` before its loop. -/
def primStart [Zero R] (N : Network V R) (r : V) : Prim V R where
  key := Function.update (fun _ => ⊤) r 0
  π := fun _ => none
  Q := N.vertices.toFinset

/-- The body of the `for` loop over `G.Adj[u]`. -/
def relax (N : Network V R) (u : V) (x : Prim V R) (v : V) : Prim V R :=
  if v ∈ x.Q ∧ (N.w u v : WithTop R) < x.key v then
    { x with π := Function.update x.π v (some u), key := Function.update x.key v (N.w u v) }
  else x

/-- The body of the `while` loop for the vertex `u` that `EXTRACT_MIN` gives. -/
def primPass (N : Network V R) (u : V) (x : Prim V R) : Prim V R :=
  (N.Adj u).foldl (relax N u) { x with Q := x.Q.erase u }

def primLoop (N : Network V R) (M : MinQueue V R) : Nat → Prim V R → Option (Prim V R)
  | 0, x => if x.Q = ∅ then some x else none
  | fuel + 1, x =>
    if x.Q = ∅ then some x else primLoop N M fuel (primPass N (M.EXTRACT_MIN x.key x.Q) x)

def MST_PRIM [Zero R] (N : Network V R) (M : MinQueue V R) (r : V) : Option (Prim V R) :=
  primLoop N M N.vertices.length (primStart N r)

end

/-- The edges of the graph, without their directions -/
def Network.edges (N : Network V R) : Finset (Sym2 V) :=
  N.vertices.toFinset.biUnion fun u => (N.Adj u).toFinset.image fun v => s(u, v)

def Network.weight (N : Network V R) : Sym2 V → R := Sym2.lift ⟨N.w, N.w_comm⟩

/-- The edges from the vertices of `D` to their predecessors. -/
def treeEdges (π : V → Option V) (D : Finset V) : Finset (Sym2 V) :=
  D.biUnion fun v => (π v).toFinset.image fun p => s(p, v)

variable {N : Network V R} {u v a b : V} {D : Finset V} {π : V → Option V} {e : Sym2 V}

theorem Network.mem_edges : s(u, v) ∈ N.edges ↔ v ∈ N.Adj u := by
  simp only [Network.edges, Finset.mem_biUnion, List.mem_toFinset, Finset.mem_image]
  constructor
  · rintro ⟨a, -, b, hb, he⟩
    rcases Sym2.eq_iff.1 he with ⟨rfl, rfl⟩ | ⟨rfl, rfl⟩
    · exact hb
    · exact N.adj_comm _ _ hb
  · intro h
    exact ⟨u, N.mem_vertices u, v, h, rfl⟩

theorem mem_treeEdges : e ∈ treeEdges π D ↔ ∃ v p, v ∈ D ∧ π v = some p ∧ s(p, v) = e := by
  simp [treeEdges]

variable [LinearOrder R] {x : Prim V R}

theorem relax_cases (N : Network V R) (u : V) (x : Prim V R) (v : V) :
    (v ∈ x.Q ∧ (N.w u v : WithTop R) < x.key v ∧ relax N u x v =
        ⟨Function.update x.key v (N.w u v), Function.update x.π v (some u), x.Q⟩) ∨
      ((v ∈ x.Q → x.key v ≤ N.w u v) ∧ relax N u x v = x) := by
  unfold relax
  split
  next h => exact .inl ⟨h.1, h.2, rfl⟩
  next h => exact .inr ⟨fun hv => not_lt.1 fun hlt => h ⟨hv, hlt⟩, rfl⟩

/-- A loop over neighbours of `u` keeps the queue and the other vertices, and a vertex in the queue
then has its old key and predecessor or those from `u`, whichever key is less. -/
theorem foldl_relax (N : Network V R) (u : V) (x : Prim V R) (vs : List V) :
    (vs.foldl (relax N u) x).Q = x.Q ∧
      (∀ v, v ∉ x.Q → (vs.foldl (relax N u) x).π v = x.π v) ∧
      ∀ v ∈ x.Q, (vs.foldl (relax N u) x).key v ≤ x.key v ∧
        (v ∈ vs → (vs.foldl (relax N u) x).key v ≤ N.w u v) ∧
        ((vs.foldl (relax N u) x).key v = x.key v ∧ (vs.foldl (relax N u) x).π v = x.π v ∨
          v ∈ vs ∧ (vs.foldl (relax N u) x).key v = N.w u v ∧
            (vs.foldl (relax N u) x).π v = some u) := by
  induction vs generalizing x with
  | nil => exact ⟨rfl, fun _ _ => rfl, fun v _ => ⟨le_rfl, by simp, .inl ⟨rfl, rfl⟩⟩⟩
  | cons v₀ vs ih =>
    obtain ⟨hQ, hout, hin⟩ := ih (relax N u x v₀)
    rw [List.foldl_cons]
    rcases relax_cases N u x v₀ with ⟨hv₀, hlt, hx⟩ | ⟨hle, hx⟩
    · rw [hx] at hQ hout hin ⊢
      refine ⟨hQ, fun v hv => ?_, fun v hv => ?_⟩
      · have hne : v ≠ v₀ := fun h => hv (h ▸ hv₀)
        exact (hout v hv).trans (Function.update_of_ne hne ..)
      · obtain ⟨hk, hn, hor⟩ := hin v hv
        by_cases hne : v = v₀
        · subst hne
          simp only [Function.update_self] at hk hor
          refine ⟨hk.trans hlt.le, fun _ => hk, .inr ⟨List.mem_cons_self, ?_⟩⟩
          rcases hor with h | ⟨-, h⟩
          · exact h
          · exact h
        · simp only [ne_eq, hne, not_false_eq_true, Function.update_of_ne] at hk hor
          refine ⟨hk, fun h => hn (List.mem_of_ne_of_mem hne h), ?_⟩
          exact hor.imp_right fun h => ⟨List.mem_cons_of_mem v₀ h.1, h.2⟩
    · rw [hx] at hQ hout hin ⊢
      refine ⟨hQ, hout, fun v hv => ?_⟩
      obtain ⟨hk, hn, hor⟩ := hin v hv
      refine ⟨hk, fun h => ?_, hor.imp_right fun h => ⟨List.mem_cons_of_mem v₀ h.1, h.2⟩⟩
      rcases List.mem_cons.1 h with rfl | h
      · exact hk.trans (hle hv)
      · exact hn h

/-- The edges of the vertices extracted so far: those outside the queue. -/
def Prim.tree (N : Network V R) (x : Prim V R) : Finset (Sym2 V) :=
  treeEdges x.π (N.vertices.toFinset \ x.Q)

omit [LinearOrder R] in
theorem mem_tree : e ∈ x.tree N ↔ ∃ v p, v ∉ x.Q ∧ x.π v = some p ∧ s(p, v) = e := by
  simp [Prim.tree, mem_treeEdges, N.mem_vertices]

/-- What the loop keeps of the keys and predecessors. -/
structure Keyed (N : Network V R) (x : Prim V R) : Prop where
  pred : ∀ v p, x.π v = some p → p ∉ x.Q ∧ v ∈ N.Adj p ∧ (v ∈ x.Q → x.key v = N.w p v)
  key : ∀ u v, u ∉ x.Q → v ∈ x.Q → v ∈ N.Adj u → x.π v ≠ none ∧ x.key v ≤ N.w u v
  lone : ∀ v ∈ x.Q, x.π v = none →
    x.key v = ⊤ ∨ x.Q = N.vertices.toFinset ∧ ∀ b ∈ x.Q, x.key b ≤ x.key v → b = v

/-- What the loop keeps of the tree edges: they link the ends of the edges outside the queue, and
the vertices with a neighbour in the queue. -/
structure Joined (N : Network V R) (x : Prim V R) : Prop where
  within : ∀ a b, a ∉ x.Q → b ∉ x.Q → b ∈ N.Adj a → Linked (x.tree N) a b
  border : ∀ a b a' b', a ∉ x.Q → b ∉ x.Q → a' ∈ x.Q → b' ∈ x.Q → a' ∈ N.Adj a → b' ∈ N.Adj b →
    Linked (x.tree N) a b

/-- What one pass does for the vertex `u`. -/
theorem primPass_spec (N : Network V R) (u : V) (x : Prim V R) :
    (primPass N u x).Q = x.Q.erase u ∧
      (∀ v, v ∉ x.Q.erase u → (primPass N u x).π v = x.π v) ∧
      ∀ v ∈ x.Q.erase u, (primPass N u x).key v ≤ x.key v ∧
        (v ∈ N.Adj u → (primPass N u x).key v ≤ N.w u v) ∧
        ((primPass N u x).key v = x.key v ∧ (primPass N u x).π v = x.π v ∨
          v ∈ N.Adj u ∧ (primPass N u x).key v = N.w u v ∧ (primPass N u x).π v = some u) :=
  foldl_relax N u { x with Q := x.Q.erase u } (N.Adj u)

theorem primPass_Q (N : Network V R) (u : V) (x : Prim V R) : (primPass N u x).Q = x.Q.erase u :=
  (primPass_spec N u x).1

theorem Keyed.pass (h : Keyed N x) (hu : u ∈ x.Q) (hmin : ∀ v ∈ x.Q, x.key u ≤ x.key v) :
    Keyed N (primPass N u x) := by
  obtain ⟨hQ, hout, hin⟩ := primPass_spec N u x
  have hlone : ∀ v ∈ (primPass N u x).Q, (primPass N u x).π v = none →
      (primPass N u x).key v = ⊤ := by
    intro v hv hnone
    rw [hQ] at hv
    obtain ⟨hvu, hvQ⟩ := Finset.mem_erase.1 hv
    obtain ⟨-, -, ⟨hk, hp⟩ | ⟨-, -, hp⟩⟩ := hin v hv
    · rcases h.lone v hvQ (hp.symm.trans hnone) with htop | ⟨-, hleast⟩
      · exact hk.trans htop
      · exact absurd (hleast u hu (hmin v hvQ)).symm hvu
    · simp [hp] at hnone
  refine ⟨fun v p hp => ?_, fun a v ha hv hadj => ?_, fun v hv hnone => .inl (hlone v hv hnone)⟩
  · rw [hQ]
    by_cases hv : v ∈ x.Q.erase u
    · obtain ⟨-, -, ⟨hk, hpi⟩ | ⟨hadj, hk, hpi⟩⟩ := hin v hv
      · obtain ⟨hpQ, hadj, hkey⟩ := h.pred v p (hpi.symm.trans hp)
        exact ⟨fun h => hpQ (Finset.mem_of_mem_erase h), hadj, fun _ =>
          hk.trans (hkey (Finset.mem_of_mem_erase hv))⟩
      · obtain rfl : u = p := Option.some.inj (hpi.symm.trans hp)
        exact ⟨Finset.notMem_erase u x.Q, hadj, fun _ => hk⟩
    · obtain ⟨hpQ, hadj, -⟩ := h.pred v p ((hout v hv).symm.trans hp)
      exact ⟨fun h => hpQ (Finset.mem_of_mem_erase h), hadj, fun h => absurd h hv⟩
  · have hv' := hv
    rw [hQ] at ha hv
    obtain ⟨hle, hw, hor⟩ := hin v hv
    by_cases hau : a = u
    · subst hau
      refine ⟨fun hnone => ?_, hw hadj⟩
      have htop := hlone v hv' hnone
      have hlt := hw hadj
      rw [htop, top_le_iff] at hlt
      exact WithTop.coe_ne_top hlt
    · have haQ : a ∉ x.Q := fun h => ha (Finset.mem_erase.2 ⟨hau, h⟩)
      obtain ⟨hne, hkey⟩ := h.key a v haQ (Finset.mem_of_mem_erase hv) hadj
      refine ⟨?_, le_trans hle hkey⟩
      rcases hor with ⟨-, hp⟩ | ⟨-, -, hp⟩
      · exact hp ▸ hne
      · simp [hp]

/-- A pass adds the edge of the extracted vertex. -/
theorem mem_tree_pass :
    e ∈ (primPass N u x).tree N ↔ e ∈ x.tree N ∨ ∃ p, x.π u = some p ∧ s(p, u) = e := by
  obtain ⟨-, hout, -⟩ := primPass_spec N u x
  simp only [mem_tree, primPass_Q]
  constructor
  · rintro ⟨v, p, hv, hp, rfl⟩
    rw [hout v hv] at hp
    by_cases hvu : v = u
    · exact .inr ⟨p, hvu ▸ hp, hvu ▸ rfl⟩
    · exact .inl ⟨v, p, fun h => hv (Finset.mem_erase.2 ⟨hvu, h⟩), hp, rfl⟩
  · rintro (⟨v, p, hv, hp, rfl⟩ | ⟨p, hp, rfl⟩)
    · have hv' : v ∉ x.Q.erase u := fun h => hv (Finset.mem_of_mem_erase h)
      exact ⟨v, p, hv', (hout v hv').trans hp, rfl⟩
    · have hu' := Finset.notMem_erase u x.Q
      exact ⟨u, p, hu', (hout u hu').trans hp, rfl⟩

theorem tree_subset_pass : x.tree N ⊆ (primPass N u x).tree N := fun _ he =>
  mem_tree_pass.2 (.inl he)

/-- A vertex outside the queue with a neighbour in it is linked to the extracted vertex. -/
theorem Joined.link_extracted (h : Joined N x) (hk : Keyed N x) (hu : u ∈ x.Q)
    (hmin : ∀ v ∈ x.Q, x.key u ≤ x.key v) (hb : b ∉ x.Q) {b' : V} (hb' : b' ∈ x.Q)
    (hadj : b' ∈ N.Adj b) : Linked ((primPass N u x).tree N) b u := by
  -- the key of the neighbour is not `∞`, so that of `u` is not, and `u` has a predecessor
  obtain ⟨p, hp⟩ : ∃ p, x.π u = some p := by
    refine Option.ne_none_iff_exists'.1 fun hnone => ?_
    rcases hk.lone u hu hnone with htop | ⟨hall, -⟩
    · have hle := (hmin b' hb').trans (hk.key b b' hb hb' hadj).2
      rw [htop, top_le_iff] at hle
      exact WithTop.coe_ne_top hle
    · exact hb (hall ▸ List.mem_toFinset.2 (N.mem_vertices b))
  obtain ⟨hpQ, hpu, -⟩ := hk.pred u p hp
  have hbp : Linked ((primPass N u x).tree N) b p :=
    (h.border b p b' u hb hpQ hb' hu hadj hpu).mono tree_subset_pass
  exact hbp.trans (.edge (mem_tree_pass.2 (.inr ⟨p, hp, rfl⟩)))

theorem Joined.pass (h : Joined N x) (hk : Keyed N x) (hu : u ∈ x.Q)
    (hmin : ∀ v ∈ x.Q, x.key u ≤ x.key v) : Joined N (primPass N u x) := by
  have hsub : x.tree N ⊆ (primPass N u x).tree N := tree_subset_pass
  have hside : ∀ a, a ∉ (primPass N u x).Q → a = u ∨ a ∉ x.Q := by
    intro a ha
    rw [primPass_Q, Finset.mem_erase, not_and_or, not_not] at ha
    exact ha
  refine ⟨fun a b ha hb hadj => ?_, fun a b a' b' ha hb ha' hb' hadj hadj' => ?_⟩
  · rcases hside a ha with rfl | haN
    · rcases hside b hb with rfl | hb
      · exact .refl _ b
      · exact (h.link_extracted hk hu hmin hb hu (N.adj_comm _ _ hadj)).symm
    · rcases hside b hb with rfl | hb
      · exact h.link_extracted hk hu hmin haN hu hadj
      · exact (h.within a b haN hb hadj).mono hsub
  · rw [primPass_Q] at ha' hb'
    have haQ := Finset.mem_of_mem_erase ha'
    have hbQ := Finset.mem_of_mem_erase hb'
    rcases hside a ha with rfl | haN
    · rcases hside b hb with rfl | hb
      · exact .refl _ b
      · exact (h.link_extracted hk hu hmin hb hbQ hadj').symm
    · rcases hside b hb with rfl | hb
      · exact h.link_extracted hk hu hmin haN haQ hadj
      · exact (h.border a b a' b' haN hb haQ hbQ hadj hadj').mono hsub

section

variable [AddCommMonoid R] [IsOrderedAddMonoid R]

/-- The edge of the extracted vertex is the lightest across the cut. -/
theorem part_pass (hk : Keyed N x) (hu : u ∈ x.Q) (hmin : ∀ v ∈ x.Q, x.key u ≤ x.key v)
    (h : ∃ T, Minimum N.edges N.weight T ∧ x.tree N ⊆ T) :
    ∃ T, Minimum N.edges N.weight T ∧ (primPass N u x).tree N ⊆ T := by
  obtain ⟨T, hT, hsub⟩ := h
  cases hp : x.π u with
  | none =>
    refine ⟨T, hT, fun e he => hsub ?_⟩
    rcases mem_tree_pass.1 he with he | ⟨p, hp', -⟩
    · exact he
    · simp [hp] at hp'
  | some p =>
    obtain ⟨hpQ, hpu, hkey⟩ := hk.pred u p hp
    obtain ⟨T', hT', hsub'⟩ := hT.exists_insert hsub (S := fun v => v ∉ x.Q)
      (Network.mem_edges.2 hpu) hpQ (not_not.2 hu)
      (fun a b he ha => by
        obtain ⟨v, q, hv, hq, he⟩ := mem_tree.1 he
        rcases Sym2.eq_iff.1 he with ⟨rfl, rfl⟩ | ⟨rfl, rfl⟩
        · exact hv
        · exact (hk.pred _ _ hq).1)
      (fun a b he ha hb => by
        have hbQ := not_not.1 hb
        have hle := (hmin b hbQ).trans (hk.key a b ha hbQ (Network.mem_edges.1 he)).2
        rw [hkey hu] at hle
        exact WithTop.coe_le_coe.1 hle)
    refine ⟨T', hT', fun e he => hsub' ?_⟩
    rcases mem_tree_pass.1 he with he | ⟨q, hq, rfl⟩
    · exact Finset.mem_insert_of_mem he
    · obtain rfl := Option.some.inj (hp.symm.trans hq)
      exact Finset.mem_insert_self ..

theorem primLoop_ends {M : MinQueue V R} {fuel : Nat} (hk : Keyed N x) (hj : Joined N x)
    (hpart : ∃ T, Minimum N.edges N.weight T ∧ x.tree N ⊆ T) (hfuel : x.Q.card ≤ fuel) :
    ∃ y, primLoop N M fuel x = some y ∧ y.Q = ∅ ∧ Keyed N y ∧ Joined N y ∧
      ∃ T, Minimum N.edges N.weight T ∧ y.tree N ⊆ T := by
  induction fuel generalizing x with
  | zero =>
    have hQ : x.Q = ∅ := Finset.card_eq_zero.1 (Nat.le_zero.1 hfuel)
    exact ⟨x, by simp [primLoop, hQ], hQ, hk, hj, hpart⟩
  | succ fuel ih =>
    by_cases hQ : x.Q = ∅
    · exact ⟨x, by simp [primLoop, hQ], hQ, hk, hj, hpart⟩
    · have hu := M.mem x.key x.Q (Finset.nonempty_iff_ne_empty.2 hQ)
      have hmin := M.le x.key x.Q
      have hcard := Finset.card_erase_lt_of_mem hu
      obtain ⟨y, hy, hend⟩ := ih (hk.pass hu hmin) (hj.pass hk hu hmin) (part_pass hk hu hmin hpart)
        (by rw [primPass_Q]; omega)
      exact ⟨y, by simp [primLoop, hQ, hy], hend⟩

omit [IsOrderedAddMonoid R] in
theorem Keyed.start (N : Network V R) (r : V) : Keyed N (primStart N r) where
  pred v p hp := by simp [primStart] at hp
  key u v hu _ _ := absurd (List.mem_toFinset.2 (N.mem_vertices u)) hu
  lone v hv _ := by
    by_cases hvr : v = r
    · refine .inr ⟨rfl, fun b _ hb => ?_⟩
      by_contra hne
      have hbr : b ≠ r := hvr ▸ hne
      simp only [primStart, hvr, Function.update_self, ne_eq, hbr, not_false_eq_true,
        Function.update_of_ne, top_le_iff] at hb
      exact WithTop.coe_ne_top hb
    · exact .inl (by simp [primStart, hvr])

/-- `MST_PRIM` ends on every undirected graph, whatever its weights and whichever of the vertices
with the least key are extracted: the edges from the vertices to their predecessors are then a
spanning forest of the graph with the least weight, a tree if the graph is connected. -/
theorem mst_prim_minimum (N : Network V R) (M : MinQueue V R) (r : V) :
    ∃ x, MST_PRIM N M r = some x ∧
      Minimum N.edges N.weight (treeEdges x.π N.vertices.toFinset) := by
  have hno : ∀ v, v ∈ (primStart N r).Q := fun v => List.mem_toFinset.2 (N.mem_vertices v)
  obtain ⟨T, hT⟩ := exists_minimum N.edges N.weight
  have hpart : ∃ T, Minimum N.edges N.weight T ∧ (primStart N r).tree N ⊆ T := by
    refine ⟨T, hT, fun e he => ?_⟩
    obtain ⟨v, -, hv, -⟩ := mem_tree.1 he
    exact absurd (hno v) hv
  obtain ⟨x, hx, hQ, hk, hj, T, hT, hsub⟩ := primLoop_ends (M := M) (Keyed.start N r)
    ⟨fun a b ha => absurd (hno a) ha, fun a b _ _ ha => absurd (hno a) ha⟩ hpart
    N.vertices.toFinset_card_le
  have htree : x.tree N = treeEdges x.π N.vertices.toFinset := by
    rw [Prim.tree, hQ, Finset.sdiff_empty]
  refine ⟨x, hx, htree ▸ hT.of_spans hsub fun a b he => ?_⟩
  exact hj.within a b (by simp [hQ]) (by simp [hQ]) (Network.mem_edges.1 he)

end

theorem find_min {n : Nat} (key : Fin n → WithTop Int) {Q : Finset (Fin n)} (hQ : Q.Nonempty) :
    ∃ u, ((List.finRange n).find? fun v => v ∈ Q ∧ ∀ u ∈ Q, key v ≤ key u) = some u ∧ u ∈ Q ∧
      ∀ v ∈ Q, key u ≤ key v := by
  obtain ⟨v, hv, hle⟩ := Q.exists_min_image key hQ
  cases hf : (List.finRange n).find? fun v => v ∈ Q ∧ ∀ u ∈ Q, key v ≤ key u with
  | none =>
    rw [List.find?_eq_none] at hf
    exact absurd (decide_eq_true ⟨hv, hle⟩) (hf v (List.mem_finRange v))
  | some u =>
    have hu := List.find?_some hf
    exact ⟨u, rfl, of_decide_eq_true hu⟩

/-- The queue that gives the first of the vertices with the least key. -/
def firstMin (n : Nat) : MinQueue (Fin (n + 1)) Int where
  EXTRACT_MIN key Q :=
    ((List.finRange (n + 1)).find? fun v => v ∈ Q ∧ ∀ u ∈ Q, key v ≤ key u).getD 0
  mem key Q hQ := by
    obtain ⟨u, hu, hmem, -⟩ := find_min key hQ
    rw [hu]
    exact hmem
  le key Q v hv := by
    obtain ⟨u, hu, -, hle⟩ := find_min key ⟨v, hv⟩
    rw [hu]
    exact hle v hv

/-- A triangle whose sides weigh 1, 2 and 3. -/
def triangle : Network (Fin 3) Int where
  vertices := List.finRange 3
  Adj u := (List.finRange 3).filter (· ≠ u)
  mem_vertices := by decide
  w u v := (u.val + v.val : Nat)
  adj_comm := by decide
  w_comm u v := by rw [Nat.add_comm]

/-- The tree that is grown from vertex 0. -/
theorem mst_prim_minimum_triangle : ∃ x, MST_PRIM triangle (firstMin 2) 0 = some x ∧
    Minimum triangle.edges triangle.weight (treeEdges x.π triangle.vertices.toFinset) :=
  mst_prim_minimum triangle (firstMin 2) 0

end LearningNotes.Graph
