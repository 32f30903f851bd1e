import LearningNotes.Lib.Walks
import Mathlib.Data.Finset.Card
import Mathlib.Logic.Function.Basic

/-!
# Breadth-first search

`BFS` colours the vertices of a graph given by its adjacency lists. The gray ones are those in the
queue, which stands in the order of the labels `d`, and no label is more than one above that of the
head (`Inv`). So a vertex that turns black has labelled each of its neighbours with at most one more
than its own, and at the end the labels are the distances from the source.

Mirroring notes:
- The vertices are the elements of a type, and `G.V` lists each of them at least once.
- `∞` and `NIL` are `none`; `∞ + 1` is `∞`.
- The `while` loop runs on fuel, and gives `none` when that is used up.
-/

namespace LearningNotes.Graph

/-- A graph by its adjacency lists. -/
structure Digraph (V : Type) where
  vertices : List V
  Adj : V → List V
  mem_vertices : ∀ v, v ∈ vertices

variable {V : Type} [DecidableEq V] {G : Digraph V} {s u v : V} {L Q : List V}

inductive Color where
  | white
  | gray
  | black
  deriving DecidableEq, Repr

/-- The attributes `u.color`, `u.d` and `u.π` of the vertices, and the queue. -/
structure Search (V : Type) where
  color : V → Color
  d : V → Option Nat
  π : V → Option V
  Q : List V

/-- The lines of `BFS` before its loop. -/
def start (s : V) : Search V where
  color := Function.update (fun _ => .white) s .gray
  d := Function.update (fun _ => none) s (some 0)
  π := fun _ => none
  Q := [s]

/-- The body of the `for` loop over `G.Adj[u]`. -/
def visit (u : V) (x : Search V) (v : V) : Search V :=
  if x.color v = .white then
    { color := Function.update x.color v .gray
      d := Function.update x.d v ((x.d u).map (· + 1))
      π := Function.update x.π v (some u)
      Q := x.Q ++ [v] }
  else x

/-- The body of the `while` loop, after `u` has been dequeued. -/
def scan (G : Digraph V) (u : V) (x : Search V) : Search V :=
  let x := (G.Adj u).foldl (visit u) x
  { x with color := Function.update x.color u .black }

def bfsLoop (G : Digraph V) : Nat → Search V → Option (Search V)
  | 0, _ => none
  | fuel + 1, x =>
    match x.Q with
    | [] => some x
    | u :: Q => bfsLoop G fuel (scan G u { x with Q := Q })

def BFS (G : Digraph V) (s : V) : Option (Search V) :=
  bfsLoop G (G.vertices.length + 1) (start s)

/-- The edge from `u` to `v` -/
def Edge (G : Digraph V) (u v : V) : Prop := v ∈ G.Adj u

/-- What the search keeps, with `L` the gray vertices: the queue, and before it the vertex whose
neighbours are being visited. -/
structure Inv (G : Digraph V) (s : V) (L : List V) (x : Search V) : Prop where
  source : x.d s = some 0
  white : ∀ v, x.color v = .white ↔ x.d v = none
  gray : ∀ v, x.color v = .gray ↔ v ∈ L
  nodup : L.Nodup
  walk : ∀ v n, x.d v = some n → Walk (Edge G) s n v
  sorted : L.Pairwise fun a b => ∀ m n, x.d a = some m → x.d b = some n → m ≤ n
  near : ∀ a ∈ L.head?, ∀ v m n, x.d a = some m → x.d v = some n → n ≤ m + 1
  black : ∀ u m, x.color u = .black → x.d u = some m → ∀ v ∈ G.Adj u, ∃ n, x.d v = some n ∧ n ≤ m + 1
  tree : ∀ u v, x.π v = some u → v ∈ G.Adj u ∧ ∃ m, x.d u = some m ∧ x.d v = some (m + 1)
  root : ∀ v, x.π v = none ↔ v = s ∨ x.d v = none

theorem Inv.start : Inv G s [s] (start s) where
  source := by simp [Graph.start]
  white v := by by_cases h : v = s <;> simp [Graph.start, h]
  gray v := by by_cases h : v = s <;> simp [Graph.start, h]
  nodup := List.nodup_singleton s
  walk v n hv := by
    by_cases h : v = s
    · subst h
      simp only [Graph.start, Function.update_self, Option.some.injEq] at hv
      exact hv ▸ Walk.nil
    · simp [Graph.start, h] at hv
  sorted := List.pairwise_singleton _ s
  near a ha v m n hm hn := by
    by_cases h : v = s
    · simp only [Graph.start, h, Function.update_self, Option.some.injEq] at hn
      omega
    · simp [Graph.start, h] at hn
  black u m hu := by by_cases h : u = s <;> simp [Graph.start, h] at hu
  tree u v hv := by simp [Graph.start] at hv
  root v := by by_cases h : v = s <;> simp [Graph.start, h]

/-- A vertex with a label keeps its colour, its label and its predecessor. -/
theorem visit_kept {x : Search V} (hv : x.color v ≠ .white) (w : V) :
    (visit u x w).color v = x.color v ∧ (visit u x w).d v = x.d v ∧ (visit u x w).π v = x.π v := by
  unfold visit
  split
  next hw =>
    have hne : v ≠ w := fun h => hv (h ▸ hw)
    simp [hne]
  next => exact ⟨rfl, rfl, rfl⟩

theorem foldl_visit_kept {x : Search V} (hv : x.color v ≠ .white) (ws : List V) :
    (ws.foldl (visit u) x).color v = x.color v ∧ (ws.foldl (visit u) x).d v = x.d v ∧
      (ws.foldl (visit u) x).π v = x.π v := by
  induction ws generalizing x with
  | nil => exact ⟨rfl, rfl, rfl⟩
  | cons w ws ih =>
    obtain ⟨hc, hd, hp⟩ := @visit_kept V _ u v x hv w
    obtain ⟨hc', hd', hp'⟩ := @ih (visit u x w) (hc ▸ hv)
    exact ⟨hc'.trans hc, hd'.trans hd, hp'.trans hp⟩

/-- Visiting a neighbour of the vertex in hand keeps the invariant, and leaves the neighbour
labelled. -/
theorem Inv.visit {x : Search V} (h : Inv G s (u :: x.Q) x) (hv : v ∈ G.Adj u) :
    Inv G s (u :: (visit u x v).Q) (visit u x v) ∧ (Graph.visit u x v).color v ≠ .white := by
  by_cases hw : x.color v = .white
  · have hnone : x.d v = none := (h.white v).1 hw
    have hu : x.color u = .gray := (h.gray u).2 List.mem_cons_self
    obtain ⟨m, hm⟩ : ∃ m, x.d u = some m := by
      refine Option.ne_none_iff_exists'.1 fun hd => ?_
      have := (h.white u).2 hd
      simp [hu] at this
    have hvL : v ∉ u :: x.Q := by
      intro hmem
      have := (h.gray v).2 hmem
      simp [hw] at this
    -- what has a label is not `v`, and keeps it
    have hd : ∀ w n, w ≠ v → (Function.update x.d v (some (m + 1)) w = some n ↔ x.d w = some n) := by
      intro w n hwv
      rw [Function.update_of_ne hwv]
    have hsome : ∀ w n, x.d w = some n → w ≠ v := by
      rintro w n hn rfl
      simp [hnone] at hn
    have hx : Graph.visit u x v =
        { color := Function.update x.color v .gray
          d := Function.update x.d v (some (m + 1))
          π := Function.update x.π v (some u)
          Q := x.Q ++ [v] } := by
      simp [Graph.visit, hw, hm]
    have hLne : ∀ w ∈ u :: x.Q, w ≠ v := by
      intro w hwL hwv
      exact hvL (hwv ▸ hwL)
    rw [hx]
    refine ⟨⟨?_, ?_, ?_, ?_, ?_, ?_, ?_, ?_, ?_, ?_⟩, by simp⟩
    · exact (hd s 0 (hsome s 0 h.source)).2 h.source
    · intro w
      by_cases hwv : w = v
      · simp [hwv]
      · simp [hwv, h.white w]
    · intro w
      by_cases hwv : w = v
      · simp [hwv]
      · have := h.gray w
        simp only [List.mem_cons] at this
        simp [hwv, this]
    · rw [← List.cons_append]
      exact h.nodup.append (List.nodup_singleton v)
        (List.disjoint_singleton.2 hvL)
    · intro w n hn
      by_cases hwv : w = v
      · subst hwv
        simp only [Function.update_self, Option.some.injEq] at hn
        exact hn ▸ (h.walk u m hm).snoc hv
      · exact h.walk w n ((hd w n hwv).1 hn)
    · -- the new label is at most one above that of the head, and none is more
      rw [← List.cons_append, List.pairwise_append]
      refine ⟨?_, List.pairwise_singleton _ v, ?_⟩
      · refine h.sorted.imp_of_mem fun ha hb hab k n hk hn => ?_
        exact hab k n ((hd _ k (hLne _ ha)).1 hk) ((hd _ n (hLne _ hb)).1 hn)
      · intro a ha b hb k n hk hn
        rw [List.mem_singleton] at hb
        subst hb
        simp only [Function.update_self, Option.some.injEq] at hn
        have := h.near u rfl a m k hm ((hd _ k (hLne _ ha)).1 hk)
        omega
    · intro a ha w k n hk hn
      obtain rfl : u = a := by simpa using ha
      obtain rfl : m = k := by simpa [hm] using (hd u k (hsome u m hm)).1 hk
      by_cases hwv : w = v
      · simp only [hwv, Function.update_self, Option.some.injEq] at hn
        omega
      · exact h.near u rfl w m n hm ((hd w n hwv).1 hn)
    · intro w k hwb hk w' hw'
      have hwv : w ≠ v := by
        rintro rfl
        simp at hwb
      simp only [ne_eq, hwv, not_false_eq_true, Function.update_of_ne] at hwb hk
      obtain ⟨n, hn, hnk⟩ := h.black w k hwb hk w' hw'
      exact ⟨n, (hd w' n (hsome w' n hn)).2 hn, hnk⟩
    · intro p w hp
      by_cases hwv : w = v
      · subst hwv
        simp only [Function.update_self, Option.some.injEq] at hp
        subst hp
        exact ⟨hv, m, (hd u m (hsome u m hm)).2 hm, Function.update_self ..⟩
      · simp only [ne_eq, hwv, not_false_eq_true, Function.update_of_ne] at hp
        obtain ⟨he, k, hk, hk'⟩ := h.tree p w hp
        exact ⟨he, k, (hd p k (hsome p k hk)).2 hk, (hd w _ hwv).2 hk'⟩
    · intro w
      by_cases hwv : w = v
      · have hvs : v ≠ s := fun hvs => by simp [hvs, h.source] at hnone
        simp [hwv, hvs]
      · simp [hwv, h.root w]
  · have hx : Graph.visit u x v = x := by simp [Graph.visit, hw]
    rw [hx]
    exact ⟨h, hw⟩

theorem Inv.foldl_visit {x : Search V} {ws : List V} (h : Inv G s (u :: x.Q) x)
    (hws : ∀ w ∈ ws, w ∈ G.Adj u) :
    Inv G s (u :: (ws.foldl (Graph.visit u) x).Q) (ws.foldl (Graph.visit u) x) ∧
      ∀ w ∈ ws, (ws.foldl (Graph.visit u) x).color w ≠ .white := by
  induction ws generalizing x with
  | nil => exact ⟨h, by simp⟩
  | cons w ws ih =>
    obtain ⟨hvis, hw⟩ := h.visit (hws w List.mem_cons_self)
    obtain ⟨hall, hrest⟩ := ih hvis fun w' hw' => hws w' (List.mem_cons_of_mem w hw')
    refine ⟨hall, fun w' hw' => ?_⟩
    rcases List.mem_cons.1 hw' with rfl | hw'
    · rw [List.foldl_cons, (foldl_visit_kept hw ws).1]
      exact hw
    · exact hrest w' hw'

/-- Once its neighbours have labels, the vertex in hand turns black. -/
theorem Inv.scan {x : Search V} (h : Inv G s (u :: x.Q) x) :
    Inv G s (scan G u x).Q (scan G u x) := by
  obtain ⟨hin, hnb⟩ := h.foldl_visit fun w (hw : w ∈ G.Adj u) => hw
  set y := (G.Adj u).foldl (Graph.visit u) x with hy
  have hgray : y.color u = .gray := (hin.gray u).2 List.mem_cons_self
  obtain ⟨huQ, hQ⟩ := List.nodup_cons.1 hin.nodup
  obtain ⟨hle, hsorted⟩ := List.pairwise_cons.1 hin.sorted
  have hx : Graph.scan G u x = { y with color := Function.update y.color u .black } := rfl
  rw [hx]
  refine ⟨hin.source, ?_, ?_, hQ, hin.walk, hsorted, ?_, ?_, hin.tree, hin.root⟩
  · intro v
    by_cases hvu : v = u
    · have := (hin.white u).not.1 (by simp [hgray])
      simp [hvu, this]
    · simp [hvu, hin.white v]
  · intro v
    by_cases hvu : v = u
    · simp [hvu, huQ]
    · have := hin.gray v
      simp only [List.mem_cons, hvu, false_or] at this
      simp [hvu, this]
  · -- the next head has a label that is not below that of `u`
    intro a ha v m n hm hn
    have haQ : a ∈ y.Q := List.mem_of_head? ha
    obtain ⟨k, hk⟩ : ∃ k, y.d u = some k := by
      refine Option.ne_none_iff_exists'.1 fun hd => ?_
      have := (hin.white u).2 hd
      simp [hgray] at this
    have h₁ := hle a haQ k m hk hm
    have h₂ := hin.near u rfl v k n hk hn
    omega
  · intro w m hw hm v hv
    by_cases hwu : w = u
    · subst hwu
      obtain ⟨n, hn⟩ : ∃ n, y.d v = some n :=
        Option.ne_none_iff_exists'.1 ((hin.white v).not.1 (hnb v hv))
      exact ⟨n, hn, hin.near w rfl v m n hm hn⟩
    · simp only [ne_eq, hwu, not_false_eq_true, Function.update_of_ne] at hw
      exact hin.black w m hw hm v hv

/-- A pass of the loop turns one vertex black and no vertex back. -/
theorem scan_black {x : Search V} (h : Inv G s (u :: x.Q) x) :
    (G.vertices.toFinset.filter fun v => x.color v = .black).card <
      (G.vertices.toFinset.filter fun v => (scan G u x).color v = .black).card := by
  have hu : x.color u = .gray := (h.gray u).2 List.mem_cons_self
  refine Finset.card_lt_card ((Finset.ssubset_iff_of_subset fun v hv => ?_).2 ⟨u, ?_, ?_⟩)
  · rw [Finset.mem_filter] at hv ⊢
    have hvu : v ≠ u := fun hvu => by simp [hvu, hu] at hv
    have := (@foldl_visit_kept V _ u v x (by simp [hv.2]) (G.Adj u)).1
    simp [Graph.scan, hvu, this, hv.2, G.mem_vertices]
  · rw [Finset.mem_filter]
    exact ⟨List.mem_toFinset.2 (G.mem_vertices u), Function.update_self ..⟩
  · simp [hu]

/-- The loop comes to an end with the queue empty: every pass turns a vertex black. -/
theorem bfsLoop_ends {fuel : Nat} {x : Search V} (h : Inv G s x.Q x)
    (hfuel : G.vertices.length < (G.vertices.toFinset.filter fun v => x.color v = .black).card + fuel) :
    ∃ y, bfsLoop G fuel x = some y ∧ y.Q = [] ∧ Inv G s [] y := by
  induction fuel generalizing x with
  | zero =>
    have hle := (Finset.card_filter_le G.vertices.toFinset fun v => x.color v = .black).trans
      G.vertices.toFinset_card_le
    omega
  | succ fuel ih =>
    cases hQ : x.Q with
    | nil => exact ⟨x, by simp [bfsLoop, hQ], hQ, hQ ▸ h⟩
    | cons u Q =>
      have hu : Inv G s (u :: Q) { x with Q := Q } := by
        obtain ⟨h1, h2, h3, h4, h5, h6, h7, h8, h9, h10⟩ := hQ ▸ h
        exact ⟨h1, h2, h3, h4, h5, h6, h7, h8, h9, h10⟩
      have hblack := @scan_black V _ G s u { x with Q := Q } hu
      obtain ⟨y, hy, hend⟩ := @ih _ (@Inv.scan V _ G s u { x with Q := Q } hu) (by simp only at hblack; omega)
      exact ⟨y, by simp [bfsLoop, hQ, hy], hend⟩

omit [DecidableEq V] in
theorem Inv.labelled {x : Search V} (h : Inv G s [] x) : Labelled (Edge G) s x.d where
  source := h.source
  walk := h.walk
  step u v m hm he := by
    refine h.black u m ?_ hm v he
    cases hc : x.color u with
    | white =>
      have := (h.white u).1 hc
      simp [hm] at this
    | gray => exact absurd ((h.gray u).1 hc) List.not_mem_nil
    | black => rfl

/-- `BFS` ends on every graph. Its label of a vertex is then the length of a shortest walk from the
source; the vertices that no walk reaches are the ones left white, with label `∞`, and the others
are black. Each of these but the source has as its predecessor a neighbour one step nearer to the
source. -/
theorem bfs_shortest (G : Digraph V) (s : V) :
    ∃ x, BFS G s = some x ∧ x.Q = [] ∧
      (∀ v n, x.d v = some n ↔ IsLeast {k | Walk (Edge G) s k v} n) ∧
      (∀ v, x.color v = .black ↔ ∃ n, Walk (Edge G) s n v) ∧
      (∀ v, x.color v = .white ↔ ∀ n, ¬ Walk (Edge G) s n v) ∧
      (∀ v, x.π v = none ↔ v = s ∨ ∀ n, ¬ Walk (Edge G) s n v) ∧
      ∀ u v, x.π v = some u → v ∈ G.Adj u ∧ ∃ m, x.d u = some m ∧ x.d v = some (m + 1) := by
  obtain ⟨x, hx, hQ, h⟩ := bfsLoop_ends (show Inv G s (start s).Q (start s) from Inv.start)
    (Nat.lt_add_left _ (Nat.lt_succ_self G.vertices.length))
  have hwhite : ∀ v, x.color v = .white ↔ ∀ n, ¬ Walk (Edge G) s n v := by
    intro v
    exact (h.white v).trans h.labelled.eq_none_iff
  refine ⟨x, hx, hQ, fun v n => h.labelled.eq_some_iff, fun v => ?_, hwhite, fun v => ?_, h.tree⟩
  · have hgray := (h.gray v).not.2 List.not_mem_nil
    have := (hwhite v).not
    push Not at this
    rw [← this]
    cases hc : x.color v <;> simp_all
  · rw [h.root v, h.labelled.eq_none_iff]

end LearningNotes.Graph
