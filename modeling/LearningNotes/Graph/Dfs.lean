import LearningNotes.Graph.Bfs
import LearningNotes.Lib.Forest

/-!
# Depth-first search

`DFS_VISIT` discovers a tree: it gives its vertices the next values of `time` in preorder, links
each to its parent and turns them black (`Grown`), and an edge out of the tree only leads to a
vertex that was discovered before it (`Forest.Complete`). Whole runs of `DFS` discover a forest of
all vertices.

Mirroring notes:
- `NIL` is `none`. The pseudocode gives `d` no initial value, so that it starts from any.
- The recursion runs on fuel, and gives `none` when that is used up.
- The pseudocode has no line that sets `v.f`, and the model has no such attribute.
- The first loop is printed as `for each vertex u∈WHITE` with `x.color` in its body; it is read as the
  loop over `G.V` that colours each vertex.
-/

namespace LearningNotes.Graph

variable {V : Type} [DecidableEq V] {G : Digraph V} {u v w : V} {q : Option V} {n : Nat}

/-- The attributes `u.color`, `u.d` and `u.π` of the vertices, and the variable `time`. -/
structure Visits (V : Type) where
  color : V → Color
  d : V → Nat
  π : V → Option V
  time : Nat

/-- The first three lines of `DFS_VISIT`. -/
def discover (u : V) (x : Visits V) : Visits V :=
  { x with
    time := x.time + 1
    d := Function.update x.d u (x.time + 1)
    color := Function.update x.color u .gray }

def DFS_VISIT (G : Digraph V) : Nat → V → Visits V → Option (Visits V)
  | 0, _, _ => none
  | fuel + 1, u, x => do
    let x ← (G.Adj u).foldlM (fun x v =>
      if x.color v = .white then DFS_VISIT G fuel v { x with π := Function.update x.π v (some u) }
      else some x) (discover u x)
    some { x with color := Function.update x.color u .black }

/-- `DFS` with `d` as it stands at the start. -/
def DFS (G : Digraph V) (d : V → Nat) : Option (Visits V) :=
  G.vertices.foldlM (fun x u =>
    if x.color u = .white then DFS_VISIT G (G.vertices.length + 1) u x else some x)
    { color := fun _ => .white, d, π := fun _ => none, time := 0 }

/-- From `x` to `y` the search discovers the forest `F`, whose roots have the predecessor `q`. -/
structure Grown (G : Digraph V) (q : Option V) (F : Forest V) (x y : Visits V) : Prop where
  white : ∀ v ∈ F.pre, x.color v = .white
  black : ∀ v ∈ F.pre, y.color v = .black
  old : ∀ v, v ∉ F.pre → y.color v = x.color v ∧ y.d v = x.d v ∧ y.π v = x.π v
  nodup : F.pre.Nodup
  time : y.time = x.time + F.pre.length
  numbered : F.pre.map y.d = List.range' (x.time + 1) F.pre.length
  links : ∀ e ∈ F.links q, y.π e.1 = e.2
  edges : ∀ e ∈ F.links none, ∀ p, e.2 = some p → Edge G p e.1
  complete : F.Complete (Edge G) fun v => x.color v ≠ .white

/-- The vertices not yet discovered -/
def whites (G : Digraph V) (x : Visits V) : Finset V :=
  G.vertices.toFinset.filter fun v => x.color v = .white

theorem mem_whites {x : Visits V} : v ∈ whites G x ↔ x.color v = .white := by
  simp [whites, G.mem_vertices]

omit [DecidableEq V] in
theorem Grown.nil (x : Visits V) : Grown G q .nil x x where
  white := by simp
  black := by simp
  old _ _ := ⟨rfl, rfl, rfl⟩
  nodup := List.nodup_nil
  time := rfl
  numbered := rfl
  links := by simp
  edges := by simp
  complete := trivial

theorem Grown.whites_le {x y : Visits V} {F : Forest V} (h : Grown G q F x y) :
    (whites G y).card ≤ (whites G x).card := by
  refine Finset.card_le_card fun v hv => ?_
  rw [mem_whites] at hv ⊢
  by_cases hF : v ∈ F.pre
  · exact h.white v hF
  · exact (h.old v hF).1 ▸ hv

theorem Grown.not_white {x y : Visits V} {F : Forest V} (h : Grown G q F x y) :
    y.color v ≠ .white ↔ x.color v ≠ .white ∨ v ∈ F.pre := by
  by_cases hF : v ∈ F.pre
  · simp [hF, h.black v hF]
  · simp [hF, (h.old v hF).1]

/-- A tree and the forest discovered after it. -/
theorem Grown.cons {x y z : Visits V} {k r : Forest V} (h : Grown G q (.node v k .nil) x y)
    (h' : Grown G q r y z) : Grown G q (.node v k r) x z := by
  have hpre : (Forest.node v k .nil).pre = v :: k.pre := by simp
  have hcons : (Forest.node v k r).pre = (v :: k.pre) ++ r.pre := by simp
  have hblack := hpre ▸ h.black
  -- the second forest has only vertices the first left white
  have hdisj : ∀ w ∈ v :: k.pre, w ∉ r.pre := by
    intro w hw hr
    have := h'.white w hr
    simp [hblack w hw] at this
  have hold : ∀ w, w ∉ r.pre → z.color w = y.color w ∧ z.d w = y.d w ∧ z.π w = y.π w := h'.old
  obtain ⟨hcv, hck, -⟩ := h.complete
  constructor
  · intro w hw
    rw [hcons, List.mem_append] at hw
    rcases hw with hw | hw
    · exact h.white w (hpre ▸ hw)
    · by_cases hwk : w ∈ v :: k.pre
      · exact absurd hw (hdisj w hwk)
      · exact (h.old w (hpre ▸ hwk)).1 ▸ h'.white w hw
  · intro w hw
    rw [hcons, List.mem_append] at hw
    rcases hw with hw | hw
    · exact (hold w (hdisj w hw)).1.trans (hblack w hw)
    · exact h'.black w hw
  · intro w hw
    rw [hcons, List.mem_append, not_or] at hw
    obtain ⟨hc, hd, hp⟩ := hold w hw.2
    obtain ⟨hc', hd', hp'⟩ := h.old w (hpre ▸ hw.1)
    exact ⟨hc.trans hc', hd.trans hd', hp.trans hp'⟩
  · rw [hcons]
    exact (hpre ▸ h.nodup).append h'.nodup fun w hw hr => hdisj w hw hr
  · rw [h'.time, h.time, hcons, hpre, List.length_append]
    omega
  · have hmap : (v :: k.pre).map z.d = (v :: k.pre).map y.d :=
      List.map_congr_left fun w hw => (hold w (hdisj w hw)).2.1
    rw [hcons, List.map_append, hmap, ← hpre, h.numbered, h'.numbered, h.time, List.length_append,
      List.range'_append_1.symm]
    congr 2
    omega
  · intro e he
    simp only [Forest.links_node, List.mem_cons, List.mem_append] at he
    have hmem : ∀ e ∈ (Forest.node v k .nil).links q, e.1 ∈ v :: k.pre := by
      intro e he
      rw [← hpre, ← Forest.map_links q]
      exact List.mem_map_of_mem he
    have hfst : ∀ e ∈ (Forest.node v k .nil).links q, z.π e.1 = e.2 := by
      intro e he
      exact (hold e.1 (hdisj _ (hmem e he))).2.2.trans (h.links e he)
    rcases he with rfl | he | he
    · exact hfst _ (by simp)
    · exact hfst e (by simp [he])
    · exact h'.links e he
  · intro e he
    simp only [Forest.links_node, List.mem_cons, List.mem_append] at he
    rcases he with rfl | he | he
    · simp
    · exact h.edges e (by simp [he])
    · exact h'.edges e he
  · refine ⟨hcv, hck, h'.complete.mono fun w hw => ?_⟩
    rw [h.not_white, hpre, List.mem_cons] at hw
    exact hw

/-- A loop whose body grows a tree from each white vertex, and skips the others, grows a forest and
leaves no vertex white that it has been through. -/
theorem foldlM_grown {f : Visits V → V → Option (Visits V)} (Ok : Visits V → Prop)
    (hok : ∀ x y F, Ok x → Grown G q F x y → Ok y)
    (hskip : ∀ x v, x.color v ≠ .white → f x v = some x)
    (hgrow : ∀ x v, Ok x → x.color v = .white →
      ∃ y k, f x v = some y ∧ Grown G q (.node v k .nil) x y)
    (ws : List V) {x : Visits V} (hx : Ok x) (hw : ∀ w ∈ ws, ∀ p, q = some p → Edge G p w) :
    ∃ y F, ws.foldlM f x = some y ∧ Grown G q F x y ∧ (∀ w ∈ ws, y.color w ≠ .white) ∧
      ∀ e ∈ F.links q, ∀ p, e.2 = some p → Edge G p e.1 := by
  induction ws generalizing x with
  | nil => exact ⟨x, .nil, rfl, .nil x, by simp, by simp⟩
  | cons v ws ih =>
    have hws := fun w (h : w ∈ ws) => hw w (List.mem_cons_of_mem v h)
    by_cases hv : x.color v = .white
    · obtain ⟨y, k, hy, hgy⟩ := hgrow x v hx hv
      obtain ⟨z, r, hz, hgz, hcol, hedge⟩ := ih (hok x y _ hx hgy) hws
      have hg := hgy.cons hgz
      refine ⟨z, .node v k r, by simp [hy, hz], hg, fun w hmem => ?_, fun e he p hp => ?_⟩
      · rcases List.mem_cons.1 hmem with rfl | hmem
        · simp [hg.black w (by simp)]
        · exact hcol w hmem
      · simp only [Forest.links_node, List.mem_cons, List.mem_append] at he
        rcases he with rfl | he | he
        · exact hw v List.mem_cons_self p hp
        · exact hgy.edges e (by simp [he]) p hp
        · exact hedge e he p hp
    · obtain ⟨z, r, hz, hgz, hcol, hedge⟩ := ih hx hws
      refine ⟨z, r, by simp [hskip x v hv, hz], hgz, fun w hmem => ?_, hedge⟩
      rcases List.mem_cons.1 hmem with rfl | hmem
      · exact hgz.not_white.2 (.inl hv)
      · exact hcol w hmem

/-- `DFS_VISIT` on a white vertex grows a tree from it. -/
theorem dfs_visit_grown {x : Visits V} (hu : x.color u = .white) (hn : (whites G x).card ≤ n) :
    ∃ y k, DFS_VISIT G n u x = some y ∧ Grown G (x.π u) (.node u k .nil) x y := by
  induction n generalizing u x with
  | zero =>
    have hpos : 0 < (whites G x).card := Finset.card_pos.2 ⟨u, mem_whites.2 hu⟩
    omega
  | succ n ih =>
    have hlt : (whites G (discover u x)).card ≤ n := by
      have hss : whites G (discover u x) ⊂ whites G x := by
        refine (Finset.ssubset_iff_of_subset fun v hv => ?_).2 ⟨u, mem_whites.2 hu, ?_⟩
        · rw [mem_whites] at hv ⊢
          by_cases hvu : v = u
          · exact hvu ▸ hu
          · simpa [discover, hvu] using hv
        · simp [mem_whites, discover]
      have := Finset.card_lt_card hss
      omega
    obtain ⟨y, F, hy, hg, hadj, hedge⟩ := foldlM_grown (G := G) (q := some u)
      (f := fun x v => if x.color v = .white then
        DFS_VISIT G n v { x with π := Function.update x.π v (some u) } else some x)
      (fun x => (whites G x).card ≤ n)
      (fun x y F hx hg => hg.whites_le.trans hx) (fun x v hv => if_neg hv)
      (fun x v hx hv => by
        obtain ⟨y, k, hy, hg⟩ := @ih v { x with π := Function.update x.π v (some u) } hv hx
        refine ⟨y, k, by simp [hv, hy], ?_⟩
        have hπ : ({ x with π := Function.update x.π v (some u) } : Visits V).π v = some u := by
          simp
        rw [hπ] at hg
        refine ⟨hg.white, hg.black, fun w hw => ?_, hg.nodup, hg.time, hg.numbered, hg.links,
          hg.edges, hg.complete⟩
        obtain ⟨hc, hd, hp⟩ := hg.old w hw
        have hwv : w ≠ v := fun h => hw (by simp [h])
        exact ⟨hc, hd, hp.trans (Function.update_of_ne hwv ..)⟩)
      (G.Adj u) hlt (fun w hw p hp => by
        obtain rfl := Option.some.inj hp
        exact hw)
    -- `u` is gray while its neighbours are visited, so it is not among what they discover
    have huF : u ∉ F.pre := by
      intro h
      have := hg.white u h
      simp [discover] at this
    obtain ⟨hcu, hdu, hpu⟩ := hg.old u huF
    refine ⟨{ y with color := Function.update y.color u .black }, F, by simp [DFS_VISIT, hy], ?_⟩
    have hpre : (Forest.node u F .nil).pre = u :: F.pre := by simp
    constructor
    · intro w hw
      rw [hpre, List.mem_cons] at hw
      rcases hw with rfl | hw
      · exact hu
      · have hwu : w ≠ u := fun h => huF (h ▸ hw)
        simpa [discover, hwu] using hg.white w hw
    · intro w hw
      rw [hpre, List.mem_cons] at hw
      by_cases hwu : w = u
      · simp [hwu]
      · simp [hwu, hg.black w (hw.resolve_left hwu)]
    · intro w hw
      rw [hpre, List.mem_cons, not_or] at hw
      obtain ⟨hc, hd, hp⟩ := hg.old w hw.2
      simp [hw.1, hc, hd, hp, discover]
    · rw [hpre]
      exact List.nodup_cons.2 ⟨huF, hg.nodup⟩
    · rw [hpre, List.length_cons, hg.time]
      simp only [discover]
      omega
    · rw [hpre, List.map_cons, List.length_cons, List.range'_succ, hg.numbered, hdu]
      simp [discover]
    · intro e he
      simp only [Forest.links_node, Forest.links_nil, List.append_nil, List.mem_cons] at he
      rcases he with rfl | he
      · exact hpu
      · exact hg.links e he
    · intro e he p hp
      simp only [Forest.links_node, Forest.links_nil, List.append_nil, List.mem_cons] at he
      rcases he with rfl | he
      · simp at hp
      · exact hedge e he p hp
    · have hseen : ∀ w, (discover u x).color w ≠ .white ↔ x.color w ≠ .white ∨ w = u := by
        intro w
        by_cases hwu : w = u <;> simp [discover, hwu]
      refine ⟨fun w hw => ?_, hg.complete.mono fun w => (hseen w).1, trivial⟩
      have := hg.not_white.1 (hadj w hw)
      rwa [hseen, or_assoc] at this

/-- `v` is `u` or one of its descendants in the forest of predecessors. -/
def Descends (π : V → Option V) (u v : V) : Prop :=
  Relation.ReflTransGen (fun p w => π w = some p) u v

/-- `DFS` ends on every graph, with all vertices black and discovered one at each time from 1
on. A predecessor is a vertex discovered earlier with an edge to its successor, and the
descendants of a vertex are exactly the vertices that a path reaches from it through vertices that
were still white when it was discovered. -/
theorem dfs_white_path (G : Digraph V) (d : V → Nat) :
    ∃ x, DFS G d = some x ∧ (∀ v, x.color v = .black) ∧ x.d.Injective ∧
      (∀ t, (∃ v, x.d v = t) ↔ 1 ≤ t ∧ t ≤ x.time) ∧
      (∀ u v, x.π v = some u → v ∈ G.Adj u ∧ x.d u < x.d v) ∧
      ∀ u v, Descends x.π u v ↔
        Relation.ReflTransGen (fun a b => b ∈ G.Adj a ∧ x.d u ≤ x.d b) u v := by
  obtain ⟨x, F, hx, hg, hcol, -⟩ := foldlM_grown (G := G) (q := none)
    (f := fun x u => if x.color u = .white then DFS_VISIT G (G.vertices.length + 1) u x else some x)
    (fun x => ∀ v, x.color v = .white → x.π v = none)
    (fun x y F hx hg v hv => by
      have hF : v ∉ F.pre := fun h => by simp [hg.black v h] at hv
      obtain ⟨hc, -, hp⟩ := hg.old v hF
      exact hp.trans (hx v (hc ▸ hv)))
    (fun x v hv => if_neg hv)
    (fun x v hx hv => by
      have hle : (whites G x).card ≤ G.vertices.length + 1 :=
        ((Finset.card_filter_le _ _).trans G.vertices.toFinset_card_le).trans (Nat.le_succ _)
      obtain ⟨y, k, hy, hg⟩ := dfs_visit_grown hv hle
      exact ⟨y, k, by simp [hv, hy], hx v hv ▸ hg⟩)
    G.vertices (x := { color := fun _ => .white, d, π := fun _ => none, time := 0 })
    (fun _ _ => rfl) (by simp)
  have hall : ∀ v, v ∈ F.pre := by
    intro v
    have := hg.not_white.1 (hcol v (G.mem_vertices v))
    simpa using this
  have hd : F.pre.Pairwise (x.d · < x.d ·) := by
    rw [← List.pairwise_map, hg.numbered]
    exact List.pairwise_lt_range'
  have hc : F.Complete (Edge G) fun _ => False := hg.complete.mono fun v hv => hv rfl
  have hbelow : ∀ a b, F.Below a b ↔ Descends x.π a b := by
    intro a b
    exact Forest.below_iff_parents hd hall hg.links
  have htime : ∀ t, t ∈ F.pre.map x.d ↔ 1 ≤ t ∧ t ≤ x.time := by
    intro t
    have ht : x.time = 0 + F.pre.length := hg.time
    have hnum : F.pre.map x.d = List.range' (0 + 1) F.pre.length := hg.numbered
    rw [hnum, List.mem_range'_1]
    omega
  refine ⟨x, hx, fun v => hg.black v (hall v), fun a b hab => ?_, fun t => ?_, fun p v hp => ?_,
    fun u v => ?_⟩
  · have hnodup : (F.pre.map x.d).Nodup := hg.numbered ▸ List.nodup_range'
    exact List.inj_on_of_nodup_map hnodup (hall a) (hall b) hab
  · rw [← htime]
    simp [hall]
  · obtain ⟨⟨w, o⟩, hmem, rfl⟩ := List.mem_map.1 ((Forest.map_links none F).symm ▸ hall v)
    obtain rfl : o = some p := (hg.links _ hmem).symm.trans hp
    refine ⟨hg.edges _ hmem p rfl, ?_⟩
    rcases Forest.lt_of_link hd hmem with hlt | ⟨hq, -⟩
    · exact hlt
    · simp at hq
  · exact (hbelow u v).symm.trans (Forest.below_iff_path hd hg.edges hc (hall u))

end LearningNotes.Graph
