import LearningNotes.Trees.Fixup
import LearningNotes.Lib.Runs

/-!
# Sequences of insertions

`RBTree::tree_insert` keeps the red-black tree, as long as the fix-up does not rotate to the right
after its first round. Eight descending keys are enough to make it do so.
-/

namespace LearningNotes.Trees.RBTree

open PTree

variable {s s' : Tree} {t : PTree Entry} {a z n : Nat} {k d : Int}

structure Ins where
  a : Nat
  k : Int
  d : Int

/-- A node is made at an address where there is none, and inserted; the keys are recorded. -/
def act (x : Ins) (σ : Tree × List Int) : Option (Tree × List Int) :=
  if σ.1.cells x.a = none then
    (tree_insert (make_node σ.1 x.a x.k x.d) (σ.1.size + 1) (some x.a)).map (·, x.k :: σ.2)
  else none

/-- The insertion does not make the fix-up rotate to the right after its first round. -/
def InsHarmless (x : Ins) (σ : Tree × List Int) : Prop :=
  ((σ.1.tree (σ.1.size + 1) σ.1.root).all fun t => harmless (t.pathTo Entry.key x.k [])) = true

/-- The memory holds the red-black tree `t`. -/
structure Valid (s : Tree) (t : PTree Entry) : Prop where
  rep : Rep s t
  ne : t ≠ .nil
  bst : t.Bst Entry.key
  black : colorOf t = .BLACK
  rb : ∃ n, Rb n t

theorem Rep.tree (h : Rep s t) : s.tree (s.size + 1) s.root = some t := by
  rw [h.root]
  exact tree_spec h.mem (by rw [h.size]; omega)

/-- An assignment that changes nothing. -/
theorem State.upd_same {α : Type} {s : State α} {x : Cell α} (h : s.cells a = some x) :
    s.upd a x = s := by
  rw [State.upd, ← h, Function.update_eq_self]

theorem length_le_addrs (c : Path Entry) : c.length ≤ c.addrs.length := by
  induction c with
  | nil => exact Nat.zero_le _
  | cons f c ih =>
    rw [Path.addrs, List.length_cons, List.length_cons, List.length_append]
    omega

/-- **`tree_insert`**, up to the fix-up: a red leaf. -/
theorem place_spec (h : Rep s t) (hne : t ≠ .nil) (ha : s.cells a = none) :
    ∃ s', Rep s' (plug (t.pathTo Entry.key k []) (.node .nil a ⟨k, d, .RED⟩ .nil)) ∧
      tree_insert (make_node s a k d) (s.size + 1) (some a) =
        rb_insert_fixup (s.size + 1) s' (some a) := by
  obtain ⟨y, s', hdescend, hrun, hrep⟩ := @leaf_spec _ Entry.key _ _ _ ⟨k, d, .RED⟩ h hne ha
  refine ⟨s', hrep, ?_⟩
  obtain ⟨s₁, hparent, hattach⟩ := Option.bind_eq_some_iff.mp hrun
  have hz : (make_node s a k d).cells a = some ⟨⟨k, d, .RED⟩, none, none, none⟩ :=
    Function.update_self ..
  obtain ⟨hz', -, -⟩ := hrep.in_hole
  -- the node has no children, and is red
  have hright : setChild .right s' (some a) none = some s' := by
    rw [setChild_some hz']
    exact congrArg some (State.upd_same hz')
  have hleft : setChild .left s' (some a) none = some s' := by
    rw [setChild_some hz']
    exact congrArg some (State.upd_same hz')
  have hred : setColor s' (some a) .RED = some s' := by
    rw [setColor, put_some hz']
    exact congrArg some (State.upd_same hz')
  have hplace : place s₁ (some a) (some y) = some s' := hattach
  unfold tree_insert
  rw [show (make_node s a k d).root = t.root from h.root]
  simp only [get_some, hz, Option.bind_eq_bind, Option.bind_some]
  rw [make_node, hdescend, Option.bind_some, hparent, Option.bind_some, hplace, Option.bind_some,
    hright, Option.bind_some, hleft, Option.bind_some, hred, Option.bind_some]

theorem keys_pairs (t : PTree Entry) : (pairs t).map (·.2.1) = t.nodes.map (·.2.key) := by
  rw [pairs, List.map_map]
  rfl

/-- **One insertion.** -/
theorem Valid.insert (h : Valid s t) (ha : s.cells a = none)
    (hsafe : harmless (t.pathTo Entry.key k []) = true) :
    ∃ s' t', tree_insert (make_node s a k d) (s.size + 1) (some a) = some s' ∧ Valid s' t' ∧
      (t'.nodes.map (·.2.key)).Perm (k :: t.nodes.map (·.2.key)) := by
  obtain ⟨s₁, hrep, hrun⟩ := place_spec (k := k) (d := d) h.rep h.ne ha
  obtain ⟨n, hrb⟩ := h.rb
  have hpath : plug (t.pathTo Entry.key k []) .nil = t := plug_pathTo
  rw [← hpath] at hrb
  obtain ⟨m, hc, hm, -⟩ := rb_of_plug hrb (by rw [hpath, h.black])
  cases hm
  have hlen : (t.pathTo Entry.key k []).length < s.size + 1 := by
    have hle := length_le_addrs (t.pathTo Entry.key k [])
    have hsize := addrs_plug (c := t.pathTo Entry.key k []) (t := (.nil : PTree Entry)) |>.length_eq
    rw [hpath, List.length_append, addrs_nil, List.length_nil] at hsize
    have := h.rep.size
    omega
  obtain ⟨s', t', hfix, hrep', hpairs, hblack, hrb'⟩ := mends hrep rfl
    ((rb_red (d := .left) rfl).mpr ⟨rfl, rfl, rfl, rfl⟩) rfl hc (.inl ⟨rfl, hsafe⟩) hlen
  have hbst := Bst.insert (v := (⟨k, d, .RED⟩ : Entry)) (a := a) h.bst
  have hnodes := nodes_plug_pathTo (v := (⟨k, d, .RED⟩ : Entry)) (a := a) h.bst
  have hperm : (t'.nodes.map (·.2.key)).Perm (k :: t.nodes.map (·.2.key)) := by
    rw [← keys_pairs, hpairs, keys_pairs, hnodes]
    exact (List.perm_orderedInsert _ _ _).map _
  refine ⟨s', t', hrun.trans hfix, ⟨hrep', ?_, ?_, hblack, hrb'⟩, hperm⟩
  · rintro rfl
    cases hperm.length_eq
  · rw [bst_iff_pairs, hpairs, ← bst_iff_pairs]
    exact hbst

theorem init_valid (a : Nat) (k d : Int) :
    Valid (init a k d) (.node .nil a ⟨k, d, .BLACK⟩ .nil) where
  rep := ⟨⟨⟨Function.update_self .., trivial, trivial⟩, rfl, List.nodup_singleton a⟩, rfl⟩
  ne := nofun
  bst := ⟨trivial, trivial, nofun, nofun⟩
  black := rfl
  rb := ⟨1, (rb_black (d := .left) rfl).mpr ⟨rfl, rfl⟩⟩

/-- The tree, and that it has the keys that have been inserted. -/
def Holds (σ : Tree × List Int) (t : PTree Entry) : Prop :=
  Valid σ.1 t ∧ (t.nodes.map (·.2.key)).Perm σ.2

theorem Holds.act {x : Ins} {σ : Tree × List Int} (h : Holds σ t) (ha : σ.1.cells x.a = none)
    (hsafe : InsHarmless x σ) : ∃ σ', act x σ = some σ' ∧ ∃ t', Holds σ' t' := by
  rw [InsHarmless, Rep.tree h.1.rep, Option.all_some] at hsafe
  obtain ⟨s', t', hrun, hvalid, hperm⟩ := h.1.insert (d := x.d) ha hsafe
  refine ⟨(s', x.k :: σ.2), ?_, t', hvalid, hperm.trans (h.2.cons _)⟩
  rw [RBTree.act, if_pos ha, hrun, Option.map_some]

/-- **Insertions.** As long as no insertion makes the fix-up rotate to the right after its first
round, the memory holds a red-black search tree with the keys that have been inserted, and the next
such insertion returns. -/
theorem insert_run (a : Nat) (k d : Int) (σ : Tree × List Int)
    (h : Run act (init a k d, [k]) InsHarmless σ) :
    ∃ t, Rep σ.1 t ∧ t.Bst Entry.key ∧ colorOf t = .BLACK ∧ (∃ n, Rb n t) ∧
      (t.nodes.map (·.2.key)).Pairwise (· ≤ ·) ∧ (t.nodes.map (·.2.key)).Perm σ.2 ∧
      ∀ x, σ.1.cells x.a = none → InsHarmless x σ → ∃ σ', act x σ = some σ' := by
  obtain ⟨t, hvalid, hperm⟩ := h.inv (I := fun σ => ∃ t, Holds σ t)
    ⟨_, init_valid a k d, .rfl⟩ fun x σ σ' _ hsafe hs ⟨t, ht⟩ => by
      have ha : σ.1.cells x.a = none := by
        by_contra hne
        rw [act, if_neg hne] at hs
        cases hs
      obtain ⟨σ₁, hrun, t', ht'⟩ := ht.act ha hsafe
      rw [hrun] at hs
      cases hs
      exact ⟨t', ht'⟩
  refine ⟨t, hvalid.rep, hvalid.bst, hvalid.black, hvalid.rb, ?_, hperm, fun x ha hsafe => ?_⟩
  · rw [List.pairwise_map]
    exact bst_iff.mp hvalid.bst
  · obtain ⟨σ', hrun, -⟩ := Holds.act ⟨hvalid, hperm⟩ ha hsafe
    exact ⟨σ', hrun⟩

/-- Seven descending keys, and one between them. -/
theorem insert_run_seven : ∃ σ, Run act (init 1 8 0, [8]) InsHarmless σ ∧ σ.2.length = 8 ∧
    ∃ t, Rep σ.1 t ∧ (t.nodes.map (·.2.key)).Perm σ.2 := by
  have hrun : (performIf act (fun x σ => (σ.1.tree (σ.1.size + 1) σ.1.root).all fun t =>
      harmless (t.pathTo Entry.key x.k []))
      [⟨2, 7, 0⟩, ⟨3, 6, 0⟩, ⟨4, 5, 0⟩, ⟨5, 4, 0⟩, ⟨6, 3, 0⟩, ⟨7, 2, 0⟩, ⟨8, 7, 0⟩]
      (init 1 8 0, [8])).any (fun σ => σ.2.length = 8) = true := by
    decide +kernel
  obtain ⟨σ, hσ, hlen⟩ := (Option.any_eq_true _ _).mp hrun
  have h := Run.of_performIf (C := InsHarmless) (fun _ _ hok => hok) hσ
  obtain ⟨t, hrep, -, -, -, -, hperm, -⟩ := insert_run _ _ _ σ h
  exact ⟨σ, h, of_decide_eq_true hlen, t, hrep, hperm⟩

/-- **Eight descending keys.** The second round rotates to the right; a key is lost, and a node is
reached twice. -/
theorem eight_descending : ∃ σ, Run act (init 1 8 0, [8]) AnyStep σ ∧
    σ.2 = [1, 2, 3, 4, 5, 6, 7, 8] ∧
    (σ.1.tree (σ.1.size + 1) σ.1.root).map (fun t => t.nodes.map (·.2.key)) =
      some [1, 2, 3, 4, 5, 8, 7, 8] ∧
    ¬ ∃ t, Rep σ.1 t ∧ (t.nodes.map (·.2.key)).Perm σ.2 := by
  have hrun : (perform act
      [⟨2, 7, 0⟩, ⟨3, 6, 0⟩, ⟨4, 5, 0⟩, ⟨5, 4, 0⟩, ⟨6, 3, 0⟩, ⟨7, 2, 0⟩, ⟨8, 1, 0⟩]
      (init 1 8 0, [8])).any (fun σ => σ.2 = [1, 2, 3, 4, 5, 6, 7, 8] ∧
        (σ.1.tree (σ.1.size + 1) σ.1.root).map (fun t => t.nodes.map (·.2.key)) =
          some [1, 2, 3, 4, 5, 8, 7, 8]) = true := by
    decide +kernel
  obtain ⟨σ, hσ, hkeys⟩ := (Option.any_eq_true _ _).mp hrun
  obtain ⟨hσ₂, hread⟩ := of_decide_eq_true hkeys
  refine ⟨σ, Run.of_perform hσ, hσ₂, hread, fun ⟨t, ht, hperm⟩ => ?_⟩
  rw [Rep.tree ht, Option.map_some, Option.some_inj] at hread
  rw [hread, hσ₂] at hperm
  exact absurd hperm (by decide)

end LearningNotes.Trees.RBTree
