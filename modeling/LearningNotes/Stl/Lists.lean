import LearningNotes.Lib.Runs
import LearningNotes.Stl.ListRing

/-!
# `list`

Several lists are changed by `insert`, `erase`, the same at their ends, `splice`, which may take nodes
from one list to another, and `reverse`. `Act.effect` says what each call does to plain lists of nodes,
and in every run the rings have just these nodes in this order (`lists_hold`).
-/

namespace LearningNotes.StlList

variable {α ι : Type} {s s' : State α} {node first last tmp p x : Nat} {v : α}
  {l l₁ l₂ m t : List Nat}

/-! ## Several lists -/

section Lists

variable [DecidableEq ι] {head : ι → Nat} {lists : ι → List Nat} {i j : ι}

/-- The lists are rings, and no node is in two of them. -/
structure Holds (head : ι → Nat) (s : State α) (lists : ι → List Nat) : Prop where
  ring : ∀ i, s.Ring (head i) (lists i)
  apart : ∀ i j, i ≠ j → ∀ c ∈ head i :: lists i, c ∉ head j :: lists j

/-- The calls; `splice` is a call on the list `i` with the list `j`. -/
inductive Act (ι α : Type) where
  | insert (position : Nat) (x : α) (tmp : Nat)
  | erase (position : Nat)
  | push_front (i : ι) (x : α) (tmp : Nat)
  | push_back (i : ι) (x : α) (tmp : Nat)
  | pop_front (i : ι)
  | pop_back (i : ι)
  | splice (i : ι) (position : Nat) (j : ι) (first last : Nat)
  | reverse (i : ι) (fuel : Nat)

/-- The nodes of each list after a call. -/
def Act.effect (head : ι → Nat) (lists : ι → List Nat) : Act ι α → ι → List Nat
  | .insert position _ tmp => fun i =>
    if position ∈ head i :: lists i then before position [tmp] (lists i) else lists i
  | .erase position => fun i => (lists i).erase position
  | .push_front i _ tmp => Function.update lists i (tmp :: lists i)
  | .push_back i _ tmp => Function.update lists i (lists i ++ [tmp])
  | .pop_front i => Function.update lists i (lists i).tail
  | .pop_back i => Function.update lists i (lists i).dropLast
  | .splice i position j first last =>
    let rest := Function.update lists j (without first last (lists j))
    Function.update rest i (before position (stretch first last (lists j)) (rest i))
  | .reverse i _ => Function.update lists i (lists i).reverse

/-- What a call does to the memory. -/
def Act.run (head : ι → Nat) (s : State α) : Act ι α → Option (State α)
  | .insert position x tmp => some (StlList.insert position x tmp s)
  | .erase position => some (StlList.erase position s)
  | .push_front i x tmp => some (StlList.push_front (head i) x tmp s)
  | .push_back i x tmp => some (StlList.push_back (head i) x tmp s)
  | .pop_front i => some (StlList.pop_front (head i) s)
  | .pop_back i => some (StlList.pop_back (head i) s)
  | .splice _ position _ first last => some (StlList.splice position first last s)
  | .reverse i fuel => StlList.reverse (head i) fuel s

/-- The node that a call makes, with its data. -/
def Act.made : Act ι α → Option (Nat × α)
  | .insert _ x tmp | .push_front _ x tmp | .push_back _ x tmp => some (tmp, x)
  | _ => none

def act (head : ι → Nat) (a : Act ι α) (x : State α × (ι → List Nat)) :
    Option (State α × (ι → List Nat)) :=
  (a.run head x.1).map fun s => (s, a.effect head x.2)

/-- Iterators point into their lists, a new node is new, what is popped is there, a stretch is a
stretch, and nodes are not put into themselves. -/
def Act.Legal (head : ι → Nat) (lists : ι → List Nat) : Act ι α → Prop
  | .insert position _ tmp =>
    (∃ i, position ∈ head i :: lists i) ∧ ∀ i, tmp ∉ head i :: lists i
  | .erase position => ∃ i, position ∈ lists i
  | .push_front _ _ tmp | .push_back _ _ tmp => ∀ i, tmp ∉ head i :: lists i
  | .pop_front i | .pop_back i => lists i ≠ []
  | .splice i position j first last => position ∈ head i :: lists i ∧
    (first = last ∨ ∃ l₁ m l₂, IsStretch (head j) first last (lists j) l₁ m l₂ ∧ position ∉ m)
  | .reverse i fuel => (lists i).length < fuel

/-- One list changes, and keeps its nodes but for new ones. -/
theorem Holds.update (h : Holds head s lists) (hring : s'.Ring (head i) l)
    (hframe : Frame s s' t) (ht : ∀ c ∈ t, c ∈ head i :: lists i ∨ ∀ j, c ∉ head j :: lists j)
    (hl : ∀ c ∈ l, c ∈ head i :: lists i ∨ ∀ j, c ∉ head j :: lists j) :
    Holds head s' (Function.update lists i l) := by
  have hother : ∀ j, j ≠ i → ∀ c ∈ head j :: lists j, c ∉ t := by
    intro j hj c hc hmem
    rcases ht c hmem with hi | hout
    · exact h.apart j i hj c hc hi
    · exact hout j hc
  have hnew : ∀ j, j ≠ i → ∀ c ∈ head i :: l, c ∉ head j :: lists j := by
    intro j hj c hc
    rcases List.mem_cons.1 hc with rfl | hc
    · exact h.apart i j hj.symm _ (List.mem_cons_self ..)
    · rcases hl c hc with hi | hout
      · exact h.apart i j hj.symm c hi
      · exact hout j
  refine ⟨fun j => ?_, fun j k hjk => ?_⟩
  · by_cases hj : j = i
    · subst hj
      rwa [Function.update_self]
    · rw [Function.update_of_ne hj]
      exact hframe.ring (h.ring j) (hother j hj)
  · by_cases hj : j = i
    · subst hj
      rw [Function.update_self, Function.update_of_ne hjk.symm]
      exact hnew k hjk.symm
    · rw [Function.update_of_ne hj]
      by_cases hk : k = i
      · subst hk
        rw [Function.update_self]
        intro c hc hmem
        exact hnew j hj c hmem hc
      · rw [Function.update_of_ne hk]
        exact h.apart j k hjk

/-- `insert` puts the element in front of the position. -/
theorem Holds.insert (h : Holds head s lists)
    (hc : (Act.insert p v tmp : Act ι α).Legal head lists) :
    Holds head (StlList.insert p v tmp s) ((Act.insert p v tmp : Act ι α).effect head lists) := by
  obtain ⟨⟨i, hp⟩, htmp⟩ := hc
  obtain ⟨l₁, l₂, hl, hnot, hhead⟩ := exists_cut hp
  have hring := h.ring i
  rw [hl] at hring
  obtain ⟨hr, hframe⟩ := insert_ring (v := v) l₁ l₂ hring hhead (hl ▸ htmp i)
  have heffect : (Act.insert p v tmp : Act ι α).effect head lists =
      Function.update lists i (l₁ ++ [tmp] ++ l₂) := by
    funext k
    by_cases hk : k = i
    · subst hk
      dsimp only [Act.effect]
      rw [if_pos hp, Function.update_self, hl, before_cut hnot hhead]
    · dsimp only [Act.effect]
      rw [if_neg (h.apart i k (Ne.symm hk) p hp), Function.update_of_ne hk]
  rw [heffect]
  refine h.update hr hframe (fun c hc => ?_) fun c hc => ?_
  · rcases List.mem_cons.1 hc with rfl | hc
    · exact .inr htmp
    · exact .inl (hl ▸ hc)
  · by_cases hct : c = tmp
    · exact .inr (hct ▸ htmp)
    · left
      rw [hl]
      simp only [List.mem_append, List.mem_cons, List.not_mem_nil, or_false] at hc ⊢
      tauto

/-- `erase` takes the element at the position out. -/
theorem Holds.erase (h : Holds head s lists) (hc : (Act.erase p : Act ι α).Legal head lists) :
    Holds head (StlList.erase p s) ((Act.erase p : Act ι α).effect head lists) := by
  obtain ⟨i, hp⟩ := hc
  obtain ⟨l₁, l₂, hl, hnot⟩ := List.eq_append_cons_of_mem hp
  have hl' : lists i = l₁ ++ [p] ++ l₂ := by simpa using hl
  have hring := h.ring i
  rw [hl'] at hring
  obtain ⟨hr, hframe⟩ := erase_ring hring
  have heffect : (Act.erase p : Act ι α).effect head lists = Function.update lists i (l₁ ++ l₂) := by
    funext k
    by_cases hk : k = i
    · subst hk
      dsimp only [Act.effect]
      rw [Function.update_self, hl, List.erase_append_right _ hnot, List.erase_cons_head]
    · have hpk : p ∉ lists k := by
        intro hmem
        exact h.apart i k (Ne.symm hk) p (List.mem_cons_of_mem _ hp) (List.mem_cons_of_mem _ hmem)
      dsimp only [Act.effect]
      rw [Function.update_of_ne hk, List.erase_of_not_mem hpk]
  rw [heffect]
  refine h.update hr hframe (fun c hc => .inl (hl' ▸ hc)) fun c hc => .inl ?_
  rw [hl]
  simp only [List.mem_append, List.mem_cons] at hc ⊢
  tauto

/-- An empty stretch. -/
theorem stretch_self (first : Nat) (l : List Nat) :
    stretch first first l = [] ∧ without first first l = l := by
  unfold stretch without
  induction l with
  | nil => simp
  | cons a l ih =>
    by_cases ha : a = first
    · simp [ha]
    · simpa [ha] using ih

/-- The ends of a list: `begin()` is the first node, or the empty node. -/
theorem Holds.push_front (h : Holds head s lists) (ht : ∀ i, tmp ∉ head i :: lists i) (i : ι) :
    Holds head (StlList.push_front (head i) v tmp s) (Function.update lists i (tmp :: lists i)) := by
  obtain ⟨p, hp⟩ : ∃ p, (lists i ++ [head i]).head? = some p := by simp
  have hnext : s.next (head i) = p := (joined_of_cut [] _ (h.ring i) rfl hp).1
  obtain ⟨hr, hframe⟩ := insert_ring (v := v) [] _ (h.ring i) hp (ht i)
  rw [StlList.push_front, hnext]
  refine h.update hr hframe (fun c hc => ?_) fun c hc => ?_
  · rcases List.mem_cons.1 hc with rfl | hc
    · exact .inr ht
    · exact .inl hc
  · rcases List.mem_cons.1 hc with rfl | hc
    · exact .inr ht
    · exact .inl (List.mem_cons_of_mem _ hc)

/-- `push_back` is `insert` at the end. -/
theorem Holds.push_back (h : Holds head s lists) (ht : ∀ i, tmp ∉ head i :: lists i) (i : ι) :
    Holds head (StlList.push_back (head i) v tmp s) (Function.update lists i (lists i ++ [tmp])) := by
  have hring : s.Ring (head i) (lists i ++ []) := by simpa using h.ring i
  obtain ⟨hr, hframe⟩ := insert_ring (v := v) _ [] hring rfl (by simpa using ht i)
  rw [List.append_nil] at hr hframe
  refine h.update hr hframe (fun c hc => ?_) fun c hc => ?_
  · rcases List.mem_cons.1 hc with rfl | hc
    · exact .inr ht
    · exact .inl hc
  · rcases List.mem_append.1 hc with hc | hc
    · exact .inl (List.mem_cons_of_mem _ hc)
    · exact .inr (List.mem_singleton.1 hc ▸ ht)

/-- `pop_front` is `erase` at the beginning. -/
theorem Holds.pop_front {a : Nat} (h : Holds head s lists) (hl : lists i = a :: l) :
    Holds head (StlList.pop_front (head i) s) (Function.update lists i l) := by
  have hring : s.Ring (head i) ([] ++ [a] ++ l) := by simpa [hl] using h.ring i
  have hnext : s.next (head i) = a := (joined_of_cut [] (a :: l) hring rfl rfl).1
  obtain ⟨hr, hframe⟩ := erase_ring hring
  rw [StlList.pop_front, hnext]
  refine h.update hr hframe (fun c hc => .inl ?_) fun c hc => .inl ?_
  · rw [hl]
    exact hc
  · rw [hl]
    exact List.mem_cons_of_mem _ (List.mem_cons_of_mem _ hc)

/-- `pop_back` is `erase` in front of the end. -/
theorem Holds.pop_back {a : Nat} (h : Holds head s lists) (hl : lists i = l ++ [a]) :
    Holds head (StlList.pop_back (head i) s) (Function.update lists i l) := by
  have hring : s.Ring (head i) (l ++ [a] ++ []) := by simpa [hl] using h.ring i
  have hprev : s.prev (head i) = a := by
    refine (joined_of_cut (l ++ [a]) [] hring ?_ rfl).2
    rw [← List.cons_append, List.getLast?_append]
    rfl
  obtain ⟨hr, hframe⟩ := erase_ring hring
  rw [StlList.pop_back, hprev]
  rw [List.append_nil] at hr
  refine h.update hr hframe (fun c hc => .inl ?_) fun c hc => .inl ?_
  · rw [hl]
    simpa using hc
  · rw [hl]
    exact List.mem_cons_of_mem _ (List.mem_append_left _ hc)

omit [DecidableEq ι] in
/-- In the list itself, in either direction. -/
theorem Holds.spliceSelf (h : Holds head s lists) (hp : p ∈ head i :: lists i)
    (hst : IsStretch (head i) first last (lists i) l₁ m l₂) (hpm : p ∉ m) :
    (splice p first last s).Ring (head i) (before p m (l₁ ++ l₂)) ∧
      Frame s (splice p first last s) (head i :: lists i) := by
  have hring := h.ring i
  have hne := hst.ne hring.2
  have hlast := hst.last_not_mem hring.2
  obtain ⟨hl, hf, hz⟩ := hst
  rw [splice, if_pos hne]
  rw [hl] at hring hp ⊢
  by_cases hpl : p = last
  · -- the stretch is where it should be
    subst hpl
    rw [List.mem_append, not_or] at hlast
    rw [before_cut hlast.1 hz, transfer, if_neg (by simp)]
    exact ⟨hring, fun _ _ => ⟨rfl, rfl⟩⟩
  · by_cases hp₁ : p ∈ l₁
    · obtain ⟨a₁, a₂, rfl, hnot⟩ := List.eq_append_cons_of_mem hp₁
      have hbefore : before p m (a₁ ++ p :: a₂ ++ l₂) = a₁ ++ m ++ p :: a₂ ++ l₂ := by
        rw [List.append_assoc, before_cut hnot (show (p :: a₂ ++ l₂ ++ [head i]).head? = some p from rfl)]
        simp
      rw [hbefore]
      have hring' : s.Ring (head i) (a₁ ++ (p :: a₂) ++ m ++ l₂) := hring
      obtain ⟨x, e, k, hb⟩ := exists_blocks hring' rfl hf hz
      exact transfer_backward hb
    · have hp₂ : p ∈ head i :: l₂ := by
        simp only [List.mem_cons, List.mem_append] at hp ⊢
        tauto
      obtain ⟨b₁, b₂, rfl, hnot, hhead⟩ := exists_cut hp₂
      have hb₁ : b₁.head? = some last := by
        rcases b₁ with _ | ⟨b, b₁⟩
        · exact absurd (Option.some.inj (hhead.symm.trans hz)) hpl
        · exact hz
      have hnot' : p ∉ l₁ ++ b₁ := by
        rw [List.mem_append, not_or]
        exact ⟨hp₁, hnot⟩
      have hbefore : before p m (l₁ ++ (b₁ ++ b₂)) = l₁ ++ b₁ ++ m ++ b₂ := by
        rw [← List.append_assoc, before_cut hnot' hhead]
      rw [hbefore]
      rw [← List.append_assoc] at hring ⊢
      obtain ⟨x, e, k, hb⟩ := exists_blocks hring hf hb₁ hhead
      exact transfer_forward hb

/-- Nodes go from the list `j` to the list `i`. -/
theorem Holds.update_two (h : Holds head s lists) (hij : i ≠ j) (hri : s'.Ring (head i) l)
    (hrj : s'.Ring (head j) l₁) (hframe : Frame s s' (head j :: lists j ++ head i :: lists i))
    (hl : ∀ c ∈ l, c ∈ lists i ∨ c ∈ lists j) (hl₁ : ∀ c ∈ l₁, c ∈ lists j ∧ c ∉ l) :
    Holds head s' (Function.update (Function.update lists j l₁) i l) := by
  have hi : Function.update (Function.update lists j l₁) i l i = l := Function.update_self ..
  have hj : Function.update (Function.update lists j l₁) i l j = l₁ := by
    rw [Function.update_of_ne hij.symm, Function.update_self]
  have hk : ∀ k, k ≠ i → k ≠ j → Function.update (Function.update lists j l₁) i l k = lists k :=
    fun k hki hkj => by rw [Function.update_of_ne hki, Function.update_of_ne hkj]
  have hmi : ∀ c ∈ head i :: l, c ∈ head i :: lists i ∨ c ∈ head j :: lists j := by
    intro c hc
    have := hl c
    simp only [List.mem_cons] at hc ⊢
    tauto
  have hmj : ∀ c ∈ head j :: l₁, c ∈ head j :: lists j := by
    intro c hc
    have := hl₁ c
    simp only [List.mem_cons] at hc ⊢
    tauto
  have hdis : ∀ c ∈ head i :: l, c ∉ head j :: l₁ := by
    intro c hc hc'
    have hj := hmj c hc'
    rcases List.mem_cons.1 hc with rfl | hcl
    · exact h.apart i j hij _ (List.mem_cons_self ..) hj
    · rcases List.mem_cons.1 hc' with rfl | hcl'
      · rcases hl _ hcl with hin | hin
        · exact h.apart i j hij _ (List.mem_cons_of_mem _ hin) (List.mem_cons_self ..)
        · exact (List.nodup_cons.1 (h.ring j).2).1 hin
      · exact (hl₁ c hcl').2 hcl
  have hout : ∀ k, k ≠ i → k ≠ j → ∀ c ∈ head k :: lists k, c ∉ head i :: l ∧ c ∉ head j :: l₁ := by
    intro k hki hkj c hc
    refine ⟨fun hmem => ?_, fun hmem => h.apart k j hkj c hc (hmj c hmem)⟩
    exact (hmi c hmem).elim (h.apart k i hki c hc) (h.apart k j hkj c hc)
  refine ⟨fun k => ?_, fun a b hab c hc => ?_⟩
  · by_cases hki : k = i
    · rwa [hki, hi]
    · by_cases hkj : k = j
      · rwa [hkj, hj]
      · rw [hk k hki hkj]
        refine hframe.ring (h.ring k) fun c hc hmem => ?_
        rcases List.mem_append.1 hmem with hmem | hmem
        · exact h.apart k j hkj c hc hmem
        · exact h.apart k i hki c hc hmem
  · by_cases hai : a = i
    · rw [hai, hi] at hc
      by_cases hbj : b = j
      · rw [hbj, hj]
        exact hdis c hc
      · have hbi : b ≠ i := fun he => hab (hai.trans he.symm)
        rw [hk b hbi hbj]
        intro hmem
        exact (hout b hbi hbj c hmem).1 hc
    · by_cases haj : a = j
      · rw [haj, hj] at hc
        by_cases hbi : b = i
        · rw [hbi, hi]
          intro hmem
          exact hdis c hmem hc
        · have hbj : b ≠ j := fun he => hab (haj.trans he.symm)
          rw [hk b hbi hbj]
          intro hmem
          exact (hout b hbi hbj c hmem).2 hc
      · rw [hk a hai haj] at hc
        have hca := hout a hai haj c hc
        by_cases hbi : b = i
        · rw [hbi, hi]
          exact hca.1
        · by_cases hbj : b = j
          · rw [hbj, hj]
            exact hca.2
          · rw [hk b hbi hbj]
            exact h.apart a b hab c hc

theorem mem_before {c : Nat} (hm : c ∈ before p m l) : c ∈ m ∨ c ∈ l := by
  unfold before at hm
  simp only [List.mem_append] at hm
  rcases hm with (hm | hm) | hm
  · exact .inr (List.takeWhile_subset _ hm)
  · exact .inl hm
  · exact .inr (List.dropWhile_subset _ hm)

/-- `splice` moves a stretch of one list in front of a position of another. -/
theorem Holds.splice (h : Holds head s lists)
    (hc : (Act.splice i p j first last : Act ι α).Legal head lists) :
    Holds head (StlList.splice p first last s)
      ((Act.splice i p j first last : Act ι α).effect head lists) := by
  obtain ⟨hp, rfl | ⟨l₁, m, l₂, hst, hpm⟩⟩ := hc
  · -- nothing is moved
    obtain ⟨h₁, h₂⟩ := stretch_self first (lists j)
    have hb : ∀ l, before p [] l = l := by
      intro l
      simp [before, List.takeWhile_append_dropWhile]
    have heffect : (Act.splice i p j first first : Act ι α).effect head lists = lists := by
      dsimp only [Act.effect]
      rw [h₁, h₂, Function.update_eq_self, hb, Function.update_eq_self]
    rw [heffect, StlList.splice, if_neg (by simp)]
    exact h
  · obtain ⟨h₁, h₂⟩ := hst.cut (h.ring j).2
    have heffect : (Act.splice i p j first last : Act ι α).effect head lists =
        Function.update (Function.update lists j (l₁ ++ l₂)) i
          (before p m (Function.update lists j (l₁ ++ l₂) i)) := by
      dsimp only [Act.effect]
      rw [h₁, h₂]
    rw [heffect]
    by_cases hij : i = j
    · subst hij
      obtain ⟨hr, hframe⟩ := h.spliceSelf hp hst hpm
      rw [Function.update_self, Function.update_idem]
      refine h.update hr hframe (fun c hc => .inl hc) fun c hc => .inl ?_
      have hmem := mem_before hc
      rw [hst.eq]
      simp only [List.mem_cons, List.mem_append] at hmem ⊢
      tauto
    · obtain ⟨r₁, r₂, hr, hnot, hhead⟩ := exists_cut hp
      have hring := h.ring i
      have hapart := h.apart j i (Ne.symm hij)
      rw [hr] at hring hapart
      obtain ⟨hri, hrj, hframe⟩ := transfer_rings hring hhead (h.ring j) hst hapart
      rw [Function.update_of_ne hij, hr, before_cut hnot hhead, StlList.splice,
        if_pos (hst.ne (h.ring j).2)]
      have hnodup := (List.nodup_cons.1 (h.ring j).2).2
      rw [hst.eq] at hnodup
      rw [← hr] at hapart hframe
      refine h.update_two hij hri hrj hframe (fun c hc => ?_) fun c hc => ?_
      · rw [hr, hst.eq]
        simp only [List.mem_append] at hc ⊢
        tauto
      · have hcj : c ∈ lists j := by
          rw [hst.eq]
          simp only [List.mem_append] at hc ⊢
          tauto
        refine ⟨hcj, fun hmem => ?_⟩
        have hci : c ∉ r₁ ++ r₂ := by
          intro hin
          exact hapart c (List.mem_cons_of_mem _ hcj) (List.mem_cons_of_mem _ (hr ▸ hin))
        have hcm : c ∉ m := by
          intro hcm
          simp only [List.nodup_append, List.mem_append] at hnodup hc
          rcases hc with hc | hc
          · exact hnodup.1.2.2 c hc c hcm rfl
          · exact hnodup.2.2 c (.inr hcm) c hc rfl
        simp only [List.mem_append] at hmem hci
        tauto

/-- `reverse` moves each element in turn to the front. -/
theorem Holds.reverse {n : Nat} (h : Holds head s lists) (hn : (lists i).length < n) :
    ∃ s', StlList.reverse (head i) n s = some s' ∧ s'.data = s.data ∧
      Holds head s' ((Act.reverse i n : Act ι α).effect head lists) := by
  obtain ⟨s', hs', hr, hframe, hdata⟩ := reverse_ring (h.ring i) hn
  exact ⟨s', hs', hdata, h.update hr hframe (fun c hc => .inl hc) fun c hc =>
    .inl (List.mem_cons_of_mem _ (List.mem_reverse.1 hc))⟩

/-- A call does to the rings what it should do, and leaves the data of the elements alone. -/
theorem Holds.act (h : Holds head s lists) {a : Act ι α} (hc : a.Legal head lists) :
    ∃ s', a.run head s = some s' ∧ Holds head s' (a.effect head lists) ∧
      (∀ i, ∀ c ∈ lists i, s'.data c = s.data c) ∧
      ∀ tmp v, a.made = some (tmp, v) → s'.data tmp = v := by
  have hkeep : ∀ {p v tmp}, (∀ i, tmp ∉ head i :: lists i) → ∀ i, ∀ c ∈ lists i,
      (StlList.insert p v tmp s).data c = s.data c := by
    intro p v tmp ht i c hci
    exact Function.update_of_ne (ne_of_mem_of_not_mem (List.mem_cons_of_mem _ hci) (ht i)) ..
  have hnew : ∀ {p v tmp tmp' v'}, some (tmp, v) = some (tmp', v') →
      (StlList.insert p v tmp s).data tmp' = v' := by
    intro p v tmp tmp' v' he
    cases he
    exact Function.update_self ..
  cases a with
  | insert p v tmp => exact ⟨_, rfl, h.insert hc, hkeep hc.2, fun _ _ => hnew⟩
  | erase p => exact ⟨_, rfl, h.erase hc, fun _ _ _ => rfl, nofun⟩
  | push_front i v tmp => exact ⟨_, rfl, h.push_front hc i, hkeep hc, fun _ _ => hnew⟩
  | push_back i v tmp => exact ⟨_, rfl, h.push_back hc i, hkeep hc, fun _ _ => hnew⟩
  | pop_front i =>
    obtain ⟨a, l, hl⟩ := List.exists_cons_of_ne_nil hc
    refine ⟨_, rfl, ?_, fun _ _ _ => rfl, nofun⟩
    dsimp only [Act.effect]
    rw [hl, List.tail_cons]
    exact h.pop_front hl
  | pop_back i =>
    refine ⟨_, rfl, h.pop_back (List.dropLast_append_getLast hc).symm, fun _ _ _ => rfl, nofun⟩
  | splice i p j first last =>
    refine ⟨_, rfl, h.splice hc, fun _ _ _ => ?_, nofun⟩
    unfold StlList.splice transfer
    split
    · split <;> rfl
    · rfl
  | reverse i n =>
    obtain ⟨s', hs', hdata, hh⟩ := h.reverse (α := α) hc
    exact ⟨s', hs', hh, fun _ c _ => congrFun hdata c, nofun⟩

end Lists

/-! ## What is seen from outside -/

/-- `for (it = begin(); it != end(); ++it)`, with `++` or `--` as `step`. -/
def walk (step : Nat → Nat) (node : Nat) : Nat → Nat → List Nat
  | 0, _ => []
  | n + 1, a => if a = node then [] else a :: walk step node n (step a)

/-- To go along a list from its header to its header. -/
theorem walk_eq {step : Nat → Nat} {n : Nat}
    (h : (x :: l ++ [node]).IsChain fun a b => step a = b) (hnode : node ∉ l) (hn : l.length < n) :
    walk step node n (step x) = l := by
  induction l generalizing x n with
  | nil =>
    obtain rfl : step x = node := (List.isChain_cons_cons.1 h).1
    cases n with
    | zero => omega
    | succ n => rw [walk, if_pos rfl]
  | cons a l ih =>
    obtain ⟨rfl, hrest⟩ := List.isChain_cons_cons.1 h
    rw [List.mem_cons, not_or] at hnode
    cases n with
    | zero => omega
    | succ n =>
      rw [walk, if_neg (Ne.symm hnode.1), ih hrest hnode.2 (by simpa using hn)]

/-- Forwards and backwards. -/
theorem walk_ring {n : Nat} (h : s.Ring node l) (hn : l.length < n) :
    walk s.next node n (s.next node) = l ∧ walk s.prev node n (s.prev node) = l.reverse := by
  have hnode := (List.nodup_cons.1 h.2).1
  refine ⟨walk_eq (h.1.imp fun a b hab => hab.1) hnode hn, ?_⟩
  refine walk_eq ?_ (fun hmem => hnode (List.mem_reverse.1 hmem)) (by simpa using hn)
  have hrev : node :: l.reverse ++ [node] = (node :: l ++ [node]).reverse := by simp
  rw [hrev, List.isChain_reverse]
  exact h.1.imp fun a b hab => hab.2

theorem empty_initialize_ring (node : Nat) (s : State α) : ( empty_initialize node s).Ring node [] := by
  refine ⟨List.isChain_pair.2 ⟨?_, ?_⟩, List.nodup_singleton node⟩ <;>
    simp [ empty_initialize, State.setNext, State.setPrev]

/-- The constructors of some lists, one after the other. -/
def construct (nodes : List Nat) (s : State α) : State α := nodes.foldr empty_initialize s

/-- Each list is made empty. -/
theorem construct_ring {nodes : List Nat} (h : node ∈ nodes) (s : State α) :
    (construct nodes s).Ring node [] := by
  induction nodes with
  | nil => exact absurd h List.not_mem_nil
  | cons a nodes ih =>
    show ( empty_initialize a (construct nodes s)).Ring node []
    by_cases ha : node = a
    · exact ha ▸ empty_initialize_ring node _
    · -- the fields of another node
      obtain ⟨hnext, hprev⟩ := List.isChain_pair.1 (ih ((List.mem_cons.1 h).resolve_left ha)).1
      refine ⟨List.isChain_pair.2 ⟨?_, ?_⟩, List.nodup_singleton node⟩
      · exact (Function.update_of_ne ha ..).trans hnext
      · exact (Function.update_of_ne ha ..).trans hprev

section Run

variable [DecidableEq ι] {head : ι → Nat} {lists : ι → List Nat} {s₀ : State α}

/-- **Rings are lists.** After every run on lists that were empty, to go through a list forwards and
backwards gives the nodes it should have, in order; every call can be made, and leaves the data of
the elements alone. -/
theorem lists_hold (hinj : Function.Injective head) (hempty : ∀ i, s₀.Ring (head i) [])
    (h : Run (act head) (s₀, fun _ => []) (fun a x => a.Legal head x.2) (s, lists)) :
    (∀ i n, (lists i).length < n → walk s.next (head i) n (s.next (head i)) = lists i ∧
      walk s.prev (head i) n (s.prev (head i)) = (lists i).reverse) ∧
    ∀ a : Act ι α, a.Legal head lists →
      ∃ s', act head a (s, lists) = some (s', a.effect head lists) ∧
        (∀ i, ∀ c ∈ lists i, s'.data c = s.data c) ∧
        ∀ tmp v, a.made = some (tmp, v) → s'.data tmp = v := by
  have hinit : Holds head s₀ fun _ => [] := by
    refine ⟨hempty, fun i j hij c hc hmem => hij (hinj ?_)⟩
    exact (List.mem_singleton.1 hc).symm.trans (List.mem_singleton.1 hmem)
  have hholds : Holds head s lists := by
    refine h.inv (I := fun x => Holds head x.1 x.2) hinit fun a x x' _ hc hs hx => ?_
    obtain ⟨s', hs', hh, -⟩ := hx.act hc
    rw [act, hs', Option.map_some] at hs
    cases hs
    exact hh
  refine ⟨fun i n hn => walk_ring (hholds.ring i) hn, fun a hc => ?_⟩
  obtain ⟨s', hs', -, hdata⟩ := hholds.act hc
  exact ⟨s', by rw [act, hs', Option.map_some], hdata⟩

end Run

/-- Two lists: elements are put at both ends of the first, the last one is taken away again, and the
others go to the second. -/
theorem lists_hold_two : ∃ (s : State Char) (lists : Fin 2 → List Nat),
    lists 1 = [10, 11] ∧ walk s.prev 1 3 (s.prev 1) = [11, 10] := by
  let head : Fin 2 → Nat := Fin.val
  let s₀ : State Char := construct [0, 1] ⟨fun _ => 0, fun _ => 0, fun _ => 'x'⟩
  let r₁ := (act head (.push_back 0 'b' 11) (s₀, fun _ => [])).get rfl
  let r₂ := (act head (.push_front 0 'a' 10) r₁).get rfl
  let r₃ := (act head (.insert 0 'c' 12) r₂).get rfl
  let r₄ := (act head (.pop_back 0) r₃).get rfl
  let r₅ := (act head (.splice 1 1 0 10 0) r₄).get rfl
  have hempty : ∀ i, s₀.Ring (head i) [] := fun i => construct_ring (by decide +revert) _
  have hc₁ : (Act.push_back 0 'b' 11 : Act (Fin 2) Char).Legal head (fun _ => []) := by
    unfold Act.Legal
    decide
  have hc₂ : (Act.push_front 0 'a' 10 : Act (Fin 2) Char).Legal head r₁.2 := by
    unfold Act.Legal
    decide
  have hc₃ : (Act.insert 0 'c' 12 : Act (Fin 2) Char).Legal head r₂.2 := ⟨⟨0, by decide⟩, by decide⟩
  have hc₄ : (Act.pop_back 0 : Act (Fin 2) Char).Legal head r₃.2 := by
    unfold Act.Legal
    decide
  have hc₅ : (Act.splice 1 1 0 10 0 : Act (Fin 2) Char).Legal head r₄.2 :=
    ⟨by decide, .inr ⟨[], [10, 11], [], ⟨by decide, rfl, rfl⟩, by decide⟩⟩
  have hs₁ : act head (.push_back 0 'b' 11) (s₀, fun _ => []) = some r₁ := rfl
  have hs₂ : act head (.push_front 0 'a' 10) r₁ = some r₂ := rfl
  have hs₃ : act head (.insert 0 'c' 12) r₂ = some r₃ := rfl
  have hs₄ : act head (.pop_back 0) r₃ = some r₄ := rfl
  have hs₅ : act head (.splice 1 1 0 10 0) r₄ = some r₅ := rfl
  have h₁ := Run.one (C := fun a x => a.Legal head x.2) hc₁ hs₁
  have h₄ := ((h₁.step hc₂ hs₂).step hc₃ hs₃).step hc₄ hs₄
  have h := lists_hold (fun _ _ h => Fin.ext h) hempty (h₄.step hc₅ hs₅)
  exact ⟨r₅.1, r₅.2, by decide, (h.1 1 3 (by decide)).2⟩

end LearningNotes.StlList
