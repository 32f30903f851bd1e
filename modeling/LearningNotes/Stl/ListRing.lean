import LearningNotes.Lib.Ring

/-!
# The rings of `list`

A `list` of the notes on the STL is a ring of nodes with an empty node as its end. This module has
the operations and what each of them does to the rings: `insert`, `erase`, `transfer` from one ring
to another (`transfer_rings`) and within a ring in both directions (`transfer_forward` and
`transfer_backward`), and `reverse`.

Mirroring notes:
- An iterator is the address of its node, and `next`, `prev` and `data` are the fields by address.
- `get_node` answers with the address `tmp`. `put_node` leaves the fields as they are.
- The loop of `reverse` runs on fuel, and gives `none` when that is used up.
-/

namespace LearningNotes.StlList

variable {α ι : Type}

/-- The members of the nodes, by their addresses. -/
structure State (α : Type) where
  next : Nat → Nat
  prev : Nat → Nat
  data : Nat → α

def State.setNext (s : State α) (a b : Nat) : State α := { s with next := Function.update s.next a b }

def State.setPrev (s : State α) (a b : Nat) : State α := { s with prev := Function.update s.prev a b }

def empty_initialize (node : Nat) (s : State α) : State α := (s.setNext node node).setPrev node node

/-- `insert`: the new node comes in front of `position`. -/
def insert (position : Nat) (x : α) (tmp : Nat) (s : State α) : State α :=
  let s := { s with data := Function.update s.data tmp x }
  let s := s.setNext tmp position
  let s := s.setPrev tmp (s.prev position)
  let s := s.setNext (s.prev position) tmp
  s.setPrev position tmp

/-- `erase`, but for the destructor and the memory. -/
def erase (position : Nat) (s : State α) : State α :=
  let next_node := s.next position
  let prev_node := s.prev position
  (s.setNext prev_node next_node).setPrev next_node prev_node

/-- `transfer`: the nodes from `first` to `last` come in front of `position`. -/
def transfer (position first last : Nat) (s : State α) : State α :=
  if position ≠ last then
    let s := s.setNext (s.prev last) position
    let s := s.setNext (s.prev first) last
    let s := s.setNext (s.prev position) first
    let tmp := s.prev position
    let s := s.setPrev position (s.prev last)
    let s := s.setPrev last (s.prev first)
    s.setPrev first tmp
  else s

/-- `splice` of a part of a list. -/
def splice (position first last : Nat) (s : State α) : State α :=
  if first ≠ last then transfer position first last s else s

/-- `while (first != end())` -/
def reverseLoop (node : Nat) : Nat → Nat → State α → Option (State α)
  | 0, _, _ => none
  | n + 1, first, s =>
    if first ≠ node then
      let old := first
      let first := s.next first
      reverseLoop node n first (transfer (s.next node) old first s)
    else some s

/-- `reverse`: each node in turn is moved to the front. -/
def reverse (node fuel : Nat) (s : State α) : Option (State α) :=
  if s.next node = node ∨ s.next (s.next node) = node then some s
  else reverseLoop node fuel (s.next (s.next node)) s

def push_front (node : Nat) (x : α) (tmp : Nat) (s : State α) : State α := insert (s.next node) x tmp s

def push_back (node : Nat) (x : α) (tmp : Nat) (s : State α) : State α := insert node x tmp s

def pop_front (node : Nat) (s : State α) : State α := erase (s.next node) s

def pop_back (node : Nat) (s : State α) : State α := erase (s.prev node) s

variable {s s' : State α} {node position first last tmp a b c e p q x z : Nat} {v : α}
  {l l₁ l₂ m t : List Nat}

/-- `b` comes behind `a`. -/
def State.Joined (s : State α) (a b : Nat) : Prop := Adjacent s.next s.prev a b

/-- The nodes of a list from its header on are `l`. -/
def State.Ring (s : State α) (node : Nat) (l : List Nat) : Prop :=
  LearningNotes.Ring s.next s.prev node l

/-! ## The pointers -/

/-- What `transfer` changes: the stretch from `first` to `e` is between `q` and `position`, and `a` and
`last` are joined. -/
theorem transfer_joins (he : s.Joined e last) (ha : s.Joined a first) (hq : s.Joined q position)
    (hpl : position ≠ last) (hpf : position ≠ first) (hfl : first ≠ last)
    (hs : transfer position first last s = s') :
    (s'.Joined e position ∧ s'.Joined a last ∧ s'.Joined q first) ∧
      (∀ m, KeepsLinks s.next s.prev s'.next s'.prev m [position, first, last]) ∧
      (∀ c, c ∉ [e, a, q, position, first, last] → s'.next c = s.next c ∧ s'.prev c = s.prev c) ∧
      s'.data = s.data := by
  obtain ⟨he₁, he₂⟩ := he
  obtain ⟨ha₁, ha₂⟩ := ha
  obtain ⟨hq₁, hq₂⟩ := hq
  have hnext : s'.next =
      Function.update (Function.update (Function.update s.next e position) a last) q first := by
    rw [← hs]
    simp [transfer, State.setNext, State.setPrev, hpl, he₂, ha₂, hq₂]
  have hprev : s'.prev =
      Function.update (Function.update (Function.update s.prev position e) last a) first q := by
    rw [← hs]
    simp [transfer, State.setNext, State.setPrev, hpl, hpf.symm, he₂, ha₂, hq₂]
  have hdata : s'.data = s.data := by
    rw [← hs]
    simp [transfer, State.setNext, State.setPrev, hpl]
  -- three different successors, so three different nodes
  have hea : e ≠ a := fun h => hfl (by rw [← ha₁, ← he₁, h])
  have heq : e ≠ q := fun h => hpl (by rw [← hq₁, ← he₁, h])
  have haq : a ≠ q := fun h => hpf (by rw [← hq₁, ← ha₁, h])
  refine ⟨⟨⟨?_, ?_⟩, ⟨?_, ?_⟩, ⟨?_, ?_⟩⟩, fun m c _ d hd hcd => ?_, fun c hc => ?_, hdata⟩
  · simp [hnext, hea, heq]
  · simp [hprev, hpl, hpf]
  · simp [hnext, haq]
  · simp [hprev, hfl.symm]
  · simp [hnext]
  · simp [hprev]
  · obtain ⟨hcd₁, hcd₂⟩ := hcd
    simp only [List.mem_cons, List.not_mem_nil, or_false, not_or] at hd
    obtain ⟨hdp, hdf, hdl⟩ := hd
    have hce : c ≠ e := fun h => hdl (by rw [← hcd₁, h, he₁])
    have hca : c ≠ a := fun h => hdf (by rw [← hcd₁, h, ha₁])
    have hcq : c ≠ q := fun h => hdp (by rw [← hcd₁, h, hq₁])
    exact ⟨by simp [hnext, hce, hca, hcq, hcd₁], by simp [hprev, hdp, hdf, hdl, hcd₂]⟩
  · simp only [List.mem_cons, List.not_mem_nil, or_false, not_or] at hc
    obtain ⟨hce, hca, hcq, hcp, hcf, hcl⟩ := hc
    exact ⟨by simp [hnext, hce, hca, hcq], by simp [hprev, hcp, hcf, hcl]⟩

/-- What `insert` joins, and that it leaves the other links alone. -/
theorem insert_joins (hx : s.Joined x position) (htp : tmp ≠ position) (htx : tmp ≠ x)
    (hs : insert position v tmp s = s') :
    (s'.Joined x tmp ∧ s'.Joined tmp position) ∧
      (∀ m, tmp ∉ m → KeepsLinks s.next s.prev s'.next s'.prev m [position, tmp]) ∧
      (∀ c, c ∉ [x, position, tmp] → s'.next c = s.next c ∧ s'.prev c = s.prev c) ∧
      s'.data = Function.update s.data tmp v := by
  obtain ⟨hx₁, hx₂⟩ := hx
  have hnext : s'.next = Function.update (Function.update s.next tmp position) x tmp := by
    rw [← hs]
    simp [insert, State.setNext, State.setPrev, htp.symm, hx₂]
  have hprev : s'.prev = Function.update (Function.update s.prev tmp x) position tmp := by
    rw [← hs]
    simp [insert, State.setNext, State.setPrev, hx₂]
  have hdata : s'.data = Function.update s.data tmp v := by
    rw [← hs]
    simp [insert, State.setNext, State.setPrev]
  refine ⟨⟨⟨?_, ?_⟩, ⟨?_, ?_⟩⟩, fun m hm c hc d hd hcd => ?_, fun c hc => ?_, hdata⟩
  · simp [hnext]
  · simp [hprev, htp]
  · simp [hnext, htx]
  · simp [hprev]
  · obtain ⟨hcd₁, hcd₂⟩ := hcd
    simp only [List.mem_cons, List.not_mem_nil, or_false, not_or] at hd
    have hct : c ≠ tmp := ne_of_mem_of_not_mem hc hm
    have hcx : c ≠ x := fun h => hd.1 (by rw [← hcd₁, h, hx₁])
    exact ⟨by simp [hnext, hct, hcx, hcd₁], by simp [hprev, hd.1, hd.2, hcd₂]⟩
  · simp only [List.mem_cons, List.not_mem_nil, or_false, not_or] at hc
    exact ⟨by simp [hnext, hc.1, hc.2.2], by simp [hprev, hc.2.1, hc.2.2]⟩

/-- What `erase` joins, and that it leaves the other links alone. -/
theorem erase_joins (hx : s.Joined x p) (hz : s.Joined p z)
    (hs : erase p s = s') :
    s'.Joined x z ∧ (∀ m, KeepsLinks s.next s.prev s'.next s'.prev m [p, z]) ∧
      (∀ c, c ∉ [x, z] → s'.next c = s.next c ∧ s'.prev c = s.prev c) ∧ s'.data = s.data := by
  obtain ⟨hx₁, hx₂⟩ := hx
  obtain ⟨hz₁, hz₂⟩ := hz
  have hnext : s'.next = Function.update s.next x z := by
    rw [← hs]
    simp [erase, State.setNext, State.setPrev, hx₂, hz₁]
  have hprev : s'.prev = Function.update s.prev z x := by
    rw [← hs]
    simp [erase, State.setNext, State.setPrev, hx₂, hz₁]
  have hdata : s'.data = s.data := by
    rw [← hs]
    rfl
  refine ⟨⟨by simp [hnext], by simp [hprev]⟩, fun m c hc d hd hcd => ?_, fun c hc => ?_, hdata⟩
  · obtain ⟨hcd₁, hcd₂⟩ := hcd
    simp only [List.mem_cons, List.not_mem_nil, or_false, not_or] at hd
    have hcx : c ≠ x := fun h => hd.1 (by rw [← hcd₁, h, hx₁])
    exact ⟨by simp [hnext, hcx, hcd₁], by simp [hprev, hd.2, hcd₂]⟩
  · simp only [List.mem_cons, List.not_mem_nil, or_false, not_or] at hc
    exact ⟨by simp [hnext, hc.1], by simp [hprev, hc.2]⟩

/-! ## Places in a list -/

/-- The nodes before an iterator and those from it on; all of them are before `end()`. -/
theorem exists_cut (hp : p ∈ node :: l) :
    ∃ l₁ l₂, l = l₁ ++ l₂ ∧ p ∉ l₁ ∧ (l₂ ++ [node]).head? = some p := by
  by_cases hl : p ∈ l
  · obtain ⟨l₁, l₂, hsplit, hnot⟩ := List.eq_append_cons_of_mem hl
    exact ⟨l₁, p :: l₂, hsplit, hnot, rfl⟩
  · obtain rfl : p = node := (List.mem_cons.1 hp).resolve_right hl
    exact ⟨l, [], by simp, hl, rfl⟩

/-- The list is cut in front of `p`. -/
theorem takeWhile_cut (hp : p ∉ l₁) (h : (l₂ ++ [node]).head? = some p) :
    (l₁ ++ l₂).takeWhile (· ≠ p) = l₁ ∧ (l₁ ++ l₂).dropWhile (· ≠ p) = l₂ := by
  have hall : ∀ a ∈ l₁, decide (a ≠ p) = true := by
    intro a ha
    simpa using ne_of_mem_of_not_mem ha hp
  rw [List.takeWhile_append_of_pos hall, List.dropWhile_append_of_pos hall]
  cases l₂ with
  | nil => simp
  | cons b l₂ =>
    obtain rfl : b = p := Option.some.inj h
    simp

/-- The nodes `m` before the node `p`. -/
def before (p : Nat) (m l : List Nat) : List Nat :=
  l.takeWhile (· ≠ p) ++ m ++ l.dropWhile (· ≠ p)

/-- `[first, last)` -/
def stretch (first last : Nat) (l : List Nat) : List Nat :=
  (l.dropWhile (· ≠ first)).takeWhile (· ≠ last)

/-- The list without a stretch. -/
def without (first last : Nat) (l : List Nat) : List Nat :=
  l.takeWhile (· ≠ first) ++ (l.dropWhile (· ≠ first)).dropWhile (· ≠ last)

/-- Nodes that come in front of `p`. -/
theorem before_cut (hp : p ∉ l₁) (h : (l₂ ++ [node]).head? = some p) :
    before p m (l₁ ++ l₂) = l₁ ++ m ++ l₂ := by
  obtain ⟨htake, hdrop⟩ := takeWhile_cut hp h
  rw [before, htake, hdrop]

/-- The stretch `m` of a list. -/
structure IsStretch (node first last : Nat) (l l₁ m l₂ : List Nat) : Prop where
  eq : l = l₁ ++ m ++ l₂
  first : m.head? = some first
  last : (l₂ ++ [node]).head? = some last

/-- The end of a stretch is not in it. -/
theorem IsStretch.last_not_mem (h : IsStretch node first last l l₁ m l₂) (hn : (node :: l).Nodup) :
    last ∉ l₁ ++ m := by
  obtain ⟨rfl, hf, hl⟩ := h
  have hrot : (l₁ ++ m ++ l₂ ++ [node]).Nodup := (List.perm_append_singleton node _).nodup_iff.2 hn
  obtain ⟨r, hr⟩ : ∃ r, l₂ ++ [node] = last :: r := List.head?_eq_some_iff.1 hl
  rw [List.append_assoc, hr] at hrot
  intro hmem
  exact head_not_mem hrot (List.mem_append_left _ hmem)

theorem IsStretch.ne (h : IsStretch node first last l l₁ m l₂) (hn : (node :: l).Nodup) :
    first ≠ last := fun he =>
  h.last_not_mem hn (he ▸ List.mem_append_right _ (List.mem_of_head? h.first))

/-- The list with the stretch taken out. -/
theorem IsStretch.cut (h : IsStretch node first last l l₁ m l₂) (hn : (node :: l).Nodup) :
    stretch first last l = m ∧ without first last l = l₁ ++ l₂ := by
  have hlast : last ∉ m := fun hmem => h.last_not_mem hn (List.mem_append_right _ hmem)
  obtain ⟨rfl, hf, hl⟩ := h
  obtain ⟨m', rfl⟩ : ∃ m', m = first :: m' := List.head?_eq_some_iff.1 hf
  have hfirst : first ∉ l₁ := by
    intro hmem
    have hmid : (l₁ ++ first :: (m' ++ l₂)).Nodup := by simpa using (List.nodup_cons.1 hn).2
    exact head_not_mem hmid (List.mem_append_left _ hmem)
  have h₁ := takeWhile_cut hfirst (show (first :: m' ++ l₂ ++ [node]).head? = some first from rfl)
  have h₂ := takeWhile_cut hlast hl
  rw [stretch, without, List.append_assoc, h₁.1, h₁.2, h₂.1, h₂.2]
  exact ⟨rfl, rfl⟩

/-! ## Rings -/

theorem exists_last (node : Nat) (l : List Nat) : ∃ x, (node :: l).getLast? = some x := by
  simp [List.getLast?_cons]

/-- The two nodes at a cut are joined. -/
theorem joined_of_cut (l₁ l₂ : List Nat) (h : s.Ring node (l₁ ++ l₂)) (hx : (node :: l₁).getLast? = some x)
    (hy : (l₂ ++ [node]).head? = some p) : s.Joined x p := h.split.2.2 x hx p hy

theorem mem_of_getLast (h : (node :: l).getLast? = some x) : x ∈ node :: l :=
  List.mem_of_getLast? h

theorem mem_of_cut (h : (l₂ ++ [node]).head? = some p) (l₁ : List Nat) : p ∈ node :: (l₁ ++ l₂) := by
  have := List.mem_of_head? h
  simp only [List.mem_append, List.mem_cons, List.not_mem_nil, or_false] at this ⊢
  tauto

/-- The pointers of the nodes outside of `m` are as before. -/
def Frame (s s' : State α) (m : List Nat) : Prop :=
  ∀ c, c ∉ m → s'.next c = s.next c ∧ s'.prev c = s.prev c

/-- What is not among the nodes of a list is not touched. -/
theorem Frame.of_subset {t : List Nat} (h : ∀ c, c ∉ t → s'.next c = s.next c ∧ s'.prev c = s.prev c)
    (hsub : ∀ c ∈ t, c ∈ m) : Frame s s' m := fun c hc => h c fun hmem => hc (hsub c hmem)

/-- Another list is not touched. -/
theorem Frame.ring (h : Frame s s' m) (hr : s.Ring node l) (hm : ∀ c ∈ node :: l, c ∉ m) :
    s'.Ring node l := Ring.congr hr fun c hc => h c (hm c hc)

/-- `insert` into a list. -/
theorem insert_ring (l₁ l₂ : List Nat) (h : s.Ring node (l₁ ++ l₂)) (hp : (l₂ ++ [node]).head? = some p)
    (ht : tmp ∉ node :: (l₁ ++ l₂)) :
    (insert p v tmp s).Ring node (l₁ ++ [tmp] ++ l₂) ∧
      Frame s (insert p v tmp s) (tmp :: node :: (l₁ ++ l₂)) := by
  obtain ⟨x, hx⟩ := exists_last node l₁
  have hp' := mem_of_cut hp l₁
  have hxmem : x ∈ node :: (l₁ ++ l₂) := by
    have := mem_of_getLast hx
    simp only [List.mem_cons, List.mem_append] at this ⊢
    tauto
  obtain ⟨⟨h₁, h₂⟩, hkeep, hframe, -⟩ := insert_joins (v := v) (joined_of_cut _ _ h hx hp)
    (ne_of_mem_of_not_mem hp' ht).symm (ne_of_mem_of_not_mem hxmem ht).symm rfl
  refine ⟨?_, .of_subset hframe fun c hc => ?_⟩
  · refine LearningNotes.Ring.putIn (T := [p, tmp]) h (.singleton tmp) hx rfl rfl hp ?_ ?_
      (hkeep _ ht) h₁ h₂
    · have hperm : (node :: (l₁ ++ [tmp] ++ l₂)).Perm (tmp :: node :: (l₁ ++ l₂)) := by
        refine (List.Perm.cons node ?_).trans (List.Perm.swap ..)
        rw [List.append_assoc]
        exact List.perm_middle
      exact hperm.nodup_iff.2 (List.nodup_cons.2 ⟨ht, h.2⟩)
    · intro b hb
      simp only [List.mem_cons, List.not_mem_nil, or_false] at hb
      rcases hb with rfl | rfl
      · exact .inl rfl
      · exact .inr ht
  · simp only [List.mem_cons, List.not_mem_nil, or_false] at hc
    rcases hc with rfl | rfl | rfl
    · exact List.mem_cons_of_mem _ hxmem
    · exact List.mem_cons_of_mem _ hp'
    · exact List.mem_cons_self ..

/-- `erase` from a list. -/
theorem erase_ring (h : s.Ring node (l₁ ++ [p] ++ l₂)) :
    (erase p s).Ring node (l₁ ++ l₂) ∧ Frame s (erase p s) (node :: (l₁ ++ [p] ++ l₂)) := by
  obtain ⟨x, hx⟩ := exists_last node l₁
  obtain ⟨z, hz⟩ : ∃ z, (l₂ ++ [node]).head? = some z := by simp
  have hxp : s.Joined x p := joined_of_cut _ (p :: l₂) (by simpa using h) hx rfl
  have hpz : s.Joined p z := by
    refine joined_of_cut _ _ h ?_ hz
    rw [← List.cons_append, List.getLast?_append]
    rfl
  obtain ⟨h₁, hkeep, hframe, -⟩ := erase_joins hxp hpz rfl
  refine ⟨(LearningNotes.Ring.cutOut (T := [p, z]) h hx rfl hz (fun b hb => ?_) (hkeep _) h₁).1,
    .of_subset hframe fun c hc => ?_⟩
  · simp only [List.mem_cons, List.not_mem_nil, or_false] at hb
    tauto
  · have hx' := mem_of_getLast hx
    have hz' := mem_of_cut hz (l₁ ++ [p])
    simp only [List.mem_cons, List.mem_append, List.not_mem_nil, or_false] at hc hx' hz' ⊢
    rcases hc with rfl | rfl
    · tauto
    · tauto

/-- The stretch goes to another list. -/
theorem transfer_rings {node' : Nat} {r₁ r₂ : List Nat} (hi : s.Ring node' (r₁ ++ r₂))
    (hp : (r₂ ++ [node']).head? = some p) (hj : s.Ring node l)
    (hst : IsStretch node first last l l₁ m l₂)
    (hapart : ∀ c ∈ node :: l, c ∉ node' :: (r₁ ++ r₂)) :
    (transfer p first last s).Ring node' (r₁ ++ m ++ r₂) ∧
      (transfer p first last s).Ring node (l₁ ++ l₂) ∧
      Frame s (transfer p first last s) (node :: l ++ node' :: (r₁ ++ r₂)) := by
  have hfl := hst.ne hj.2
  obtain ⟨rfl, hf, hl⟩ := hst
  obtain ⟨q, hq⟩ := exists_last node' r₁
  obtain ⟨a, ha⟩ := exists_last node l₁
  obtain ⟨e, he⟩ : ∃ e, m.getLast? = some e := by
    cases m with
    | nil => simp at hf
    | cons c m => exact exists_last c m
  have hqp : s.Joined q p := joined_of_cut _ _ hi hq hp
  have haf : s.Joined a first := by
    refine joined_of_cut _ (m ++ l₂) (by simpa using hj) ha ?_
    rw [List.append_assoc, List.head?_append, hf, Option.some_or]
  have hel : s.Joined e last := by
    refine joined_of_cut _ _ hj ?_ hl
    rw [← List.cons_append, List.getLast?_append, he, Option.some_or]
  have hpmem := mem_of_cut hp r₁
  have hfmem : first ∈ node :: (l₁ ++ m ++ l₂) := by
    have := List.mem_of_head? hf
    simp [this]
  have hlmem := mem_of_cut hl (l₁ ++ m)
  have hemem : e ∈ node :: (l₁ ++ m ++ l₂) := by
    have := List.mem_of_getLast? he
    simp [this]
  have hamem : a ∈ node :: (l₁ ++ m ++ l₂) := by
    have := mem_of_getLast ha
    simp only [List.mem_cons, List.mem_append] at this ⊢
    tauto
  have hqmem : q ∈ node' :: (r₁ ++ r₂) := by
    have := mem_of_getLast hq
    simp only [List.mem_cons, List.mem_append] at this ⊢
    tauto
  obtain ⟨⟨h₁, h₂, h₃⟩, hkeep, hframe, -⟩ := transfer_joins hel haf hqp
    (ne_of_mem_of_not_mem hlmem fun h => hapart _ h hpmem).symm
    (ne_of_mem_of_not_mem hfmem fun h => hapart _ h hpmem).symm hfl rfl
  obtain ⟨hring, hchain⟩ := LearningNotes.Ring.cutOut (T := [p, first, last]) hj ha hf hl
    (fun b hb => by
      simp only [List.mem_cons, List.not_mem_nil, or_false] at hb
      rcases hb with rfl | rfl | rfl
      · exact .inr (.inr fun hmem => hapart _ hmem hpmem)
      · exact .inl rfl
      · exact .inr (.inl rfl)) (hkeep _) h₂
  refine ⟨?_, hring, .of_subset hframe fun c hc => ?_⟩
  · refine LearningNotes.Ring.putIn (T := [p, first, last]) hi hchain hq hf he hp ?_ (fun b hb => ?_)
      (hkeep _) h₃ h₁
    · have hm : ∀ c ∈ m, c ∉ node' :: (r₁ ++ r₂) := by
        intro c hc
        exact hapart c (by simp [hc])
      have hperm : (node' :: (r₁ ++ m ++ r₂)).Perm (m ++ node' :: (r₁ ++ r₂)) := by
        rw [List.append_assoc]
        refine List.Perm.trans (List.Perm.cons node' ?_) List.perm_middle.symm
        rw [← List.append_assoc, ← List.append_assoc]
        exact List.perm_append_comm.append_right r₂
      have hmn : m.Nodup := (List.nodup_append.1 (List.nodup_append.1 (List.nodup_cons.1 hj.2).2).1).2.1
      refine hperm.nodup_iff.2 (List.nodup_append.2 ⟨hmn, hi.2, fun c hc d hd => ?_⟩)
      intro he
      exact hm c hc (he ▸ hd)
    · simp only [List.mem_cons, List.not_mem_nil, or_false] at hb
      rcases hb with rfl | rfl | rfl
      · exact .inl rfl
      · exact .inr (hapart _ hfmem)
      · exact .inr (hapart _ hlmem)
  · rw [List.mem_append]
    simp only [List.mem_cons, List.not_mem_nil, or_false] at hc
    rcases hc with rfl | rfl | rfl | rfl | rfl | rfl
    · exact .inl hemem
    · exact .inl hamem
    · exact .inr hqmem
    · exact .inr hpmem
    · exact .inl hfmem
    · exact .inl hlmem

/-- Two neighbouring stretches `m` and `t`, with what is around them. -/
structure Blocks (s : State α) (node : Nat) (l₁ m t l₂ : List Nat) (x f e g k z : Nat) : Prop where
  ring : s.Ring node (l₁ ++ m ++ t ++ l₂)
  before : (node :: l₁).getLast? = some x
  first : m.head? = some f
  last : m.getLast? = some e
  first' : t.head? = some g
  last' : t.getLast? = some k
  behind : (l₂ ++ [node]).head? = some z

variable {f g k : Nat}

/-- The ends of three stretches. -/
theorem exists_blocks (h : s.Ring node (l₁ ++ m ++ t ++ l₂)) (hf : m.head? = some f)
    (hg : t.head? = some g) (hz : (l₂ ++ [node]).head? = some z) :
    ∃ x e k, Blocks s node l₁ m t l₂ x f e g k z := by
  obtain ⟨x, hx⟩ := exists_last node l₁
  obtain ⟨m', rfl⟩ : ∃ m', m = f :: m' := List.head?_eq_some_iff.1 hf
  obtain ⟨t', rfl⟩ : ∃ t', t = g :: t' := List.head?_eq_some_iff.1 hg
  obtain ⟨e, he⟩ := exists_last f m'
  obtain ⟨k, hk⟩ := exists_last g t'
  exact ⟨x, e, k, h, hx, rfl, he, rfl, hk, hz⟩

/-- Where the stretches meet. -/
theorem Blocks.joined (h : Blocks s node l₁ m t l₂ x f e g k z) :
    s.Joined x f ∧ s.Joined e g ∧ s.Joined k z := by
  obtain ⟨hr, hx, hf, he, hg, hk, hz⟩ := h
  refine ⟨?_, ?_, ?_⟩
  · refine joined_of_cut _ (m ++ t ++ l₂) (by simpa using hr) hx ?_
    rw [List.append_assoc, List.append_assoc, List.head?_append, hf, Option.some_or]
  · refine joined_of_cut (l₁ ++ m) (t ++ l₂) (by simpa using hr) ?_ ?_
    · rw [← List.cons_append, List.getLast?_append, he, Option.some_or]
    · rw [List.append_assoc, List.head?_append, hg, Option.some_or]
  · refine joined_of_cut _ _ hr ?_ hz
    rw [← List.cons_append, List.getLast?_append, hk, Option.some_or]

/-- The nodes at which they begin are different ones. -/
theorem Blocks.ne (h : Blocks s node l₁ m t l₂ x f e g k z) : f ≠ g ∧ f ≠ z ∧ g ≠ z := by
  obtain ⟨hr, -, hf, -, hg, -, hz⟩ := h
  obtain ⟨m', rfl⟩ : ∃ m', m = f :: m' := List.head?_eq_some_iff.1 hf
  obtain ⟨t', rfl⟩ : ∃ t', t = g :: t' := List.head?_eq_some_iff.1 hg
  obtain ⟨r, hr'⟩ : ∃ r, l₂ ++ [node] = z :: r := List.head?_eq_some_iff.1 hz
  have hrot : (l₁ ++ (f :: m' ++ g :: t') ++ z :: r).Nodup := by
    rw [← hr']
    have := LearningNotes.Ring.nodup_rotate hr
    simpa using this
  have hzn := head_not_mem hrot
  have hfn : f ∉ l₁ ++ (m' ++ g :: t' ++ z :: r) := head_not_mem (by simpa using hrot)
  simp only [List.mem_append, List.mem_cons, not_or] at hzn hfn
  exact ⟨hfn.2.1.2.1, fun he => hzn.1.2.1.1 he.symm, fun he => hzn.1.2.2.1 he.symm⟩

theorem Blocks.mem (h : Blocks s node l₁ m t l₂ x f e g k z) :
    ∀ c, c = x ∨ c = f ∨ c = e ∨ c = g ∨ c = k ∨ c = z → c ∈ node :: (l₁ ++ m ++ t ++ l₂) := by
  obtain ⟨-, hx, hf, he, hg, hk, hz⟩ := h
  have hx' := mem_of_getLast hx
  have hf' := List.mem_of_head? hf
  have he' := List.mem_of_getLast? he
  have hg' := List.mem_of_head? hg
  have hk' := List.mem_of_getLast? hk
  have hz' := mem_of_cut hz (l₁ ++ m ++ t)
  intro c hc
  simp only [List.mem_cons, List.mem_append] at hx' hz' ⊢
  rcases hc with rfl | rfl | rfl | rfl | rfl | rfl <;> tauto

/-- The first stretch is moved behind the second one. -/
theorem transfer_forward (h : Blocks s node l₁ m t l₂ x f e g k z) :
    (transfer z f g s).Ring node (l₁ ++ t ++ m ++ l₂) ∧
      Frame s (transfer z f g s) (node :: (l₁ ++ m ++ t ++ l₂)) := by
  obtain ⟨hxf, heg, hkz⟩ := h.joined
  obtain ⟨hfg, hfz, hgz⟩ := h.ne
  obtain ⟨⟨h₁, h₂, h₃⟩, hkeep, hframe, -⟩ := transfer_joins heg hxf hkz hgz.symm hfz.symm hfg rfl
  refine ⟨LearningNotes.Ring.swap (T := [z, f, g]) h.ring h.before h.first h.last h.first' h.last' h.behind
    (fun b hb => ?_) (hkeep _) h₂ h₃ h₁, .of_subset hframe fun c hc => h.mem c ?_⟩
  · simp only [List.mem_cons, List.not_mem_nil, or_false] at hb
    tauto
  · simp only [List.mem_cons, List.not_mem_nil, or_false] at hc
    tauto

/-- The second stretch is moved in front of the first one. -/
theorem transfer_backward (h : Blocks s node l₁ m t l₂ x f e g k z) :
    (transfer f g z s).Ring node (l₁ ++ t ++ m ++ l₂) ∧
      Frame s (transfer f g z s) (node :: (l₁ ++ m ++ t ++ l₂)) := by
  obtain ⟨hxf, heg, hkz⟩ := h.joined
  obtain ⟨hfg, hfz, hgz⟩ := h.ne
  obtain ⟨⟨h₁, h₂, h₃⟩, hkeep, hframe, -⟩ := transfer_joins hkz heg hxf hfz hfg hgz rfl
  refine ⟨LearningNotes.Ring.swap (T := [f, g, z]) h.ring h.before h.first h.last h.first' h.last' h.behind
    (fun b hb => ?_) (hkeep _) h₃ h₁ h₂, .of_subset hframe fun c hc => h.mem c ?_⟩
  · simp only [List.mem_cons, List.not_mem_nil, or_false] at hb
    tauto
  · simp only [List.mem_cons, List.not_mem_nil, or_false] at hc
    tauto

/-- The loop of `reverse`: what has been passed stands in front, in the opposite order. -/
theorem reverseLoop_ring {r : List Nat} {n : Nat} (hring : s.Ring node (r ++ t)) (hr : r ≠ [])
    (hz : (t ++ [node]).head? = some z) (hn : t.length < n) :
    ∃ s', reverseLoop node n z s = some s' ∧ s'.Ring node (t.reverse ++ r) ∧
      Frame s s' (node :: (r ++ t)) ∧ s'.data = s.data := by
  induction t generalizing r s n z with
  | nil =>
    obtain rfl : node = z := Option.some.inj hz
    cases n with
    | zero => omega
    | succ n =>
      refine ⟨s, by simp [reverseLoop], by simpa using hring, fun _ _ => ⟨rfl, rfl⟩, rfl⟩
  | cons old t ih =>
    obtain rfl : old = z := Option.some.inj hz
    obtain ⟨p, r', rfl⟩ := List.exists_cons_of_ne_nil hr
    obtain ⟨z, hz'⟩ : ∃ z, (t ++ [node]).head? = some z := by simp
    cases n with
    | zero => omega
    | succ n =>
      have hold : old ≠ node := fun he => (List.nodup_cons.1 hring.2).1 (he ▸ by simp)
      have hp : s.next node = p :=
        (joined_of_cut [] (p :: r' ++ old :: t) (by simpa using hring) rfl rfl).1
      have hblocks : s.Ring node ([] ++ p :: r' ++ [old] ++ t) := by simpa using hring
      obtain ⟨x, e, k, hb⟩ := exists_blocks hblocks rfl rfl hz'
      have hk : k = old := (Option.some.inj hb.last').symm
      subst hk
      have hnext : s.next k = z := hb.joined.2.2.1
      obtain ⟨hring', hframe⟩ := transfer_backward hb
      obtain ⟨s', hs', hr', hf', hd'⟩ := ih (r := k :: p :: r') (s := transfer p k z s)
        (by simpa using hring') (by simp) hz' (by simpa using hn)
      refine ⟨s', ?_, by simpa using hr', fun c hc => ?_, ?_⟩
      · rw [reverseLoop, if_pos hold]
        dsimp only
        rw [hp, hnext]
        exact hs'
      · obtain ⟨h₁, h₂⟩ := hf' c (fun hmem => hc (by simp at hmem ⊢; tauto))
        obtain ⟨h₃, h₄⟩ := hframe c (fun hmem => hc (by simp at hmem ⊢; tauto))
        exact ⟨h₁.trans h₃, h₂.trans h₄⟩
      · rw [hd']
        unfold transfer
        split <;> rfl

/-- `reverse` of a list. -/
theorem reverse_ring {n : Nat} (h : s.Ring node l) (hn : l.length < n) :
    ∃ s', reverse node n s = some s' ∧ s'.Ring node l.reverse ∧ Frame s s' (node :: l) ∧
      s'.data = s.data := by
  have hstay : s.Ring node l.reverse → ∃ s', some s = some s' ∧ s'.Ring node l.reverse ∧
      Frame s s' (node :: l) ∧ s'.data = s.data := by
    intro hr
    exact ⟨s, rfl, hr, fun _ _ => ⟨rfl, rfl⟩, rfl⟩
  unfold reverse
  rcases l with _ | ⟨a, _ | ⟨b, t⟩⟩
  · have hnext : s.next node = node := (joined_of_cut [] [] h rfl rfl).1
    rw [if_pos (.inl hnext)]
    exact hstay h
  · have hnext : s.next node = a := (joined_of_cut [] [a] h rfl rfl).1
    have hnext' : s.next a = node := (joined_of_cut [a] [] h rfl rfl).1
    rw [if_pos (.inr (by rw [hnext, hnext']))]
    exact hstay h
  · have hnext : s.next node = a := (joined_of_cut [] (a :: b :: t) h rfl rfl).1
    have hnext' : s.next a = b := (joined_of_cut [a] (b :: t) h rfl rfl).1
    have hnot := (List.nodup_cons.1 h.2).1
    simp only [List.mem_cons, not_or] at hnot
    rw [hnext, hnext', if_neg (by simp [Ne.symm hnot.1, Ne.symm hnot.2.1])]
    simpa using reverseLoop_ring (r := [a]) (t := b :: t) (z := b) h (by simp) rfl
      (by simp at hn ⊢; omega)

end LearningNotes.StlList
