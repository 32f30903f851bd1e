import LearningNotes.Lib.Linked
import LearningNotes.Lists.HeadList
import Mathlib.Data.List.Perm.Subperm

/-!
# The nodes of the lists with a head node

`Rep` is a list in memory: its cells from the head node on to `stop`, no node twice, and no other node
that has been allocated. A node is put in behind another one (`Rep.inserted`) or taken out
(`Rep.deleted`), and each call of either list answers as `answer` says (`Single.call_eq`,
`Circular.call_eq`).
-/

namespace LearningNotes.HeadList

/-! ## The loops -/

/-- The nodes of a list in their order, with their addresses. -/
abbrev Cells := List (Nat × LNode)

def addrs (c : Cells) : List Nat := c.map Prod.fst

def datas (c : Cells) : List ElemType := c.map fun n => n.2.data

@[simp] theorem addrs_nil : addrs [] = [] := rfl

@[simp] theorem addrs_cons (p : Nat) (x : LNode) (c : Cells) : addrs ((p, x) :: c) = p :: addrs c := rfl

@[simp] theorem addrs_append (c₁ c₂ : Cells) : addrs (c₁ ++ c₂) = addrs c₁ ++ addrs c₂ :=
  List.map_append

@[simp] theorem datas_nil : datas [] = [] := rfl

@[simp] theorem datas_cons (p : Nat) (x : LNode) (c : Cells) :
    datas ((p, x) :: c) = x.data :: datas c := rfl

@[simp] theorem datas_append (c₁ c₂ : Cells) : datas (c₁ ++ c₂) = datas c₁ ++ datas c₂ :=
  List.map_append

@[simp] theorem length_addrs (c : Cells) : (addrs c).length = c.length := List.length_map _

@[simp] theorem length_datas (c : Cells) : (datas c).length = c.length := List.length_map _

variable {nodes : Nat → Option LNode} {stop p q L k n : Nat} {c : Cells} {x : LNode}
  {e garbage : ElemType} {i j : Int}

/-- A list of cells in memory, from `p` on to `stop`. -/
structure Chain (nodes : Nat → Option LNode) (p : Nat) (c : Cells) (stop : Nat) : Prop where
  seg : Seg 0 LNode.next p c stop
  held : InStore nodes c
  ends : stop ∉ addrs c

/-- A chain without nodes ends where it begins. -/
theorem Chain.nil (h : Chain nodes p [] stop) : p = stop := h.seg

/-- The first node, and the rest. -/
theorem Chain.cons {b : Nat} (h : Chain nodes p ((b, x) :: c) stop) :
    p = b ∧ p ≠ stop ∧ nodes p = some x ∧ Chain nodes x.next c stop := by
  obtain ⟨rfl, -, hseg⟩ := h.seg
  have hends := h.ends
  rw [addrs_cons, List.mem_cons, not_or] at hends
  exact ⟨rfl, Ne.symm hends.1, h.held _ List.mem_cons_self, hseg,
    fun e he => h.held e (List.mem_cons_of_mem _ he), hends.2⟩

/-- To go along the nodes: to the one with the index, or to the end. -/
theorem seek_eq (h : Chain nodes p c stop) (hn : c.length < n) (i j : Int) :
    seek nodes stop n i j p = some ((addrs c)[(i - j).toNat]?.getD stop) := by
  induction c generalizing p j n with
  | nil =>
    obtain ⟨n, rfl⟩ := Nat.exists_eq_add_of_le' (show 1 ≤ n by omega)
    rw [seek, if_neg fun hc => hc.2 h.nil, h.nil]
    simp
  | cons cell c ih =>
    obtain ⟨b, x⟩ := cell
    obtain ⟨rfl, hne, hx, hc⟩ := h.cons
    obtain ⟨n, rfl⟩ := Nat.exists_eq_add_of_le' (show 1 ≤ n by omega)
    by_cases hj : j < i
    · rw [seek, if_pos ⟨hj, hne⟩, hx, Option.bind_eq_bind, Option.bind_some,
        ih hc (Nat.lt_of_succ_lt_succ hn)]
      rw [show (i - j).toNat = (i - (j + 1)).toNat + 1 by omega, addrs_cons, List.getElem?_cons_succ]
    · rw [seek, if_neg fun hc => hj hc.1, show (i - j).toNat = 0 by omega]
      rfl

/-- The search finds the first node with the element. -/
theorem locateFrom_eq (h : Chain nodes p c stop) (hn : c.length < n) (i : Int) :
    locateFrom nodes stop e n i p =
      some (if e ∈ datas c then i + (datas c).idxOf e else 0) := by
  induction c generalizing p i n with
  | nil =>
    obtain ⟨n, rfl⟩ := Nat.exists_eq_add_of_le' (show 1 ≤ n by omega)
    rw [locateFrom, if_pos h.nil]
    simp
  | cons cell c ih =>
    obtain ⟨b, x⟩ := cell
    obtain ⟨rfl, hne, hx, hc⟩ := h.cons
    obtain ⟨n, rfl⟩ := Nat.exists_eq_add_of_le' (show 1 ≤ n by omega)
    rw [locateFrom, if_neg hne, hx, Option.bind_eq_bind, Option.bind_some]
    by_cases he : x.data = e
    · simp [he]
    · rw [if_neg he, ih hc (Nat.lt_of_succ_lt_succ hn), datas_cons]
      by_cases hm : e ∈ datas c
      · rw [if_pos hm, if_pos (List.mem_cons_of_mem _ hm), List.idxOf_cons, beq_false_of_ne he, cond_false]
        congr 1
        omega
      · rw [if_neg hm, if_neg (by simp [hm, Ne.symm he])]

/-- All elements are printed in their order. -/
theorem dispFrom_eq (h : Chain nodes p c stop) (hn : c.length < n) :
    dispFrom nodes stop n p = some (datas c) := by
  induction c generalizing p n with
  | nil =>
    obtain ⟨n, rfl⟩ := Nat.exists_eq_add_of_le' (show 1 ≤ n by omega)
    rw [dispFrom, if_pos h.nil]
    rfl
  | cons cell c ih =>
    obtain ⟨b, x⟩ := cell
    obtain ⟨rfl, hne, hx, hc⟩ := h.cons
    obtain ⟨n, rfl⟩ := Nat.exists_eq_add_of_le' (show 1 ≤ n by omega)
    rw [dispFrom, if_neg hne, hx, Option.bind_eq_bind, Option.bind_some,
      ih hc (Nat.lt_of_succ_lt_succ hn)]
    rfl

theorem Single.lengthFrom_eq (h : Chain nodes p ((q, x) :: c) 0) (hn : c.length < n) (i : Int) :
    Single.lengthFrom nodes n i p = some (i + c.length) := by
  induction c generalizing p q x i n with
  | nil =>
    obtain ⟨rfl, -, hx, hc⟩ := h.cons
    obtain ⟨n, rfl⟩ := Nat.exists_eq_add_of_le' (show 1 ≤ n by omega)
    rw [Single.lengthFrom, hx, Option.bind_eq_bind, Option.bind_some, if_neg (not_not.2 hc.nil)]
    simp
  | cons cell c ih =>
    obtain ⟨rfl, -, hx, hc⟩ := h.cons
    obtain ⟨-, hne, -⟩ := hc.cons
    obtain ⟨n, rfl⟩ := Nat.exists_eq_add_of_le' (show 1 ≤ n by omega)
    rw [Single.lengthFrom, hx, Option.bind_eq_bind, Option.bind_some, if_pos hne,
      ih hc (Nat.lt_of_succ_lt_succ hn), List.length_cons]
    congr 1
    omega

theorem Circular.lengthFrom_eq (h : Chain nodes p c L) (hn : c.length < n) (i : Int) :
    Circular.lengthFrom nodes L n i p = some (i + c.length) := by
  induction c generalizing p i n with
  | nil =>
    obtain ⟨n, rfl⟩ := Nat.exists_eq_add_of_le' (show 1 ≤ n by omega)
    rw [Circular.lengthFrom, if_neg (not_not.2 h.nil)]
    simp
  | cons cell c ih =>
    obtain ⟨rfl, hne, hx, hc⟩ := h.cons
    obtain ⟨n, rfl⟩ := Nat.exists_eq_add_of_le' (show 1 ≤ n by omega)
    rw [Circular.lengthFrom, if_pos hne, hx, Option.bind_eq_bind, Option.bind_some,
      ih hc (Nat.lt_of_succ_lt_succ hn), List.length_cons]
    congr 1
    omega

/-- The node before the wanted one, or the last. -/
theorem Circular.seekBefore_eq (hx : nodes p = some x) (h : Chain nodes x.next c L) (hn : c.length < n)
    (i j : Int) : Circular.seekBefore nodes L n i j p =
      some ((p :: addrs c)[min (i - j).toNat c.length]?.getD L, j + min (i - j).toNat c.length) := by
  induction c generalizing p x j n with
  | nil =>
    obtain ⟨n, rfl⟩ := Nat.exists_eq_add_of_le' (show 1 ≤ n by omega)
    rw [Circular.seekBefore, hx, Option.bind_eq_bind, Option.bind_some, if_neg fun hc => hc.1 h.nil]
    simp
  | cons cell c ih =>
    obtain ⟨b, y⟩ := cell
    obtain ⟨hb, hne, hy, hc⟩ := h.cons
    obtain ⟨n, rfl⟩ := Nat.exists_eq_add_of_le' (show 1 ≤ n by omega)
    rw [Circular.seekBefore, hx, Option.bind_eq_bind, Option.bind_some]
    by_cases hj : j < i
    · have hmin : min (i - j).toNat (c.length + 1) = min (i - (j + 1)).toNat c.length + 1 := by omega
      rw [if_pos ⟨hne, hj⟩, ih hy hc (Nat.lt_of_succ_lt_succ hn), List.length_cons, hmin,
        List.getElem?_cons_succ, addrs_cons, hb]
      congr 2
      omega
    · rw [if_neg fun hc => hj hc.2, show (i - j).toNat = 0 by omega]
      simp

/-- A chain stays when none of its nodes changes. -/
theorem Chain.congr {nodes' : Nat → Option LNode} (h : Chain nodes p c stop)
    (hsame : ∀ a ∈ addrs c, nodes' a = nodes a) : Chain nodes' p c stop :=
  ⟨h.seg, fun e he => (hsame e.1 (List.mem_map_of_mem he)).trans (h.held e he), h.ends⟩

/-- All nodes are freed, each of them once. -/
theorem destroyFrom_eq (h : Chain nodes q c stop) (hp : nodes p ≠ none) (hnodup : (p :: addrs c).Nodup)
    (honly : ∀ a, nodes a ≠ none → a ∈ p :: addrs c) (hn : c.length < n) :
    destroyFrom stop n p q nodes = some fun _ => none := by
  induction c generalizing p q nodes n with
  | nil =>
    obtain ⟨n, rfl⟩ := Nat.exists_eq_add_of_le' (show 1 ≤ n by omega)
    obtain ⟨y, hy⟩ := Option.ne_none_iff_exists'.1 hp
    rw [destroyFrom, if_pos h.nil, free, hy, Option.map_some]
    congr 1
    funext a
    by_cases ha : a = p
    · rw [ha, Function.update_self]
    · rw [Function.update_of_ne ha]
      by_contra hne
      exact ha (List.mem_singleton.1 (honly a hne))
  | cons cell c ih =>
    obtain ⟨b, x⟩ := cell
    obtain ⟨rfl, hne, hx, hc⟩ := h.cons
    obtain ⟨n, rfl⟩ := Nat.exists_eq_add_of_le' (show 1 ≤ n by omega)
    obtain ⟨y, hy⟩ := Option.ne_none_iff_exists'.1 hp
    obtain ⟨hp', hnodup'⟩ := List.nodup_cons.1 hnodup
    have hother : ∀ a ∈ q :: addrs c, Function.update nodes p none a = nodes a := by
      intro a ha
      exact Function.update_of_ne (ne_of_mem_of_not_mem ha hp') ..
    have hq := (hother q List.mem_cons_self).trans hx
    simp only [destroyFrom, if_neg hne, free, hy, Option.map_some, Option.bind_eq_bind, Option.bind_some,
      hq]
    refine ih (hc.congr fun a ha => hother a (List.mem_cons_of_mem _ ha)) (by simp [hq]) hnodup'
      (fun a ha => ?_) (Nat.lt_of_succ_lt_succ hn)
    have hap : a ≠ p := by
      rintro rfl
      exact ha (Function.update_self ..)
    rw [Function.update_of_ne hap] at ha
    exact (List.mem_cons.1 (honly a ha)).resolve_left hap

/-! ## The lists in memory -/

/-- The first cell is the head node. -/
structure Rep (stop : Nat) (s : State) (c : Cells) : Prop where
  seg : Seg 0 LNode.next s.L c stop
  held : InStore s.nodes c
  nodup : (addrs c).Nodup
  only : ∀ a, s.nodes a ≠ none → a ∈ addrs c
  fresh : ∀ a ∈ addrs c, a < s.fresh
  pos : 0 < s.fresh
  ends : stop = 0 ∨ stop = s.L
  notNil : c ≠ []

variable {s : State} {xs : List ElemType}

/-- The loops have rounds enough. -/
theorem Rep.length_lt (h : Rep stop s c) : c.length < s.rounds := by
  have hle := (List.subperm_of_subset h.nodup fun a ha => List.mem_range.2 (h.fresh a ha)).length_le
  rw [length_addrs, List.length_range] at hle
  exact Nat.lt_succ_of_le hle

/-- The head node, and the list behind it. -/
theorem Rep.head (h : Rep stop s c) : ∃ x d, c = (s.L, x) :: d ∧ s.nodes s.L = some x ∧
    Chain s.nodes x.next d stop ∧ d.length < s.rounds := by
  cases hc : c with
  | nil => exact absurd hc h.notNil
  | cons cell d =>
    obtain ⟨a, x⟩ := cell
    subst hc
    obtain ⟨rfl, ha, hseg⟩ := h.seg
    obtain ⟨hL, -⟩ := List.nodup_cons.1 h.nodup
    have hheld : InStore s.nodes d := by
      intro e he
      exact h.held e (List.mem_cons_of_mem _ he)
    refine ⟨x, d, rfl, h.held _ List.mem_cons_self, ⟨hseg, hheld, ?_⟩, ?_⟩
    · rcases h.ends with he | he
      · rw [he]
        rintro hmem
        obtain ⟨e, he, h0⟩ := List.mem_map.1 hmem
        exact hseg.ne_nil e he h0
      · rwa [he]
    · exact Nat.lt_of_succ_lt h.length_lt

/-- The cell at an index. -/
theorem Rep.at {cs : Cells} (h : Rep stop s cs) (hk : k < cs.length) : ∃ c₁ p x c₂,
    cs = c₁ ++ (p, x) :: c₂ ∧ c₁.length = k ∧ (addrs cs)[k]? = some p ∧ s.nodes p = some x ∧
    x.next = (addrs c₂).head?.getD stop := by
  have hc : cs = cs.take k ++ (cs[k].1, cs[k].2) :: cs.drop (k + 1) := by
    rw [List.getElem_cons_drop, List.take_append_drop]
  have hseg := h.seg
  rw [hc] at hseg
  obtain ⟨a, -, -, -, hrest⟩ := seg_append.1 hseg
  refine ⟨cs.take k, cs[k].1, cs[k].2, cs.drop (k + 1), hc, List.length_take_of_le (Nat.le_of_lt hk), ?_,
    h.held _ (List.getElem_mem hk), ?_⟩
  · rw [addrs, List.getElem?_map, List.getElem?_eq_getElem hk]
    rfl
  · rw [hrest.start, addrs, List.head?_map]

variable {c₁ c₂ : Cells} {y : LNode}

/-- The other cells do not have the address of this one. -/
theorem Rep.ne_of_mem (h : Rep stop s (c₁ ++ (p, x) :: c₂)) {n : Nat × LNode} (hn : n ∈ c₁ ++ c₂) :
    n.1 ≠ p := by
  have hnodup := h.nodup
  rw [addrs_append, addrs_cons, List.perm_middle.nodup_iff, ← addrs_append] at hnodup
  exact ne_of_mem_of_not_mem (List.mem_map_of_mem hn) (List.nodup_cons.1 hnodup).1

/-- A node is put behind another one. -/
theorem Rep.inserted (h : Rep stop s (c₁ ++ (p, x) :: c₂)) (e : ElemType) :
    ∃ s', (s.malloc ⟨e, x.next⟩).setNext p s.fresh = some s' ∧ s'.L = s.L ∧
      Rep stop s' (c₁ ++ (p, { x with next := s.fresh }) :: (s.fresh, ⟨e, x.next⟩) :: c₂) := by
  have hp : p < s.fresh := h.fresh p (by simp)
  have hx : s.nodes p = some x := h.held (p, x) (by simp)
  have hnew : s.fresh ∉ addrs (c₁ ++ (p, x) :: c₂) := fun hm => Nat.lt_irrefl _ (h.fresh _ hm)
  have hperm : (addrs (c₁ ++ (p, { x with next := s.fresh }) :: (s.fresh, ⟨e, x.next⟩) :: c₂)).Perm
      (s.fresh :: addrs (c₁ ++ (p, x) :: c₂)) := by
    have := @List.perm_middle _ s.fresh (addrs c₁ ++ [p]) (addrs c₂)
    simpa using this
  have hset : (s.malloc ⟨e, x.next⟩).setNext p s.fresh = some
      { s with
        nodes := Function.update (Function.update s.nodes s.fresh (some ⟨e, x.next⟩)) p
          (some { x with next := s.fresh })
        fresh := s.fresh + 1 } := by
    simp only [State.setNext, State.malloc, Function.update_of_ne (Nat.ne_of_lt hp), hx, Option.map_some]
  have hother : ∀ n ∈ c₁ ++ c₂, Function.update (Function.update s.nodes s.fresh (some ⟨e, x.next⟩)) p
      (some { x with next := s.fresh }) n.1 = some n.2 := by
    intro n hn
    have hn' : n ∈ c₁ ++ (p, x) :: c₂ := by
      rw [List.mem_append] at hn ⊢
      exact hn.imp_right (List.mem_cons_of_mem _)
    rw [Function.update_of_ne (h.ne_of_mem hn),
      Function.update_of_ne (ne_of_mem_of_not_mem (List.mem_map_of_mem hn') hnew)]
    exact h.held n hn'
  refine ⟨_, hset, rfl, ?_, fun n hn => ?_, hperm.nodup_iff.2 (List.nodup_cons.2 ⟨hnew, h.nodup⟩),
    fun a ha => ?_, fun a ha => ?_, Nat.succ_pos _, h.ends, by simp⟩
  · obtain ⟨a, h₁, h₂, h₃, h₄⟩ := seg_append.1 h.seg
    exact seg_append.2 ⟨a, h₁, h₂, h₃, rfl, Nat.ne_of_gt h.pos, h₄⟩
  · rcases List.mem_append.1 hn with hn | hn
    · exact hother n (List.mem_append_left _ hn)
    · rcases List.mem_cons.1 hn with rfl | hn
      · exact Function.update_self ..
      · rcases List.mem_cons.1 hn with rfl | hn
        · exact (Function.update_of_ne (Nat.ne_of_gt hp) ..).trans (Function.update_self ..)
        · exact hother n (List.mem_append_right _ hn)
  · rw [hperm.mem_iff, List.mem_cons]
    by_cases hf : a = s.fresh
    · exact .inl hf
    · refine .inr ?_
      by_cases hap : a = p
      · simp [hap]
      · simp only [Function.update_of_ne hap, Function.update_of_ne hf] at ha
        exact h.only a ha
  · rw [hperm.mem_iff, List.mem_cons] at ha
    rcases ha with rfl | ha
    · exact Nat.lt_succ_self _
    · exact Nat.lt_succ_of_lt (h.fresh a ha)

/-- The node behind another one is taken out and freed. -/
theorem Rep.deleted (h : Rep stop s (c₁ ++ (p, x) :: (q, y) :: c₂)) :
    ∃ s' nodes, s.setNext p y.next = some s' ∧ s'.L = s.L ∧ free s'.nodes q = some nodes ∧
      Rep stop { s' with nodes } (c₁ ++ (p, { x with next := y.next }) :: c₂) := by
  have hx : s.nodes p = some x := h.held (p, x) (by simp)
  have hy : s.nodes q = some y := h.held (q, y) (by simp)
  have hqp : q ≠ p := h.ne_of_mem (n := (q, y)) (by simp)
  have hperm : (addrs (c₁ ++ (p, x) :: (q, y) :: c₂)).Perm
      (q :: addrs (c₁ ++ (p, { x with next := y.next }) :: c₂)) := by
    have := @List.perm_middle _ q (addrs c₁ ++ [p]) (addrs c₂)
    simpa using this
  obtain ⟨hnew, hnodup⟩ := List.nodup_cons.1 (hperm.nodup_iff.1 h.nodup)
  have hset : s.setNext p y.next = some
      { s with nodes := Function.update s.nodes p (some { x with next := y.next }) } := by
    rw [State.setNext, hx]
    rfl
  have hfree : free (Function.update s.nodes p (some { x with next := y.next })) q = some
      (Function.update (Function.update s.nodes p (some { x with next := y.next })) q none) := by
    rw [free, Function.update_of_ne hqp, hy]
    rfl
  have hother : ∀ n ∈ c₁ ++ c₂, Function.update (Function.update s.nodes p
      (some { x with next := y.next })) q none n.1 = some n.2 := by
    intro n hn
    have hn' : n ∈ c₁ ++ (q, y) :: c₂ := by
      rw [List.mem_append] at hn ⊢
      exact hn.imp_right (List.mem_cons_of_mem _)
    have hnq : n.1 ≠ q := by
      refine ne_of_mem_of_not_mem (List.mem_map_of_mem hn) fun hm => hnew ?_
      rw [← addrs, addrs_append, List.mem_append] at hm
      rw [addrs_append, List.mem_append]
      exact hm.imp_right (List.mem_cons_of_mem _)
    rw [Function.update_of_ne hnq, Function.update_of_ne (h.ne_of_mem hn')]
    refine h.held n ?_
    rw [List.mem_append] at hn ⊢
    exact hn.imp_right fun hn => List.mem_cons_of_mem _ (List.mem_cons_of_mem _ hn)
  refine ⟨_, _, hset, rfl, hfree, ?_, fun n hn => ?_, hnodup, fun a ha => ?_,
    fun a ha => h.fresh a (hperm.mem_iff.2 (List.mem_cons_of_mem _ ha)), h.pos, h.ends, by simp⟩
  · obtain ⟨a, h₁, h₂, h₃, h₄, h₅, h₆⟩ := seg_append.1 h.seg
    exact seg_append.2 ⟨a, h₁, h₂, h₃, h₆⟩
  · rcases List.mem_append.1 hn with hn | hn
    · exact hother n (List.mem_append_left _ hn)
    · rcases List.mem_cons.1 hn with rfl | hn
      · exact (Function.update_of_ne (Ne.symm hqp) ..).trans (Function.update_self ..)
      · exact hother n (List.mem_append_right _ hn)
  · by_cases haq : a = q
    · exact absurd (by rw [haq]; exact Function.update_self ..) ha
    · simp only [Function.update_of_ne haq] at ha
      by_cases hap : a = p
      · simp [hap]
      · rw [Function.update_of_ne hap] at ha
        exact (List.mem_cons.1 (hperm.mem_iff.1 (h.only a ha))).resolve_left haq

/-! ## The calls -/

/-- Where the list ends. -/
def stopOf (circular : Bool) (s : State) : Nat := if circular then s.L else 0

/-- The elements are in the list, and `garbage` in the head node. -/
def Holds (circular : Bool) (garbage : ElemType) (s : State) (xs : List ElemType) (c : Cells) : Prop :=
  Rep (stopOf circular s) s c ∧ datas c = garbage :: xs

variable {circular : Bool}

/-- The head node does not count. -/
theorem Holds.length (h : Holds circular garbage s xs c) : c.length = xs.length + 1 := by
  rw [← length_datas, h.2, List.length_cons]

theorem insertIdx_length (l r : List ElemType) : (l ++ r).insertIdx l.length e = l ++ e :: r := by
  induction l with
  | nil => rfl
  | cons a l ih => rw [List.cons_append, List.length_cons, List.insertIdx_succ_cons, ih, List.cons_append]

/-- To insert behind the node with the index `k` is to insert into the list at `k`. -/
theorem Holds.insertAt (h : Holds circular garbage s xs c) (hk : k ≤ xs.length) (e : ElemType) :
    ∃ p x s', (addrs c)[k]? = some p ∧ s.nodes p = some x ∧
      (s.malloc ⟨e, x.next⟩).setNext p s.fresh = some s' ∧
      ∃ c', Holds circular garbage s' (xs.insertIdx k e) c' := by
  have hlen := h.length
  obtain ⟨c₁, p, x, c₂, rfl, rfl, hp, hx, -⟩ := h.1.at (k := k) (by omega)
  obtain ⟨s', hs', hL, hrep⟩ := h.1.inserted e
  rw [stopOf, ← hL, ← stopOf] at hrep
  refine ⟨p, x, s', hp, hx, hs', _, hrep, ?_⟩
  · have hins := insertIdx_length (e := e) (datas c₁ ++ [x.data]) (datas c₂)
    have hd := h.2
    rw [datas_append, datas_cons] at hd
    rw [List.append_assoc, List.singleton_append, hd, List.length_append, length_datas,
      List.length_singleton, List.insertIdx_succ_cons] at hins
    rw [hins]
    simp

/-- To delete behind the node with the index `k`: there is none, or the list loses its element `k`.
-/
theorem Holds.deleteAt (h : Holds circular garbage s xs c) (hk : k ≤ xs.length) :
    ∃ p x, (addrs c)[k]? = some p ∧ s.nodes p = some x ∧
      (x.next = stopOf circular s ∧ k = xs.length ∨
        x.next ≠ stopOf circular s ∧ ∃ y s' nodes, s.nodes x.next = some y ∧ xs[k]? = some y.data ∧
          s.setNext p y.next = some s' ∧ free s'.nodes x.next = some nodes ∧
          ∃ c', Holds circular garbage { s' with nodes } (xs.eraseIdx k) c') := by
  have hlen := h.length
  obtain ⟨c₁, p, x, c₂, rfl, rfl, hp, hx, hnext⟩ := h.1.at (k := k) (by omega)
  refine ⟨p, x, hp, hx, ?_⟩
  cases c₂ with
  | nil =>
    refine .inl ⟨hnext, ?_⟩
    rw [List.length_append, List.length_singleton] at hlen
    omega
  | cons cell c₂ =>
    obtain ⟨q, y⟩ := cell
    replace hnext : x.next = q := hnext
    subst hnext
    obtain ⟨s', nodes, hs', hL, hfree, hrep⟩ := h.1.deleted
    have hd := h.2
    rw [datas_append, datas_cons, datas_cons] at hd
    rw [stopOf, ← hL, ← stopOf] at hrep
    refine .inr ⟨?_, y, s', nodes, h.1.held (x.next, y) (by simp), ?_, hs', hfree, _, hrep, ?_⟩
    · obtain ⟨x', d, hc, -, hchain, -⟩ := h.1.head
      have hmem : (x.next, y) ∈ d := by
        cases c₁ with
        | nil =>
          rw [← (List.cons.inj hc).2]
          exact List.mem_cons_self
        | cons n c₁ =>
          rw [← (List.cons.inj hc).2]
          simp
      intro he
      exact hchain.ends (he ▸ List.mem_map_of_mem (f := Prod.fst) hmem)
    · have hget : (garbage :: xs)[c₁.length + 1]? = some y.data := by
        rw [← hd, ← length_datas c₁, List.getElem?_append_right (Nat.le_succ _)]
        simp
      simpa using hget
    · have herase : (garbage :: xs).eraseIdx (c₁.length + 1) = datas c₁ ++ x.data :: datas c₂ := by
        rw [← hd, List.eraseIdx_append_of_length_le (by simp)]
        simp
      rw [List.eraseIdx_cons_succ] at herase
      rw [herase]
      simp

/-- The head node and the nodes behind it. -/
theorem Holds.head (h : Holds circular garbage s xs c) : ∃ x d, c = (s.L, x) :: d ∧
    s.nodes s.L = some x ∧ Chain s.nodes x.next d (stopOf circular s) ∧ d.length < s.rounds ∧
    datas d = xs ∧ x.data = garbage := by
  obtain ⟨x, d, rfl, hx, hchain, hlt⟩ := h.1.head
  obtain ⟨hg, hd⟩ := List.cons.inj h.2
  exact ⟨x, d, rfl, hx, hchain, hlt, hd, hg⟩

/-- The whole list as a chain, from the head node on. -/
theorem Holds.whole (h : Holds false garbage s xs c) : Chain s.nodes s.L c 0 := by
  refine ⟨h.1.seg, h.1.held, fun hmem => ?_⟩
  obtain ⟨e, he, h0⟩ := List.mem_map.1 hmem
  exact h.1.seg.ne_nil e he h0

/-- The element of the node with an index. -/
theorem datas_get (hx : s.nodes p = some x) (hs : InStore s.nodes c) (hp : (addrs c)[k]? = some p) :
    (datas c)[k]? = some x.data := by
  rw [addrs, List.getElem?_map] at hp
  obtain ⟨cell, hcell, rfl⟩ := Option.map_eq_some_iff.1 hp
  have hheld := hs cell (List.mem_of_getElem? hcell)
  rw [hx] at hheld
  rw [datas, List.getElem?_map, hcell, Option.some.inj hheld]
  rfl

/-- `GetElem`: below 1 it reads the head node. -/
theorem Single.getElem_eq (h : Holds false garbage s xs c) (i : Int) :
    Single.getElem i s = some (if i < 1 then some garbage else xs[(i - 1).toNat]?) := by
  have hlen := h.length
  simp only [Single.getElem, seek_eq h.whole h.1.length_lt, Option.bind_eq_bind, Option.bind_some,
    Int.sub_zero]
  by_cases hk : i.toNat < c.length
  · obtain ⟨c₁, p, x, c₂, -, -, hp, hx, -⟩ := h.1.at hk
    have hne : p ≠ 0 := fun h0 => h.whole.ends (h0 ▸ List.mem_of_getElem? hp)
    have hd := datas_get hx h.1.held hp
    rw [h.2] at hd
    simp only [hp, Option.getD_some, if_neg hne, hx, Option.bind_some, ← hd]
    by_cases hi : i < 1
    · rw [if_pos hi, show i.toNat = 0 by omega]
      rfl
    · rw [if_neg hi, show i.toNat = (i - 1).toNat + 1 by omega, List.getElem?_cons_succ]
  · rw [List.getElem?_eq_none (by rw [length_addrs]; omega), Option.getD_none, if_pos rfl,
      if_neg (by omega), List.getElem?_eq_none (by omega)]

/-- `GetElem`: below 1 it reads the first element. -/
theorem Circular.getElem_eq (h : Holds true garbage s xs c) (i : Int) :
    Circular.getElem i s = some xs[(i - 1).toNat]? := by
  obtain ⟨x, d, -, hx, hchain, hlt, hd, -⟩ := h.head
  replace hchain : Chain s.nodes x.next d s.L := hchain
  simp only [Circular.getElem, hx, Option.bind_eq_bind, Option.bind_some, seek_eq hchain hlt, Int.sub_zero]
  by_cases hk : (i - 1).toNat < d.length
  · have hp : (addrs d)[(i - 1).toNat]? = some d[(i - 1).toNat].1 := by
      rw [addrs, List.getElem?_map, List.getElem?_eq_getElem hk]
      rfl
    have hy := hchain.held _ (List.getElem_mem hk)
    have hne : d[(i - 1).toNat].1 ≠ s.L := fun h0 => hchain.ends (h0 ▸ List.mem_of_getElem? hp)
    simp only [hp, Option.getD_some, if_neg hne, hy, Option.bind_some, ← hd, datas_get hy hchain.held hp]
  · rw [List.getElem?_eq_none (by rw [length_addrs]; omega), Option.getD_none]
    have hlen : d.length = xs.length := by rw [← hd, length_datas]
    rw [List.getElem?_eq_none (by omega)]
    exact if_pos rfl

/-- `LocateElem` of both lists. -/
theorem locate_eq (h : Holds circular garbage s xs c) (e : ElemType) :
    (do
      let x ← s.nodes s.L
      locateFrom s.nodes (stopOf circular s) e s.rounds 1 x.next) =
      some (if e ∈ xs then (xs.idxOf e : Int) + 1 else 0) := by
  obtain ⟨x, d, -, hx, hchain, hlt, hd, -⟩ := h.head
  rw [hx, Option.bind_eq_bind, Option.bind_some, locateFrom_eq hchain hlt, hd, Int.add_comm]

/-- `DispList` of both lists. -/
theorem disp_eq (h : Holds circular garbage s xs c) :
    (do
      let x ← s.nodes s.L
      dispFrom s.nodes (stopOf circular s) s.rounds x.next) = some xs := by
  obtain ⟨x, d, -, hx, hchain, hlt, hd, -⟩ := h.head
  rw [hx, Option.bind_eq_bind, Option.bind_some, dispFrom_eq hchain hlt, hd]

/-- `ListEmpty` of both lists. -/
theorem empty_eq (h : Holds circular garbage s xs c) :
    (do
      let x ← s.nodes s.L
      some (decide (x.next = stopOf circular s))) = some xs.isEmpty := by
  obtain ⟨x, d, -, hx, hchain, -, hd, -⟩ := h.head
  rw [hx, Option.bind_eq_bind, Option.bind_some, ← hd]
  cases d with
  | nil => simp [hchain.nil]
  | cons cell d =>
    obtain ⟨-, hne, -⟩ := hchain.cons
    simp [hne, datas]

theorem Single.listLength_eq (h : Holds false garbage s xs c) :
    Single.listLength s = some (xs.length : Int) := by
  have hwhole := h.whole
  obtain ⟨x, d, rfl, -, -, hlt, hd, -⟩ := h.head
  rw [Single.listLength, Single.lengthFrom_eq hwhole hlt, Int.zero_add, ← hd, length_datas]

theorem Circular.listLength_eq (h : Holds true garbage s xs c) :
    Circular.listLength s = some (xs.length : Int) := by
  obtain ⟨x, d, -, hx, hchain, hlt, hd, -⟩ := h.head
  replace hchain : Chain s.nodes x.next d s.L := hchain
  rw [Circular.listLength, hx, Option.bind_eq_bind, Option.bind_some,
    Circular.lengthFrom_eq hchain hlt, Int.zero_add, ← hd, length_datas]

/-- `ListInsert`: below 1 it inserts at the front. -/
theorem Single.listInsert_eq (h : Holds false garbage s xs c) (i : Int) (e : ElemType) :
    ∃ s' c', Single.listInsert i e s = some (decide ((i - 1).toNat ≤ xs.length), s') ∧
      Holds false garbage s'
        (if (i - 1).toNat ≤ xs.length then xs.insertIdx (i - 1).toNat e else xs) c' := by
  have hlen := h.length
  have hseek := seek_eq h.whole h.1.length_lt (i - 1) 0
  rw [Int.sub_zero] at hseek
  by_cases hk : (i - 1).toNat ≤ xs.length
  · obtain ⟨p, x, s', hp, hx, hs', c', hh⟩ := h.insertAt hk e
    have hne : p ≠ 0 := fun h0 => h.whole.ends (h0 ▸ List.mem_of_getElem? hp)
    refine ⟨s', c', ?_, by rwa [if_pos hk]⟩
    simp only [Single.listInsert, hseek, hp, Option.getD_some, Option.bind_eq_bind, Option.bind_some,
      if_neg hne, hx, hs', hk, decide_true]
  · refine ⟨s, c, ?_, by rwa [if_neg hk]⟩
    rw [List.getElem?_eq_none (by rw [length_addrs]; omega), Option.getD_none] at hseek
    simp only [Single.listInsert, hseek, Option.bind_eq_bind, Option.bind_some, if_true, hk, decide_false]

/-- `ListDelete`: below 1 it deletes the first element. -/
theorem Single.listDelete_eq (h : Holds false garbage s xs c) (i : Int) :
    ∃ s' c', Single.listDelete i s = some (xs[(i - 1).toNat]?, s') ∧
      Holds false garbage s' (xs.eraseIdx (i - 1).toNat) c' := by
  have hlen := h.length
  have hseek := seek_eq h.whole h.1.length_lt (i - 1) 0
  rw [Int.sub_zero] at hseek
  by_cases hk : (i - 1).toNat ≤ xs.length
  · obtain ⟨p, x, hp, hx, hcase⟩ := h.deleteAt hk
    have hne : p ≠ 0 := fun h0 => h.whole.ends (h0 ▸ List.mem_of_getElem? hp)
    rcases hcase with ⟨hnext, hend⟩ | ⟨hnext, y, s', nodes, hy, hget, hs', hfree, c', hh⟩
    · refine ⟨s, c, ?_, by rwa [List.eraseIdx_of_length_le (by omega)]⟩
      rw [List.getElem?_eq_none (by omega)]
      simp only [Single.listDelete, hseek, hp, Option.getD_some, Option.bind_eq_bind, Option.bind_some,
        if_neg hne, hx, show x.next = 0 from hnext, if_true]
    · refine ⟨_, c', ?_, hh⟩
      simp only [Single.listDelete, hseek, hp, Option.getD_some, Option.bind_eq_bind, Option.bind_some,
        if_neg hne, hx, if_neg (show x.next ≠ 0 from hnext), hy, hs', hfree, hget]
  · refine ⟨s, c, ?_, by rwa [List.eraseIdx_of_length_le (by omega)]⟩
    rw [List.getElem?_eq_none (by rw [length_addrs]; omega), Option.getD_none] at hseek
    rw [List.getElem?_eq_none (by omega)]
    simp only [Single.listDelete, hseek, Option.bind_eq_bind, Option.bind_some, if_true]

/-- The place behind the loop is the wanted one, or the number behind the loop is not the wanted one. -/
theorem Circular.seek_cases (h : Holds true garbage s xs c) (i : Int) :
    (1 ≤ i ∧ (i - 1).toNat ≤ xs.length ∧ ∀ p, (addrs c)[(i - 1).toNat]? = some p →
      Circular.seekBefore s.nodes s.L s.rounds (i - 1) 0 s.L = some (p, i - 1)) ∨
    ¬ (1 ≤ i ∧ (i - 1).toNat ≤ xs.length) ∧ ∃ r,
      Circular.seekBefore s.nodes s.L s.rounds (i - 1) 0 s.L = some r ∧ r.2 ≠ i - 1 := by
  obtain ⟨x, d, rfl, hx, hchain, hlt, hd, -⟩ := h.head
  replace hchain : Chain s.nodes x.next d s.L := hchain
  have hlen : d.length = xs.length := by rw [← hd, length_datas]
  have hseek := Circular.seekBefore_eq hx hchain hlt (i - 1) 0
  rw [Int.sub_zero] at hseek
  by_cases hi : 1 ≤ i ∧ (i - 1).toNat ≤ xs.length
  · refine .inl ⟨hi.1, hi.2, fun p hp => ?_⟩
    rw [hseek, Nat.min_eq_left (by omega), ← addrs_cons s.L x, hp, Option.getD_some]
    congr 2
    omega
  · refine .inr ⟨hi, _, hseek, ?_⟩
    simp only
    omega

/-- `ListInsert`: below 1 it does nothing. -/
theorem Circular.listInsert_eq (h : Holds true garbage s xs c) (i : Int) (e : ElemType) :
    ∃ s' c', Circular.listInsert i e s = some (decide (1 ≤ i ∧ (i - 1).toNat ≤ xs.length), s') ∧
      Holds true garbage s'
        (if 1 ≤ i ∧ (i - 1).toNat ≤ xs.length then xs.insertIdx (i - 1).toNat e else xs) c' := by
  rcases Circular.seek_cases h i with ⟨hi, hk, hseek⟩ | ⟨hi, r, hseek, hr⟩
  · obtain ⟨p, x, s', hp, hx, hs', c', hh⟩ := h.insertAt hk e
    refine ⟨s', c', ?_, by rwa [if_pos ⟨hi, hk⟩]⟩
    simp only [Circular.listInsert, hseek p hp, Option.bind_eq_bind, Option.bind_some, ne_eq,
      not_true_eq_false, if_false, hx, hi, hk, and_self, decide_true]
    split
    next hlast => rw [← hlast, hs', Option.bind_some]
    next => rw [hs', Option.bind_some]
  · refine ⟨s, c, ?_, by rwa [if_neg hi]⟩
    simp only [Circular.listInsert, hseek, Option.bind_eq_bind, Option.bind_some, if_pos hr, hi,
      decide_false]

/-- `ListDelete`: below 1 it does nothing. -/
theorem Circular.listDelete_eq (h : Holds true garbage s xs c) (i : Int) :
    ∃ s' c', Circular.listDelete i s = some (if 1 ≤ i then xs[(i - 1).toNat]? else none, s') ∧
      Holds true garbage s' (if 1 ≤ i then xs.eraseIdx (i - 1).toNat else xs) c' := by
  rcases Circular.seek_cases h i with ⟨hi, hk, hseek⟩ | ⟨hi, r, hseek, hr⟩
  · obtain ⟨p, x, hp, hx, hcase⟩ := h.deleteAt hk
    rcases hcase with ⟨hnext, hend⟩ | ⟨hnext, y, s', nodes, hy, hget, hs', hfree, c', hh⟩
    · refine ⟨s, c, ?_, by rwa [if_pos hi, List.eraseIdx_of_length_le (by omega)]⟩
      rw [if_pos hi, List.getElem?_eq_none (by omega)]
      simp only [Circular.listDelete, hseek p hp, Option.bind_eq_bind, Option.bind_some, ne_eq,
        not_true_eq_false, if_false, hx, show x.next = s.L from hnext, if_true]
    · have hsame : (if y.next = s.L then s.L else y.next) = y.next := by
        split
        next hlast => exact hlast.symm
        next => rfl
      refine ⟨_, c', ?_, by rwa [if_pos hi]⟩
      simp only [Circular.listDelete, hseek p hp, Option.bind_eq_bind, Option.bind_some, ne_eq,
        not_true_eq_false, if_false, hx, if_neg (show x.next ≠ s.L from hnext), hy, hsame, hs', hfree, hget,
        if_pos hi]
  · refine ⟨s, c, ?_, ?_⟩
    · simp only [Circular.listDelete, hseek, Option.bind_eq_bind, Option.bind_some, if_pos hr]
      split
      next h₁ => rw [List.getElem?_eq_none (by omega)]
      next => rfl
    · split
      next h₁ => rwa [List.eraseIdx_of_length_le (by omega)]
      next => exact h

/-- Any call. -/
theorem Single.call_eq (h : Holds false garbage s xs c) (op : Op) : ∃ s' c',
    Single.call op s = some ((answer false garbage op xs).1, s') ∧
      Holds false garbage s' (answer false garbage op xs).2 c' := by
  cases op with
  | listEmpty => exact ⟨s, c, congrArg (Option.map _) (empty_eq h), h⟩
  | listLength => exact ⟨s, c, congrArg (Option.map _) (Single.listLength_eq h), h⟩
  | dispList => exact ⟨s, c, congrArg (Option.map _) (disp_eq h), h⟩
  | locateElem e => exact ⟨s, c, congrArg (Option.map _) (locate_eq h e), h⟩
  | getElem i =>
    refine ⟨s, c, ?_, h⟩
    simp only [Single.call, Single.getElem_eq h, Option.map_some, answer, and_true]
  | listInsert i e =>
    obtain ⟨s', c', hs', hh⟩ := Single.listInsert_eq h i e
    refine ⟨s', c', ?_, ?_⟩
    · simp only [Single.call, hs', Option.map_some, answer, implies_true, true_and]
      split
      next hc => rw [decide_eq_true hc]
      next hc => rw [decide_eq_false hc]
    · simp only [answer, implies_true, true_and]
      split
      next hc => rwa [if_pos hc] at hh
      next hc => rwa [if_neg hc] at hh
  | listDelete i =>
    obtain ⟨s', c', hs', hh⟩ := Single.listDelete_eq h i
    refine ⟨s', c', ?_, ?_⟩
    · simp only [Single.call, hs', Option.map_some, answer, implies_true, if_true]
    · simpa only [answer, implies_true, if_true] using hh

/-- Any call. -/
theorem Circular.call_eq (h : Holds true garbage s xs c) (op : Op) : ∃ s' c',
    Circular.call op s = some ((answer true garbage op xs).1, s') ∧
      Holds true garbage s' (answer true garbage op xs).2 c' := by
  have hlow : ∀ i : Int, (i < 1 → true = false) ↔ 1 ≤ i := fun i => by simp
  cases op with
  | listEmpty => exact ⟨s, c, congrArg (Option.map _) (empty_eq h), h⟩
  | listLength => exact ⟨s, c, congrArg (Option.map _) (Circular.listLength_eq h), h⟩
  | dispList => exact ⟨s, c, congrArg (Option.map _) (disp_eq h), h⟩
  | locateElem e => exact ⟨s, c, congrArg (Option.map _) (locate_eq h e), h⟩
  | getElem i =>
    refine ⟨s, c, ?_, h⟩
    simp [Circular.call, Circular.getElem_eq h, answer]
  | listInsert i e =>
    obtain ⟨s', c', hs', hh⟩ := Circular.listInsert_eq h i e
    refine ⟨s', c', ?_, ?_⟩
    · simp only [Circular.call, hs', Option.map_some, answer, hlow]
      split
      next hc => rw [decide_eq_true hc]
      next hc => rw [decide_eq_false hc]
    · simp only [answer, hlow]
      split
      next hc => rwa [if_pos hc] at hh
      next hc => rwa [if_neg hc] at hh
  | listDelete i =>
    obtain ⟨s', c', hs', hh⟩ := Circular.listDelete_eq h i
    refine ⟨s', c', ?_, ?_⟩
    · simp only [Circular.call, hs', Option.map_some, answer, hlow]
      split
      next => rfl
      next => rfl
    · simp only [answer, hlow]
      split
      next hc => rwa [if_pos hc] at hh
      next hc => rwa [if_neg hc] at hh

/-! ## Runs -/

/-- The head node alone. -/
theorem initial_holds (circular : Bool) (garbage : ElemType) {next : Nat}
    (hnext : next = if circular then 1 else 0) :
    Holds circular garbage ⟨1, Function.update (fun _ => none) 1 (some ⟨garbage, next⟩), 2⟩ []
      [(1, ⟨garbage, next⟩)] := by
  refine ⟨⟨⟨rfl, Nat.one_ne_zero, hnext⟩, fun n hn => ?_, by simp, fun a ha => ?_, fun a ha => ?_,
    Nat.two_pos, ?_, List.cons_ne_nil _ _⟩, rfl⟩
  · rw [List.mem_singleton.1 hn]
    rfl
  · by_contra hne
    have h1 : a ≠ 1 := by simpa using hne
    simp [Function.update_of_ne h1] at ha
  · rw [List.mem_singleton.1 ha]
    exact Nat.lt_succ_self 1
  · cases circular with
    | false => exact .inl rfl
    | true => exact .inr rfl

/-- What one call keeps, a run keeps. -/
theorem run_eq {call : Op → State → Option (Answer × State)}
    (hcall : ∀ s xs c op, Holds circular garbage s xs c → ∃ s' c',
      call op s = some ((answer circular garbage op xs).1, s') ∧
        Holds circular garbage s' (answer circular garbage op xs).2 c')
    (h : Holds circular garbage s xs c) (ops : List Op) : ∃ s' ys c',
      run call ops s = some (answers circular garbage ops xs, s') ∧ Holds circular garbage s' ys c' := by
  induction ops generalizing s xs c with
  | nil => exact ⟨s, xs, c, rfl, h⟩
  | cons op ops ih =>
    obtain ⟨s₁, c₁, h₁, hh₁⟩ := hcall s xs c op h
    obtain ⟨s₂, ys, c₂, h₂, hh₂⟩ := ih hh₁
    exact ⟨s₂, ys, c₂, by simp only [run, answers, h₁, h₂, Option.bind_eq_bind, Option.bind_some], hh₂⟩

/-- `DestroyList` frees every node. -/
theorem destroy_eq (h : Holds circular garbage s xs c) :
    (do
      let x ← s.nodes s.L
      destroyFrom (stopOf circular s) s.rounds s.L x.next s.nodes) =
      some (fun _ => none : Nat → Option LNode) := by
  have hnodup := h.1.nodup
  have honly := h.1.only
  obtain ⟨x, d, rfl, hx, hchain, hlt, -, -⟩ := h.head
  rw [hx, Option.bind_eq_bind, Option.bind_some]
  exact destroyFrom_eq hchain (by simp [hx]) hnodup honly hlt

/-- **Two lists.** Every sequence of calls is answered by both lists as by a list of elements, whatever is
in the head node, and the two agree where all positions are at least 1. Afterwards `DestroyList` frees all
nodes that have been allocated and not yet been freed, each of them once. -/
theorem lists_agree (garbage : ElemType) (ops : List Op) :
    (∃ s, run Single.call ops (Single.initList garbage) = some (answers false garbage ops [], s) ∧
      Single.destroyList s = some fun _ => none) ∧
    (∃ s, run Circular.call ops (Circular.initList garbage) = some (answers true garbage ops [], s) ∧
      Circular.destroyList s = some fun _ => none) ∧
    ((∀ op ∈ ops, op.Positive) → answers false garbage ops [] = answers true garbage ops []) := by
  refine ⟨?_, ?_, fun h => ?_⟩
  · obtain ⟨s, ys, c, hr, hh⟩ :=
      run_eq (fun _ _ _ op h => Single.call_eq h op) (initial_holds false garbage rfl) ops
    exact ⟨s, hr, destroy_eq hh⟩
  · obtain ⟨s, ys, c, hr, hh⟩ :=
      run_eq (fun _ _ _ op h => Circular.call_eq h op) (initial_holds true garbage rfl) ops
    exact ⟨s, hr, destroy_eq hh⟩
  · exact answers_agree h []

end LearningNotes.HeadList
