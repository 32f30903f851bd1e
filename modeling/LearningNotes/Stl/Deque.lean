import LearningNotes.Lib.Runs
import LearningNotes.Stl.DequeIterator
import Mathlib.Data.Int.Range

/-!
# `deque`

A `deque` that is made by `create_map_and_nodes` and changed at its front by `push_front` and
`pop_front`: in every run it holds what a list would hold, `operator[]` finds each element in its
buffer, and nothing is written or read outside of `map` (`deque_items`).

Mirroring notes:
- `mem` has the elements by their addresses, and `none` where none is constructed.
- `allocate_node` answers with a buffer. `reallocate_map` is only described in the source, and is a
  parameter that does what the description says (`Moves`).
- To write outside of `map` fails. `deallocate_node` leaves the pointer in `map`.
-/

namespace LearningNotes.Deque

variable {α : Type}

/-- The map, the nodes and the two iterators. -/
structure State (α : Type) where
  start : Iter
  finish : Iter
  map : Int → Option Int
  map_size : Int
  mem : Int → Option α

section Operations

variable (bs : Int) (reallocate_map : Int → Bool → State α → State α)

/-- `for (cur = nstart; cur <= nfinish; ++cur) *cur = allocate_node();` -/
def allocate_nodes (cur : Int) : List Int → (Int → Option Int) → Int → Option Int
  | [], map => map
  | b :: rest, map => allocate_nodes (cur + 1) rest (Function.update map cur (some b))

/-- `nodes` are the answers of `allocate_node`, one for each buffer. -/
def create_map_and_nodes (initial_map_size num_elements : Int) (nodes : List Int) :
    Option (State α) := do
  let num_nodes := num_elements / bs + 1
  let map_size := max initial_map_size (num_nodes + 2)
  let nstart := (map_size - num_nodes) / 2
  let nfinish := nstart + num_nodes - 1
  let map := allocate_nodes nstart nodes fun _ => none
  let start ← set_node bs map nstart ⟨0, 0, 0, 0⟩
  let finish ← set_node bs map nfinish ⟨0, 0, 0, 0⟩
  some
    { start := { start with cur := start.first }
      finish := { finish with cur := finish.first + num_elements % bs }
      map := map
      map_size := map_size
      mem := fun _ => none }

/-- `reserve_map_at_front` -/
def reserve_map_at_front (nodes_to_add : Int) (s : State α) : State α :=
  if nodes_to_add > s.start.node then reallocate_map nodes_to_add true s else s

/-- `push_front_aux`, with the node that `allocate_node` gives. -/
def push_front_aux (t : α) (b : Int) (s : State α) : Option (State α) := do
  let s := reserve_map_at_front reallocate_map 1 s
  let node := s.start.node - 1
  if 0 ≤ node ∧ node < s.map_size then
    let map := Function.update s.map node (some b)
    let start ← set_node bs map node s.start
    let start := { start with cur := start.last - 1 }
    some { s with start := start, map := map, mem := Function.update s.mem start.cur (some t) }
  else none

/-- `push_front` -/
def push_front (t : α) (b : Int) (s : State α) : Option (State α) :=
  if s.start.cur ≠ s.start.first then
    some { s with
      mem := Function.update s.mem (s.start.cur - 1) (some t)
      start := { s.start with cur := s.start.cur - 1 } }
  else push_front_aux bs reallocate_map t b s

/-- `pop_front_aux` -/
def pop_front_aux (s : State α) : Option (State α) := do
  let mem := Function.update s.mem s.start.cur none
  let start ← set_node bs s.map (s.start.node + 1) s.start
  some { s with mem := mem, start := { start with cur := start.first } }

/-- `pop_front` -/
def pop_front (s : State α) : Option (State α) :=
  if s.start.cur ≠ s.start.last - 1 then
    some { s with
      mem := Function.update s.mem s.start.cur none
      start := { s.start with cur := s.start.cur + 1 } }
  else pop_front_aux bs s

/-- `operator[]` -/
def item (n : Int) (s : State α) : Option (Option α) :=
  (plus bs s.map n s.start).map fun it => s.mem it.cur

end Operations

/-- What `reallocate_map` is said to do: the nodes that are in use are moved, so that there is room at
the front. -/
def Moves (nodes_to_add : Int) (s s' : State α) : Prop :=
  ∃ k, s'.start = { s.start with node := s.start.node + k } ∧
    s'.finish = { s.finish with node := s.finish.node + k } ∧ s'.mem = s.mem ∧
    (∀ i, s.start.node ≤ i → i ≤ s.finish.node → s'.map (i + k) = s.map i) ∧
    nodes_to_add ≤ s'.start.node ∧ s'.finish.node < s'.map_size

/-- The buffers of the nodes from `lo` to `hi` have no address in common. -/
def Separate (bs : Int) (map : Int → Option Int) (lo hi : Int) : Prop :=
  ∀ i j b c, lo ≤ i → i < j → j ≤ hi → map i = some b → map j = some c → b + bs ≤ c ∨ c + bs ≤ b

/-- `p` is the position of `start`, and from there on the elements are `items`. -/
structure Holds (bs : Int) (s : State α) (p : Int) (items : List (Option α)) : Prop where
  start : iterAt bs s.map p = some s.start
  finish : iterAt bs s.map (p + items.length) = some s.finish
  front : 0 ≤ s.start.node
  back : s.finish.node < s.map_size
  nodes : ∀ i, s.start.node ≤ i → i ≤ s.finish.node → (s.map i).isSome
  separate : Separate bs s.map s.start.node s.finish.node
  item : ∀ k (hk : k < items.length) it, iterAt bs s.map (p + k) = some it → s.mem it.cur = items[k]

variable {bs : Int} {reallocate_map : Int → Bool → State α → State α} {s s' : State α} {p q k : Int}
  {items : List (Option α)} {map map' : Int → Option Int} {it x : Iter} {lo hi b : Int} {t : α}

/-- An iterator needs its own node only. -/
theorem iterAt_congr (h : map' (p / bs) = map (p / bs)) : iterAt bs map' p = iterAt bs map p := by
  simp only [iterAt, h]

/-- A later position is in a later node, or in the same. -/
theorem node_le (hbs : 0 < bs) (h : iterAt bs map p = some it) (hx : iterAt bs map' q = some x)
    (hpq : p ≤ q) : it.node ≤ x.node := by
  rw [(iterAt_eq_some.1 h).2.2.2, (iterAt_eq_some.1 hx).2.2.2]
  exact Int.ediv_le_ediv hbs hpq

/-- Different positions have different addresses. -/
theorem Separate.cur_ne (hbs : 0 < bs) (h : Separate bs map lo hi) (hp : iterAt bs map p = some it)
    (hq : iterAt bs map q = some x) (hlt : p < q) (hlo : lo ≤ it.node) (hhi : x.node ≤ hi) :
    it.cur ≠ x.cur := by
  have hle := node_le hbs hp hq (by omega)
  obtain ⟨hmap, hcur, -, hnode⟩ := iterAt_eq_some.1 hp
  obtain ⟨hxmap, hxcur, -, hxnode⟩ := iterAt_eq_some.1 hq
  have hp₀ := Int.emod_nonneg p (by omega : bs ≠ 0)
  have hq₀ := Int.emod_nonneg q (by omega : bs ≠ 0)
  have hp₁ := Int.emod_lt_of_pos p hbs
  have hq₁ := Int.emod_lt_of_pos q hbs
  rw [← hnode] at hmap
  rw [← hxnode] at hxmap
  by_cases heq : it.node = x.node
  · -- one buffer, and different places
    rw [heq, hxmap] at hmap
    have hfirst := Option.some.inj hmap
    have hp₂ := Int.mul_ediv_add_emod p bs
    have hq₂ := Int.mul_ediv_add_emod q bs
    rw [← hnode, heq] at hp₂
    rw [← hxnode] at hq₂
    omega
  · have := h _ _ _ _ hlo (by omega) hhi hmap hxmap
    omega

/-- The positions of the elements are in the nodes between `start` and `finish`. -/
theorem Holds.node_mem (h : Holds bs s p items) (hbs : 0 < bs) (hq : iterAt bs map q = some it)
    (hp : p ≤ q) (hlt : q ≤ p + items.length) : s.start.node ≤ it.node ∧ it.node ≤ s.finish.node :=
  ⟨node_le hbs h.start hq hp, node_le hbs hq h.finish hlt⟩

/-- An element in front. -/
theorem Holds.cons (h : Holds bs s p items) (hbs : 0 < bs)
    (hfinish : s'.finish = s.finish) (hsize : s'.map_size = s.map_size)
    (hstart : iterAt bs s'.map (p - 1) = some s'.start) (hfront : 0 ≤ s'.start.node)
    (hmap : ∀ i, s.start.node ≤ i → i ≤ s.finish.node → s'.map i = s.map i)
    (hnodes : ∀ i, s'.start.node ≤ i → i < s.start.node → (s'.map i).isSome)
    (hsep : Separate bs s'.map s'.start.node s'.finish.node)
    (hmem : s'.mem = Function.update s.mem s'.start.cur (some t)) :
    Holds bs s' (p - 1) (some t :: items) := by
  have hsame : ∀ q, p ≤ q → q ≤ p + items.length → iterAt bs s'.map q = iterAt bs s.map q := by
    intro q hq hlt
    refine iterAt_congr (hmap _ ?_ ?_)
    · rw [(iterAt_eq_some.1 h.start).2.2.2]
      exact Int.ediv_le_ediv hbs hq
    · rw [(iterAt_eq_some.1 h.finish).2.2.2]
      exact Int.ediv_le_ediv hbs hlt
  refine ⟨hstart, ?_, hfront, ?_, fun i hi hle => ?_, hsep, fun k hk it hit => ?_⟩
  · rw [List.length_cons, hfinish, ← h.finish, ← hsame _ (by omega) (Int.le_refl _)]
    congr 1
    push_cast
    ring
  · rw [hfinish, hsize]
    exact h.back
  · by_cases hlt : i < s.start.node
    · exact hnodes i hi hlt
    · rw [hfinish] at hle
      rw [hmap i (by omega) hle]
      exact h.nodes i (by omega) hle
  · cases k with
    | zero =>
      have hcur : it = s'.start := by
        rw [Nat.cast_zero, Int.add_zero, hstart] at hit
        exact (Option.some.inj hit).symm
      rw [hmem, hcur, Function.update_self]
      rfl
    | succ k =>
      rw [List.length_cons] at hk
      rw [show p - 1 + ((k + 1 : Nat) : Int) = p + k by push_cast; ring] at hit
      have hne : it.cur ≠ s'.start.cur :=
        (hsep.cur_ne hbs hstart hit (by omega) (Int.le_refl _) (by
          rw [hfinish]
          exact node_le hbs hit h.finish (by omega))).symm
      rw [hsame _ (by omega) (by omega)] at hit
      rw [hmem, Function.update_of_ne hne]
      exact h.item k (by omega) it hit

/-- The element in front is taken away. -/
theorem Holds.tail {a : Option α} (h : Holds bs s p (a :: items)) (hbs : 0 < bs)
    (hstart : iterAt bs s.map (p + 1) = some it) :
    Holds bs { s with mem := Function.update s.mem s.start.cur none, start := it } (p + 1) items := by
  have hlen : p + ((a :: items).length : Int) = p + 1 + items.length := by
    rw [List.length_cons]
    push_cast
    ring
  have hle := node_le hbs h.start hstart (by omega)
  refine ⟨hstart, ?_, ?_, h.back, fun i hi => h.nodes i (Int.le_trans hle hi),
    fun i j b c hi => h.separate i j b c (Int.le_trans hle hi), fun k hk x hx => ?_⟩
  · rw [← hlen]
    exact h.finish
  · exact Int.le_trans h.front hle
  · have hx' : iterAt bs s.map (p + ((k + 1 : Nat) : Int)) = some x := by
      rw [← hx]
      congr 1
      push_cast
      ring
    have hne : x.cur ≠ s.start.cur :=
      (h.separate.cur_ne hbs h.start hx (by omega) (Int.le_refl _)
        (h.node_mem hbs hx (by omega) (by omega)).2).symm
    dsimp only
    rw [Function.update_of_ne hne]
    exact h.item (k + 1) (by rw [List.length_cons]; omega) x hx'

/-- Moved nodes hold the same elements. -/
theorem Holds.move (h : Holds bs s p items) (hbs : 0 < bs) (hm : Moves k s s') (hk : 0 ≤ k) :
    ∃ p', Holds bs s' p' items ∧ p' % bs = p % bs ∧ k ≤ s'.start.node := by
  obtain ⟨k', hstart, hfinish, hmem, hmap, hroom, hback⟩ := hm
  have hshift : ∀ q, (q + k' * bs) / bs = q / bs + k' ∧ (q + k' * bs) % bs = q % bs := by
    intro q
    have hq := Int.mul_ediv_add_emod q bs
    refine div_mod_of ?_ (Int.emod_nonneg q (by omega)) (Int.emod_lt_of_pos q hbs)
    linarith [Int.mul_comm bs (q / bs)]
  have hat : ∀ q, p ≤ q → q ≤ p + items.length → iterAt bs s'.map (q + k' * bs) =
      (iterAt bs s.map q).map fun it => { it with node := it.node + k' } := by
    intro q hq hlt
    obtain ⟨hdiv, hmod⟩ := hshift q
    have hnode := hmap (q / bs) (by
      rw [(iterAt_eq_some.1 h.start).2.2.2]
      exact Int.ediv_le_ediv hbs hq) (by
      rw [(iterAt_eq_some.1 h.finish).2.2.2]
      exact Int.ediv_le_ediv hbs hlt)
    simp only [iterAt, hdiv, hmod, hnode, Option.map_map]
    rfl
  have hnodes : s'.start.node = s.start.node + k' ∧ s'.finish.node = s.finish.node + k' := by
    rw [hstart, hfinish]
    exact ⟨rfl, rfl⟩
  have hold : ∀ i, s'.start.node ≤ i → i ≤ s'.finish.node → s'.map i = s.map (i - k') := by
    intro i hi hle
    rw [← hmap (i - k') (by omega) (by omega), Int.sub_add_cancel]
  refine ⟨p + k' * bs, ⟨?_, ?_, by omega, hback, fun i hi hle => ?_,
    fun i j b c hi hij hj hb hc => ?_, fun j hj it hit => ?_⟩, (hshift p).2, hroom⟩
  · rw [hat p (Int.le_refl _) (by omega), h.start, hstart]
    rfl
  · rw [show p + k' * bs + (items.length : Int) = p + items.length + k' * bs by ring,
      hat _ (by omega) (Int.le_refl _), h.finish, hfinish]
    rfl
  · rw [hold i hi hle]
    exact h.nodes _ (by omega) (by omega)
  · rw [hold i hi (by omega)] at hb
    rw [hold j (by omega) hj] at hc
    exact h.separate (i - k') (j - k') b c (by omega) (by omega) (by omega) hb hc
  · rw [show p + k' * bs + (j : Int) = p + j + k' * bs by ring, hat _ (by omega) (by omega)] at hit
    obtain ⟨x, hx, rfl⟩ := Option.map_eq_some_iff.1 hit
    rw [hmem]
    exact h.item j hj x hx

/-! ## The operations -/

/-- Outside of the buffers that are in use. -/
def Unused (bs : Int) (s : State α) (b : Int) : Prop :=
  ∀ i c, s.start.node ≤ i → i ≤ s.finish.node → s.map i = some c → b + bs ≤ c ∨ c + bs ≤ b

instance : Decidable (Unused bs s b) :=
  decidable_of_iff (∀ i, s.start.node ≤ i → i ≤ s.finish.node → ∀ c ∈ s.map i,
      b + bs ≤ c ∨ c + bs ≤ b)
    (forall_congr' fun _ => ⟨fun h c hi hj => h hi hj c, fun h hi hj c => h c hi hj⟩)

/-- The nodes that `reallocate_map` is called for are in `map`. -/
def InMap (s : State α) : Prop :=
  0 ≤ s.start.node ∧ s.start.node ≤ s.finish.node ∧ s.finish.node < s.map_size

/-- The nodes in use are in the map. -/
theorem Holds.inMap (h : Holds bs s p items) (hbs : 0 < bs) : InMap s :=
  ⟨h.front, node_le hbs h.start h.finish (by omega), h.back⟩

/-- A node that is not in use stays so. -/
theorem Moves.unused (hm : Moves k s s') (h : Unused bs s b) : Unused bs s' b := by
  obtain ⟨k', hstart, hfinish, -, hmap, -, -⟩ := hm
  have hnodes : s'.start.node = s.start.node + k' ∧ s'.finish.node = s.finish.node + k' := by
    rw [hstart, hfinish]
    exact ⟨rfl, rfl⟩
  intro i c hi hle hc
  rw [← Int.sub_add_cancel i k', hmap (i - k') (by omega) (by omega)] at hc
  exact h (i - k') c (by omega) (by omega) hc

/-- A new buffer in front. -/
theorem Holds.push_front_aux (h : Holds bs s p items) (hbs : 0 < bs)
    (hrealloc : ∀ k s, InMap s → Moves k s (reallocate_map k true s)) (hb : Unused bs s b)
    (hp : s.start.cur = s.start.first) :
    ∃ s' p', push_front_aux bs reallocate_map t b s = some s' ∧ Holds bs s' p' (some t :: items) := by
  obtain ⟨p₁, h₁, hmod, hroom, hb₁⟩ : ∃ p₁, Holds bs (reserve_map_at_front reallocate_map 1 s) p₁ items ∧
      p₁ % bs = p % bs ∧ 1 ≤ (reserve_map_at_front reallocate_map 1 s).start.node ∧
      Unused bs (reserve_map_at_front reallocate_map 1 s) b := by
    unfold reserve_map_at_front
    split
    next =>
      have hm := hrealloc 1 s (h.inMap hbs)
      obtain ⟨p', hp', hmod, hroom⟩ := h.move hbs hm (by omega)
      exact ⟨p', hp', hmod, hroom, hm.unused hb⟩
    next hge => exact ⟨p, h, rfl, by omega, hb⟩
  unfold Deque.push_front_aux
  generalize reserve_map_at_front reallocate_map 1 s = r at h₁ hroom hb₁
  have hzero : p % bs = 0 := by
    have := (iterAt_eq_some.1 h.start).2.1
    omega
  rw [hzero] at hmod
  have hle := (h₁.inMap hbs).2.1
  have hback := h₁.back
  have hp₁ := Int.mul_ediv_add_emod p₁ bs
  have hnode := (iterAt_eq_some.1 h₁.start).2.2.2
  obtain ⟨hdiv, hmod'⟩ : (p₁ - 1) / bs = r.start.node - 1 ∧ (p₁ - 1) % bs = bs - 1 := by
    refine div_mod_of ?_ (by omega) (by omega)
    rw [hnode]
    linarith [Int.mul_comm bs (p₁ / bs)]
  have hother : ∀ i, r.start.node ≤ i → Function.update r.map (r.start.node - 1) (some b) i = r.map i :=
    fun i hi => Function.update_of_ne (by omega) ..
  refine ⟨{ r with
      start := ⟨b + bs - 1, b, b + bs, r.start.node - 1⟩
      map := Function.update r.map (r.start.node - 1) (some b)
      mem := Function.update r.mem (b + bs - 1) (some t) }, p₁ - 1, ?_, ?_⟩
  · dsimp only
    rw [if_pos ⟨by omega, by omega⟩]
    simp [set_node]
  · refine h₁.cons hbs rfl rfl ?_ ?_ ?_ ?_ ?_ rfl
    · rw [iterAt_eq_some]
      dsimp only
      rw [hdiv, hmod', Function.update_self]
      exact ⟨rfl, by omega, rfl, rfl⟩
    · dsimp only
      omega
    · intro i hi _
      exact hother i hi
    · intro i hi hlt
      dsimp only at hi ⊢
      rw [show i = r.start.node - 1 by omega, Function.update_self]
      rfl
    · intro i j c d hi hij hj hc hd
      dsimp only at hi hj hc hd
      rw [hother j (by omega)] at hd
      by_cases hin : i = r.start.node - 1
      · rw [hin, Function.update_self] at hc
        cases hc
        exact hb₁ j d (by omega) hj hd
      · rw [hother i (by omega)] at hc
        exact h₁.separate i j c d (by omega) hij hj hc hd

/-- `push_front` puts the element in front. -/
theorem Holds.push_front (h : Holds bs s p items) (hbs : 0 < bs)
    (hrealloc : ∀ k s, InMap s → Moves k s (reallocate_map k true s)) (hb : Unused bs s b) :
    ∃ s' p', push_front bs reallocate_map t b s = some s' ∧ Holds bs s' p' (some t :: items) := by
  unfold Deque.push_front
  split
  next hin =>
    have hcur := (iterAt_eq_some.1 h.start).2.1
    have hlt := Int.emod_lt_of_pos p hbs
    have hpos := Int.emod_nonneg p (by omega : bs ≠ 0)
    refine ⟨_, p - 1, rfl, h.cons hbs rfl rfl ?_ h.front (fun _ _ _ => rfl) ?_ h.separate rfl⟩
    · exact same_buffer h.start (k := -1) (by omega) (by omega)
    · intro i hi hlt
      dsimp only at hi
      omega
  next hedge => exact h.push_front_aux hbs hrealloc hb (not_not.1 hedge)

/-- `pop_front` takes the first element away. -/
theorem Holds.pop_front {a : Option α} (h : Holds bs s p (a :: items)) (hbs : 0 < bs) :
    ∃ s', pop_front bs s = some s' ∧ Holds bs s' (p + 1) items := by
  obtain ⟨-, hcur, hlast, hnode⟩ := iterAt_eq_some.1 h.start
  have hlt := Int.emod_lt_of_pos p hbs
  have hpos := Int.emod_nonneg p (by omega : bs ≠ 0)
  have hp := Int.mul_ediv_add_emod p bs
  unfold Deque.pop_front
  split
  next hin =>
    exact ⟨_, rfl, h.tail hbs (same_buffer h.start (k := 1) (by omega) (by omega))⟩
  next hedge =>
    -- the end of the buffer is not the end of the elements
    have hmod : p % bs = bs - 1 := by omega
    have hend : p + 1 = (s.start.node + 1) * bs + 0 := by
      rw [hnode]
      linarith [Int.mul_comm bs (p / bs)]
    have hat : (set_node bs s.map (s.start.node + 1) s.start).map
        (fun it => { it with cur := it.first }) = iterAt bs s.map (p + 1) :=
      set_node_at hend (Int.le_refl 0) hbs s.start fun it _ => by rw [Int.add_zero]
    have hfin : s.start.node + 1 ≤ s.finish.node := by
      rw [← (div_mod_of hend (Int.le_refl 0) hbs).1, (iterAt_eq_some.1 h.finish).2.2.2]
      refine Int.ediv_le_ediv hbs ?_
      rw [List.length_cons]
      omega
    obtain ⟨c, hc⟩ := Option.isSome_iff_exists.1 (h.nodes (s.start.node + 1) (by omega) hfin)
    simp only [set_node, hc, Option.map_some] at hat
    unfold pop_front_aux
    simp only [set_node, hc, Option.map_some, Option.bind_eq_bind, Option.bind_some]
    exact ⟨_, rfl, h.tail hbs hat.symm⟩

/-- The nodes come into the map in their order. -/
theorem allocate_nodes_eq (cur : Int) (l : List Int) (map : Int → Option Int) (i : Int) :
    allocate_nodes cur l map i =
      if cur ≤ i ∧ i < cur + l.length then l[(i - cur).toNat]? else map i := by
  induction l generalizing cur map with
  | nil => rw [if_neg (by simp), allocate_nodes]
  | cons b rest ih =>
    rw [allocate_nodes, ih, List.length_cons]
    by_cases hi : i = cur
    · subst hi
      rw [if_neg (by omega), if_pos (by omega), Function.update_self]
      simp
    · rw [Function.update_of_ne hi]
      by_cases hin : cur + 1 ≤ i ∧ i < cur + 1 + rest.length
      · rw [if_pos hin, if_pos (by omega), show (i - cur).toNat = (i - (cur + 1)).toNat + 1 by omega,
          List.getElem?_cons_succ]
      · rw [if_neg hin, if_neg (by omega)]

/-- `create_map_and_nodes` leaves room for `n` elements. -/
theorem create_holds (hbs : 0 < bs) {n : Nat} {initial_map_size : Int} {nodes : List Int}
    (hlen : (nodes.length : Int) = n / bs + 1)
    (hsep : nodes.Pairwise fun b c => b + bs ≤ c ∨ c + bs ≤ b) :
    ∃ (s : State α) (p : Int), create_map_and_nodes bs initial_map_size n nodes = some s ∧
      Holds bs s p (List.replicate n none) := by
  have hn := Int.mul_ediv_add_emod n bs
  have hmod := Int.emod_nonneg n (by omega : bs ≠ 0)
  have hlt := Int.emod_lt_of_pos n hbs
  have hnn : (0 : Int) ≤ n / bs := Int.ediv_nonneg (by omega) (by omega)
  unfold create_map_and_nodes
  dsimp only
  generalize hms : max initial_map_size ((n : Int) / bs + 1 + 2) = map_size
  have hge : (n : Int) / bs + 3 ≤ map_size := by omega
  generalize hns : (map_size - ((n : Int) / bs + 1)) / 2 = nstart
  have hmap : ∀ i, nstart ≤ i → i ≤ nstart + n / bs →
      allocate_nodes nstart nodes (fun _ => none) i = nodes[(i - nstart).toNat]? := by
    intro i hi hle
    rw [allocate_nodes_eq, if_pos (by omega)]
  have hsome : ∀ i, nstart ≤ i → i ≤ nstart + n / bs →
      (allocate_nodes nstart nodes (fun _ => none) i).isSome := by
    intro i hi hle
    rw [hmap i hi hle]
    simp
    omega
  obtain ⟨b, hb⟩ := Option.isSome_iff_exists.1 (hsome nstart (Int.le_refl _) (by omega))
  obtain ⟨c, hc⟩ := Option.isSome_iff_exists.1 (hsome (nstart + n / bs) (by omega) (Int.le_refl _))
  have hlast : nstart + ((n : Int) / bs + 1) - 1 = nstart + n / bs := by omega
  simp only [set_node, hlast, hb, hc, Option.map_some, Option.bind_eq_bind, Option.bind_some]
  obtain ⟨hs₁, hs₂⟩ := div_mod_of (p := nstart * bs) (by ring) (Int.le_refl 0) hbs
  obtain ⟨hf₁, hf₂⟩ := div_mod_of (p := nstart * bs + n) (k := nstart + n / bs) (r := n % bs)
    (by linarith [Int.mul_comm bs ((n : Int) / bs)]) hmod hlt
  refine ⟨_, nstart * bs, rfl, ?_, ?_, ?_, ?_, hsome, ?_, fun k hk it _ => ?_⟩
  · rw [iterAt_eq_some, hs₁, hs₂]
    exact ⟨hb, (Int.add_zero b).symm, rfl, rfl⟩
  · rw [List.length_replicate, iterAt_eq_some, hf₁, hf₂]
    exact ⟨hc, rfl, rfl, rfl⟩
  · dsimp only
    omega
  · dsimp only
    omega
  · intro i j x y hi hij hj hx hy
    dsimp only at hi hj hx hy
    rw [hmap i hi (by omega)] at hx
    rw [hmap j (by omega) hj] at hy
    obtain ⟨hi', rfl⟩ := List.getElem?_eq_some_iff.1 hx
    obtain ⟨hj', rfl⟩ := List.getElem?_eq_some_iff.1 hy
    exact List.pairwise_iff_getElem.1 hsep _ _ hi' hj' (by omega)
  · rw [List.getElem_replicate]

/-! ## Runs -/

/-- The answer of `allocate_node` comes with the call. -/
inductive Act (α : Type) where
  | push_front (t : α) (b : Int)
  | pop_front

/-- The operation on the `deque`, and on a list. -/
def act (bs : Int) (reallocate_map : Int → Bool → State α → State α) :
    Act α → State α × List (Option α) → Option (State α × List (Option α))
  | .push_front t b, (s, items) =>
    (push_front bs reallocate_map t b s).map fun s' => (s', some t :: items)
  | .pop_front, (s, items) => (pop_front bs s).map fun s' => (s', items.tail)

/-- A new buffer is new memory, and nothing is taken from an empty `deque`. -/
def Legal (bs : Int) : Act α → State α × List (Option α) → Prop
  | .push_front _ b, (s, _) => Unused bs s b
  | .pop_front, (_, items) => items ≠ []

instance (a : Act α) (x : State α × List (Option α)) : Decidable (Legal bs a x) :=
  match a with
  | .push_front _ b => inferInstanceAs (Decidable (Unused bs x.1 b))
  | .pop_front => inferInstanceAs (Decidable (x.2 ≠ []))

/-- Any call keeps the deque. -/
theorem Holds.act (h : Holds bs s p items) (hbs : 0 < bs)
    (hrealloc : ∀ k s, InMap s → Moves k s (reallocate_map k true s)) {a : Act α}
    (hc : Legal bs a (s, items)) :
    ∃ s' items' p', act bs reallocate_map a (s, items) = some (s', items') ∧
      Holds bs s' p' items' := by
  cases a with
  | push_front t b =>
    obtain ⟨s', p', hs, hh⟩ := h.push_front (t := t) hbs hrealloc hc
    exact ⟨s', _, p', by rw [Deque.act, hs]; rfl, hh⟩
  | pop_front =>
    cases items with
    | nil => exact absurd rfl hc
    | cons a items =>
      obtain ⟨s', hs, hh⟩ := h.pop_front hbs
      exact ⟨s', _, p + 1, by rw [Deque.act, hs]; rfl, hh⟩

/-- What is seen of the elements from outside. -/
theorem Holds.observe (h : Holds bs s p items) (hbs : 0 < bs) :
    difference bs s.finish s.start = items.length ∧
      ∀ k (hk : k < items.length), Deque.item bs k s = some items[k] := by
  refine ⟨?_, fun k hk => ?_⟩
  · rw [difference_eq h.finish h.start]
    omega
  · have hp : s.start.node ≤ (p + k) / bs := by
      rw [(iterAt_eq_some.1 h.start).2.2.2]
      exact Int.ediv_le_ediv hbs (by omega)
    have hq : (p + k) / bs ≤ s.finish.node := by
      rw [(iterAt_eq_some.1 h.finish).2.2.2]
      exact Int.ediv_le_ediv hbs (by omega)
    obtain ⟨b, hb⟩ := Option.isSome_iff_exists.1 (h.nodes _ hp hq)
    have hit : iterAt bs s.map (p + k) = some ⟨b + (p + k) % bs, b, b + bs, (p + k) / bs⟩ :=
      iterAt_eq_some.2 ⟨hb, rfl, rfl, rfl⟩
    rw [Deque.item, plus_eq hbs h.start, hit, Option.map_some, h.item k hk _ hit]

/-- **A `deque` holds a list.** A `deque` of `n` elements is made in the middle of its map. In every
run from there `finish - start` is the number of elements, `operator[]` finds each of them, and no
operation fails. -/
theorem deque_items (hbs : 0 < bs) {n : Nat} {initial_map_size : Int} {nodes : List Int}
    (hlen : (nodes.length : Int) = n / bs + 1)
    (hsep : nodes.Pairwise fun b c => b + bs ≤ c ∨ c + bs ≤ b)
    (hrealloc : ∀ k s, InMap s → Moves k s (reallocate_map k true s)) :
    ∃ s₀ : State α, create_map_and_nodes bs initial_map_size n nodes = some s₀ ∧
      ∀ s items, Run (act bs reallocate_map) (s₀, List.replicate n none) (Legal bs) (s, items) →
        difference bs s.finish s.start = items.length ∧
        (∀ k (hk : k < items.length), item bs k s = some items[k]) ∧
        ∀ a, Legal bs a (s, items) → (act bs reallocate_map a (s, items)).isSome := by
  obtain ⟨s₀, p, hs₀, hinit⟩ : ∃ (s : State α) (p : Int),
      create_map_and_nodes bs initial_map_size n nodes = some s ∧
        Holds bs s p (List.replicate n none) := create_holds hbs hlen hsep
  refine ⟨s₀, hs₀, fun s items hrun => ?_⟩
  obtain ⟨q, hq⟩ : ∃ q, Holds bs s q items := by
    refine hrun.inv (I := fun x => ∃ q, Holds bs x.1 q x.2) ⟨p, hinit⟩ fun a x x' _ hc hs hx => ?_
    obtain ⟨q, hq⟩ := hx
    obtain ⟨s', items', p', hact, hh⟩ := hq.act hbs hrealloc hc
    rw [hs] at hact
    cases hact
    exact ⟨p', hh⟩
  obtain ⟨hsize, hitem⟩ := hq.observe hbs
  refine ⟨hsize, hitem, fun a hc => ?_⟩
  obtain ⟨s', items', p', hact, -⟩ := hq.act hbs hrealloc hc
  rw [hact]
  rfl

/-- Buffers of one element: 7 is pushed, then 8, for which the map has to be moved; 8 is popped, and 9
is pushed. -/
theorem deque_items_two : ∃ (s : State Nat) (items : List (Option Nat)), items = [some 9, some 7] ∧
    s.map_size = 8 ∧ difference 1 s.finish s.start = 2 ∧ item 1 0 s = some (some 9) ∧
      item 1 1 s = some (some 7) := by
  -- a map that is large enough, with the nodes in its middle
  let size : Int → State Nat → Int := fun k s => s.map_size + max s.map_size k + 2
  let shift : Int → State Nat → Int := fun k s =>
    (size k s - (s.finish.node - s.start.node + 1 + k)) / 2 + k - s.start.node
  let move : Int → Bool → State Nat → State Nat := fun k _ s =>
    { s with
      start := { s.start with node := s.start.node + shift k s }
      finish := { s.finish with node := s.finish.node + shift k s }
      map := fun i => s.map (i - shift k s)
      map_size := size k s }
  have hmove : ∀ k s, InMap s → Moves k s (move k true s) := by
    intro k s hs
    obtain ⟨h₁, h₂, h₃⟩ := hs
    refine ⟨shift k s, rfl, rfl, rfl, fun i _ _ => ?_, ?_, ?_⟩
    · simp only [move, Int.add_sub_cancel]
    · simp only [move, shift, size]
      omega
    · simp only [move, shift, size]
      omega
  obtain ⟨s₀, hs₀, hrun⟩ :=
    @deque_items Nat 1 move (by decide) 0 0 [10] (by decide) (by simp) hmove
  have hcheck : (performIf (act 1 move) (fun a x => decide (Legal 1 a x))
      [.push_front 7 20, .push_front 8 30, .pop_front, .push_front 9 40] (s₀, [])).any (fun x =>
        x.2 = [some 9, some 7] ∧ x.1.map_size = 8) = true := by
    obtain rfl : s₀ = (create_map_and_nodes 1 0 0 [10]).get rfl := (Option.some.inj hs₀).symm
    decide +kernel
  obtain ⟨⟨s, items⟩, hs, hend⟩ := (Option.any_eq_true _ _).1 hcheck
  obtain ⟨rfl, hsize⟩ := of_decide_eq_true hend
  obtain ⟨hdiff, hitem, -⟩ := hrun s _ (Run.of_performIf (fun _ _ => of_decide_eq_true) hs)
  exact ⟨s, _, rfl, hsize, hdiff, hitem 0 (by decide), hitem 1 (by decide)⟩

end LearningNotes.Deque
