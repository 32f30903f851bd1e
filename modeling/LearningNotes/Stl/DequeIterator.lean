import Mathlib.Algebra.Order.Group.Int
import Mathlib.Tactic.Linarith
import Mathlib.Tactic.Ring

/-!
# Iterators of `deque`

The elements of a `deque` are in buffers of `buffer_size` elements, and `map` points to the buffers.
An iterator has a pointer to its element, the ends of the buffer and the place of the buffer in
`map`. To its users it is a position: `iterAt` is the iterator of a position, and the operators do on
iterators what they do on integers, also across buffers (`iterator_arithmetic`).

Mirroring notes:
- A pointer to an element is an integer in units of `T`, and `node` counts from the begin of `map`.
- To read an entry of `map` that is not set gives `none`.
- `operator+=` divides by `buffer_size()` as an unsigned number; what it divides is not negative.
-/

namespace LearningNotes.Deque

structure Iter where
  cur : Int
  first : Int
  last : Int
  node : Int
  deriving DecidableEq, Repr

section Operators

variable (buffer_size : Int) (map : Int → Option Int)

def set_node (new_node : Int) (it : Iter) : Option Iter :=
  (map new_node).map fun first =>
    { it with
      node := new_node
      first := first
      last := first + buffer_size }

/-- `operator++` -/
def increment (it : Iter) : Option Iter :=
  if it.cur + 1 = it.last then
    (set_node buffer_size map (it.node + 1) it).map fun it => { it with cur := it.first }
  else some { it with cur := it.cur + 1 }

/-- `operator--` -/
def decrement (it : Iter) : Option Iter :=
  if it.cur = it.first then
    (set_node buffer_size map (it.node - 1) it).map fun it => { it with cur := it.last - 1 }
  else some { it with cur := it.cur - 1 }

/-- `operator-` of two iterators -/
def difference (it x : Iter) : Int :=
  buffer_size * (it.node - x.node - 1) + (it.cur - it.first) + (x.last - x.cur)

/-- `operator+=` -/
def plus (n : Int) (it : Iter) : Option Iter :=
  let offset := n + (it.cur - it.first)
  if 0 ≤ offset ∧ offset < buffer_size then some { it with cur := it.cur + n }
  else
    let node_offset :=
      if offset > 0 then offset / buffer_size else -((-offset - 1) / buffer_size) - 1
    (set_node buffer_size map (it.node + node_offset) it).map fun it =>
      { it with cur := it.first + (offset - node_offset * buffer_size) }

/-- `operator-=` -/
def minus (n : Int) (it : Iter) : Option Iter := plus buffer_size map (-n) it

/-! ## Positions -/

/-- The iterator at a position. -/
def iterAt (p : Int) : Option Iter :=
  (map (p / buffer_size)).map fun first =>
    { cur := first + p % buffer_size
      first := first
      last := first + buffer_size
      node := p / buffer_size }

end Operators

variable {bs : Int} {map map' : Int → Option Int} {it x : Iter} {p q n : Int}

theorem iterAt_eq_some : iterAt bs map p = some it ↔
    map (p / bs) = some it.first ∧ it.cur = it.first + p % bs ∧ it.last = it.first + bs ∧
      it.node = p / bs := by
  cases it
  simp only [iterAt, Option.map_eq_some_iff, Iter.mk.injEq]
  constructor
  · rintro ⟨b, hb, rfl, rfl, rfl, rfl⟩
    exact ⟨hb, rfl, rfl, rfl⟩
  · rintro ⟨hb, rfl, rfl, rfl⟩
    exact ⟨_, hb, rfl, rfl, rfl, rfl⟩

/-- The place of a position, from any buffer and a place there. -/
theorem div_mod_of {k r : Int} (h : p = k * bs + r) (h0 : 0 ≤ r) (hr : r < bs) :
    p / bs = k ∧ p % bs = r := by
  rw [Int.ediv_emod_unique (by omega)]
  refine ⟨?_, h0, hr⟩
  rw [h]
  ring

/-- `set_node`, and then `cur` is set to a place in the new buffer. -/
theorem set_node_at {k r : Int} {f : Iter → Iter} (h : p = k * bs + r) (h0 : 0 ≤ r) (hr : r < bs)
    (it : Iter) (hf : ∀ it, it.last = it.first + bs → f it = { it with cur := it.first + r }) :
    (set_node bs map k it).map f = iterAt bs map p := by
  obtain ⟨hdiv, hmod⟩ := div_mod_of h h0 hr
  simp only [set_node, iterAt, Option.map_map, hdiv, hmod]
  congr 1
  funext first
  exact hf _ rfl

/-- A place in the same buffer. -/
theorem same_buffer {k : Int} (h : iterAt bs map p = some it) (h0 : 0 ≤ k + p % bs)
    (hk : k + p % bs < bs) : iterAt bs map (p + k) = some { it with cur := it.cur + k } := by
  obtain ⟨hmap, hcur, hlast, hnode⟩ := iterAt_eq_some.1 h
  have heq : p + k = p / bs * bs + (k + p % bs) := by
    have hdiv := Int.mul_ediv_add_emod p bs
    linarith [Int.mul_comm bs (p / bs)]
  obtain ⟨hdiv, hmod⟩ := div_mod_of heq h0 hk
  rw [iterAt_eq_some, hdiv, hmod]
  exact ⟨hmap, by dsimp only; omega, hlast, hnode⟩

theorem plus_eq (hbs : 0 < bs) (h : iterAt bs map p = some it) :
    plus bs map n it = iterAt bs map (p + n) := by
  obtain ⟨hmap, hcur, hlast, hnode⟩ := iterAt_eq_some.1 h
  have hoff : n + (it.cur - it.first) = n + p % bs := by omega
  unfold plus
  rw [hoff]
  dsimp only
  split
  next hin => exact (same_buffer h hin.1 hin.2).symm
  next hout =>
    -- in both directions it is the floor of the quotient
    have hfloor : (if n + p % bs > 0 then (n + p % bs) / bs
        else -((-(n + p % bs) - 1) / bs) - 1) = (n + p % bs) / bs := by
      split
      next => rfl
      next hneg =>
        have h₁ := Int.mul_ediv_add_emod (-(n + p % bs) - 1) bs
        have h₂ := Int.emod_nonneg (-(n + p % bs) - 1) (by omega : bs ≠ 0)
        have h₃ := Int.emod_lt_of_pos (-(n + p % bs) - 1) hbs
        symm
        refine (div_mod_of (k := _) (r := bs - 1 - (-(n + p % bs) - 1) % bs) ?_ (by omega)
          (by omega)).1
        linarith [Int.mul_comm bs ((-(n + p % bs) - 1) / bs)]
    rw [hfloor]
    have h₁ := Int.mul_ediv_add_emod (n + p % bs) bs
    have h₂ := Int.mul_ediv_add_emod p bs
    refine set_node_at ?_ ?_ ?_ it fun _ _ => rfl
    · rw [hnode]
      linarith [Int.mul_comm bs (p / bs)]
    · have := Int.emod_nonneg (n + p % bs) (by omega : bs ≠ 0)
      linarith [Int.mul_comm bs ((n + p % bs) / bs)]
    · have := Int.emod_lt_of_pos (n + p % bs) hbs
      linarith [Int.mul_comm bs ((n + p % bs) / bs)]

theorem increment_eq (hbs : 0 < bs) (h : iterAt bs map p = some it) :
    increment bs map it = iterAt bs map (p + 1) := by
  obtain ⟨hmap, hcur, hlast, hnode⟩ := iterAt_eq_some.1 h
  have hlt := Int.emod_lt_of_pos p hbs
  have hpos := Int.emod_nonneg p (by omega : bs ≠ 0)
  have hp := Int.mul_ediv_add_emod p bs
  unfold increment
  split
  next hend =>
    refine set_node_at (r := 0) ?_ (Int.le_refl 0) hbs it fun it _ => by rw [Int.add_zero]
    have hmod : p % bs + 1 = bs := by omega
    rw [hnode]
    linarith [Int.mul_comm bs (p / bs)]
  next hin => exact (same_buffer h (by omega) (by omega)).symm

theorem decrement_eq (hbs : 0 < bs) (h : iterAt bs map p = some it) :
    decrement bs map it = iterAt bs map (p - 1) := by
  obtain ⟨hmap, hcur, hlast, hnode⟩ := iterAt_eq_some.1 h
  have hlt := Int.emod_lt_of_pos p hbs
  have hpos := Int.emod_nonneg p (by omega : bs ≠ 0)
  have hp := Int.mul_ediv_add_emod p bs
  unfold decrement
  split
  next hbegin =>
    refine set_node_at (r := bs - 1) ?_ (by omega) (by omega) it fun it hl => ?_
    · have hmod : p % bs = 0 := by omega
      rw [hnode]
      linarith [Int.mul_comm bs (p / bs)]
    · rw [hl, Int.add_sub_assoc]
  next hin => exact (same_buffer h (k := -1) (by omega) (by omega)).symm

theorem difference_eq (h : iterAt bs map p = some it) (hx : iterAt bs map' q = some x) :
    difference bs it x = p - q := by
  obtain ⟨-, hcur, -, hnode⟩ := iterAt_eq_some.1 h
  obtain ⟨-, hxcur, hxlast, hxnode⟩ := iterAt_eq_some.1 hx
  have hp := Int.mul_ediv_add_emod p bs
  have hq := Int.mul_ediv_add_emod q bs
  unfold difference
  rw [hnode, hxnode, hxlast, hxcur, hcur]
  have hexp : bs * (p / bs - q / bs - 1) = bs * (p / bs) - bs * (q / bs) - bs := by ring
  omega

/-- `++` as often as `n` says. -/
def increments (bs : Int) (map : Int → Option Int) : Nat → Iter → Option Iter
  | 0, it => some it
  | n + 1, it => (increment bs map it).bind (increments bs map n)

theorem increments_eq (hbs : 0 < bs) {n : Nat} (h : iterAt bs map p = some it)
    (hmap : ∀ k ≤ n, (iterAt bs map (p + k)).isSome) :
    increments bs map n it = iterAt bs map (p + n) := by
  induction n generalizing p it with
  | zero => simpa [increments] using h.symm
  | succ n ih =>
    obtain ⟨it', hit'⟩ := Option.isSome_iff_exists.1 (hmap 1 (by omega))
    have hnext : iterAt bs map (p + 1) = some it' := by simpa using hit'
    rw [increments, increment_eq hbs h, hnext, Option.bind_some, ih hnext fun k hk => ?_]
    · congr 1
      push_cast
      ring
    · have := hmap (k + 1) (by omega)
      rwa [show p + 1 + (k : Int) = p + ((k + 1 : Nat) : Int) by push_cast; ring]

/-- **Iterators are positions.** What the operators do to the iterator of a position, in any buffer
and across buffers, with the same failures. -/
theorem iterator_arithmetic (hbs : 0 < bs) (h : iterAt bs map p = some it) :
    increment bs map it = iterAt bs map (p + 1) ∧ decrement bs map it = iterAt bs map (p - 1) ∧
      (∀ n, plus bs map n it = iterAt bs map (p + n) ∧ minus bs map n it = iterAt bs map (p - n)) ∧
      (∀ q x, iterAt bs map q = some x → difference bs it x = p - q) ∧
      ∀ n : Nat, (∀ k ≤ n, (iterAt bs map (p + k)).isSome) →
        increments bs map n it = plus bs map n it :=
  ⟨increment_eq hbs h, decrement_eq hbs h, fun _ => ⟨plus_eq hbs h, plus_eq hbs h⟩,
    fun _ _ hx => difference_eq h hx,
    fun _ hmap => (increments_eq hbs h hmap).trans (plus_eq hbs h).symm⟩

/-- From the end of one buffer to the beginning of the next one. -/
theorem iterator_arithmetic_eight :
    increment 8 (fun i => if i = 0 ∨ i = 1 then some (100 * i) else none) ⟨7, 0, 8, 0⟩ =
      some ⟨100, 100, 108, 1⟩ :=
  (iterator_arithmetic (p := 7) (by decide) (by decide)).1.trans (by decide)

end LearningNotes.Deque
