import LearningNotes.Lib.Objects
import LearningNotes.Lib.Runs
import Mathlib.Data.List.Basic

/-!
# `vector`

A `vector` is a list in one block of memory. The value to insert is given by the address of an object,
which may be one of the elements: `insert_aux` makes a copy of it before the elements move, and makes
the new element before the old block is destroyed. An exception while the new block is being filled
leaves everything as it was; one while the elements move in their block leaves a list in which they
have moved in part (`Act.broken`).

Mirroring notes:
- Addresses count elements. The memory has the objects of the `vector` and all others of type `T`.
- `new_start` is what `allocate` returns where the storage has no room left, and `throws` says which
  of the copies that a call makes ends in an exception, if one does; they are numbered in their order.
  A copy that throws has no effect, and destructors do not throw. The result says if the call threw.
- `blocks` are the blocks that are allocated, with their lengths.
-/

namespace LearningNotes.Vector

open Objects

variable {T : Type}

/-- The memory, the blocks that are allocated, and the three pointers of the `vector`. -/
structure State (T : Type) where
  mem : Objects T
  blocks : List (Int × Int)
  start : Int
  finish : Int
  end_of_storage : Int

/-- `size` -/
def size (s : State T) : Int := s.finish - s.start

/-- `capacity` -/
def capacity (s : State T) : Int := s.end_of_storage - s.start

/-- `operator[]` -/
def item (n : Int) (s : State T) : Option T := s.mem (s.start + n)

/-- `data_allocator::deallocate` -/
def dealloc (p n : Int) (blocks : List (Int × Int)) : Option (List (Int × Int)) :=
  if (p, n) ∈ blocks then some (blocks.erase (p, n)) else none

/-- `if (start) data_allocator::deallocate(start, end_of_storage - start)` -/
def deallocate (s : State T) : Option (List (Int × Int)) :=
  if s.start ≠ 0 then dealloc s.start (s.end_of_storage - s.start) s.blocks else some s.blocks

/-- The `try` block of `insert_aux` and its handler, up to where the new block is given back. -/
def fill (position x new_start : Int) (throws : Option Nat) (s : State T) :
    Option (Objects T × Bool) := do
  let n := (position - s.start).toNat
  let (mem, thrown) ← uninitializedCopy n s.start new_start throws s.mem
  if thrown then some (mem, true)
  else if throws = some n then
    let mem ← destroy n new_start mem
    some (mem, true)
  else
    let v ← mem x
    let mem ← construct (new_start + n) v mem
    let (mem, thrown) ← uninitializedCopy (s.finish - position).toNat position (new_start + n + 1)
      (throws.map (· - (n + 1))) mem
    if thrown then
      let mem ← destroy (n + 1) new_start mem
      some (mem, true)
    else some (mem, false)

/-- `insert_aux`; `new_start` is what `allocate` returns if it is called. -/
def insert_aux (position x new_start : Int) (throws : Option Nat) (s : State T) :
    Option (State T × Bool) :=
  if s.finish ≠ s.end_of_storage then
    if throws = some 0 then some (s, true)
    else do
      let last ← s.mem (s.finish - 1)
      let mem ← construct s.finish last s.mem
      let finish := s.finish + 1
      -- `T x_copy = x`
      if throws = some 1 then some ({ s with mem, finish }, true)
      else do
        let x_copy ← mem x
        let n := (finish - 2 - position).toNat
        let (mem, thrown) ← copyBackward n (finish - 2) (finish - 1) (throws.map (· - 2)) mem
        if thrown ∨ throws = some (n + 2) then some ({ s with mem, finish }, true)
        else do
          let mem ← assign position x_copy mem
          some ({ s with mem, finish }, false)
  else do
    let old_size := size s
    let len := if old_size ≠ 0 then 2 * old_size else 1
    let blocks := (new_start, len) :: s.blocks
    let (mem, thrown) ← fill position x new_start throws s
    if thrown then
      let blocks ← dealloc new_start len blocks
      some ({ s with mem, blocks }, true)
    else
      let mem ← destroy (size s).toNat s.start mem
      let blocks ← deallocate { s with mem, blocks }
      some (⟨mem, blocks, new_start, new_start + old_size + 1, new_start + len⟩, false)

/-- `construct(finish, x); ++finish` -/
def constructFinish (x : Int) (throws : Option Nat) (s : State T) : Option (State T × Bool) :=
  if throws = some 0 then some (s, true)
  else do
    let v ← s.mem x
    let mem ← construct s.finish v s.mem
    some ({ s with mem, finish := s.finish + 1 }, false)

/-- `push_back` -/
def push_back (x new_start : Int) (throws : Option Nat) (s : State T) : Option (State T × Bool) :=
  if s.finish ≠ s.end_of_storage then constructFinish x throws s
  else insert_aux s.finish x new_start throws s

/-- `insert` -/
def insert (position x new_start : Int) (throws : Option Nat) (s : State T) :
    Option (State T × Bool) :=
  if s.finish ≠ s.end_of_storage ∧ position = s.finish then constructFinish x throws s
  else insert_aux position x new_start throws s

/-- `erase` of one element. -/
def erase (position : Int) (throws : Option Nat) (s : State T) : Option (State T × Bool) := do
  let (mem, thrown) ← if position + 1 ≠ s.finish then
      copy (s.finish - (position + 1)).toNat (position + 1) position throws s.mem
    else some (s.mem, false)
  if thrown then some ({ s with mem }, true)
  else do
    let mem ← destroyAt (s.finish - 1) mem
    some ({ s with mem, finish := s.finish - 1 }, false)

/-- `erase` of a range. -/
def eraseRange (first last : Int) (throws : Option Nat) (s : State T) :
    Option (State T × Bool) := do
  let n := (s.finish - last).toNat
  let (mem, thrown) ← copy n last first throws s.mem
  if thrown then some ({ s with mem }, true)
  else do
    let i := first + n
    let mem ← destroy (s.finish - i).toNat i mem
    some ({ s with mem, finish := s.finish - (last - first) }, false)

/-! ## What is kept -/

variable {env : Objects T} {s s' : State T} {items : List T} {x position new_start : Int}
  {throws : Option Nat} {v : T} {n : Nat}

/-- The elements are in the block, at its beginning; all else is as it was at the start, which is raw
memory for the rest of the block. -/
structure Holds (env : Objects T) (s : State T) (items : List T) : Prop where
  mem : s.mem = laid env s.start items
  finish : s.finish = s.start + items.length
  room : s.finish ≤ s.end_of_storage
  raw : Raw env s.start (capacity s).toNat
  blocks : s.blocks = if s.start ≠ 0 then [(s.start, capacity s)] else []
  null : s.start = 0 ↔ s.end_of_storage = s.start

/-- The length of a new block. -/
def newLen (s : State T) : Int := if size s ≠ 0 then 2 * size s else 1

/-- `allocate` returns a raw block when a new one is needed. -/
def Fresh (s : State T) (new_start : Int) : Prop :=
  s.finish = s.end_of_storage → new_start ≠ 0 ∧ Raw s.mem new_start (newLen s).toNat

/-- The element numbered `m` is there twice. -/
def twice (m : Nat) (items : List T) : List T := items.take (m + 1) ++ items.drop m

/-- The first `k` of the elements from `b` on are at `a` as well. -/
def shifted (a b k : Nat) (items : List T) : List T :=
  items.take a ++ (items.drop b).take k ++ items.drop (a + k)

/-- There are as many elements as in the list. -/
theorem Holds.size (h : Holds env s items) : size s = items.length := by
  have := h.finish
  unfold Vector.size
  omega

/-- The elements in their places. -/
theorem Holds.at (h : Holds env s items) {i : Nat} (hi : i < items.length) :
    s.mem (s.start + i) = some items[i] := by rw [h.mem, laid_at env s.start hi]

/-- Without the `vector` its block is raw memory. -/
theorem Holds.raw_at (h : Holds env s items) {q : Int} (h₁ : s.start ≤ q) (h₂ : q < s.end_of_storage) :
    env q = none := by
  have := h.raw q h₁
  unfold capacity at this
  exact this (by omega)

/-- An empty `vector`. -/
theorem Holds.start : Holds env (⟨env, [], 0, 0, 0⟩ : State T) [] where
  mem := laid_nil.symm
  finish := rfl
  room := Int.le_refl 0
  raw q h₁ h₂ := by
    simp only [capacity, Int.sub_self, Int.toNat_zero, Int.natCast_zero, Int.add_zero] at h₁ h₂
    omega
  blocks := rfl
  null := ⟨fun _ => rfl, fun _ => rfl⟩

/-- Only the elements have changed. -/
theorem Holds.update (h : Holds env s items) {items' : List T} {mem : Objects T}
    (hmem : mem = laid env s.start items') (hroom : s.start + items'.length ≤ s.end_of_storage) :
    Holds env { s with mem, finish := s.start + items'.length } items' :=
  ⟨hmem, rfl, hroom, h.raw, h.blocks, h.null⟩

/-- The list, the block and what is around it determine the `vector`. -/
theorem Holds.unique (h : Holds env s items) (h' : Holds env s' items) (hstart : s'.start = s.start)
    (hend : s'.end_of_storage = s.end_of_storage) : s' = s := by
  have hmem := h'.mem
  have hfin := h'.finish
  have hblocks := h'.blocks
  rw [hstart, ← h.mem] at hmem
  rw [hstart, ← h.finish] at hfin
  unfold capacity at hblocks
  rw [hstart, hend] at hblocks
  obtain ⟨mem, blocks, start, finish, end_of_storage⟩ := s
  obtain ⟨mem', blocks', start', finish', end_of_storage'⟩ := s'
  obtain rfl : mem' = mem := hmem
  obtain rfl : finish' = finish := hfin
  obtain rfl : start' = start := hstart
  obtain rfl : end_of_storage' = end_of_storage := hend
  obtain rfl : blocks' = blocks := hblocks.trans h.blocks.symm
  rfl

/-- An element is put behind the others. -/
theorem Holds.construct_finish (h : Holds env s items) (hne : s.finish ≠ s.end_of_storage) (v : T) :
    construct s.finish v s.mem = some (laid env s.start (items ++ [v])) := by
  have hroom := h.room
  have hfin := h.finish
  rw [h.mem, hfin]
  exact construct_laid v (h.raw_at (by omega) (by omega))

/-- An element is put into the list. -/
theorem take_cons_drop {n : Nat} (h : n ≤ items.length) :
    items.take n ++ v :: items.drop n = items.insertIdx n v := by
  induction n generalizing items with
  | zero => simp
  | succ n ih =>
    cases items with
    | nil => simp at h
    | cons a items =>
      rw [List.take_succ_cons, List.drop_succ_cons, List.cons_append, List.insertIdx_succ_cons,
        ih (by simpa using h)]

/-! ## `insert_aux` with room -/

/-- One element is there twice. -/
theorem length_twice {m : Nat} (hm : m < items.length) :
    (twice m items).length = items.length + 1 := by
  unfold twice
  rw [List.length_append, List.length_take, List.length_drop]
  omega

/-- The elements from that one on are one place further. -/
theorem getElem_twice {m i : Nat} (hm : m < items.length) (hi : i < (twice m items).length)
    (hb : i - 1 < items.length) :
    (twice m items)[i] = if h : i ≤ m then items[i] else items[i - 1] := by
  have htake : (items.take (m + 1)).length = m + 1 := List.length_take_of_le hm
  simp only [twice]
  by_cases hle : i ≤ m
  · rw [dif_pos hle, List.getElem_append_left (by omega), List.getElem_take]
  · rw [dif_neg hle, List.getElem_append_right (by omega), List.getElem_drop]
    congr 1
    omega

/-- The last element is copied behind the others first. -/
theorem twice_last (h : 0 < items.length) :
    twice (items.length - 1) items = items ++ [items[items.length - 1]] := by
  unfold twice
  rw [List.take_of_length_le (by omega), List.drop_eq_getElem_cons (by omega),
    List.drop_eq_nil_of_le (by omega)]

/-- The element in front of which there is room is assigned the new value. -/
theorem set_twice (hn : n < items.length) (v : T) :
    (twice n items).set n v = items.insertIdx n v := by
  have htake : (items.take n).length = n := List.length_take_of_le (by omega)
  unfold twice
  rw [List.take_succ_eq_append_getElem hn, List.append_assoc, List.singleton_append,
    List.set_append_right _ _ (by omega), htake, Nat.sub_self, List.set_cons_zero,
    take_cons_drop (by omega)]

/-- `copy_backward`: `k` elements have moved. -/
theorem moved_twice {m k : Nat} (hm : m + k + 1 = items.length) (p : Int) :
    moved (laid env p (twice (m + k) items)) (p + m + 1 - 1) (p + m + 1) k =
      laid env p (twice m items) := by
  have hlen := length_twice (show m < items.length by omega)
  have hlen' := length_twice (show m + k < items.length by omega)
  refine eq_laid (fun i hi => ?_) fun q hq => ?_
  · simp only [moved]
    rw [getElem_twice (by omega) hi (by omega)]
    by_cases hle : i ≤ m
    · rw [dif_pos hle, if_neg (by omega), laid_at env p (by omega),
        getElem_twice (by omega) _ (by omega), dif_pos (by omega)]
    · rw [dif_neg hle]
      by_cases hin : i ≤ m + k
      · have hat := @laid_at _ (twice (m + k) items) env p (i - 1) (by omega)
        rw [getElem_twice (by omega) _ (by omega), dif_pos (by omega)] at hat
        rw [if_pos (by omega), ← hat]
        congr 1
        omega
      · rw [if_neg (by omega), laid_at env p (by omega),
          getElem_twice (by omega) _ (by omega), dif_neg hin]
  · simp only [moved]
    rw [if_neg (by omega), laid_out (by omega)]

/-- The elements behind the position move by one; what is left out of it is there twice. -/
theorem copyBackward_twice (hn : n < items.length) (p : Int) :
    copyBackward (items.length - 1 - n) (p + (items.length - 1 : Nat))
        (p + (items.length - 1 : Nat) + 1) throws (laid env p (twice (items.length - 1) items)) =
      some (laid env p (twice (items.length - 1 - done throws (items.length - 1 - n)) items),
        throws.any (· < items.length - 1 - n)) := by
  have hlen := length_twice (show items.length - 1 < items.length by omega)
  have hfull := full_laid env p (twice (items.length - 1) items)
  have hle : done throws (items.length - 1 - n) ≤ items.length - 1 - n := done_le throws _
  rw [copyBackward_eq (hfull.mono (by omega) (by omega)) (hfull.mono (by omega) (by omega))
    (by omega)]
  have hmoved := @moved_twice _ env items
    (items.length - 1 - done throws (items.length - 1 - n))
    (done throws (items.length - 1 - n)) (by omega) p
  rw [show items.length - 1 - done throws (items.length - 1 - n) +
    done throws (items.length - 1 - n) = items.length - 1 by omega] at hmoved
  rw [← hmoved]
  congr 3 <;> omega

/-- `insert_aux` with room, when the copy numbered `k` throws: the last elements have moved, and the
one before them is there twice. -/
def displaced (k : Nat) (items : List T) : List T :=
  if k = 0 then items else twice (items.length - 1 - (k - 2)) items

section Spare

variable (h : Holds env s items) (hne : s.finish ≠ s.end_of_storage) (hn : n < items.length)
  (hv : s.mem x = some v)

include h hne hn hv

/-- The copies that `insert_aux` makes one after the other. -/
theorem insert_aux_copies (h0 : throws ≠ some 0) (h1 : throws ≠ some 1) :
    insert_aux (s.start + n) x new_start throws s =
      (copyBackward (items.length - 1 - n) (s.start + (items.length - 1 : Nat))
        (s.start + (items.length - 1 : Nat) + 1) (throws.map (· - 2))
        (laid env s.start (twice (items.length - 1) items))).bind fun r =>
      if r.2 ∨ throws = some (items.length - 1 - n + 2) then
        some ({ s with mem := r.1, finish := s.finish + 1 }, true)
      else (assign (s.start + n) v r.1).bind fun mem =>
        some ({ s with mem, finish := s.finish + 1 }, false) := by
  have hfin := h.finish
  have hroom := h.room
  have hlast : s.mem (s.finish - 1) = some items[items.length - 1] := by
    rw [show s.finish - 1 = s.start + ((items.length - 1 : Nat) : Int) by omega]
    exact h.at (by omega)
  have hraw : Raw env (s.start + items.length) [items[items.length - 1]].length := by
    intro q h₁ h₂
    exact h.raw_at (by omega) (by simp at h₂; omega)
  -- the copy of the last element lies behind all other objects
  have hx : laid env s.start (items ++ [items[items.length - 1]]) x = some v :=
    laid_append (h.mem ▸ hv) hraw
  have hk : (s.start + ((items.length - 1 : Nat) : Int) - (s.start + n)).toNat =
      items.length - 1 - n := by omega
  have hfirst : s.finish + 1 - 2 = s.start + ((items.length - 1 : Nat) : Int) := by omega
  have hresult : s.finish + 1 - 1 = s.start + ((items.length - 1 : Nat) : Int) + 1 := by omega
  rw [twice_last (by omega)]
  simp only [insert_aux, if_pos hne, if_neg h0, if_neg h1, hlast, h.construct_finish hne, hx, hk,
    hfirst, hresult, Option.bind_eq_bind, Option.bind_some]

/-- No copy throws. -/
theorem insert_aux_spare (ht : throws.any (· < items.length - n + 2) = false) :
    insert_aux (s.start + n) x new_start throws s =
      some ({ s with
        mem := laid env s.start (items.insertIdx n v)
        finish := s.start + (items.insertIdx n v).length }, false) := by
  have hfin := h.finish
  have hlen : (items.insertIdx n v).length = items.length + 1 :=
    List.length_insertIdx_of_le_length (by omega) v
  have hlate : ∀ k, throws = some k → items.length - n + 2 ≤ k := by
    rintro k rfl
    simpa using ht
  have hdone : done (throws.map (· - 2)) (items.length - 1 - n) = items.length - 1 - n := by
    cases throws with
    | none => rfl
    | some k =>
      have := hlate k rfl
      exact Nat.min_eq_left (show items.length - 1 - n ≤ k - 2 by omega)
  have hany : (throws.map (· - 2)).any (· < items.length - 1 - n) = false := by
    cases throws with
    | none => rfl
    | some k =>
      have := hlate k rfl
      simp only [Option.map_some, Option.any_some, decide_eq_false_iff_not]
      omega
  have hne' : ∀ k, k < items.length - n + 2 → throws ≠ some k := by
    intro k hk he
    have := hlate k he
    omega
  rw [insert_aux_copies h hne hn hv (hne' 0 (by omega)) (hne' 1 (by omega)), copyBackward_twice hn,
    hdone, hany, show items.length - 1 - (items.length - 1 - n) = n by omega]
  have hat : (laid env s.start (twice n items) (s.start + n)).isSome := by
    rw [laid_at env s.start (by rw [length_twice hn]; omega), Option.isSome_some]
  simp only [Option.bind_some, Bool.false_eq_true, false_or, hne' _ (show items.length - 1 - n + 2 <
    items.length - n + 2 by omega), if_false, assign_eq hat,
    update_laid env s.start (show n < (twice n items).length by rw [length_twice hn]; omega),
    set_twice hn, hlen, hfin, Int.natCast_add, Int.natCast_one, Int.add_assoc]

/-- The copy numbered `k` throws. -/
theorem insert_aux_thrown {k : Nat} (hk : k < items.length - n + 2) :
    insert_aux (s.start + n) x new_start (some k) s =
      some ({ s with
        mem := laid env s.start (displaced k items)
        finish := s.start + (displaced k items).length }, true) := by
  have hfin := h.finish
  have hlen := length_twice (show items.length - 1 < items.length by omega)
  have hsame : s = { s with mem := laid env s.start items, finish := s.start + items.length } := by
    rw [← h.mem, ← hfin]
  by_cases h0 : k = 0
  · subst h0
    rw [insert_aux, if_pos hne, if_pos rfl, displaced, if_pos rfl, ← hsame]
  · have hlen' : (displaced k items).length = items.length + 1 := by
      rw [displaced, if_neg h0, length_twice (by omega)]
    by_cases h1 : k = 1
    · -- the copy of the value
      subst h1
      have hlast : s.mem (s.finish - 1) = some items[items.length - 1] := by
        rw [show s.finish - 1 = s.start + ((items.length - 1 : Nat) : Int) by omega]
        exact h.at (by omega)
      have hd : displaced 1 items = items ++ [items[items.length - 1]] := by
        rw [displaced, if_neg h0, ← twice_last (by omega)]
        rfl
      rw [insert_aux, if_pos hne, if_neg (by decide)]
      simp only [hlast, h.construct_finish hne, Option.bind_eq_bind, Option.bind_some, if_true]
      rw [hlen', ← hd, hfin, Int.natCast_add, ← Int.add_assoc]
      rfl
    · have hne0 : (some k : Option Nat) ≠ some 0 := fun he => h0 (Option.some.inj he)
      have hne1 : (some k : Option Nat) ≠ some 1 := fun he => h1 (Option.some.inj he)
      have hstop : (Option.map (· - 2) (some k)).any (· < items.length - 1 - n) = true ∨
          some k = some (items.length - 1 - n + 2) := by
        simp only [Option.map_some, Option.any_some, decide_eq_true_eq, Option.some.injEq]
        omega
      have hdone : done (Option.map (· - 2) (some k)) (items.length - 1 - n) = k - 2 :=
        Nat.min_eq_right (show k - 2 ≤ items.length - 1 - n by omega)
      rw [insert_aux_copies h hne hn hv hne0 hne1, copyBackward_twice hn, hdone, Option.bind_some,
        if_pos hstop, hlen', displaced, if_neg h0, hfin, Int.natCast_add, ← Int.add_assoc]
      rfl

end Spare

/-- The new block is filled, or the memory is as it was before. -/
theorem fill_eq (h : Holds env s items) (hn : n ≤ items.length) (hv : s.mem x = some v)
    (hraw : Raw s.mem new_start (items.length + 1)) :
    fill (s.start + n) x new_start throws s =
      if throws.any (· ≤ items.length) then some (s.mem, true)
      else some (laid s.mem new_start (items.insertIdx n v), false) := by
  have hfin := h.finish
  have htake : (items.take n).length = n := List.length_take_of_le hn
  have hdrop : (items.drop n).length = items.length - n := List.length_drop
  have hfirst : uninitializedCopy n s.start new_start throws s.mem =
      if throws.any (· < n) then some (s.mem, true)
      else some (laid s.mem new_start (items.take n), false) := by
    have := @uninitializedCopy_laid _ s.mem new_start s.start [] (items.take n) throws
      (fun q h₁ h₂ => hraw q h₁ (by simp at h₂; omega))
      fun i hi => by rw [h.at (by omega), List.getElem_take]
    simpa [htake] using this
  have hconstruct : construct (new_start + n) v (laid s.mem new_start (items.take n)) =
      some (laid s.mem new_start (items.take n ++ [v])) := by
    have := @construct_laid _ s.mem new_start (items.take n) v
      (hraw _ (by omega) (by omega))
    rwa [htake] at this
  have hx : laid s.mem new_start (items.take n) x = some v := by
    have := @laid_append _ s.mem new_start x [] (items.take n) v
      (by simpa using hv) fun q h₁ h₂ => hraw q (by simpa using h₁) (by simp at h₂; omega)
    simpa using this
  have hsecond : uninitializedCopy (items.length - n) (s.start + n) (new_start + n + 1)
      (throws.map (· - (n + 1))) (laid s.mem new_start (items.take n ++ [v])) =
      if (throws.map (· - (n + 1))).any (· < items.length - n) then
        some (laid s.mem new_start (items.take n ++ [v]), true)
      else some (laid s.mem new_start (items.take n ++ [v] ++ items.drop n), false) := by
    have := @uninitializedCopy_laid _ s.mem new_start (s.start + n) (items.take n ++ [v])
      (items.drop n) (throws.map (· - (n + 1)))
      (fun q h₁ h₂ => hraw q h₁ (by simp [hdrop, htake] at h₂; omega)) fun i hi => by
        rw [Int.add_assoc, ← Int.natCast_add, h.at (by omega), List.getElem_drop]
    simpa [htake, hdrop, Int.add_assoc] using this
  have hdestroy₁ : destroy n new_start (laid s.mem new_start (items.take n)) = some s.mem := by
    have := @destroy_laid _ s.mem new_start (items.take n) fun q h₁ h₂ =>
      hraw q h₁ (by omega)
    rwa [htake] at this
  have hdestroy₂ : destroy (n + 1) new_start (laid s.mem new_start (items.take n ++ [v])) =
      some s.mem := by
    have := @destroy_laid _ s.mem new_start (items.take n ++ [v]) fun q h₁ h₂ =>
      hraw q h₁ (by simp [htake] at h₂; omega)
    simpa [htake] using this
  have hn₁ : (s.start + n - s.start).toNat = n := by omega
  have hn₂ : (s.finish - (s.start + n)).toNat = items.length - n := by omega
  simp only [fill, hn₁, hn₂, hfirst]
  by_cases h₁ : throws.any (· < n) = true
  · have hle : throws.any (· ≤ items.length) = true := by
      cases throws with
      | none => simp at h₁
      | some k =>
        simp only [Option.any_some, decide_eq_true_eq] at h₁ ⊢
        omega
    rw [if_pos h₁, if_pos hle]
    rfl
  · rw [if_neg h₁]
    simp only [Option.bind_eq_bind, Option.bind_some, Bool.false_eq_true, if_false]
    by_cases h₂ : throws = some n
    · rw [if_pos h₂, if_pos (by simpa [h₂] using hn), hdestroy₁]
      rfl
    · have hany : (throws.map (· - (n + 1))).any (· < items.length - n) =
          throws.any (· ≤ items.length) := by
        cases throws with
        | none => rfl
        | some k =>
          have hne : k ≠ n := fun he => h₂ (by rw [he])
          simp only [Option.any_some, decide_eq_true_eq, Nat.not_lt] at h₁
          simp only [Option.map_some, Option.any_some, decide_eq_decide]
          omega
      rw [if_neg h₂]
      simp only [hx, hconstruct, hsecond, hany, Option.bind_some]
      split
      · simp only [Option.bind_some, if_true, hdestroy₂]
      · simp only [Option.bind_some, Bool.false_eq_true, if_false]
        rw [List.append_assoc, List.singleton_append, take_cons_drop hn]

/-! ## The calls -/

/-- `insert_aux` without room. -/
theorem insert_aux_grow (heq : s.finish = s.end_of_storage) :
    insert_aux position x new_start throws s = (fill position x new_start throws s).bind fun r =>
      if r.2 then (dealloc new_start (newLen s) ((new_start, newLen s) :: s.blocks)).bind
        fun blocks => some ({ s with mem := r.1, blocks }, true)
      else (destroy (size s).toNat s.start r.1).bind fun mem =>
        (deallocate { s with mem, blocks := (new_start, newLen s) :: s.blocks }).bind fun blocks =>
          some (⟨mem, blocks, new_start, new_start + size s + 1, new_start + newLen s⟩, false) := by
  have hne : ¬ s.finish ≠ s.end_of_storage := not_not.2 heq
  rw [insert_aux, if_neg hne]
  rfl

/-- The block that was allocated last may be given back. -/
theorem dealloc_cons (p n : Int) (blocks : List (Int × Int)) :
    dealloc p n ((p, n) :: blocks) = some blocks := by
  simp [dealloc]

/-- The old block is given back, and the new one is kept. -/
theorem Holds.deallocate (h : Holds env s items) {p n : Int} (hp : p ≠ s.start) (mem : Objects T) :
    deallocate { s with mem, blocks := (p, n) :: s.blocks } = some [(p, n)] := by
  by_cases hs : s.start = 0
  · simp [Vector.deallocate, h.blocks, hs]
  · have hne : ((p, n) == (s.start, capacity s)) = false := by simp [hp]
    have hblocks : s.blocks = [(s.start, capacity s)] := by rw [h.blocks, if_pos hs]
    have hmem : (s.start, capacity s) ∈ [(p, n), (s.start, capacity s)] := by simp
    have herase : [(p, n), (s.start, capacity s)].erase (s.start, capacity s) = [(p, n)] := by
      simp [hne]
    rw [Vector.deallocate, if_pos hs, hblocks]
    exact (if_pos hmem).trans (congrArg some herase)

/-- Raw memory is apart from the elements. -/
theorem Holds.apart (h : Holds env s items) {b len : Int}
    (hraw : ∀ q, b ≤ q → q < b + len → s.mem q = none) :
    ∀ q, s.start ≤ q → q < s.finish → q < b ∨ b + len ≤ q := by
  intro q h₁ h₂
  have hfin := h.finish
  by_contra hc
  have hat := h.at (show (q - s.start).toNat < items.length by omega)
  rw [show s.start + ((q - s.start).toNat : Int) = q by omega, hraw q (by omega) (by omega)] at hat
  cases hat

/-- The old elements are destroyed, and the list in a block apart from them stays. -/
theorem destroy_old (h : Holds env s items) {b : Int} {l : List T}
    (hapart : ∀ q, s.start ≤ q → q < s.finish → q < b ∨ b + l.length ≤ q) :
    destroy (size s).toNat s.start (laid s.mem b l) = some (laid env b l) := by
  have hfin := h.finish
  have hsize := h.size
  have hroom := h.room
  have hfull : Full (laid s.mem b l) s.start (size s).toNat := by
    intro q h₁ h₂
    have hq := hapart q h₁ (by omega)
    rw [laid_out (by omega), h.mem]
    exact full_laid env s.start items q h₁ (by omega)
  rw [destroy_eq hfull]
  congr 1
  refine eq_laid ?_ ?_
  · intro i hi
    have hnot : ¬ (s.start ≤ b + i ∧ b + i < s.start + ((size s).toNat : Int)) := by
      intro hc
      have hq := hapart _ hc.1 (by omega)
      omega
    rw [cleared, if_neg hnot, laid_at s.mem b hi]
  · intro q hq
    by_cases hin : s.start ≤ q ∧ q < s.start + ((size s).toNat : Int)
    · rw [cleared, if_pos hin, h.raw_at hin.1 (by omega)]
    · rw [cleared, if_neg hin, laid_out hq, h.mem, laid_out (by omega)]

/-- Without room, `insert_aux` moves the elements to a new block. -/
theorem insert_aux_full (h : Holds env s items) (heq : s.finish = s.end_of_storage)
    (hn : n ≤ items.length) (hv : s.mem x = some v) (hfresh : Fresh s new_start) :
    ∃ s', insert_aux (s.start + n) x new_start throws s =
        some (s', throws.any (· < items.length + 1)) ∧
      if throws.any (· < items.length + 1) then s' = s else Holds env s' (items.insertIdx n v) := by
  have hfin := h.finish
  have hsize := h.size
  obtain ⟨hne, hraw⟩ := hfresh heq
  have hlen : 0 < newLen s ∧ (items.length : Int) + 1 ≤ newLen s := by
    unfold newLen
    split <;> omega
  have hfill := @fill_eq _ _ _ _ _ _ throws _ n h hn hv fun q h₁ h₂ => hraw q h₁ (by omega)
  have hle : throws.any (· ≤ items.length) = throws.any (· < items.length + 1) := by
    cases throws with
    | none => rfl
    | some k => simp only [Option.any_some, Nat.lt_succ_iff]
  rw [hle] at hfill
  rw [insert_aux_grow heq, hfill]
  by_cases hstop : throws.any (· < items.length + 1) = true
  · simp only [hstop, Option.bind_some, if_true, dealloc_cons]
    exact ⟨s, rfl, rfl⟩
  · have hfalse : throws.any (· < items.length + 1) = false := by simpa using hstop
    have hlen' : (items.insertIdx n v).length = items.length + 1 :=
      List.length_insertIdx_of_le_length hn v
    have hapart := h.apart hraw
    have hstart : new_start ≠ s.start := by
      intro he
      by_cases hz : items.length = 0
      · exact hne (he.trans (h.null.2 (by omega)))
      · have hfirst := hapart s.start (Int.le_refl _) (by omega)
        omega
    have hdestroy := @destroy_old _ _ _ _ h new_start (items.insertIdx n v) <| by
      intro q h₁ h₂
      have hq := hapart q h₁ h₂
      omega
    simp only [hfalse, Option.bind_some, Bool.false_eq_true, if_false, hdestroy,
      h.deallocate hstart]
    refine ⟨_, rfl, rfl, ?_, ?_, ?_, ?_, ?_⟩
    · simp only
      omega
    · simp only
      omega
    · intro q h₁ h₂
      simp only [capacity] at h₂
      have hq := hraw q h₁ (by omega)
      by_cases hin : s.start ≤ q ∧ q < s.finish
      · exact h.raw_at hin.1 (by omega)
      · rwa [h.mem, laid_out (by omega)] at hq
    · simp [hne, capacity]
    · simp only
      omega

/-- The exception comes from a copy that is made. -/
theorem exists_of_throws {throws : Option Nat} {n : Nat} (h : throws.any (· < n) = true) :
    ∃ k, throws = some k ∧ k < n := by
  cases throws with
  | none => simp at h
  | some k => exact ⟨k, rfl, by simpa using h⟩

/-- What a call leaves: the list `items'` if it gets to its end, and else the list `broken`, in the
block there was. -/
def Leaves (env : Objects T) (s : State T) (broken items' : List T) (s' : State T) (thrown : Bool) :
    Prop :=
  if thrown then s'.start = s.start ∧ s'.end_of_storage = s.end_of_storage ∧ Holds env s' broken
  else Holds env s' items'

/-- The copy behind the last element. -/
theorem constructFinish_leaves (h : Holds env s items) (hne : s.finish ≠ s.end_of_storage)
    (hv : s.mem x = some v) :
    ∃ s', constructFinish x throws s = some (s', throws.any (· < 1)) ∧
      Leaves env s items (items ++ [v]) s' (throws.any (· < 1)) := by
  have hfin := h.finish
  have hroom := h.room
  by_cases h0 : throws = some 0
  · subst h0
    exact ⟨s, rfl, rfl, rfl, h⟩
  · have hany : throws.any (· < 1) = false := by
      cases throws with
      | none => rfl
      | some k =>
        have hk : k ≠ 0 := fun he => h0 (by rw [he])
        simpa using hk
    simp only [constructFinish, if_neg h0, hv, h.construct_finish hne v, Option.bind_eq_bind,
      Option.bind_some, hany]
    refine ⟨_, rfl, ?_⟩
    have := @Holds.update _ _ _ _ h (items ++ [v]) _ rfl (by simp; omega)
    rwa [List.length_append, List.length_singleton, Int.natCast_add, ← Int.add_assoc, ← hfin] at this

/-- `insert_aux` without room, in the words of `Leaves`. -/
theorem insert_aux_full_leaves (h : Holds env s items) (heq : s.finish = s.end_of_storage)
    (hn : n ≤ items.length) (hv : s.mem x = some v) (hfresh : Fresh s new_start) :
    ∃ s', insert_aux (s.start + n) x new_start throws s =
        some (s', throws.any (· < items.length + 1)) ∧
      Leaves env s items (items.insertIdx n v) s' (throws.any (· < items.length + 1)) := by
  obtain ⟨s', hs', hh⟩ := @insert_aux_full _ _ _ _ _ _ throws _ _ h heq hn hv hfresh
  refine ⟨s', hs', ?_⟩
  unfold Leaves
  split
  next ht =>
    rw [if_pos ht] at hh
    subst hh
    exact ⟨rfl, rfl, h⟩
  next ht => rwa [if_neg ht] at hh

/-- `insert_aux` with room. -/
theorem insert_aux_spare_leaves (h : Holds env s items) (hne : s.finish ≠ s.end_of_storage)
    (hn : n < items.length) (hv : s.mem x = some v) :
    ∃ s', insert_aux (s.start + n) x new_start throws s =
        some (s', throws.any (· < items.length - n + 2)) ∧
      Leaves env s (displaced (throws.getD 0) items) (items.insertIdx n v) s'
        (throws.any (· < items.length - n + 2)) := by
  have hfin := h.finish
  have hroom := h.room
  have hlen : (items.insertIdx n v).length = items.length + 1 :=
    List.length_insertIdx_of_le_length (by omega) v
  cases ht : throws.any (· < items.length - n + 2) with
  | false => exact ⟨_, insert_aux_spare h hne hn hv ht, h.update rfl (by omega)⟩
  | true =>
    obtain ⟨k, rfl, hk⟩ := exists_of_throws ht
    have hdisplaced : (displaced k items).length ≤ items.length + 1 := by
      unfold displaced
      split
      · omega
      · rw [length_twice (by omega)]
    exact ⟨_, insert_aux_thrown h hne hn hv hk, rfl, rfl,
      h.update rfl (by omega)⟩

/-- The copies that `push_back` makes. -/
def pushCopies (s : State T) : Nat := if s.finish = s.end_of_storage then (size s).toNat + 1 else 1

/-- `push_back` puts the element at the end, or leaves all as it was. -/
theorem push_back_leaves (h : Holds env s items) (hv : s.mem x = some v)
    (hfresh : Fresh s new_start) :
    ∃ s', push_back x new_start throws s = some (s', throws.any (· < pushCopies s)) ∧
      Leaves env s items (items ++ [v]) s' (throws.any (· < pushCopies s)) := by
  unfold pushCopies
  by_cases heq : s.finish = s.end_of_storage
  · have hfull := @insert_aux_full_leaves _ _ _ _ _ _ throws _ _ h heq (Nat.le_refl _) hv hfresh
    rw [if_pos heq, push_back, if_neg (not_not.2 heq), h.size, Int.toNat_natCast, h.finish]
    rwa [List.insertIdx_length_self] at hfull
  · rw [if_neg heq, push_back, if_pos heq]
    exact constructFinish_leaves h heq hv

/-- The copies that `insert` makes. -/
def insertCopies (position : Int) (s : State T) : Nat :=
  if s.finish = s.end_of_storage ∨ position = s.finish then pushCopies s
  else (s.finish - position).toNat + 2

/-- What `insert` leaves when the copy numbered `k` throws. -/
def insertBroken (position : Int) (s : State T) (k : Nat) (items : List T) : List T :=
  if s.finish = s.end_of_storage ∨ position = s.finish then items else displaced k items

/-- `insert` puts the element at its position, or leaves what `insertBroken` says. -/
theorem insert_leaves (h : Holds env s items) (hn : n ≤ items.length) (hv : s.mem x = some v)
    (hfresh : Fresh s new_start) :
    ∃ s', insert (s.start + n) x new_start throws s =
        some (s', throws.any (· < insertCopies (s.start + n) s)) ∧
      Leaves env s (insertBroken (s.start + n) s (throws.getD 0) items) (items.insertIdx n v) s'
        (throws.any (· < insertCopies (s.start + n) s)) := by
  have hfin := h.finish
  unfold insertCopies insertBroken pushCopies
  by_cases heq : s.finish = s.end_of_storage
  · have hor : s.finish = s.end_of_storage ∨ s.start + (n : Int) = s.finish := .inl heq
    rw [if_pos hor, if_pos hor, if_pos heq, insert, if_neg (by simp [heq]), h.size, Int.toNat_natCast]
    exact insert_aux_full_leaves h heq hn hv hfresh
  · by_cases hend : n = items.length
    · have hpos : s.start + (n : Int) = s.finish := by omega
      have hor : s.finish = s.end_of_storage ∨ s.start + (n : Int) = s.finish := .inr hpos
      rw [if_pos hor, if_pos hor, if_neg heq, insert, if_pos ⟨heq, hpos⟩, hend,
        List.insertIdx_length_self]
      exact constructFinish_leaves h heq hv
    · have hpos : ¬ (s.finish = s.end_of_storage ∨ s.start + (n : Int) = s.finish) := by omega
      rw [if_neg hpos, if_neg hpos, insert, if_neg (fun hc => hpos (.inr hc.2)),
        show (s.finish - (s.start + n)).toNat = items.length - n by omega]
      exact insert_aux_spare_leaves h heq (by omega) hv

/-- Elements are moved over others, and the last ones destroyed. -/
theorem closed_gap {xs : List T} {p : Int} {a b : Nat} (hab : a ≤ b) (hb : b ≤ xs.length)
    (hraw : Raw env p xs.length) :
    cleared (moved (laid env p xs) (p + b) (p + a) (xs.length - b)) (p + a + (xs.length - b : Nat))
      (b - a) = laid env p (xs.take a ++ xs.drop b) := by
  have htake : (xs.take a).length = a := List.length_take_of_le (by omega)
  have hlen : (xs.take a ++ xs.drop b).length = a + (xs.length - b) := by simp; omega
  refine eq_laid (fun i hi => ?_) fun q hq => ?_
  · simp only [cleared, moved]
    rw [if_neg (by omega)]
    by_cases hia : i < a
    · rw [if_neg (by omega), laid_at env p (by omega), List.getElem_append_left (by omega),
        List.getElem_take]
    · rw [if_pos (by omega), List.getElem_append_right (by omega), List.getElem_drop,
        ← laid_at env p]
      congr 1
      omega
  · simp only [cleared, moved]
    by_cases hin : p + a + ((xs.length - b : Nat) : Int) ≤ q ∧
        q < p + a + ((xs.length - b : Nat) : Int) + ((b - a : Nat) : Int)
    · rw [if_pos hin, hraw q (by omega) (by omega)]
    · rw [if_neg hin, if_neg (by omega), laid_out (by omega)]

/-- The first `k` of the elements from `b` on have moved. -/
theorem moved_shifted {xs : List T} {p : Int} {a b k : Nat} (hab : a ≤ b) (hb : b + k ≤ xs.length) :
    moved (laid env p xs) (p + b) (p + a) k = laid env p (shifted a b k xs) := by
  have htake : (xs.take a).length = a := List.length_take_of_le (by omega)
  have hmid : ((xs.drop b).take k).length = k := List.length_take_of_le (by simp; omega)
  have hfront : (xs.take a ++ (xs.drop b).take k).length = a + k := by simp; omega
  have hlen : (shifted a b k xs).length = xs.length := by simp [shifted]; omega
  refine eq_laid (fun i hi => ?_) fun q hq => ?_
  · rw [hlen] at hi
    simp only [moved, shifted]
    by_cases hia : i < a
    · rw [if_neg (by omega), laid_at env p (by omega), List.getElem_append_left (by omega),
        List.getElem_append_left (by omega), List.getElem_take]
    · by_cases hik : i < a + k
      · have hat := @laid_at _ xs env p (b + (i - a)) (by omega)
        rw [List.getElem_append_left (by omega), List.getElem_append_right (by omega),
          List.getElem_take, List.getElem_drop, if_pos (by omega)]
        simp only [htake]
        rw [← hat]
        congr 1
        omega
      · have hat := @laid_at _ xs env p i (by omega)
        rw [if_neg (by omega), List.getElem_append_right (by omega), List.getElem_drop, hat]
        congr 2
        omega
  · rw [hlen] at hq
    simp only [moved]
    rw [if_neg (by omega), laid_out (by omega)]

/-- `erase` of a range takes it out, or leaves the elements it has moved. -/
theorem eraseRange_leaves (h : Holds env s items) {a b : Nat} (hab : a ≤ b) (hb : b ≤ items.length) :
    ∃ s', eraseRange (s.start + a) (s.start + b) throws s =
        some (s', throws.any (· < items.length - b)) ∧
      Leaves env s (shifted a b (throws.getD 0) items) (items.take a ++ items.drop b) s'
        (throws.any (· < items.length - b)) := by
  have hfin := h.finish
  have hroom := h.room
  have hfull : Full s.mem s.start items.length := h.mem ▸ full_laid env s.start items
  have hraw : Raw env s.start items.length := by
    intro q h₁ h₂
    exact h.raw_at h₁ (by omega)
  have hn : (s.finish - (s.start + b)).toNat = items.length - b := by omega
  have hcopy := @copy_eq _ s.mem (s.start + b) (s.start + a) (items.length - b) throws
    (hfull.mono (by omega) (by omega)) (hfull.mono (by omega) (by omega)) (by omega)
  cases ht : throws.any (· < items.length - b) with
  | true =>
    obtain ⟨k, rfl, hk⟩ := exists_of_throws ht
    have hdone : done (some k) (items.length - b) = k := Nat.min_eq_right (by omega)
    have hlen : (shifted a b k items).length = items.length := by simp [shifted]; omega
    have hmoved := @moved_shifted _ env items s.start a b k hab (by omega)
    rw [← h.mem] at hmoved
    rw [hdone, ht, hmoved] at hcopy
    simp only [eraseRange, hn, hcopy, Option.bind_eq_bind, Option.bind_some, if_true]
    refine ⟨_, rfl, rfl, rfl, ?_⟩
    have := @Holds.update _ _ _ _ h (shifted a b k items) _ rfl (by omega)
    rwa [hlen, ← hfin] at this
  | false =>
    have hdone : done throws (items.length - b) = items.length - b := by
      cases throws with
      | none => rfl
      | some k =>
        have hk : items.length - b ≤ k := by simpa using ht
        exact Nat.min_eq_left hk
    have hk : (s.finish - (s.start + a + ((items.length - b : Nat) : Int))).toNat = b - a := by omega
    have hdestroy := @destroy_eq _ (moved s.mem (s.start + b) (s.start + a) (items.length - b))
      (s.start + a + ((items.length - b : Nat) : Int)) (b - a) fun q h₁ h₂ => by
        simp only [moved]
        rw [if_neg (by omega)]
        exact hfull q (by omega) (by omega)
    have hgap := closed_gap hab hb hraw
    rw [← h.mem] at hgap
    have hlen : (items.take a ++ items.drop b).length = items.length - (b - a) := by simp; omega
    rw [hdone, ht] at hcopy
    simp only [eraseRange, hn, hk, hcopy, hdestroy, hgap, Option.bind_eq_bind, Option.bind_some,
      Bool.false_eq_true, if_false]
    refine ⟨_, rfl, ?_⟩
    have := @Holds.update _ _ _ _ h (items.take a ++ items.drop b) _ rfl (by omega)
    rwa [show s.start + ((items.take a ++ items.drop b).length : Int) =
      s.finish - (s.start + b - (s.start + a)) by omega] at this

/-- `erase` of one element is that of the range with it. -/
theorem erase_eq (h : position < s.finish) :
    erase position throws s = eraseRange position (position + 1) throws s := by
  have hi : position + ((s.finish - (position + 1)).toNat : Int) = s.finish - 1 := by omega
  have hone : (s.finish - (s.finish - 1)).toNat = 1 := by omega
  have hback : position + 1 - position = 1 := by omega
  simp only [erase, eraseRange, hi, hone, hback, destroy, Option.bind_eq_bind, Option.bind_fun_some]
  split
  next => rfl
  next he =>
    rw [show (s.finish - (position + 1)).toNat = 0 by omega]
    rfl

/-! ## Runs -/

/-- A call, with the copy that throws and the block that `allocate` returns. -/
inductive Act where
  | push_back (x new_start : Int) (throws : Option Nat)
  | insert (position x new_start : Int) (throws : Option Nat)
  | erase (position : Int) (throws : Option Nat)
  | eraseRange (first last : Int) (throws : Option Nat)

/-- The code. -/
def Act.run : Act → State T → Option (State T × Bool)
  | .push_back x new_start throws => Vector.push_back x new_start throws
  | .insert position x new_start throws => Vector.insert position x new_start throws
  | .erase position throws => Vector.erase position throws
  | .eraseRange first last throws => Vector.eraseRange first last throws

/-- The call ends in an exception: the copy that throws is one of those it makes. -/
def Act.stops (a : Act) (s : State T) : Bool :=
  match a with
  | .push_back _ _ throws => throws.any (· < pushCopies s)
  | .insert position _ _ throws => throws.any (· < insertCopies position s)
  | .erase position throws => throws.any (· < (s.finish - (position + 1)).toNat)
  | .eraseRange _ last throws => throws.any (· < (s.finish - last).toNat)

/-- What a call is for, with the value that `x` refers to before it. -/
def Act.effect (s : State T) (items : List T) : Act → List T
  | .push_back x _ _ => items ++ (s.mem x).toList
  | .insert position x _ _ =>
    let n := (position - s.start).toNat
    items.take n ++ (s.mem x).toList ++ items.drop n
  | .erase position _ => items.eraseIdx (position - s.start).toNat
  | .eraseRange first last _ =>
    items.take (first - s.start).toNat ++ items.drop (last - s.start).toNat

/-- What a call leaves that ends in an exception: the list there was, unless elements of the block
were moving. -/
def Act.broken (s : State T) (items : List T) : Act → List T
  | .push_back .. => items
  | .insert position _ _ throws => insertBroken position s (throws.getD 0) items
  | .erase position throws =>
    let n := (position - s.start).toNat
    shifted n (n + 1) (throws.getD 0) items
  | .eraseRange first last throws =>
    shifted (first - s.start).toNat (last - s.start).toNat (throws.getD 0) items

/-- Iterators are in range, `x` refers to an object, and `allocate` returns a raw block. -/
def Act.Legal (s : State T) : Act → Prop
  | .push_back x new_start _ => (s.mem x).isSome ∧ Fresh s new_start
  | .insert position x new_start _ =>
    (s.start ≤ position ∧ position ≤ s.finish) ∧ (s.mem x).isSome ∧ Fresh s new_start
  | .erase position _ => s.start ≤ position ∧ position < s.finish
  | .eraseRange first last _ => s.start ≤ first ∧ first ≤ last ∧ last ≤ s.finish

/-- A step of the code, beside the list the `vector` should hold. -/
def act (a : Act) (x : State T × List T) : Option (State T × List T) :=
  (a.run x.1).map fun r => (r.1, if r.2 then a.broken x.1 x.2 else a.effect x.1 x.2)

/-- Every call leaves a list. -/
theorem Holds.act {a : Act} (h : Holds env s items) (hc : a.Legal s) :
    ∃ s', a.run s = some (s', a.stops s) ∧
      Leaves env s (a.broken s items) (a.effect s items) s' (a.stops s) := by
  have hfin := h.finish
  cases a with
  | push_back x new_start throws =>
    obtain ⟨v, hv⟩ := Option.isSome_iff_exists.1 hc.1
    simpa [Act.run, Act.stops, Act.effect, Act.broken, hv] using push_back_leaves h hv hc.2
  | insert position x new_start throws =>
    obtain ⟨hpos, hx, hfresh⟩ := hc
    obtain ⟨v, hv⟩ := Option.isSome_iff_exists.1 hx
    have hn : (position - s.start).toNat ≤ items.length := by omega
    have := @insert_leaves _ _ _ _ _ _ throws _ _ h hn hv hfresh
    rw [show s.start + ((position - s.start).toNat : Int) = position by omega,
      ← take_cons_drop hn] at this
    simpa [Act.run, Act.stops, Act.effect, Act.broken, hv] using this
  | erase position throws =>
    obtain ⟨h₁, h₂⟩ := hc
    have := @eraseRange_leaves _ _ _ _ throws h (position - s.start).toNat
      ((position - s.start).toNat + 1) (Nat.le_succ _) (by omega)
    rw [Int.natCast_add, ← Int.add_assoc, Int.natCast_one,
      show s.start + ((position - s.start).toNat : Int) = position by omega, ← erase_eq h₂,
      show items.length - ((position - s.start).toNat + 1) = (s.finish - (position + 1)).toNat by omega,
      ← List.eraseIdx_eq_take_drop_succ] at this
    exact this
  | eraseRange first last throws =>
    obtain ⟨h₁, h₂, h₃⟩ := hc
    have := @eraseRange_leaves _ _ _ _ throws h (first - s.start).toNat (last - s.start).toNat
      (by omega) (by omega)
    rw [show s.start + ((first - s.start).toNat : Int) = first by omega,
      show s.start + ((last - s.start).toNat : Int) = last by omega,
      show items.length - (last - s.start).toNat = (s.finish - last).toNat by omega] at this
    exact this

/-- **A `vector` holds a list.** In every run from an empty `vector` the elements are those of the list,
in one block with room for them that is the only one allocated; the rest of that block is raw and
all other objects are as they were. No call fails, also where `x` refers to an element. One that
ends in an exception leaves a list in the block there was (`Act.broken`), and where that is the list
there was, everything is as before. -/
theorem vector_items (h : Run act (⟨env, [], 0, 0, 0⟩, []) (fun a x => a.Legal x.1) (s, items)) :
    (size s = items.length ∧ size s ≤ capacity s) ∧
      (∀ k (hk : k < items.length), item k s = some items[k]) ∧
      (∀ q, s.finish ≤ q → q < s.end_of_storage → s.mem q = none) ∧
      (∀ q, q < s.start ∨ s.finish ≤ q → s.mem q = env q) ∧
      s.blocks = (if s.start ≠ 0 then [(s.start, capacity s)] else []) ∧
      ∀ a : Act, a.Legal s → ∃ s', a.run s = some (s', a.stops s) ∧
        act a (s, items) = some (s', if a.stops s then a.broken s items else a.effect s items) ∧
        (a.stops s = true → s'.start = s.start ∧ s'.end_of_storage = s.end_of_storage ∧
          (a.broken s items = items → s' = s)) := by
  have hholds : Holds env s items := by
    refine h.inv (I := fun x => Holds env x.1 x.2) .start fun a x x' _ hc hs hx => ?_
    obtain ⟨s', hs', hh⟩ := hx.act hc
    rw [act, hs', Option.map_some] at hs
    cases hs
    unfold Leaves at hh
    split at hh
    next hstop =>
      simp only [hstop, if_true]
      exact hh.2.2
    next hstop =>
      simp only [if_neg hstop]
      exact hh
  have hfin := hholds.finish
  have hroom := hholds.room
  refine ⟨⟨hholds.size, ?_⟩, fun k hk => hholds.at hk, fun q h₁ h₂ => ?_, fun q hq => ?_,
    hholds.blocks, fun a hc => ?_⟩
  · unfold size capacity
    omega
  · rw [hholds.mem, laid_out (by omega)]
    exact hholds.raw_at (by omega) h₂
  · rw [hholds.mem, laid_out (by omega)]
  · obtain ⟨s', hs', hh⟩ := hholds.act hc
    refine ⟨s', hs', by rw [act, hs', Option.map_some], fun hstop => ?_⟩
    rw [Leaves, if_pos hstop] at hh
    obtain ⟨hstart, hend, hbroken⟩ := hh
    exact ⟨hstart, hend, fun heq => hholds.unique (heq ▸ hbroken) hstart hend⟩

/-- An element is inserted in front of itself, and the first one erased; then a value is inserted
whose copy throws when the last element has been copied behind the others. -/
theorem vector_items_two : ∃ s s' : State Char,
    (Act.insert 20 100 0 (some 1)).run s = some (s', true) ∧ size s = 1 ∧
      size s' = 2 ∧ item 0 s' = some 'a' ∧ item 1 s' = some 'a' ∧ s'.mem 100 = some 'a' := by
  let env : Objects Char := fun q => if q = 100 then some 'a' else none
  let m₁ := Function.update env 10 (some 'a')
  let m₂ := Function.update (Function.update (Function.update m₁ 20 (some 'a')) 21 (some 'a')) 10 none
  let m₃ := Function.update (Function.update m₂ 20 (some 'a')) 21 none
  let s₁ : State Char := ⟨m₁, [(10, 1)], 10, 11, 11⟩
  let s₂ : State Char := ⟨m₂, [(20, 2)], 20, 22, 22⟩
  let s₃ : State Char := ⟨m₃, [(20, 2)], 20, 21, 22⟩
  let s₄ : State Char := ⟨Function.update m₃ 21 (some 'a'), [(20, 2)], 20, 22, 22⟩
  have hraw : ∀ p n : Nat, p + n < 100 → Raw env p n := by
    intro p n hn q h₁ h₂
    exact if_neg (by omega)
  have hc₁ : (Act.push_back 100 10 none).Legal (⟨env, [], 0, 0, 0⟩ : State Char) :=
    ⟨rfl, fun _ => ⟨by decide, hraw 10 1 (by decide)⟩⟩
  have hc₂ : (Act.insert 10 10 20 none).Legal s₁ := by
    refine ⟨by decide, rfl, fun _ => ⟨by decide, fun q h₁ h₂ => ?_⟩⟩
    show Function.update env 10 (some 'a') q = none
    rw [Function.update_of_ne (by omega)]
    exact hraw 20 2 (by decide) q h₁ h₂
  have hc₃ : (Act.erase 20 none).Legal s₂ := ⟨by decide, by decide⟩
  -- there is room behind the element
  have hc₄ : (Act.insert 20 100 0 (some 1)).Legal s₃ :=
    ⟨⟨by decide, by decide⟩, rfl, fun hfull => absurd hfull (by decide)⟩
  have hs₁ : act (.push_back 100 10 none) (⟨env, [], 0, 0, 0⟩, []) = some (s₁, ['a']) := rfl
  have hs₂ : act (.insert 10 10 20 none) (s₁, ['a']) = some (s₂, ['a', 'a']) := rfl
  have hs₃ : act (.erase 20 none) (s₂, ['a', 'a']) = some (s₃, ['a']) := rfl
  have hs₄ : act (.insert 20 100 0 (some 1)) (s₃, ['a']) = some (s₄, ['a', 'a']) := rfl
  have h₁ := Run.one (C := fun a (x : State Char × List Char) => a.Legal x.1) hc₁ hs₁
  have h₃ := (h₁.step hc₂ hs₂).step hc₃ hs₃
  obtain ⟨⟨hsize, -⟩, hitem, -, hout, -⟩ := vector_items (h₃.step hc₄ hs₄)
  exact ⟨s₃, s₄, rfl, rfl, hsize, hitem 0 (by decide), hitem 1 (by decide), hout 100 (.inr (by decide))⟩

end LearningNotes.Vector
