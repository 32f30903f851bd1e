import LearningNotes.Lib.Linked
import Mathlib.Data.List.Nodup
import Mathlib.Data.List.Range
import Mathlib.Logic.Function.Basic

/-!
# The list in an array

The elements of an array are on two lists, linked by indices: the list that starts at `body`, with
a node in front that holds no element, and the spare list that starts behind index 0. Both end in
the cursor 0. `Shared` says what is on them; each operation is described by what it does to the two
lists.

The two lists share the array between them in every state (`Partition`). Beyond that:
- `insertArr` does not check whether `mallocArr` has found an element. If not, it links index 0
  into the list: what followed the place of insertion is then the spare list.
- `deletArr` with the character of the first node looks for a node in front of it, for ever.
- `selectElem` does not look at the last node, and looks at the first one, which is no element.

`right_iff` says when a sequence of calls does what it should.

Mirroring notes:
- The array is a function; no index that is used is outside of it, by `Partition`.
- Loops have a bound on their rounds. What is printed is left out.
-/

namespace LearningNotes.Lists.Static

/-- `component` -/
structure Component where
  data : UInt8
  cur : Nat
  deriving DecidableEq

/-- The array; what is behind its end is not looked at. -/
abbrev Arr := Nat → Component

/-- `array[i].cur=cur` -/
def setCur (array : Arr) (i cur : Nat) : Arr := Function.update array i ⟨(array i).data, cur⟩

/-- `array[i].data=data` -/
def setData (array : Arr) (i : Nat) (data : UInt8) : Arr :=
  Function.update array i ⟨data, (array i).cur⟩

/-- `' '` -/
def blank : UInt8 := 32

/-! ## The operations -/

/-- The `for` loop of `reserveArr`, for the indices below `n`. -/
def reserveLoop (array : Arr) : Nat → Arr
  | 0 => array
  | n + 1 => Function.update (reserveLoop array n) n ⟨blank, n + 1⟩

/-- `reserveArr`: all of it becomes the spare list. -/
def reserveArr (maxSize : Nat) (array : Arr) : Arr :=
  setCur (reserveLoop array maxSize) (maxSize - 1) 0

/-- `mallocArr`: the first of the spare list. -/
def mallocArr (array : Arr) : Nat × Arr :=
  let i := (array 0).cur
  if (array 0).cur ≠ 0 then (i, setCur array 0 (array i).cur) else (i, array)

/-- `freeArr`: back to the front of the spare list. -/
def freeArr (array : Arr) (k : Nat) : Arr :=
  setCur (setCur array k (array 0).cur) 0 k

/-- A round of the `for` loop of `initArr`: `tempBody` and the array. -/
def initRound (s : Nat × Arr) (i : Nat) : Nat × Arr :=
  let (j, array) := mallocArr s.2
  let array := setCur array s.1 j
  let array := setData array j (UInt8.ofNat (97 + i - 1))
  (j, array)

/-- `initArr`: a head, and behind it the letters from `a` on. -/
def initArr (maxSize : Nat) (array : Arr) : Nat × Arr :=
  let array := reserveArr maxSize array
  let (body, array) := mallocArr array
  let (tempBody, array) := (List.range' 1 4).foldl initRound (body, array)
  (body, setCur array tempBody 0)

/-- `tempBody=array[tempBody].cur`, so many times. -/
def walk (array : Arr) : Nat → Nat → Nat
  | 0, tempBody => tempBody
  | n + 1, tempBody => walk array n (array tempBody).cur

/-- `insertArr` -/
def insertArr (array : Arr) (body add : Nat) (a : UInt8) : Arr :=
  let tempBody := walk array (add - 1) body
  let (insert, array) := mallocArr array
  let array := setCur array insert (array tempBody).cur
  let array := setData array insert a
  setCur array tempBody insert

/-- The first loop of `deletArr`: where the character is, if it is in the list. -/
def findLoop (array : Arr) (a : UInt8) : Nat → Nat → Option (Option Nat)
  | 0, _ => none
  | n + 1, tempBody =>
    if (array tempBody).data ≠ a then
      let tempBody := (array tempBody).cur
      if tempBody = 0 then some none else findLoop array a n tempBody
    else some (some tempBody)

/-- The second loop of `deletArr`: the node in front of `del`. -/
def prevLoop (array : Arr) (del : Nat) : Nat → Nat → Option Nat
  | 0, _ => none
  | n + 1, tempBody =>
    if (array tempBody).cur ≠ del then prevLoop array del n (array tempBody).cur else some tempBody

/-- `deletArr` -/
def deletArr (n : Nat) (array : Arr) (body : Nat) (a : UInt8) : Option Arr := do
  let found ← findLoop array a n body
  match found with
  | none => some array
  | some del =>
    let tempBody ← prevLoop array del n body
    some (freeArr (setCur array tempBody (array del).cur) del)

/-- `selectElem` -/
def selectElem (n : Nat) (array : Arr) (tempBody : Nat) (elem : UInt8) : Option Int :=
  match n with
  | 0 => none
  | n + 1 =>
    if (array tempBody).cur ≠ 0 then
      if (array tempBody).data = elem then some tempBody
      else selectElem n array (array tempBody).cur elem
    else some (-1)

/-- `amendElem` -/
def amendElem (n : Nat) (array : Arr) (body : Nat) (oldElem newElem : UInt8) : Option Arr := do
  let add ← selectElem n array body oldElem
  if add = -1 then some array else some (setData array add.toNat newElem)

/-! ## The two lists -/

/-- A list with its indices. -/
abbrev Cells := List (Nat × Component)

/-- The nodes from `i` on, at most `n`. -/
def follow (array : Arr) : Nat → Nat → Cells
  | 0, _ => []
  | n + 1, i => if i = 0 then [] else (i, array i) :: follow array n (array i).cur

variable (maxSize : Nat) (array : Arr) (body : Nat)

/-- The list that starts at `body`. -/
def list : Cells := follow array maxSize body

/-- What is behind the first node. -/
def elements : Cells := (list maxSize array body).tail

/-- The spare list. -/
def spare : Cells := follow array maxSize (array 0).cur

/-- Both lists end in 0, and each index from 1 on is on exactly one of them. -/
structure Partition : Prop where
  list : Seg 0 Component.cur body (list maxSize array body) 0
  spare : Seg 0 Component.cur (array 0).cur (spare maxSize array) 0
  perm : ((Static.list maxSize array body ++ Static.spare maxSize array).map Prod.fst).Perm
    (List.range' 1 (maxSize - 1))

/-- The list is `l`, and the spare list `sp`. -/
structure Shared (l sp : Cells) : Prop where
  list : Seg 0 Component.cur body l 0
  spare : Seg 0 Component.cur (array 0).cur sp 0
  held : ∀ e ∈ l ++ sp, array e.1 = e.2
  perm : ((l ++ sp).map Prod.fst).Perm (List.range' 1 (maxSize - 1))

variable {maxSize array body} {l l₁ l₂ sp : Cells} {i j t d n add : Nat} {x y : Component}
  {a elem : UInt8}

/-- To go along a list. -/
theorem follow_eq (hseg : Seg 0 Component.cur i l 0) (hheld : ∀ e ∈ l, array e.1 = e.2)
    (hn : l.length ≤ n) : follow array n i = l := by
  induction l generalizing n i with
  | nil =>
    cases n with
    | zero => rfl
    | succ n => exact if_pos hseg
  | cons e l ih =>
    obtain ⟨b, x⟩ := e
    obtain ⟨rfl, hpos, hrest⟩ := hseg
    obtain ⟨n, rfl⟩ := Nat.exists_eq_add_of_le' (show 1 ≤ n from Nat.le_trans (Nat.succ_pos _) hn)
    have hx : array i = x := hheld (i, x) List.mem_cons_self
    rw [follow, if_neg hpos, hx, ih hrest (fun e he => hheld e (List.mem_cons_of_mem _ he))
      (Nat.le_of_succ_le_succ hn)]

namespace Shared

variable (h : Shared maxSize array body l sp)

include h

/-- The two lists are the whole array. -/
theorem length_add : l.length + sp.length = maxSize - 1 := by
  have hlen := h.perm.length_eq
  rwa [List.length_map, List.length_append, List.length_range'] at hlen

/-- No index is in both lists, or twice in one. -/
theorem nodup : ((l ++ sp).map Prod.fst).Nodup := h.perm.nodup_iff.mpr (List.nodup_range' ..)

/-- Index 0 is in neither. -/
theorem pos : ∀ e ∈ l ++ sp, 1 ≤ e.1 := by
  intro e he
  have hmem := h.perm.mem_iff.mp (List.mem_map_of_mem he)
  rw [List.mem_range'_1] at hmem
  exact hmem.1

/-- The list is found. -/
theorem list_eq : Static.list maxSize array body = l :=
  follow_eq h.list (fun e he => h.held e (List.mem_append_left _ he)) (by have := h.length_add; omega)

/-- The spare list is found. -/
theorem spare_eq : Static.spare maxSize array = sp :=
  follow_eq h.spare (fun e he => h.held e (List.mem_append_right _ he))
    (by have := h.length_add; omega)

/-- The two lists are a partition of the indices. -/
theorem partition : Partition maxSize array body where
  list := h.list_eq.symm ▸ h.list
  spare := h.spare_eq.symm ▸ h.spare
  perm := by
    rw [h.list_eq, h.spare_eq]
    exact h.perm

/-- **The same nodes are linked in another way**, by a change of the cells `ks` and of cell 0. -/
theorem relink {array' : Arr} {l' sp' : Cells} (ks : List Nat)
    (hlist : Seg 0 Component.cur body l' 0) (hspare : Seg 0 Component.cur (array' 0).cur sp' 0)
    (hsame : ∀ k, k ≠ 0 → k ∉ ks → array' k = array k)
    (hheld : ∀ e ∈ l' ++ sp', array' e.1 = e.2 ∨ e ∈ l ++ sp ∧ e.1 ∉ ks)
    (hperm : ((l' ++ sp').map Prod.fst).Perm ((l ++ sp).map Prod.fst)) :
    Shared maxSize array' body l' sp' where
  list := hlist
  spare := hspare
  held := by
    intro e he
    obtain hnew | ⟨hold, hks⟩ := hheld e he
    · exact hnew
    · have hpos := h.pos e hold
      rw [hsame e.1 (by omega) hks]
      exact h.held e hold
  perm := hperm.trans h.perm

end Shared

/-- A link is stored. -/
@[simp] theorem setCur_apply (array : Arr) (i cur k : Nat) :
    setCur array i cur k = if k = i then ⟨(array i).data, cur⟩ else array k :=
  Function.update_apply ..

/-- An element is stored. -/
@[simp] theorem setData_apply (array : Arr) (i k : Nat) (data : UInt8) :
    setData array i data k = if k = i then ⟨data, (array i).cur⟩ else array k :=
  Function.update_apply ..

/-! ## `initArr` -/

/-- Each component is linked to the next. -/
theorem reserveLoop_of_lt (h : i < n) : reserveLoop array n i = ⟨blank, i + 1⟩ := by
  induction n with
  | zero => exact absurd h (Nat.not_lt_zero i)
  | succ n ih =>
    rw [reserveLoop, Function.update_apply]
    by_cases hin : i = n
    · rw [if_pos hin, hin]
    · rw [if_neg hin]
      exact ih (by omega)

/-- The cells from `i` on, as `reserveArr` leaves them. -/
def reserved (maxSize i n : Nat) : Cells :=
  (List.range' i n).map fun k => (k, ⟨blank, if k + 1 = maxSize then 0 else k + 1⟩)

/-- The last one ends the list. -/
theorem reserveArr_apply (h : i < maxSize) :
    reserveArr maxSize array i = ⟨blank, if i + 1 = maxSize then 0 else i + 1⟩ := by
  unfold reserveArr
  rw [setCur_apply, reserveLoop_of_lt h, reserveLoop_of_lt (show maxSize - 1 < maxSize by omega)]
  by_cases hlast : i + 1 = maxSize
  · rw [if_pos hlast, if_pos (by omega)]
  · rw [if_neg hlast, if_neg (by omega)]

/-- The components from `i` on are one list. -/
theorem reserved_seg (hi : 1 ≤ i) (hn : i + n = maxSize) :
    Seg 0 Component.cur (if n = 0 then 0 else i) (reserved maxSize i n) 0 := by
  induction n generalizing i with
  | zero => exact rfl
  | succ n ih =>
    have hrest := ih (i := i + 1) (by omega) (by omega)
    refine ⟨if_neg (Nat.succ_ne_zero n), by omega, ?_⟩
    by_cases hzero : n = 0
    · rw [if_pos hzero] at hrest
      dsimp only
      rw [if_pos (by omega)]
      exact hrest
    · rw [if_neg hzero] at hrest
      dsimp only
      rw [if_neg (by omega)]
      exact hrest

/-- An index is given as long as there is one. -/
theorem mallocArr_of_spare (h : (array 0).cur = j) (hj : j ≠ 0) :
    mallocArr array = (j, setCur array 0 (array j).cur) := by
  rw [mallocArr, if_pos (h.symm ▸ hj), h]

/-- The characters of the nodes that `initArr` takes. -/
def letter (k : Nat) : UInt8 := if k = 1 then blank else UInt8.ofNat (95 + k)

/-- The loop of `initArr`, with `i` at the end of the list. -/
structure Filling (maxSize : Nat) (array : Arr) (i : Nat) : Prop where
  spare : (array 0).cur = if i + 1 = maxSize then 0 else i + 1
  last : (array i).data = letter i
  behind : ∀ k, i < k → k < maxSize → array k = ⟨blank, if k + 1 = maxSize then 0 else k + 1⟩
  before : ∀ k, 1 ≤ k → k < i → array k = ⟨letter k, k + 1⟩

/-- One more letter. -/
theorem Filling.step (h : Filling maxSize array i) (hi : 1 ≤ i) (hmax : i + 1 < maxSize) :
    Filling maxSize (setData (setCur (setCur array 0 (array (i + 1)).cur) i (i + 1)) (i + 1)
      (UInt8.ofNat (97 + i - 1))) (i + 1) where
  spare := by
    have hnext := h.behind (i + 1) (by omega) hmax
    rw [setData_apply, if_neg (by omega), setCur_apply, if_neg (by omega), setCur_apply, if_pos rfl,
      hnext]
  last := by
    rw [setData_apply, if_pos rfl, letter, if_neg (by omega), show 97 + i - 1 = 95 + (i + 1) by omega]
  behind := by
    intro k hk hkm
    rw [setData_apply, if_neg (by omega), setCur_apply, if_neg (by omega), setCur_apply,
      if_neg (by omega)]
    exact h.behind k (by omega) hkm
  before := by
    intro k hk hki
    rw [setData_apply, if_neg (by omega), setCur_apply]
    by_cases hlast : k = i
    · rw [if_pos hlast, setCur_apply, if_neg (by omega), h.last, hlast]
    · rw [if_neg hlast, setCur_apply, if_neg (by omega)]
      exact h.before k hk (by omega)

/-- A round of the loop. -/
theorem initRound_filling (h : Filling maxSize array i) (hi : 1 ≤ i) (hmax : i + 1 < maxSize) :
    ∃ array', initRound (i, array) i = (i + 1, array') ∧ Filling maxSize array' (i + 1) := by
  have hspare : (array 0).cur = i + 1 := h.spare.trans (if_neg (by omega))
  refine ⟨_, ?_, h.step hi hmax⟩
  rw [initRound, mallocArr_of_spare hspare (Nat.succ_ne_zero i)]

/-- `k` rounds of the loop, from `i` on. -/
theorem rounds_filling : ∀ (k i : Nat) (array : Arr), 1 ≤ i → i + k < maxSize →
    Filling maxSize array i → ∃ array', (List.range' i k).foldl initRound (i, array) =
      (i + k, array') ∧ Filling maxSize array' (i + k) := by
  intro k
  induction k with
  | zero => exact fun i array _ _ h => ⟨array, rfl, h⟩
  | succ k ih =>
    intro i array hi hmax h
    obtain ⟨array₁, hround, h₁⟩ := initRound_filling h hi (by omega)
    obtain ⟨array₂, hrest, h₂⟩ := ih (i + 1) array₁ (by omega) (by omega) h₁
    refine ⟨array₂, ?_, ?_⟩
    · rw [List.range'_succ, List.foldl_cons, hround, hrest, Nat.add_right_comm, Nat.add_assoc]
    · rwa [Nat.add_right_comm, Nat.add_assoc] at h₂

/-- The list that `initArr` makes. -/
def initial : Cells := (List.range' 1 5).map fun k => (k, ⟨letter k, if k = 5 then 0 else k + 1⟩)

/-- The letters are one list. -/
theorem initial_seg : Seg 0 Component.cur 1 initial 0 := by
  change Seg 0 Component.cur 1
    [(1, ⟨letter 1, 2⟩), (2, ⟨letter 2, 3⟩), (3, ⟨letter 3, 4⟩), (4, ⟨letter 4, 5⟩), (5, ⟨letter 5, 0⟩)] 0
  simp

/-- After `initArr` there are the letters and the spare list. -/
theorem initArr_shared (hmax : 6 ≤ maxSize) (array : Arr) :
    ∃ array', initArr maxSize array = (1, array') ∧
      Shared maxSize array' 1 initial (reserved maxSize 6 (maxSize - 6)) := by
  have hspare : (reserveArr maxSize array 0).cur = 1 := by
    rw [reserveArr_apply (by omega), if_neg (by omega)]
  have hstart : Filling maxSize
      (setCur (reserveArr maxSize array) 0 (reserveArr maxSize array 1).cur) 1 := by
    refine ⟨?_, ?_, ?_, fun k hk hk1 => by omega⟩
    · rw [setCur_apply, if_pos rfl]
      exact congrArg Component.cur (reserveArr_apply (by omega))
    · rw [setCur_apply, if_neg (by omega), reserveArr_apply (by omega)]
      rfl
    · intro k hk hkm
      rw [setCur_apply, if_neg (by omega), reserveArr_apply hkm]
  obtain ⟨array', hrun, h⟩ := rounds_filling 4 1 _ (by omega) (by omega) hstart
  refine ⟨setCur array' 5 0, ?_, ?_⟩
  · rw [initArr, mallocArr_of_spare hspare Nat.one_ne_zero]
    dsimp only
    rw [hrun]
  have hends : (setCur array' 5 0 0).cur = if maxSize - 6 = 0 then 0 else 6 := by
    rw [setCur_apply, if_neg (by omega), h.spare]
    exact if_congr (by omega) rfl rfl
  refine ⟨initial_seg, hends ▸ reserved_seg (by omega) (by omega), ?_, ?_⟩
  · intro e he
    obtain he | he := List.mem_append.mp he
    · obtain ⟨k, hk, rfl⟩ := List.mem_map.mp he
      rw [List.mem_range'_1] at hk
      rw [setCur_apply]
      by_cases hlast : k = 5
      · rw [if_pos hlast, if_pos hlast, h.last, hlast]
      · rw [if_neg hlast, if_neg hlast]
        exact h.before k (by omega) (by omega)
    · obtain ⟨k, hk, rfl⟩ := List.mem_map.mp he
      rw [List.mem_range'_1] at hk
      rw [setCur_apply, if_neg (by omega)]
      exact h.behind k (by omega) (by omega)
  · have hmap : (initial ++ reserved maxSize 6 (maxSize - 6)).map Prod.fst =
        List.range' 1 5 ++ List.range' (1 + 5) (maxSize - 6) := by
      rw [List.map_append, reserved, List.map_map]
      congr 1
      exact List.map_id _
    rw [hmap, List.range'_append_1, show 5 + (maxSize - 6) = maxSize - 1 by omega]

/-! ## `insertArr` -/

/-- The loop that goes to a position. -/
theorem walk_eq (hseg : Seg 0 Component.cur i (l₁ ++ (t, x) :: l₂) 0)
    (hheld : ∀ e ∈ l₁, array e.1 = e.2) : walk array l₁.length i = t := by
  induction l₁ generalizing i with
  | nil => exact hseg.1
  | cons e l₁ ih =>
    obtain ⟨b, y⟩ := e
    obtain ⟨rfl, -, hrest⟩ := hseg
    have hy : array i = y := hheld (i, y) List.mem_cons_self
    rw [List.length_cons, walk, hy]
    exact ih hrest fun e he => hheld e (List.mem_cons_of_mem _ he)

/-- The node at `t`, which is the only one there. -/
theorem Shared.at (h : Shared maxSize array body (l₁ ++ (t, x) :: l₂) sp) :
    array t = x ∧ t ≠ 0 ∧ t ∉ (l₁ ++ l₂ ++ sp).map Prod.fst := by
  have hmem : (t, x) ∈ l₁ ++ (t, x) :: l₂ ++ sp := by simp
  have hpos := h.pos _ hmem
  have hnodup := h.nodup
  rw [List.append_assoc, List.cons_append, List.map_append, List.map_cons, List.nodup_middle,
    List.nodup_cons, ← List.map_append, ← List.append_assoc] at hnodup
  exact ⟨h.held _ hmem, by omega, hnodup.1⟩

/-- The first spare node. -/
theorem Shared.at_spare (h : Shared maxSize array body l ((j, y) :: sp)) :
    (array 0).cur = j ∧ array j = y ∧ j ≠ 0 ∧ j ∉ (l ++ sp).map Prod.fst := by
  have hmem : (j, y) ∈ l ++ (j, y) :: sp := by simp
  have hpos := h.pos _ hmem
  have hnodup := h.nodup
  rw [List.map_append, List.map_cons, List.nodup_middle, List.nodup_cons, ← List.map_append] at hnodup
  exact ⟨h.spare.1, h.held _ hmem, by omega, hnodup.1⟩

/-- The array after an insertion. -/
theorem insertArr_apply (h : Shared maxSize array body (l₁ ++ (t, x) :: l₂) ((j, y) :: sp))
    (hadd : l₁.length = add - 1) (k : Nat) : insertArr array body add a k =
      if k = t then ⟨x.data, j⟩ else if k = j then ⟨a, x.cur⟩
      else if k = 0 then ⟨(array 0).data, y.cur⟩ else array k := by
  obtain ⟨ht, ht0, htn⟩ := h.at
  obtain ⟨hj, hy, hj0, -⟩ := h.at_spare
  have htj : t ≠ j := by
    intro heq
    rw [heq] at htn
    simp at htn
  rw [insertArr, ← hadd, walk_eq h.list fun e he => h.held e (by simp [he]),
    mallocArr_of_spare hj hj0]
  dsimp only
  by_cases hkt : k = t
  · simp [hkt, ht, hy, ht0, htj]
  by_cases hkj : k = j
  · simp [hkj, ht, ht0, hj0, htj.symm]
  by_cases hk0 : k = 0
  · simp [hk0, hy, ht0.symm, hj0.symm]
  · simp [hkt, hkj, hk0]

/-- **An insertion** takes the first spare node. -/
theorem insertArr_shared (h : Shared maxSize array body (l₁ ++ (t, x) :: l₂) ((j, y) :: sp))
    (hadd : l₁.length = add - 1) : Shared maxSize (insertArr array body add a) body
      (l₁ ++ (t, ⟨x.data, j⟩) :: (j, ⟨a, x.cur⟩) :: l₂) sp := by
  obtain ⟨-, ht0, htn⟩ := h.at
  obtain ⟨-, -, hj0, hjn⟩ := h.at_spare
  have happly := insertArr_apply (a := a) h hadd
  obtain ⟨k, hseg₁, hk, -, hseg₂⟩ := seg_append.mp h.list
  obtain ⟨-, -, hspare⟩ := h.spare
  refine h.relink [t, j] (seg_append.mpr ⟨k, hseg₁, hk, ht0, rfl, hj0, hseg₂⟩) ?_ ?_ ?_ ?_
  · rw [happly, if_neg ht0.symm, if_neg hj0.symm, if_pos rfl]
    exact hspare
  · intro k hk0 hk
    rw [List.mem_pair, not_or] at hk
    rw [happly, if_neg hk.1, if_neg hk.2, if_neg hk0]
  · intro e he
    obtain rfl | rfl | he : e = (t, ⟨x.data, j⟩) ∨ e = (j, ⟨a, x.cur⟩) ∨ e ∈ l₁ ++ l₂ ++ sp := by
      grind
    · exact .inl ((happly t).trans (if_pos rfl))
    · have hjt : j ≠ t := fun heq => hjn (by simp [heq])
      exact .inl (by rw [happly, if_neg hjt, if_pos rfl])
    · have het : e.1 ≠ t := fun heq => htn (by grind)
      have hej : e.1 ≠ j := fun heq => hjn (by grind)
      exact .inr ⟨by grind, by simp [het, hej]⟩
  · simp only [List.map_append, List.map_cons, List.append_assoc, List.cons_append]
    exact (List.perm_middle.symm.cons t).append_left _

/-- **An insertion without a spare node** cuts the list behind the place of insertion. -/
theorem insertArr_full (h : Shared maxSize array body (l₁ ++ (t, x) :: l₂) [])
    (hadd : l₁.length = add - 1) : Shared maxSize (insertArr array body add a) body
      (l₁ ++ [(t, ⟨x.data, 0⟩)]) l₂ := by
  obtain ⟨ht, ht0, htn⟩ := h.at
  obtain ⟨k, hseg₁, hk, -, hseg₂⟩ := seg_append.mp h.list
  have hnone : (array 0).cur = 0 := h.spare
  have hmalloc : mallocArr array = (0, array) := by
    rw [mallocArr, if_neg (not_not_intro hnone), hnone]
  have happly : ∀ k, insertArr array body add a k =
      if k = t then ⟨x.data, 0⟩ else if k = 0 then ⟨a, x.cur⟩ else array k := by
    intro k
    rw [insertArr, ← hadd, walk_eq h.list fun e he => h.held e (by simp [he]), hmalloc]
    dsimp only
    by_cases hkt : k = t
    · simp [hkt, ht, ht0]
    by_cases hk0 : k = 0
    · simp [hk0, ht, ht0.symm]
    · simp [hkt, hk0]
  refine h.relink [t] (seg_append.mpr ⟨k, hseg₁, hk, ht0, rfl⟩) ?_ ?_ ?_
    (List.Perm.of_eq (by simp))
  · rw [happly, if_neg ht0.symm, if_pos rfl]
    exact hseg₂
  · intro k hk0 hk
    rw [happly, if_neg (mt List.mem_singleton.mpr hk), if_neg hk0]
  · intro e he
    obtain rfl | he : e = (t, ⟨x.data, 0⟩) ∨ e ∈ l₁ ++ l₂ := by grind
    · exact .inl ((happly t).trans (if_pos rfl))
    · have het : e.1 ≠ t := fun heq => htn (by grind)
      exact .inr ⟨by grind, by simp [het]⟩

/-! ## The loops that search -/

/-- The cursor of the last node is 0, and that of another is not. -/
theorem cur_eq_zero_iff (hseg : Seg 0 Component.cur i ((i, x) :: l) 0) : x.cur = 0 ↔ l = [] := by
  obtain ⟨-, -, hrest⟩ := hseg
  cases l with
  | nil => exact ⟨fun _ => rfl, fun _ => hrest⟩
  | cons e l => exact ⟨fun h => absurd (hrest.1.symm.trans h) hrest.2.1, nofun⟩

/-- The loop of `selectElem` finds the first component with the element. -/
theorem findLoop_eq (hseg : Seg 0 Component.cur i l 0) (hne : l ≠ [])
    (hheld : ∀ e ∈ l, array e.1 = e.2) (hn : l.length ≤ n) :
    findLoop array a n i = some ((l.find? fun e => e.2.data = a).map Prod.fst) := by
  induction l generalizing n i with
  | nil => exact absurd rfl hne
  | cons e l ih =>
    obtain ⟨b, x⟩ := e
    obtain rfl : i = b := hseg.1
    obtain ⟨n, rfl⟩ := Nat.exists_eq_add_of_le' (show 1 ≤ n from Nat.le_trans (Nat.succ_pos _) hn)
    have hx : array i = x := hheld (i, x) List.mem_cons_self
    rw [findLoop, hx]
    by_cases hdata : x.data = a
    · rw [if_neg (not_not_intro hdata), List.find?_cons_of_pos (by simpa using hdata)]
      rfl
    · rw [if_pos hdata, List.find?_cons_of_neg (by simpa using hdata)]
      dsimp only
      by_cases hnil : l = []
      · rw [if_pos ((cur_eq_zero_iff hseg).mpr hnil), hnil]
        rfl
      · rw [if_neg (mt (cur_eq_zero_iff hseg).mp hnil)]
        exact ih hseg.2.2 hnil (fun e he => hheld e (List.mem_cons_of_mem _ he))
          (Nat.le_of_succ_le_succ hn)

/-- `selectElem` does not look at the last component. -/
theorem selectElem_eq (hseg : Seg 0 Component.cur i l 0) (hne : l ≠ [])
    (hheld : ∀ e ∈ l, array e.1 = e.2) (hn : l.length ≤ n) :
    selectElem n array i elem =
      some (((l.dropLast.find? fun e => e.2.data = elem).map fun e => (e.1 : Int)).getD (-1)) := by
  induction l generalizing n i with
  | nil => exact absurd rfl hne
  | cons e l ih =>
    obtain ⟨b, x⟩ := e
    obtain rfl : i = b := hseg.1
    obtain ⟨n, rfl⟩ := Nat.exists_eq_add_of_le' (show 1 ≤ n from Nat.le_trans (Nat.succ_pos _) hn)
    have hx : array i = x := hheld (i, x) List.mem_cons_self
    rw [selectElem, hx]
    by_cases hnil : l = []
    · rw [if_neg (not_not_intro ((cur_eq_zero_iff hseg).mpr hnil)), hnil]
      rfl
    · rw [if_pos (mt (cur_eq_zero_iff hseg).mp hnil), List.dropLast_cons_of_ne_nil hnil]
      by_cases hdata : x.data = elem
      · rw [if_pos hdata, List.find?_cons_of_pos (by simpa using hdata)]
        rfl
      · rw [if_neg hdata, List.find?_cons_of_neg (by simpa using hdata)]
        exact ih hseg.2.2 hnil (fun e he => hheld e (List.mem_cons_of_mem _ he))
          (Nat.le_of_succ_le_succ hn)

/-- The loop that looks for the component before. -/
theorem prevLoop_eq (hseg : Seg 0 Component.cur i (l₁ ++ (t, x) :: (d, y) :: l₂) 0)
    (hheld : ∀ e ∈ l₁ ++ [(t, x)], array e.1 = e.2) (hd : d ∉ (l₁ ++ [(t, x)]).map Prod.fst)
    (hn : l₁.length < n) : prevLoop array d n i = some t := by
  induction l₁ generalizing n i with
  | nil =>
    obtain ⟨n, rfl⟩ := Nat.exists_eq_add_of_le' (show 1 ≤ n from hn)
    obtain ⟨rfl, -, hcur, -⟩ := hseg
    have hx : array i = x := hheld (i, x) List.mem_cons_self
    rw [prevLoop, hx, if_neg (not_not_intro hcur)]
  | cons e l₁ ih =>
    obtain ⟨b, z⟩ := e
    rw [List.length_cons] at hn
    obtain ⟨n, rfl⟩ := Nat.exists_eq_add_of_le' (show 1 ≤ n by omega)
    obtain ⟨rfl, -, hrest⟩ := hseg
    have hz : array i = z := hheld (i, z) List.mem_cons_self
    rw [List.cons_append, List.map_cons, List.mem_cons, not_or] at hd
    -- the next node is not `d`, which comes after `t`
    have hcur : z.cur ≠ d := by
      intro heq
      cases l₁ with
      | nil => exact hd.2 (by simp [← heq, hrest.1])
      | cons e l₁ => exact hd.2 (by simp [← heq, hrest.1])
    rw [prevLoop, hz, if_pos hcur]
    exact ih hrest (fun e he => hheld e (List.mem_cons_of_mem _ he)) hd.2 (by omega)

/-- A cursor is 0, or that of a node behind the first. -/
theorem cur_mem (hseg : Seg 0 Component.cur i l 0) :
    ∀ e ∈ l, e.2.cur = 0 ∨ e.2.cur ∈ l.tail.map Prod.fst := by
  induction l generalizing i with
  | nil => exact fun e he => absurd he List.not_mem_nil
  | cons e l ih =>
    obtain ⟨b, x⟩ := e
    obtain ⟨-, -, hrest⟩ := hseg
    intro e he
    rw [List.tail_cons]
    obtain rfl | he := List.mem_cons.mp he
    · cases l with
      | nil => exact .inl hrest
      | cons e l => exact .inr (by simp [hrest.1])
    · obtain hzero | hmem := ih hrest e he
      · exact .inl hzero
      · exact .inr (List.map_subset _ (List.tail_sublist l).subset hmem)

/-- **There is no node in front of the first one**, on the list, on the spare list, or at 0. -/
theorem prevLoop_none (h : Shared maxSize array body ((body, x) :: l) sp) :
    ∀ i, i = 0 ∨ i ∈ ((body, x) :: l ++ sp).map Prod.fst → prevLoop array body n i = none := by
  have hnodup := h.nodup
  rw [List.cons_append, List.map_cons, List.nodup_cons] at hnodup
  have hbody : body ≠ 0 := h.list.2.1
  induction n with
  | zero => exact fun _ _ => rfl
  | succ n ih =>
    intro i hi
    have hcur : (array i).cur = 0 ∨ (array i).cur ∈ (l ++ sp).map Prod.fst := by
      obtain rfl | hmem := hi
      · cases sp with
        | nil => exact .inl h.spare
        | cons e sp => exact .inr (by simp [h.spare.1])
      · obtain ⟨e, he, rfl⟩ := List.mem_map.mp hmem
        rw [h.held e he]
        obtain he | he := List.mem_append.mp he
        · obtain hzero | htail := cur_mem h.list e he
          · exact .inl hzero
          · exact .inr (List.map_subset _ (List.subset_append_left l sp) htail)
        · obtain hzero | htail := cur_mem h.spare e he
          · exact .inl hzero
          · exact .inr (List.map_subset _ (List.subset_append_right l sp)
              (List.map_subset _ (List.tail_sublist sp).subset htail))
    have hne : (array i).cur ≠ body := by
      intro heq
      obtain hzero | hmem := hcur
      · exact hbody (heq.symm.trans hzero)
      · exact hnodup.1 (heq ▸ hmem)
    rw [prevLoop, if_pos hne]
    exact ih _ (hcur.imp_right fun hmem => List.mem_cons_of_mem _ hmem)

/-! ## `deletArr`, `selectElem` and `amendElem` -/

/-- **A node is taken off the list**, and is the first spare one. -/
theorem unlink_shared (h : Shared maxSize array body (l₁ ++ (t, x) :: (d, y) :: l₂) sp) :
    Shared maxSize (freeArr (setCur array t (array d).cur) d) body
      (l₁ ++ (t, ⟨x.data, y.cur⟩) :: l₂) ((d, ⟨y.data, (array 0).cur⟩) :: sp) := by
  obtain ⟨ht, ht0, htn⟩ := h.at
  have hsplit : l₁ ++ (t, x) :: (d, y) :: l₂ = (l₁ ++ [(t, x)]) ++ (d, y) :: l₂ := by simp
  obtain ⟨hd, hd0, hdn⟩ := (hsplit ▸ h).at
  have htd : t ≠ d := fun heq => hdn (by simp [heq])
  have happly : ∀ k, freeArr (setCur array t (array d).cur) d k =
      if k = 0 then ⟨(array 0).data, d⟩ else if k = d then ⟨y.data, (array 0).cur⟩
      else if k = t then ⟨x.data, y.cur⟩ else array k := by
    intro k
    rw [freeArr]
    by_cases hk0 : k = 0
    · simp [hk0, ht0.symm, hd0.symm]
    by_cases hkd : k = d
    · simp [hkd, hd, hd0, ht0.symm, htd.symm]
    by_cases hkt : k = t
    · simp [hkt, ht, hd, ht0, htd]
    · simp [hk0, hkd, hkt]
  obtain ⟨k, hseg₁, hk, -, -, -, hseg₂⟩ := seg_append.mp h.list
  refine h.relink [d, t] (seg_append.mpr ⟨k, hseg₁, hk, ht0, hseg₂⟩) ?_ ?_ ?_ ?_
  · rw [happly, if_pos rfl]
    exact ⟨rfl, hd0, h.spare⟩
  · intro k hk0 hk
    rw [List.mem_pair, not_or] at hk
    rw [happly, if_neg hk0, if_neg hk.1, if_neg hk.2]
  · intro e he
    obtain rfl | rfl | he : e = (t, ⟨x.data, y.cur⟩) ∨ e = (d, ⟨y.data, (array 0).cur⟩) ∨
        e ∈ l₁ ++ l₂ ++ sp := by grind
    · exact .inl (by rw [happly, if_neg ht0, if_neg htd, if_pos rfl])
    · exact .inl (by rw [happly, if_neg hd0, if_pos rfl])
    · have het : e.1 ≠ t := fun heq => htn (by grind)
      have hed : e.1 ≠ d := fun heq => hdn (by grind)
      exact .inr ⟨by grind, by simp [het, hed]⟩
  · simp only [List.map_append, List.map_cons, List.append_assoc, List.cons_append]
    exact (List.perm_middle.cons t).append_left _

/-- A node gets another character. -/
theorem setData_shared (h : Shared maxSize array body (l₁ ++ (t, x) :: l₂) sp) (v : UInt8) :
    Shared maxSize (setData array t v) body (l₁ ++ (t, ⟨v, x.cur⟩) :: l₂) sp := by
  obtain ⟨ht, ht0, htn⟩ := h.at
  refine h.relink [t] (h.list.replace rfl) ?_ ?_ ?_ (List.Perm.of_eq (by simp))
  · rw [setData_apply, if_neg ht0.symm]
    exact h.spare
  · intro k _ hk
    rw [setData_apply, if_neg (mt List.mem_singleton.mpr hk)]
  · intro e he
    obtain rfl | he : e = (t, ⟨v, x.cur⟩) ∨ e ∈ l₁ ++ l₂ ++ sp := by grind
    · exact .inl (by rw [setData_apply, if_pos rfl, ht])
    · have het : e.1 ≠ t := fun heq => htn (by grind)
      exact .inr ⟨by grind, by simp [het]⟩

/-- The first node is at `body`. -/
theorem Shared.first (h : Shared maxSize array body l sp) (hne : l ≠ []) :
    ∃ x l', l = (body, x) :: l' := by
  cases l with
  | nil => exact absurd rfl hne
  | cons e l =>
    obtain ⟨b, x⟩ := e
    obtain rfl : body = b := h.list.1
    exact ⟨x, l, rfl⟩

/-- **`deletArr` with the character of the first node** does not end. -/
theorem deletArr_first (h : Shared maxSize array body ((body, x) :: l) sp) (hx : x.data = a)
    (hn : maxSize ≤ n) : deletArr n array body a = none := by
  have hlen := h.length_add
  have hfind : findLoop array a n body = some (some body) := by
    rw [findLoop_eq h.list nofun (fun e he => h.held e (List.mem_append_left _ he)) (by omega),
      List.find?_cons_of_pos (by simpa using hx)]
    rfl
  rw [deletArr, hfind, Option.bind_eq_bind, Option.bind_some]
  dsimp only
  rw [prevLoop_none h body (.inr (by simp))]
  rfl

/-- **`deletArr` with another character** takes the first node that has it off the list, if there is
one. -/
theorem deletArr_shared (h : Shared maxSize array body ((body, x) :: l) sp) (hx : x.data ≠ a)
    (hn : maxSize ≤ n) : ∃ array' x' l' sp', deletArr n array body a = some array' ∧
      Shared maxSize array' body ((body, x') :: l') sp' := by
  have hlen := h.length_add
  have hfind : findLoop array a n body = some ((l.find? fun e => e.2.data = a).map Prod.fst) := by
    rw [findLoop_eq h.list nofun (fun e he => h.held e (List.mem_append_left _ he)) (by omega),
      List.find?_cons_of_neg (by simpa using hx)]
  rw [deletArr, hfind, Option.bind_eq_bind, Option.bind_some]
  cases hfound : l.find? (fun e => decide (e.2.data = a)) with
  | none => exact ⟨array, x, l, sp, rfl, h⟩
  | some e =>
    obtain ⟨d, y⟩ := e
    obtain ⟨u, v, rfl⟩ := List.append_of_mem (List.mem_of_find?_eq_some hfound)
    -- the node in front of it
    obtain ⟨l₁, ⟨t, z⟩, hprev⟩ : ∃ l₁ e, (body, x) :: u = l₁ ++ [e] :=
      ⟨_, _, (List.dropLast_append_getLast (List.cons_ne_nil (body, x) u)).symm⟩
    have hsplit : (body, x) :: (u ++ (d, y) :: v) = l₁ ++ (t, z) :: (d, y) :: v := by
      rw [← List.cons_append, hprev, List.append_assoc, List.singleton_append]
    have hd := h
    rw [← List.cons_append, hprev] at hd
    obtain ⟨-, -, hdn⟩ := hd.at
    rw [hsplit] at h hlen
    have hrun : prevLoop array d n body = some t := by
      refine prevLoop_eq h.list (fun e he => h.held e (by grind)) (fun hmem => hdn ?_) ?_
      · rw [List.append_assoc, List.map_append]
        exact List.mem_append_left _ hmem
      · rw [List.length_append, List.length_cons] at hlen
        omega
    have hnew := unlink_shared h
    obtain ⟨x', l', heq⟩ := hnew.first (by simp)
    refine ⟨_, x', l', _, ?_, heq ▸ hnew⟩
    dsimp only [Option.map_some, Option.bind_some]
    rw [hrun]
    rfl

/-- `selectElem` goes through the list without its last node. -/
theorem selectElem_shared (h : Shared maxSize array body ((body, x) :: l) sp) (hn : maxSize ≤ n) :
    selectElem n array body elem =
      some (((((body, x) :: l).dropLast.find? fun e => e.2.data = elem).map
        fun e => (e.1 : Int)).getD (-1)) := by
  have hlen := h.length_add
  exact selectElem_eq h.list nofun (fun e he => h.held e (List.mem_append_left _ he)) (by omega)

/-- `amendElem` changes one element at most. -/
theorem amendElem_shared (h : Shared maxSize array body ((body, x) :: l) sp) (hn : maxSize ≤ n)
    (oldElem newElem : UInt8) : ∃ array' x' l', amendElem n array body oldElem newElem = some array' ∧
      Shared maxSize array' body ((body, x') :: l') sp := by
  rw [amendElem, selectElem_shared h hn, Option.bind_eq_bind, Option.bind_some]
  cases hfound : ((body, x) :: l).dropLast.find? (fun e => decide (e.2.data = oldElem)) with
  | none => exact ⟨array, x, l, rfl, h⟩
  | some e =>
    obtain ⟨t, z⟩ := e
    have hmem := List.mem_of_find?_eq_some hfound
    obtain ⟨u, v, hsplit⟩ := List.append_of_mem (List.dropLast_subset _ hmem)
    have hnew := setData_shared (hsplit ▸ h) newElem
    obtain ⟨x', l', heq⟩ := hnew.first (by simp)
    refine ⟨_, x', l', ?_, heq ▸ hnew⟩
    rw [Option.map_some, Option.getD_some, if_neg (by omega), Int.toNat_natCast]

/-! ## Sequences of calls -/

/-- A call. -/
inductive Op where
  | insertArr (add : Nat) (a : UInt8)
  | deletArr (a : UInt8)
  | amendElem (oldElem newElem : UInt8)
  | selectElem (elem : UInt8)

/-- A call: what it returns, if it returns something, and the array after it. -/
def call (n : Nat) (body : Nat) (array : Arr) : Op → Option (Option Int × Arr)
  | .insertArr add a => some (none, insertArr array body add a)
  | .deletArr a => (deletArr n array body a).map fun array => (none, array)
  | .amendElem oldElem newElem =>
    (amendElem n array body oldElem newElem).map fun array => (none, array)
  | .selectElem elem => (selectElem n array body elem).map fun i => (some i, array)

/-- The array after a sequence of calls, if they all return. -/
def after (n : Nat) (body : Nat) : List Op → Arr → Option Arr
  | [], array => some array
  | op :: ops, array => do
    let (_, array) ← call n body array op
    after n body ops array

section Calls

variable (maxSize n body : Nat)

/-- An insertion is at one of the places that there are. -/
def InRange (array : Arr) : Op → Prop
  | .insertArr add _ => 1 ≤ add ∧ add ≤ (elements maxSize array body).length + 1
  | _ => True

/-- What a call should do beyond keeping the partition. -/
def Demand (array : Arr) (r : Option Int) (array' : Arr) : Op → Prop
  | .insertArr _ _ => spare maxSize array = [] → list maxSize array' body = list maxSize array body
  | .selectElem elem => (∃ e ∈ elements maxSize array body, e.2.data = elem) →
    ∃ e ∈ elements maxSize array body, r = some (e.1 : Int) ∧ e.2.data = elem
  | _ => True

/-- When it does. -/
def Sound (array : Arr) : Op → Prop
  | .insertArr add _ =>
    spare maxSize array = [] → add = (elements maxSize array body).length + 1
  | .deletArr a => (array body).data ≠ a
  | .amendElem _ _ => True
  | .selectElem elem => (∃ e ∈ elements maxSize array body, e.2.data = elem) →
    (array body).data ≠ elem ∧ ∃ e ∈ (elements maxSize array body).dropLast, e.2.data = elem

/-- All insertions of a sequence are in range. -/
def Valid : List Op → Arr → Prop
  | [], _ => True
  | op :: ops, array => InRange maxSize body array op ∧
    ∀ r array', call n body array op = some (r, array') → Valid ops array'

/-- Every call returns and does what it should, and the lists share the array in every state. -/
def Right : List Op → Arr → Prop
  | [], array => Partition maxSize array body
  | op :: ops, array => Partition maxSize array body ∧ ∃ r array',
    call n body array op = some (r, array') ∧ Demand maxSize body array r array' op ∧
      Right ops array'

/-- Every call is sound in the state in which it is made. -/
def Meets : List Op → Arr → Prop
  | [], _ => True
  | op :: ops, array => Sound maxSize body array op ∧
    ∀ r array', call n body array op = some (r, array') → Meets ops array'

end Calls

/-- The component at a position. -/
theorem exists_at (k : Nat) (hk : k < l.length) :
    ∃ l₁ t x l₂, l = l₁ ++ (t, x) :: l₂ ∧ l₁.length = k := by
  refine ⟨l.take k, l[k].1, l[k].2, l.drop (k + 1), ?_, List.length_take_of_le (Nat.le_of_lt hk)⟩
  change l = l.take k ++ l[k] :: l.drop (k + 1)
  rw [List.getElem_cons_drop, List.take_append_drop]

/-- The elements behind the head. -/
theorem Shared.elements_eq (h : Shared maxSize array body ((body, x) :: l) sp) :
    elements maxSize array body = l := by
  rw [elements, h.list_eq, List.tail_cons]

/-- The head's component is in its place. -/
theorem Shared.data_eq (h : Shared maxSize array body ((body, x) :: l) sp) : array body = x :=
  h.held (body, x) (by simp)

/-- The head is not in the rest. -/
theorem Shared.body_notMem (h : Shared maxSize array body ((body, x) :: l) sp) :
    body ∉ l.map Prod.fst := by
  have hnodup := h.nodup
  rw [List.cons_append, List.map_cons, List.nodup_cons, List.map_append, List.mem_append,
    not_or] at hnodup
  exact hnodup.1.1

/-- The place of an insertion in the list. -/
theorem Shared.place (h : Shared maxSize array body ((body, x) :: l) sp)
    (hv : InRange maxSize body array (.insertArr add a)) :
    ∃ l₁ t z l₂, (body, x) :: l = l₁ ++ (t, z) :: l₂ ∧ l₁.length = add - 1 := by
  obtain ⟨hlo, hhi⟩ := hv
  rw [h.elements_eq] at hhi
  exact exists_at (add - 1) (by rw [List.length_cons]; omega)

/-- **A call that returns** leaves two lists that share the array. -/
theorem call_shared (h : Shared maxSize array body ((body, x) :: l) sp) (hn : maxSize ≤ n) {op : Op}
    (hv : InRange maxSize body array op) {r : Option Int} {array' : Arr}
    (hcall : call n body array op = some (r, array')) :
    ∃ x' l' sp', Shared maxSize array' body ((body, x') :: l') sp' := by
  cases op with
  | insertArr add a =>
    obtain rfl : insertArr array body add a = array' := by
      have hpair := Option.some_inj.mp hcall
      exact congrArg Prod.snd hpair
    obtain ⟨l₁, t, z, l₂, hsplit, hadd⟩ := h.place hv
    rw [hsplit] at h
    cases sp with
    | nil =>
      have hnew := insertArr_full (a := a) h hadd
      obtain ⟨x', l', heq⟩ := hnew.first (by simp)
      exact ⟨x', l', _, heq ▸ hnew⟩
    | cons e sp =>
      obtain ⟨j, y⟩ := e
      have hnew := insertArr_shared (a := a) h hadd
      obtain ⟨x', l', heq⟩ := hnew.first (by simp)
      exact ⟨x', l', _, heq ▸ hnew⟩
  | deletArr a =>
    by_cases hx : x.data = a
    · rw [call, deletArr_first h hx hn] at hcall
      cases hcall
    · obtain ⟨array₁, x', l', sp', hrun, hnew⟩ := deletArr_shared h hx hn
      rw [call, hrun] at hcall
      cases hcall
      exact ⟨x', l', sp', hnew⟩
  | amendElem oldElem newElem =>
    obtain ⟨array₁, x', l', hrun, hnew⟩ := amendElem_shared h hn oldElem newElem
    rw [call, hrun] at hcall
    cases hcall
    exact ⟨x', l', sp, hnew⟩
  | selectElem elem =>
    rw [call, selectElem_shared h hn] at hcall
    cases hcall
    exact ⟨x, l, sp, h⟩

/-- **A call does what it should** if and only if it is sound. -/
theorem call_iff (h : Shared maxSize array body ((body, x) :: l) sp) (hn : maxSize ≤ n) {op : Op}
    (hv : InRange maxSize body array op) :
    (∃ r array', call n body array op = some (r, array') ∧ Demand maxSize body array r array' op) ↔
      Sound maxSize body array op := by
  cases op with
  | insertArr add a =>
    obtain ⟨l₁, t, z, l₂, hsplit, hadd⟩ := h.place hv
    have hlen := congrArg List.length hsplit
    rw [List.length_cons, List.length_append, List.length_cons] at hlen
    rw [Sound, h.spare_eq, h.elements_eq]
    have hlist := h.list_eq
    have hspare := h.spare_eq
    rw [hsplit] at h hlist
    cases sp with
    | cons e sp =>
      exact ⟨fun _ => nofun, fun _ => ⟨_, _, rfl, fun hnil => absurd (hspare.symm.trans hnil) nofun⟩⟩
    | nil =>
      -- what followed the place of insertion is no longer on the list
      have hnew := (insertArr_full (a := a) h hadd).list_eq
      obtain ⟨hlo, -⟩ := hv
      constructor
      · rintro ⟨r, array', hcall, hdemand⟩ -
        obtain rfl : insertArr array body add a = array' :=
          congrArg Prod.snd (Option.some_inj.mp hcall)
        have hsame := hdemand hspare
        rw [hnew, hlist] at hsame
        have hlength := congrArg List.length hsame
        rw [List.length_append, List.length_append, List.length_cons, List.length_nil,
          List.length_cons] at hlength
        omega
      · intro hend
        have hnil : l₂ = [] := List.length_eq_zero_iff.mp (by have := hend rfl; omega)
        subst hnil
        have hcur : z.cur = 0 := by
          obtain ⟨k, -, -, -, hcur⟩ := seg_append.mp h.list
          exact hcur
        refine ⟨_, _, rfl, fun _ => ?_⟩
        rw [hnew, hlist, ← hcur]
  | deletArr a =>
    rw [Sound, h.data_eq]
    by_cases hx : x.data = a
    · rw [call, deletArr_first h hx hn]
      exact ⟨fun ⟨_, _, hnone, _⟩ => absurd hnone nofun, fun hne => absurd hx hne⟩
    · obtain ⟨array₁, x', l', sp', hrun, hnew⟩ := deletArr_shared h hx hn
      rw [call, hrun]
      exact ⟨fun _ => hx, fun _ => ⟨_, _, rfl, trivial⟩⟩
  | amendElem oldElem newElem =>
    obtain ⟨array₁, x', l', hrun, hnew⟩ := amendElem_shared h hn oldElem newElem
    rw [call, hrun]
    exact ⟨fun _ => trivial, fun _ => ⟨_, _, rfl, trivial⟩⟩
  | selectElem elem =>
    rw [call, selectElem_shared h hn, Sound, h.elements_eq, h.data_eq]
    constructor
    · rintro ⟨r, array', hr, hdemand⟩ hex
      have hne : l ≠ [] := List.ne_nil_of_mem hex.choose_spec.1
      rw [Demand, h.elements_eq] at hdemand
      obtain ⟨e, he, rfl, hdata⟩ := hdemand hex
      rw [List.dropLast_cons_of_ne_nil hne] at hr
      obtain ⟨hr, -⟩ := Prod.mk.inj (Option.some_inj.mp hr)
      by_cases hx : x.data = elem
      · -- the first node is no element
        rw [List.find?_cons_of_pos (by simpa using hx)] at hr
        have heq : body = e.1 := Int.ofNat_inj.mp (Option.some_inj.mp hr)
        exact absurd (heq ▸ List.mem_map_of_mem he) h.body_notMem
      · rw [List.find?_cons_of_neg (by simpa using hx)] at hr
        cases hfind : l.dropLast.find? (fun e => decide (e.2.data = elem)) with
        | none =>
          rw [hfind] at hr
          have heq : (-1 : Int) = e.1 := Option.some_inj.mp hr
          omega
        | some w =>
          have hw := List.find?_some hfind
          exact ⟨hx, w, List.mem_of_find?_eq_some hfind, of_decide_eq_true hw⟩
    · intro hsound
      refine ⟨_, _, rfl, ?_⟩
      rw [Demand, h.elements_eq]
      intro hex
      have hne : l ≠ [] := List.ne_nil_of_mem hex.choose_spec.1
      obtain ⟨hx, w, hw, hwdata⟩ := hsound hex
      rw [List.dropLast_cons_of_ne_nil hne, List.find?_cons_of_neg (by simpa using hx)]
      cases hfind : l.dropLast.find? (fun e => decide (e.2.data = elem)) with
      | none =>
        have hnone := List.find?_eq_none.mp hfind w hw
        exact absurd (decide_eq_true hwdata) hnone
      | some e =>
        have hdata := List.find?_some hfind
        exact ⟨e, List.dropLast_subset _ (List.mem_of_find?_eq_some hfind), rfl,
          of_decide_eq_true hdata⟩

/-- **A sequence of calls**, by induction on it. -/
theorem right_iff_meets (hn : maxSize ≤ n) (ops : List Op) : ∀ {array x l sp},
    Shared maxSize array body ((body, x) :: l) sp → Valid maxSize n body ops array →
      (Right maxSize n body ops array ↔ Meets maxSize n body ops array) := by
  induction ops with
  | nil => exact fun h _ => ⟨fun _ => trivial, fun _ => h.partition⟩
  | cons op ops ih =>
    intro array x l sp h hv
    obtain ⟨hin, hrest⟩ := hv
    have hiff := call_iff h hn hin
    have hnext : ∀ {r array'}, call n body array op = some (r, array') →
        (Right maxSize n body ops array' ↔ Meets maxSize n body ops array') := by
      intro r array' hcall
      obtain ⟨x', l', sp', h'⟩ := call_shared h hn hin hcall
      exact ih h' (hrest r array' hcall)
    constructor
    · rintro ⟨-, r, array', hcall, hdemand, hright⟩
      refine ⟨hiff.mp ⟨r, array', hcall, hdemand⟩, fun r₁ array₁ hcall₁ => ?_⟩
      obtain ⟨-, rfl⟩ := Prod.mk.inj (Option.some_inj.mp (hcall.symm.trans hcall₁))
      exact (hnext hcall).mp hright
    · rintro ⟨hsound, hmeets⟩
      obtain ⟨r, array', hcall, hdemand⟩ := hiff.mpr hsound
      exact ⟨h.partition, r, array', hcall, hdemand, (hnext hcall).mpr (hmeets r array' hcall)⟩

/-- **The two lists are a partition after any calls.** -/
theorem after_partition (hn : maxSize ≤ n) (ops : List Op) : ∀ {array x l sp},
    Shared maxSize array body ((body, x) :: l) sp → Valid maxSize n body ops array →
      ∀ array', after n body ops array = some array' → Partition maxSize array' body := by
  induction ops with
  | nil =>
    intro array x l sp h _ array' hrun
    cases hrun
    exact h.partition
  | cons op ops ih =>
    intro array x l sp h hv array' hrun
    obtain ⟨⟨r, array₁⟩, hcall, hrest⟩ := Option.bind_eq_some_iff.mp hrun
    obtain ⟨x', l', sp', h'⟩ := call_shared h hn hv.1 hcall
    exact ih h' (hv.2 r array₁ hcall) array' hrest

/-- **The list in an array**: the two lists share the array after all calls that return; and all
calls return and do what they should if and only if they are sound. -/
theorem right_iff (hmax : 6 ≤ maxSize) (hn : maxSize ≤ n) (array₀ : Arr) (ops : List Op)
    (hvalid : Valid maxSize n (initArr maxSize array₀).1 ops (initArr maxSize array₀).2) :
    (∀ array, after n (initArr maxSize array₀).1 ops (initArr maxSize array₀).2 = some array →
      Partition maxSize array (initArr maxSize array₀).1) ∧
    (Right maxSize n (initArr maxSize array₀).1 ops (initArr maxSize array₀).2 ↔
      Meets maxSize n (initArr maxSize array₀).1 ops (initArr maxSize array₀).2) := by
  obtain ⟨array, hinit, h⟩ := initArr_shared hmax array₀
  rw [hinit] at hvalid ⊢
  exact ⟨after_partition hn ops h hvalid, right_iff_meets hn ops h hvalid⟩

/-- The calls of `main`. -/
theorem right_iff_main :
    (∀ array, after 7 (initArr 7 fun _ => ⟨0, 0⟩).1 [.insertArr 3 101, .deletArr 97, .selectElem 101,
        .amendElem 101 104] (initArr 7 fun _ => ⟨0, 0⟩).2 = some array →
      Partition 7 array (initArr 7 fun _ => ⟨0, 0⟩).1) ∧
    (Right 7 7 (initArr 7 fun _ => ⟨0, 0⟩).1 [.insertArr 3 101, .deletArr 97, .selectElem 101,
        .amendElem 101 104] (initArr 7 fun _ => ⟨0, 0⟩).2 ↔
      Meets 7 7 (initArr 7 fun _ => ⟨0, 0⟩).1 [.insertArr 3 101, .deletArr 97, .selectElem 101,
        .amendElem 101 104] (initArr 7 fun _ => ⟨0, 0⟩).2) := by
  have hplace : 3 ≤ (elements 7 (initArr 7 fun _ => ⟨0, 0⟩).2 (initArr 7 fun _ => ⟨0, 0⟩).1).length + 1 := by
    obtain ⟨array, hinit, h⟩ := initArr_shared (show 6 ≤ 7 by decide) fun _ => ⟨0, 0⟩
    rw [hinit, Shared.elements_eq h]
    decide
  exact right_iff (by decide) (by decide) _ _ ⟨⟨by decide, hplace⟩, fun _ _ _ => ⟨trivial, fun _ _ _ =>
    ⟨trivial, fun _ _ _ => ⟨trivial, fun _ _ _ => trivial⟩⟩⟩⟩

/-- `selectElem` does not find the last of the elements that `initArr` makes. -/
theorem last_not_found : ¬ ∀ (maxSize n : Nat) (array₀ : Arr) (ops : List Op), 6 ≤ maxSize →
    maxSize ≤ n → Valid maxSize n (initArr maxSize array₀).1 ops (initArr maxSize array₀).2 →
      Right maxSize n (initArr maxSize array₀).1 ops (initArr maxSize array₀).2 := by
  intro h
  have hright := h 7 7 (fun _ => ⟨0, 0⟩) [.selectElem 100] (by decide) (by decide)
    ⟨trivial, fun _ _ _ => trivial⟩
  obtain ⟨array, hinit, hshared⟩ := initArr_shared (show 6 ≤ 7 by decide) fun _ => ⟨0, 0⟩
  rw [hinit] at hright
  have hvalid : Valid 7 7 1 [.selectElem 100] array := ⟨trivial, fun _ _ _ => trivial⟩
  have hmeets : Meets 7 7 1 [.selectElem 100] array :=
    (right_iff_meets (Nat.le_refl 7) _ hshared hvalid).mp hright
  have hsound := hmeets.1
  rw [Sound, Shared.elements_eq hshared] at hsound
  have hlast := (hsound (by decide)).2
  revert hlast
  decide

end LearningNotes.Lists.Static
