import Mathlib.Algebra.Order.Group.Int
import Mathlib.Logic.Function.Basic

/-!
# Objects in a row

Memory in which an address has an object or is raw. An object is made where memory is raw, and
assigned to or destroyed where there is one; anything else has no result. The algorithms that copy
ranges have one effect, which is `moved`: what is at the destination afterwards is what was at the
source before. For `copy` and `copyBackward` that holds of ranges that overlap as well, as long as
elements move to the front or to the back. Where an exception ends them, the objects before it have
been moved (`done`); a copy into raw memory that an exception ends has no effect.
-/

namespace LearningNotes

variable {T : Type} {mem : Int → Option T} {p q first last result : Int} {n : Nat} {x : T}

/-- The objects by their addresses. -/
abbrev Objects (T : Type) := Int → Option T

namespace Objects

/-- `construct`: only in memory without an object. -/
def construct (p : Int) (x : T) (mem : Objects T) : Option (Objects T) :=
  match mem p with
  | none => some (Function.update mem p (some x))
  | some _ => none

/-- `*p = x` -/
def assign (p : Int) (x : T) (mem : Objects T) : Option (Objects T) :=
  (mem p).map fun _ => Function.update mem p (some x)

/-- `destroy` of one object. -/
def destroyAt (p : Int) (mem : Objects T) : Option (Objects T) :=
  (mem p).map fun _ => Function.update mem p none

/-- `n` objects from `p` on are destroyed. -/
def destroy : Nat → Int → Objects T → Option (Objects T)
  | 0, _, mem => some mem
  | n + 1, p, mem => do
    let mem ← destroyAt p mem
    destroy n (p + 1) mem

/-- `n` objects from `first` on are assigned to those from `result` on, the first one first. The
assignment numbered `throws` ends in an exception and has no effect. -/
def copy : Nat → Int → Int → Option Nat → Objects T → Option (Objects T × Bool)
  | 0, _, _, _, mem => some (mem, false)
  | n + 1, first, result, throws, mem =>
    if throws = some 0 then some (mem, true)
    else do
      let x ← mem first
      let mem ← assign result x mem
      copy n (first + 1) (result + 1) (throws.map (· - 1)) mem

/-- `n` objects before `last` are assigned to those before `result`, the last one first. -/
def copyBackward : Nat → Int → Int → Option Nat → Objects T → Option (Objects T × Bool)
  | 0, _, _, _, mem => some (mem, false)
  | n + 1, last, result, throws, mem =>
    if throws = some 0 then some (mem, true)
    else do
      let x ← mem (last - 1)
      let mem ← assign (result - 1) x mem
      copyBackward n (last - 1) (result - 1) (throws.map (· - 1)) mem

/-- Copies of `n` objects from `first` on are made in raw memory from `result` on. The copy numbered
`throws` ends in an exception, and the copies made before it are destroyed again. -/
def uninitializedCopy : Nat → Int → Int → Option Nat → Objects T → Option (Objects T × Bool)
  | 0, _, _, _, mem => some (mem, false)
  | n + 1, first, result, throws, mem =>
    if throws = some 0 then some (mem, true)
    else do
      let x ← mem first
      let mem ← construct result x mem
      let (mem, thrown) ← uninitializedCopy n (first + 1) (result + 1) (throws.map (· - 1)) mem
      if thrown then
        let mem ← destroyAt result mem
        some (mem, true)
      else some (mem, false)

/-- The destination has what the source had. -/
def moved (mem : Objects T) (first result : Int) (n : Nat) : Objects T := fun q =>
  if result ≤ q ∧ q < result + n then mem (q - result + first) else mem q

/-- How many of `n` objects are copied when the copy numbered `throws` ends in an exception. -/
def done (throws : Option Nat) (n : Nat) : Nat := throws.elim n (min n)

/-- The objects from `p` on are gone. -/
def cleared (mem : Objects T) (p : Int) (n : Nat) : Objects T := fun q =>
  if p ≤ q ∧ q < p + n then none else mem q

@[simp] theorem construct_eq (h : mem p = none) :
    construct p x mem = some (Function.update mem p (some x)) := by
  simp [construct, h]

@[simp] theorem assign_eq (h : (mem p).isSome) :
    assign p x mem = some (Function.update mem p (some x)) := by
  obtain ⟨y, hy⟩ := Option.isSome_iff_exists.1 h
  simp [assign, hy]

@[simp] theorem destroyAt_eq (h : (mem p).isSome) :
    destroyAt p mem = some (Function.update mem p none) := by
  obtain ⟨y, hy⟩ := Option.isSome_iff_exists.1 h
  simp [destroyAt, hy]

/-- `n` addresses from `p` on have objects. -/
def Full (mem : Objects T) (p : Int) (n : Nat) : Prop := ∀ q, p ≤ q → q < p + n → (mem q).isSome

/-- `n` addresses from `p` on are raw. -/
def Raw (mem : Objects T) (p : Int) (n : Nat) : Prop := ∀ q, p ≤ q → q < p + n → mem q = none

/-- `destroy` of `n` objects. -/
theorem destroy_eq (h : Full mem p n) : destroy n p mem = some (cleared mem p n) := by
  induction n generalizing p mem with
  | zero =>
    simp only [destroy, Option.some.injEq]
    funext q
    simp only [cleared]
    rw [if_neg (by omega)]
  | succ n ih =>
    have hp : (mem p).isSome := h p (Int.le_refl p) (by omega)
    have hrest : Full (Function.update mem p none) (p + 1) n := by
      intro q hq hn
      rw [Function.update_of_ne (by omega)]
      exact h q (by omega) (by omega)
    simp only [destroy, destroyAt_eq hp, Option.bind_eq_bind, Option.bind_some, ih hrest]
    congr 1
    funext q
    simp only [cleared]
    by_cases hq : q = p
    · rw [if_neg (by omega), if_pos (by omega), hq, Function.update_self]
    · rw [Function.update_of_ne hq]
      congr 1
      exact propext (by omega)

theorem moved_zero (mem : Objects T) (first result : Int) : moved mem first result 0 = mem := by
  funext q
  simp only [moved]
  rw [if_neg (by omega)]

/-- After the first object, the rest. -/
theorem moved_succ (h : result ≤ first) (hx : mem first = some x) (n : Nat) :
    moved (Function.update mem result (some x)) (first + 1) (result + 1) n =
      moved mem first result (n + 1) := by
  funext q
  simp only [moved]
  by_cases hq : q = result
  · rw [if_neg (by omega), if_pos (by omega), hq, Function.update_self, ← hx]
    congr 1
    omega
  · rw [Function.update_of_ne hq]
    by_cases hin : result + 1 ≤ q ∧ q < result + 1 + n
    · rw [if_pos hin, if_pos (by omega), Function.update_of_ne (by omega)]
      congr 1
      omega
    · rw [if_neg hin, if_neg (by omega)]

/-- After the last object, those before it. -/
theorem moved_pred (h : last ≤ result) (hx : mem (last - 1) = some x) (n : Nat) :
    moved (Function.update mem (result - 1) (some x)) (last - 1 - n) (result - 1 - n) n =
      moved mem (last - (n + 1 : Nat)) (result - (n + 1 : Nat)) (n + 1) := by
  funext q
  simp only [moved]
  by_cases hq : q = result - 1
  · rw [if_neg (by omega), if_pos (by omega), hq, Function.update_self, ← hx]
    congr 1
    omega
  · rw [Function.update_of_ne hq]
    by_cases hin : result - 1 - n ≤ q ∧ q < result - 1 - n + n
    · rw [if_pos hin, if_pos (by omega), Function.update_of_ne (by omega)]
      congr 1
      omega
    · rw [if_neg hin, if_neg (by omega)]

/-- An assignment leaves objects where there were objects. -/
theorem Full.update {m : Nat} (h : Full mem p m) (q : Int) (x : T) :
    Full (Function.update mem q (some x)) p m := by
  intro k hk hm
  by_cases hkq : k = q
  · simp [hkq]
  · rw [Function.update_of_ne hkq]
    exact h k hk hm

/-- Fewer objects. -/
theorem Full.mono {p' : Int} {m : Nat} (h : Full mem p n) (hp : p ≤ p') (hm : p' + m ≤ p + n) :
    Full mem p' m := fun q h₁ h₂ => h q (by omega) (by omega)

/-- No more copies are made than asked for. -/
theorem done_le (throws : Option Nat) (n : Nat) : done throws n ≤ n := by
  cases throws with
  | none => exact Nat.le_refl n
  | some k => exact Nat.min_le_left n k

/-- The first copy has been made. -/
theorem done_succ {throws : Option Nat} (h : throws ≠ some 0) (n : Nat) :
    done throws (n + 1) = done (throws.map (· - 1)) n + 1 := by
  cases throws with
  | none => rfl
  | some k =>
    have hk : k ≠ 0 := fun he => h (by rw [he])
    simp only [done, Option.map_some, Option.elim_some]
    omega

/-- The copies after the first one. -/
theorem throws_succ {throws : Option Nat} (h : throws ≠ some 0) (n : Nat) :
    (throws.map (· - 1)).any (· < n) = throws.any (· < n + 1) := by
  cases throws with
  | none => rfl
  | some k =>
    have hk : k ≠ 0 := fun he => h (by rw [he])
    simp only [Option.map_some, Option.any_some, decide_eq_decide]
    omega

/-- `copy` to the left moves the objects one after the other, up to the copy that throws. -/
theorem copy_eq {throws : Option Nat} (hs : Full mem first n) (hd : Full mem result n)
    (h : result ≤ first) : copy n first result throws mem =
      some (moved mem first result (done throws n), throws.any (· < n)) := by
  induction n generalizing first result mem throws with
  | zero =>
    have hdone : done throws 0 = 0 := by cases throws <;> simp [done]
    have hany : throws.any (· < 0) = false := by cases throws <;> rfl
    rw [copy, hdone, moved_zero, hany]
  | succ n ih =>
    unfold copy
    split
    next h0 => simp [h0, done, moved_zero]
    next h0 =>
      obtain ⟨x, hx⟩ := Option.isSome_iff_exists.1 (hs first (Int.le_refl _) (by omega))
      have hr : (mem result).isSome := hd result (Int.le_refl _) (by omega)
      have hs' := (hs.mono (show first ≤ first + 1 by omega) (m := n) (by omega)).update result x
      have hd' := (hd.mono (show result ≤ result + 1 by omega) (m := n) (by omega)).update result x
      simp only [hx, assign_eq hr, Option.bind_eq_bind, Option.bind_some, ih hs' hd' (by omega)]
      rw [moved_succ h hx, done_succ h0, throws_succ h0]

/-- `copy_backward` to the right does so from the end. -/
theorem copyBackward_eq {throws : Option Nat} (hs : Full mem (last - n) n)
    (hd : Full mem (result - n) n) (h : last ≤ result) : copyBackward n last result throws mem =
      some (moved mem (last - done throws n) (result - done throws n) (done throws n),
        throws.any (· < n)) := by
  induction n generalizing last result mem throws with
  | zero =>
    have hdone : done throws 0 = 0 := by cases throws <;> simp [done]
    have hany : throws.any (· < 0) = false := by cases throws <;> rfl
    rw [copyBackward, hdone, moved_zero, hany]
  | succ n ih =>
    unfold copyBackward
    split
    next h0 => simp [h0, done, moved_zero]
    next h0 =>
      obtain ⟨x, hx⟩ := Option.isSome_iff_exists.1 (hs (last - 1) (by omega) (by omega))
      have hr : (mem (result - 1)).isSome := hd (result - 1) (by omega) (by omega)
      have hs' := (hs.mono (show last - (n + 1 : Nat) ≤ last - 1 - n by omega) (m := n)
        (by omega)).update (result - 1) x
      have hd' := (hd.mono (show result - (n + 1 : Nat) ≤ result - 1 - n by omega) (m := n)
        (by omega)).update (result - 1) x
      simp only [hx, assign_eq hr, Option.bind_eq_bind, Option.bind_some, ih hs' hd' (by omega)]
      rw [moved_pred h hx, done_succ h0, throws_succ h0]

/-- A copy into raw memory is made, or it has no effect. -/
theorem uninitializedCopy_eq {throws : Option Nat} (hs : Full mem first n) (hd : Raw mem result n)
    (h : ∀ q, first ≤ q → q < first + n → q < result ∨ result + n ≤ q) :
    uninitializedCopy n first result throws mem =
      if throws.any (· < n) then some (mem, true)
      else some (moved mem first result n, false) := by
  induction n generalizing first result mem throws with
  | zero => simp [uninitializedCopy, moved_zero]
  | succ n ih =>
    unfold uninitializedCopy
    split
    next h0 => simp [h0]
    next h0 =>
      obtain ⟨x, hx⟩ := Option.isSome_iff_exists.1 (hs first (Int.le_refl _) (by omega))
      have hr : mem result = none := hd result (Int.le_refl _) (by omega)
      have hs' : Full (Function.update mem result (some x)) (first + 1) n := by
        intro q hq hn
        have := h q (by omega) (by omega)
        rw [Function.update_of_ne (by omega)]
        exact hs q (by omega) (by omega)
      have hd' : Raw (Function.update mem result (some x)) (result + 1) n := by
        intro q hq hn
        rw [Function.update_of_ne (by omega)]
        exact hd q (by omega) (by omega)
      have h' : ∀ q, first + 1 ≤ q → q < first + 1 + n → q < result + 1 ∨ result + 1 + n ≤ q :=
        fun q hq hn => by
          have := h q (by omega) (by omega)
          omega
      simp only [hx, construct_eq hr, Option.bind_eq_bind, Option.bind_some, ih hs' hd' h',
        throws_succ h0]
      split
      · have hfull : ((Function.update mem result (some x)) result).isSome := by simp
        simp only [Option.bind_some, if_true, destroyAt_eq hfull, Function.update_idem]
        rw [← hr, Function.update_eq_self]
      · simp only [Option.bind_some, Bool.false_eq_true, if_false]
        congr 2
        funext q
        simp only [moved]
        by_cases hq : q = result
        · rw [if_neg (by omega), if_pos (by omega), hq, Function.update_self, ← hx]
          congr 1
          omega
        · rw [Function.update_of_ne hq]
          by_cases hin : result + 1 ≤ q ∧ q < result + 1 + n
          · have := h (q - result + first) (by omega) (by omega)
            rw [if_pos hin, if_pos (by omega), Function.update_of_ne (by omega)]
            congr 1
            omega
          · rw [if_neg hin, if_neg (by omega)]

/-- The objects `xs` from `p` on, over what else there is. -/
def laid (mem : Objects T) (p : Int) (xs : List T) : Objects T := fun q =>
  if p ≤ q ∧ q < p + xs.length then xs[(q - p).toNat]? else mem q

variable {mem' : Objects T} {xs ys : List T}

@[simp] theorem laid_nil : laid mem p [] = mem := by
  funext q
  simp only [laid]
  rw [if_neg (by simp)]

/-- An object that lies there. -/
theorem laid_at (mem : Objects T) (p : Int) {i : Nat} (h : i < xs.length) :
    laid mem p xs (p + i) = some xs[i] := by
  simp only [laid]
  rw [if_pos (by omega), show (p + i - p).toNat = i by omega, List.getElem?_eq_getElem h]

/-- Other memory is not touched. -/
theorem laid_out (h : q < p ∨ p + xs.length ≤ q) : laid mem p xs q = mem q := if_neg (by omega)

/-- What makes a memory with objects laid out. -/
theorem eq_laid (hin : ∀ i (h : i < xs.length), mem' (p + i) = some xs[i])
    (hout : ∀ q, q < p ∨ p + xs.length ≤ q → mem' q = mem q) : mem' = laid mem p xs := by
  funext q
  by_cases hq : p ≤ q ∧ q < p + xs.length
  · have h := hin (q - p).toNat (by omega)
    have hl := @laid_at _ xs mem p _ (show (q - p).toNat < xs.length by omega)
    rw [show p + ((q - p).toNat : Int) = q by omega] at h hl
    rw [h, hl]
  · rw [hout q (by omega), laid_out (by omega)]

/-- There are objects at all these places. -/
theorem full_laid (mem : Objects T) (p : Int) (xs : List T) : Full (laid mem p xs) p xs.length := by
  intro q hp hn
  have h := @laid_at _ xs mem p _ (show (q - p).toNat < xs.length by omega)
  rw [show p + ((q - p).toNat : Int) = q by omega] at h
  rw [h, Option.isSome_some]

/-- One of them is assigned to. -/
theorem update_laid (mem : Objects T) (p : Int) {i : Nat} (h : i < xs.length) (x : T) :
    Function.update (laid mem p xs) (p + i) (some x) = laid mem p (xs.set i x) := by
  refine eq_laid (fun j hj => ?_) fun q hq => ?_
  · rw [List.length_set] at hj
    by_cases hji : j = i
    · subst hji
      rw [Function.update_self, List.getElem_set_self]
    · rw [Function.update_of_ne (by omega), laid_at mem p hj, List.getElem_set_ne (Ne.symm hji)]
  · rw [List.length_set] at hq
    rw [Function.update_of_ne (by omega), laid_out hq]

/-- Objects put behind others leave all objects as they are. -/
theorem laid_append {v : T} (h : laid mem p xs q = some v)
    (hraw : Raw mem (p + xs.length) ys.length) : laid mem p (xs ++ ys) q = some v := by
  rw [← h]
  by_cases hin : p ≤ q ∧ q < p + xs.length
  · have h₁ := @laid_at _ xs mem p _ (show (q - p).toNat < xs.length by omega)
    have h₂ := @laid_at _ (xs ++ ys) mem p (q - p).toNat (by simp; omega)
    rw [show p + ((q - p).toNat : Int) = q by omega] at h₁ h₂
    rw [h₁, h₂, List.getElem_append_left]
  · rw [laid_out (by omega)] at h
    have hout : q < p ∨ p + (xs ++ ys).length ≤ q := by
      by_contra hc
      rw [List.length_append] at hc
      rw [hraw q (by omega) (by omega)] at h
      cases h
    rw [laid_out hout, laid_out (by omega)]

/-- One more object behind them. -/
theorem construct_laid (x : T) (h : mem (p + xs.length) = none) :
    construct (p + xs.length) x (laid mem p xs) = some (laid mem p (xs ++ [x])) := by
  have hraw : laid mem p xs (p + xs.length) = none := by
    rw [laid_out (by omega)]
    exact h
  rw [construct_eq hraw]
  congr 1
  refine eq_laid (fun i hi => ?_) fun q hq => ?_
  · rw [List.length_append, List.length_singleton] at hi
    by_cases hlast : i = xs.length
    · subst hlast
      simp
    · rw [Function.update_of_ne (by omega), laid_at mem p (by omega), List.getElem_append_left]
  · rw [List.length_append, List.length_singleton] at hq
    rw [Function.update_of_ne (by omega), laid_out (by omega)]

/-- All of them are destroyed. -/
theorem destroy_laid (h : Raw mem p xs.length) :
    destroy xs.length p (laid mem p xs) = some mem := by
  rw [destroy_eq (full_laid mem p xs)]
  congr 1
  funext q
  simp only [cleared]
  split
  next hq => exact (h q hq.1 hq.2).symm
  next hq => exact laid_out (by omega)

/-- Copies of objects outside are put behind the ones that are there. -/
theorem uninitializedCopy_laid {throws : Option Nat} (hraw : Raw mem p (xs.length + ys.length))
    (hys : ∀ i (h : i < ys.length), mem (first + i) = some ys[i]) :
    uninitializedCopy ys.length first (p + xs.length) throws (laid mem p xs) =
      if throws.any (· < ys.length) then some (laid mem p xs, true)
      else some (laid mem p (xs ++ ys), false) := by
  have hout : ∀ i, i < ys.length → first + i < p ∨ p + xs.length + ys.length ≤ first + i := by
    intro i hi
    by_contra hc
    have h₁ := hraw (first + i) (by omega) (by omega)
    rw [hys i hi] at h₁
    cases h₁
  have hsrc : ∀ i (h : i < ys.length), laid mem p xs (first + i) = some ys[i] := by
    intro i hi
    have := hout i hi
    rw [laid_out (by omega), hys i hi]
  have hfull : Full (laid mem p xs) first ys.length := by
    intro q hq hn
    have h₁ := hsrc (q - first).toNat (by omega)
    rw [show first + ((q - first).toNat : Int) = q by omega] at h₁
    rw [h₁, Option.isSome_some]
  have hdst : Raw (laid mem p xs) (p + xs.length) ys.length := by
    intro q hq hn
    rw [laid_out (by omega)]
    exact hraw q (by omega) (by omega)
  rw [uninitializedCopy_eq hfull hdst fun q hq hn => by
    have := hout (q - first).toNat (by omega)
    omega]
  congr 3
  refine eq_laid (fun i hi => ?_) fun q hq => ?_
  · rw [List.length_append] at hi
    simp only [moved]
    by_cases hlt : i < xs.length
    · rw [if_neg (by omega), laid_at mem p hlt, List.getElem_append_left]
    · rw [if_pos (by omega), List.getElem_append_right (by omega), ← hsrc _ (by omega)]
      congr 1
      omega
  · rw [List.length_append] at hq
    simp only [moved]
    rw [if_neg (by omega), laid_out (by omega)]

end Objects

end LearningNotes
