import Mathlib.Algebra.BigOperators.Intervals
import Mathlib.Order.Nat

/-!
# Transfer in pieces

A loop asks a call to transfer what is left of a buffer, and goes on behind what the call has
transferred, until nothing is left or the call returns 0 or fails. What the calls return is a
schedule `res`: the answer of each call, whatever it is asked for.

`total` is the sum of the counts before the first answer that is not positive, and
`loop_spec` is the rule of the loop: what each call preserves holds at the end, when `total`
bytes have been transferred.
-/

namespace LearningNotes.Transfer

/-- The greatest `ssize_t`. -/
@[irreducible] def SSIZE_MAX : Nat := 9223372036854775807

/-- Conversion from `size_t` to `ssize_t`. -/
def cssize (x : Nat) : Int := (x : Int).bmod 18446744073709551616

theorem cssize_of_le {x : Nat} (h : x ≤ SSIZE_MAX) : cssize x = x := by
  unfold SSIZE_MAX at h
  unfold cssize
  rw [Int.bmod_eq_of_le] <;> omega

/-- What a call returns that is asked for so many bytes: how many it has transferred, or -1. -/
structure Reply (asked : Nat) where
  val : Int
  lo : -1 ≤ val
  hi : val ≤ asked

/-- The count in a reply; 0 for -1. -/
def Reply.count {asked : Nat} (r : Reply asked) : Nat := r.val.toNat

/-- -1 -/
def Reply.error (asked : Nat) : Reply asked := ⟨-1, Int.le_refl _, by omega⟩

theorem Reply.count_error (asked : Nat) : (Reply.error asked).count = 0 := rfl

theorem Reply.count_le {asked : Nat} (r : Reply asked) : r.count ≤ asked := by
  have h := r.hi
  unfold Reply.count
  omega

theorem Reply.count_pos {asked : Nat} {r : Reply asked} : 0 < r.count ↔ 0 < r.val := by
  unfold Reply.count
  omega

/-! ## The schedule -/

section Schedule

variable (res : Nat → (asked : Nat) → Reply asked) (n : Nat)

/-- What the `i`-th call is asked for. -/
def asked : Nat → Nat
  | 0 => n
  | i + 1 => asked i - (res i (asked i)).count

/-- What the `i`-th call returns. -/
def result (i : Nat) : Reply (asked res n i) := res i (asked res n i)

variable {res n} {i : Nat}

variable (res n) in
theorem asked_add_sum (i : Nat) :
    asked res n i + ∑ j ∈ Finset.range i, (result res n j).count = n := by
  induction i with
  | zero => rfl
  | succ i ih =>
    have hle : (result res n i).count ≤ asked res n i := Reply.count_le _
    have hasked : asked res n (i + 1) = asked res n i - (result res n i).count := rfl
    rw [Finset.sum_range_succ]
    omega

theorem exists_stop (res : Nat → (asked : Nat) → Reply asked) (n : Nat) :
    ∃ i, (result res n i).count = 0 := by
  by_contra hnot
  -- otherwise each call takes something off what is left
  have hlow : ∀ i, i ≤ ∑ j ∈ Finset.range i, (result res n j).count := by
    intro i
    induction i with
    | zero => exact Nat.zero_le _
    | succ i ih =>
      have hpos : (result res n i).count ≠ 0 := fun h => hnot ⟨i, h⟩
      rw [Finset.sum_range_succ]
      omega
  have hmore := hlow (n + 1)
  have hsum := asked_add_sum res n (n + 1)
  omega

variable (res n) in
/-- The first call that returns 0 or fails, or is asked for nothing. -/
def firstStop : Nat := Nat.find (exists_stop res n)

variable (res n) in
/-- The sum of the positive counts before the first 0 or error. -/
def total : Nat := ∑ i ∈ Finset.range (firstStop res n), (result res n i).count

theorem count_firstStop : (result res n (firstStop res n)).count = 0 :=
  Nat.find_spec (exists_stop res n)

theorem count_pos_of_lt (h : i < firstStop res n) : 0 < (result res n i).count :=
  Nat.pos_of_ne_zero (Nat.find_min (exists_stop res n) h)

theorem total_le : total res n ≤ n := by
  have h := asked_add_sum res n (firstStop res n)
  unfold total
  omega

theorem asked_lt (hpos : 0 < i) (h : i ≤ firstStop res n) : asked res n i < n := by
  obtain ⟨i, rfl⟩ := Nat.exists_eq_add_of_le' (show 1 ≤ i from hpos)
  have hsum := asked_add_sum res n (i + 1)
  have hcount := count_pos_of_lt (show i < firstStop res n by omega)
  rw [Finset.sum_range_succ] at hsum
  omega

end Schedule

/-! ## The loop -/

variable {σ : Type}

/-- `while (nleft > 0)`, with what the function returns after it. -/
def loop (call : (ptr asked : Nat) → σ → Reply asked × σ) (n nleft ptr : Nat) (s : σ) :
    Int × σ :=
  if 0 < nleft then
    let r := call ptr nleft s
    if _ : r.1.val < 0 then
      if nleft = n then (-1, r.2) else (cssize (n - nleft), r.2)
    else if _ : r.1.val = 0 then (cssize (n - nleft), r.2)
    else loop call n (nleft - r.1.count) (ptr + r.1.count) r.2
  else (cssize (n - nleft), s)
termination_by nleft
decreasing_by
  rename_i hneg hzero
  have hnonneg : ¬(call ptr nleft s).1.val < 0 := hneg
  have hne : (call ptr nleft s).1.val ≠ 0 := hzero
  have hpos : 0 < (call ptr nleft s).1.count := Reply.count_pos.mpr (by omega)
  omega

section Rule

variable {call : (ptr asked : Nat) → σ → Reply asked × σ}
  {res : Nat → (asked : Nat) → Reply asked} {n base nleft ptr : Nat} {I : Nat → Nat → σ → Prop}
  {s : σ}

/-- A call that returns 0 or fails ends the loop. -/
theorem loop_stop (hpos : 0 < nleft) (hcount : (call ptr nleft s).1.count = 0) :
    loop call n nleft ptr s =
      (if (call ptr nleft s).1.val < 0 ∧ nleft = n then -1 else cssize (n - nleft),
        (call ptr nleft s).2) := by
  have hle : (call ptr nleft s).1.val ≤ 0 := Int.toNat_eq_zero.mp hcount
  rw [loop, if_pos hpos]
  dsimp only
  by_cases hneg : (call ptr nleft s).1.val < 0
  · by_cases hfirst : nleft = n
    · rw [dif_pos hneg, if_pos hfirst, if_pos ⟨hneg, hfirst⟩]
    · rw [dif_pos hneg, if_neg hfirst, if_neg (fun h => hfirst h.2)]
  · rw [dif_neg hneg, dif_pos (show (call ptr nleft s).1.val = 0 by omega),
      if_neg (fun h => hneg h.1)]

/-- A call that transfers something is one round. -/
theorem loop_more (hcount : 0 < (call ptr nleft s).1.count) :
    loop call n nleft ptr s =
      loop call n (nleft - (call ptr nleft s).1.count) (ptr + (call ptr nleft s).1.count)
        (call ptr nleft s).2 := by
  have hval : 0 < (call ptr nleft s).1.val := Reply.count_pos.mp hcount
  have hle : (call ptr nleft s).1.count ≤ nleft := Reply.count_le _
  rw [loop, if_pos (by omega)]
  dsimp only
  rw [dif_neg (by omega), dif_neg (by omega)]

/-- `I i m` says that `i` calls have transferred `m` bytes, and each call preserves it. -/
structure Preserves (call : (ptr asked : Nat) → σ → Reply asked × σ)
    (res : Nat → (asked : Nat) → Reply asked) (n base : Nat) (I : Nat → Nat → σ → Prop) : Prop where
  reply : ∀ {i m nleft s}, I i m s → m + nleft = n → (call (base + m) nleft s).1 = res i nleft
  next : ∀ {i m nleft s}, I i m s → m + nleft = n → 0 < nleft →
    I (i + 1) (m + (res i nleft).count) (call (base + m) nleft s).2

/-- What the loop returns. -/
def returned (res : Nat → (asked : Nat) → Reply asked) (n : Nat) : Int :=
  if 0 < n ∧ (result res n 0).val < 0 then -1 else cssize (total res n)

/-- The last answer is that of the first call if and only if all is still left. -/
theorem returned_eq (hpos : 0 < asked res n (firstStop res n)) :
    returned res n = if (result res n (firstStop res n)).val < 0 ∧
        asked res n (firstStop res n) = n then -1 else cssize (total res n) := by
  unfold returned
  by_cases hfirst : firstStop res n = 0
  · rw [hfirst] at hpos ⊢
    exact if_congr ⟨fun h => ⟨h.2, rfl⟩, fun h => ⟨hpos, h.1⟩⟩ rfl rfl
  · have hlt := asked_lt (Nat.pos_of_ne_zero hfirst) (Nat.le_refl (firstStop res n))
    have hcount : 0 < (result res n 0).count := count_pos_of_lt (Nat.pos_of_ne_zero hfirst)
    have hval := Reply.count_pos.mp hcount
    rw [if_neg (by omega), if_neg (by omega)]

/-- **The loop from a round on**, by induction on the rounds that follow. -/
theorem loop_from (hI : Preserves call res n base I) {k : Nat} :
    ∀ {i m : Nat} {s : σ}, i + k = firstStop res n → m + asked res n i = n → I i m s →
      ∃ j s', loop call n (asked res n i) (base + m) s = (returned res n, s') ∧
        I j (total res n) s' := by
  induction k with
  | zero =>
    intro i m s hi hm hs
    obtain rfl : i = firstStop res n := hi
    have hsum := asked_add_sum res n (firstStop res n)
    obtain rfl : m = total res n := by unfold total; omega
    have hreply := hI.reply hs hm
    have htotal : n - asked res n (firstStop res n) = total res n := by omega
    by_cases hpos : 0 < asked res n (firstStop res n)
    · -- the call that moves nothing ends the loop
      have hcount : (res (firstStop res n) (asked res n (firstStop res n))).count = 0 :=
        count_firstStop
      have hnext := hI.next hs hm hpos
      rw [hcount, Nat.add_zero] at hnext
      refine ⟨_, _, ?_, hnext⟩
      rw [loop_stop hpos (by rw [hreply, hcount]), hreply, htotal, returned_eq hpos]
      rfl
    · -- all has been transferred, by at least one call unless there was nothing to do
      refine ⟨_, s, ?_, hs⟩
      have hret : returned res n = cssize (total res n) := by
        refine if_neg fun h => ?_
        have hfirst : firstStop res n = 0 :=
          Nat.eq_zero_of_not_pos fun h0 => by
            have hcount : 0 < (result res n 0).count := count_pos_of_lt h0
            have hval := Reply.count_pos.mp hcount
            omega
        rw [hfirst] at hpos
        exact hpos h.1
      rw [loop, if_neg hpos, htotal, hret]
  | succ k ih =>
    intro i m s hi hm hs
    have hcount : 0 < (res i (asked res n i)).count := count_pos_of_lt (by omega)
    have hle : (res i (asked res n i)).count ≤ asked res n i := Reply.count_le _
    have hreply := hI.reply hs hm
    have hnext := hI.next hs hm (Nat.lt_of_lt_of_le hcount hle)
    have hasked : asked res n (i + 1) = asked res n i - (res i (asked res n i)).count := rfl
    obtain ⟨j, s', hrun, hj⟩ := ih (by omega) (by omega) hnext
    refine ⟨j, s', ?_, hj⟩
    rw [loop_more (by rw [hreply]; exact hcount), hreply, Nat.add_assoc, ← hasked, hrun]

/-- **The rule of the loop.** -/
theorem loop_spec (hI : Preserves call res n base I) (hs : I 0 0 s) :
    ∃ j s', loop call n n base s = (returned res n, s') ∧ I j (total res n) s' :=
  loop_from hI (Nat.zero_add _) (Nat.zero_add _) hs

end Rule

end LearningNotes.Transfer
