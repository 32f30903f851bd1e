import LearningNotes.Lib.CInt
import LearningNotes.Lib.Segment
import Mathlib.Algebra.BigOperators.Group.Finset.Piecewise
import Mathlib.Algebra.Order.BigOperators.Group.Finset
import Mathlib.Data.Multiset.Sort
import Mathlib.Data.Prod.Lex

/-!
# The merge of `barrier.c`

Each of `NTHR` threads sorts its segment of `nums`. Behind the barrier `merge` has a cursor
for each segment and takes the least head `NUMNUM` times, the one of the first segment where heads
are equal. A head is only looked at if it is below `LONG_MAX`, and when none is, `minidx` stays what it
was: the last segment something was taken from, or nothing that was ever assigned.

So the values `LONG_MAX`, which come last, are all taken from one segment. That is right if they
are all there.
-/

namespace LearningNotes.Barrier

variable {NTHR TNUM : Nat} {nums snums : Int → CLong} {i k m s t u x : Nat}

/-- Comparison of two `long`s, for `heapsort`. -/
def complong (l1 l2 : CLong) : Int := if l1 = l2 then 0 else if l1 < l2 then -1 else 1

/-- What a thread does: `heapsort` of the `TNUM` elements from `idx` on. -/
def thrFn (TNUM : Nat) (nums : Int → CLong) (idx : Nat) : Int → CLong :=
  storeAt nums idx ((seg nums idx (idx + TNUM - 1)).mergeSort fun a b => complong a b ≤ 0)

/-- `nums` when the first `i` threads have come to the barrier. Their segments have no element in
common, so it does not matter in which order they work. -/
def sorted (TNUM : Nat) (nums : Int → CLong) : Nat → Int → CLong
  | 0 => nums
  | i + 1 => thrFn TNUM (sorted TNUM nums i) (i * TNUM)

/-- The variables of `merge`. `minidx` may not have been assigned yet, and `outside` says that an
element outside the segment of the cursor was read. -/
structure St where
  snums : Int → CLong
  idx : Nat → Nat
  minidx : Option Nat
  sidx : Nat
  outside : Bool

/-- `num` and `minidx` after `i` rounds of the inner `for` loop. -/
def scan (TNUM : Nat) (nums : Int → CLong) (st : St) : Nat → CLong × Option Nat
  | 0 => (⊤, st.minidx)
  | i + 1 =>
    let (num, minidx) := scan TNUM nums st i
    if st.idx i < (i + 1) * TNUM ∧ nums (st.idx i) < num then (nums (st.idx i), some i)
    else (num, minidx)

/-- `snums[sidx] = nums[idx[minidx]]; idx[minidx]++;` -/
def St.take (TNUM : Nat) (nums : Int → CLong) (st : St) (minidx : Nat) : St where
  snums := Function.update st.snums st.sidx (nums (st.idx minidx))
  idx := Function.update st.idx minidx (st.idx minidx + 1)
  minidx := some minidx
  sidx := st.sidx + 1
  outside := st.outside ||
    !decide (minidx * TNUM ≤ st.idx minidx ∧ st.idx minidx < (minidx + 1) * TNUM)

/-- One round of the outer `for` loop. -/
def round (NTHR TNUM : Nat) (nums : Int → CLong) (st : St) : Option St :=
  match (scan TNUM nums st NTHR).2 with
  | none => none
  | some minidx => some (st.take TNUM nums minidx)

def rounds (NTHR TNUM : Nat) (nums : Int → CLong) : Nat → St → Option St
  | 0, st => some st
  | n + 1, st => (round NTHR TNUM nums st).bind (rounds NTHR TNUM nums n)

def merge (NTHR TNUM : Nat) (nums snums : Int → CLong) : Option St :=
  rounds NTHR TNUM nums (NTHR * TNUM) ⟨snums, fun i => i * TNUM, none, 0, false⟩

/-! ## The inner loop -/

/-- Cursor `i` stands on an element below `LONG_MAX`. -/
def Head (TNUM : Nat) (nums : Int → CLong) (st : St) (i : Nat) : Prop :=
  st.idx i < (i + 1) * TNUM ∧ nums (st.idx i) < ⊤

/-- Elements are ordered by value, equal ones by their segment. -/
def key (nums : Int → CLong) (t x : Nat) : CLong ×ₗ Nat := toLex (nums x, t)

theorem key_le : key nums t x ≤ key nums u k ↔ nums x < nums k ∨ nums x = nums k ∧ t ≤ u :=
  Prod.Lex.toLex_le_toLex

theorem key_value (h : key nums t x ≤ key nums u k) : nums x ≤ nums k := by
  rcases key_le.mp h with h | h
  · exact le_of_lt h
  · exact le_of_eq h.1

/-- With no head to take the loop leaves `minidx` alone. Otherwise it is the least head. -/
theorem scan_cases (nums : Int → CLong) (st : St) : ∀ n,
    ((∀ i < n, ¬Head TNUM nums st i) ∧ scan TNUM nums st n = (⊤, st.minidx)) ∨
    ∃ m < n, Head TNUM nums st m ∧ scan TNUM nums st n = (nums (st.idx m), some m) ∧
      ∀ i < n, st.idx i < (i + 1) * TNUM → key nums m (st.idx m) ≤ key nums i (st.idx i)
  | 0 => .inl ⟨fun _ h => absurd h (Nat.not_lt_zero _), rfl⟩
  | n + 1 => by
    unfold scan
    rcases scan_cases nums st n with ⟨hnone, hscan⟩ | ⟨m, hm, hhead, hscan, hle⟩
    · rw [hscan]
      dsimp only
      by_cases hn : st.idx n < (n + 1) * TNUM ∧ nums (st.idx n) < ⊤
      · rw [if_pos hn]
        refine .inr ⟨n, Nat.lt_succ_self n, hn, rfl, ?_⟩
        intro i hi hin
        rcases Nat.lt_or_eq_of_le (Nat.le_of_lt_succ hi) with hlt | rfl
        · -- the heads passed so far were all `LONG_MAX`
          have htop : nums (st.idx i) = ⊤ :=
            not_lt_top_iff.mp fun h => hnone i hlt ⟨hin, h⟩
          exact key_le.mpr (.inl (htop ▸ hn.2))
        · exact le_refl _
      · rw [if_neg hn]
        refine .inl ⟨?_, rfl⟩
        intro i hi
        rcases Nat.lt_or_eq_of_le (Nat.le_of_lt_succ hi) with hlt | rfl
        · exact hnone i hlt
        · exact hn
    · rw [hscan]
      dsimp only
      by_cases hn : st.idx n < (n + 1) * TNUM ∧ nums (st.idx n) < nums (st.idx m)
      · rw [if_pos hn]
        refine .inr ⟨n, Nat.lt_succ_self n, ⟨hn.1, lt_trans hn.2 hhead.2⟩, rfl, ?_⟩
        intro i hi hin
        rcases Nat.lt_or_eq_of_le (Nat.le_of_lt_succ hi) with hlt | rfl
        · exact key_le.mpr (.inl (lt_of_lt_of_le hn.2 (key_value (hle i hlt hin))))
        · exact le_refl _
      · rw [if_neg hn]
        refine .inr ⟨m, Nat.lt_succ_of_lt hm, hhead, rfl, ?_⟩
        intro i hi hin
        rcases Nat.lt_or_eq_of_le (Nat.le_of_lt_succ hi) with hlt | rfl
        · exact hle i hlt hin
        · have hge : nums (st.idx m) ≤ nums (st.idx i) := not_lt.mp fun h => hn ⟨hin, h⟩
          -- equal heads: the first one stays
          rcases lt_or_eq_of_le hge with h | h
          · exact key_le.mpr (.inl h)
          · exact key_le.mpr (.inr ⟨h, Nat.le_of_lt hm⟩)

/-! ## What the outer loop keeps -/

/-- What was taken stands in `snums` in order, and in each segment it is what lies before the
cursor. Nothing of it is above what is left, and what was taken last is the greatest of it. -/
structure Merging (NTHR TNUM : Nat) (nums : Int → CLong) (st : St) : Prop where
  lo : ∀ i < NTHR, i * TNUM ≤ st.idx i
  hi : ∀ i < NTHR, st.idx i ≤ (i + 1) * TNUM
  out : (seg st.snums 0 (st.sidx - 1) : Multiset CLong)
    = ∑ i ∈ Finset.range NTHR, (seg nums (i * TNUM : Nat) (st.idx i - 1) : Multiset CLong)
  asc : Ascending st.snums 0 (st.sidx - 1)
  below : ∀ t < NTHR, ∀ k, t * TNUM ≤ k → k < st.idx t →
    ∀ u < NTHR, ∀ x, st.idx u ≤ x → x < (u + 1) * TNUM → key nums t k ≤ key nums u x
  fresh : st.sidx = 0 → st.minidx = none
  last : st.sidx ≠ 0 → ∃ s < NTHR, st.minidx = some s ∧ s * TNUM < st.idx s ∧
    st.snums (st.sidx - 1) = nums (st.idx s - 1 : Nat) ∧
    ∀ t < NTHR, ∀ k, t * TNUM ≤ k → k < st.idx t → key nums t k ≤ key nums s (st.idx s - 1)
  inside : st.outside = false

theorem Merging.start (NTHR TNUM : Nat) (nums snums : Int → CLong) :
    Merging NTHR TNUM nums ⟨snums, fun i => i * TNUM, none, 0, false⟩ := by
  refine ⟨fun _ _ => Nat.le_refl _, fun i _ => Nat.mul_le_mul_right _ (Nat.le_succ i), ?_,
    .of_le (by dsimp only; omega), ?_, fun _ => rfl, fun h => absurd rfl h, rfl⟩
  · rw [Finset.sum_eq_zero]
    · rfl
    · intro i _
      rw [seg_eq_nil (by dsimp only; omega)]
      rfl
  · intro t _ k hlo hk
    exact absurd hk (Nat.not_lt.mpr hlo)

/-- The elements before the cursors are as many as were taken. -/
theorem Merging.count {st : St} (h : Merging NTHR TNUM nums st) :
    ∑ i ∈ Finset.range NTHR, (st.idx i - i * TNUM) = st.sidx := by
  have hcard := congrArg Multiset.card h.out
  rw [Multiset.card_sum, Multiset.coe_card, length_seg] at hcard
  have hterm : ∀ i ∈ Finset.range NTHR, st.idx i - i * TNUM
      = Multiset.card (seg nums (i * TNUM : Nat) (st.idx i - 1) : Multiset CLong) := by
    intro i _
    rw [Multiset.coe_card, length_seg]
    omega
  rw [Finset.sum_congr rfl hterm, ← hcard]
  omega

theorem sum_update_add {M : Type} [AddCommMonoid M] {n : Nat} (h : m < n) (f : Nat → M) (b : M) :
    ∑ i ∈ Finset.range n, Function.update f m (f m + b) i = ∑ i ∈ Finset.range n, f i + b := by
  have hm := Finset.mem_range.mpr h
  rw [Finset.sum_update_of_mem hm, Finset.sum_eq_add_sum_sdiff_singleton_of_mem hm f, add_right_comm]

theorem sum_const (NTHR TNUM : Nat) : ∑ _i ∈ Finset.range NTHR, TNUM = NTHR * TNUM := by simp

/-- While something is left, some cursor has an element. -/
theorem Merging.exists_left {st : St} (h : Merging NTHR TNUM nums st) (hlt : st.sidx < NTHR * TNUM) :
    ∃ i < NTHR, st.idx i < (i + 1) * TNUM := by
  rw [← h.count, ← sum_const NTHR TNUM] at hlt
  obtain ⟨i, hi, hidx⟩ := Finset.exists_lt_of_sum_lt hlt
  refine ⟨i, Finset.mem_range.mp hi, ?_⟩
  have := h.lo i (Finset.mem_range.mp hi)
  rw [Nat.succ_mul]
  omega

theorem Merging.done {st : St} (h : Merging NTHR TNUM nums st) (heq : st.sidx = NTHR * TNUM) :
    ∀ i < NTHR, st.idx i = (i + 1) * TNUM := by
  rw [← h.count, ← sum_const NTHR TNUM] at heq
  have hle : ∀ i ∈ Finset.range NTHR, st.idx i - i * TNUM ≤ TNUM := by
    intro i hi
    have := h.hi i (Finset.mem_range.mp hi)
    rw [Nat.succ_mul] at this
    omega
  have hall := (Finset.sum_eq_sum_iff_of_le hle).mp heq
  intro i hi
  have := hall i (Finset.mem_range.mpr hi)
  have := h.lo i hi
  rw [Nat.succ_mul]
  by_cases hT : TNUM = 0
  · have := h.hi i hi
    rw [Nat.succ_mul] at this
    omega
  · omega

/-- The element that is taken is not above any that is left. -/
theorem Merging.take {st : St} (h : Merging NTHR TNUM nums st) (hm : m < NTHR)
    (hin : st.idx m < (m + 1) * TNUM)
    (hle : ∀ u < NTHR, ∀ x, st.idx u ≤ x → x < (u + 1) * TNUM →
      key nums m (st.idx m) ≤ key nums u x) :
    Merging NTHR TNUM nums (st.take TNUM nums m) := by
  have hidx : ∀ i, (st.take TNUM nums m).idx i = if i = m then st.idx m + 1 else st.idx i :=
    fun i => Function.update_apply ..
  have hgrow : ∀ i k, k < st.idx i → k < (st.take TNUM nums m).idx i := by
    intro i k hk
    rw [hidx]
    split
    · rename_i him
      rw [him] at hk
      omega
    · exact hk
  have hbefore : ∀ k : Int, k < st.sidx → (st.take TNUM nums m).snums k = st.snums k :=
    fun k hk => Function.update_of_ne (by omega) ..
  have hnew : (st.take TNUM nums m).snums st.sidx = nums (st.idx m) := Function.update_self ..
  -- the element that is taken is an upper bound of all that have been taken
  have hmax : ∀ t < NTHR, ∀ k, t * TNUM ≤ k → k < (st.take TNUM nums m).idx t →
      key nums t k ≤ key nums m (st.idx m) := by
    intro t ht k hlo hk
    rw [hidx] at hk
    by_cases hlast : t = m ∧ k = st.idx m
    · rw [hlast.1, hlast.2]
    · apply h.below t ht k hlo _ m hm _ (Nat.le_refl _) hin
      split at hk
      · rename_i htm
        rw [htm]
        omega
      · exact hk
  refine ⟨?_, ?_, ?_, ?_, ?_, ?_, ?_, ?_⟩
  · intro i hi
    rcases Nat.lt_or_ge ((st.take TNUM nums m).idx i) (i * TNUM) with hlt | hge
    · have := hgrow i _ (Nat.lt_of_lt_of_le hlt (h.lo i hi))
      omega
    · exact hge
  · intro i hi
    rw [hidx]
    split
    · rename_i him
      rw [him]
      exact hin
    · exact h.hi i hi
  · -- the output grows by one element at its end, and so does the part taken of thread `m`
    have hseg : seg (st.take TNUM nums m).snums 0 st.sidx
        = seg st.snums 0 (st.sidx - 1) ++ [nums (st.idx m)] := by
      have hcat := seg_concat (st.take TNUM nums m).snums
        (show (0 : Int) ≤ (st.sidx : Int) - 1 + 1 by omega)
      rw [show (st.sidx : Int) - 1 + 1 = st.sidx by omega] at hcat
      rw [hcat, hnew, seg_congr fun k _ hk => hbefore k (by omega)]
    have hterm : (fun i => (seg nums (i * TNUM : Nat) ((st.take TNUM nums m).idx i - 1) : Multiset CLong))
        = Function.update (fun i => (seg nums (i * TNUM : Nat) (st.idx i - 1) : Multiset CLong)) m
          ((seg nums (m * TNUM : Nat) (st.idx m - 1) : Multiset CLong) + {nums (st.idx m)}) := by
      funext i
      rw [Function.update_apply, hidx]
      split
      · rename_i him
        have hlo := h.lo m hm
        have hcat := seg_concat nums (show ((m * TNUM : Nat) : Int) ≤ (st.idx m : Int) - 1 + 1 by omega)
        rw [show (st.idx m : Int) - 1 + 1 = st.idx m by omega] at hcat
        rw [him, show ((st.idx m + 1 : Nat) : Int) - 1 = st.idx m by omega, hcat]
        rfl
      · rfl
    show (seg (st.take TNUM nums m).snums 0 ((st.sidx + 1 : Nat) - 1) : Multiset CLong) = _
    rw [show ((st.sidx + 1 : Nat) : Int) - 1 = st.sidx by omega, hseg, hterm,
      sum_update_add hm, ← h.out, ← Multiset.coe_add]
    rfl
  · intro i j hi hij hj
    have hj' : j ≤ st.sidx := by
      have hsidx : ((st.take TNUM nums m).sidx : Int) = st.sidx + 1 := Int.natCast_succ _
      omega
    by_cases hjs : j = st.sidx
    · by_cases his : i = st.sidx
      · rw [his, hjs]
      · obtain ⟨s, hs, _, hpos, hval, _⟩ := h.last (by omega)
        -- it is not below the last one of the output, which was a minimum too
        have hprev : st.snums i ≤ st.snums (st.sidx - 1) := h.asc i _ hi (by omega) (Int.le_refl _)
        have hkey := hmax s hs (st.idx s - 1) (by omega) (hgrow s _ (by omega))
        rw [hjs, hnew, hbefore i (by omega)]
        exact le_trans hprev (hval ▸ key_value hkey)
    · rw [hbefore i (by omega), hbefore j (by omega)]
      exact h.asc i j hi hij (by omega)
  · intro t ht k hlo hk u hu x hx hxu
    have hx' : st.idx u ≤ x := Nat.le_of_not_lt fun hlt => Nat.not_lt.mpr hx (hgrow u x hlt)
    exact le_trans (hmax t ht k hlo hk) (hle u hu x hx' hxu)
  · intro h0
    exact absurd h0 (Nat.succ_ne_zero _)
  · intro _
    have hm' : (st.take TNUM nums m).idx m = st.idx m + 1 := by rw [hidx, if_pos rfl]
    have hlo := h.lo m hm
    refine ⟨m, hm, rfl, by omega, ?_, ?_⟩
    · rw [hm', Nat.add_sub_cancel, ← hnew]
      congr 1
      show ((st.sidx + 1 : Nat) : Int) - 1 = st.sidx
      omega
    · rw [hm', Nat.add_sub_cancel]
      exact hmax
  · show (st.outside || !decide _) = false
    rw [h.inside, decide_eq_true ⟨h.lo m hm, hin⟩]
    rfl

/-! ## Two phases

While some head is below `LONG_MAX` the least head is taken. Then `LONG_MAX` is all that is left, and
every round takes from the segment of the round before. -/

def SegmentsSorted (NTHR TNUM : Nat) (nums : Int → CLong) : Prop :=
  ∀ i < NTHR, Ascending nums (i * TNUM : Nat) (((i + 1) * TNUM : Nat) - 1)

/-- Everything left is `LONG_MAX`. -/
def Drained (NTHR TNUM : Nat) (nums : Int → CLong) (st : St) : Prop :=
  ∀ u < NTHR, ∀ x, st.idx u ≤ x → x < (u + 1) * TNUM → nums x = ⊤

/-- Nothing that was taken is `LONG_MAX`. -/
def Small (NTHR TNUM : Nat) (nums : Int → CLong) (st : St) : Prop :=
  ∀ t < NTHR, ∀ k, t * TNUM ≤ k → k < st.idx t → nums k ≠ ⊤

theorem le_idx_take (st : St) (m i : Nat) : st.idx i ≤ (st.take TNUM nums m).idx i := by
  show st.idx i ≤ Function.update st.idx m (st.idx m + 1) i
  rw [Function.update_apply]
  split
  · rename_i him
    rw [him]
    omega
  · exact Nat.le_refl _

theorem round_drained {st : St} (h : Drained NTHR TNUM nums st) :
    round NTHR TNUM nums st = st.minidx.map (st.take TNUM nums) := by
  rcases scan_cases nums st NTHR with ⟨_, hscan⟩ | ⟨m, hm, hhead, _⟩
  · unfold round
    rw [hscan]
    cases st.minidx with
    | none => rfl
    | some m => rfl
  · exact absurd (h m hm _ (Nat.le_refl _) hhead.1) (ne_of_lt hhead.2)

theorem Drained.take {st : St} (h : Drained NTHR TNUM nums st) (m : Nat) :
    Drained NTHR TNUM nums (st.take TNUM nums m) :=
  fun u hu x hx hxu => h u hu x (Nat.le_trans (le_idx_take st m u) hx) hxu

/-- Either the least head is taken or nothing below `LONG_MAX` is left. -/
theorem Merging.round {st : St} (h : Merging NTHR TNUM nums st) (hsort : SegmentsSorted NTHR TNUM nums) :
    Drained NTHR TNUM nums st ∨
    ∃ m < NTHR, Head TNUM nums st m ∧ round NTHR TNUM nums st = some (st.take TNUM nums m) ∧
      Merging NTHR TNUM nums (st.take TNUM nums m) := by
  have hrest : ∀ u < NTHR, ∀ x, st.idx u ≤ x → x < (u + 1) * TNUM → nums (st.idx u) ≤ nums x := by
    intro u hu x hx hxu
    have := h.lo u hu
    exact hsort u hu _ _ (by omega) (by omega) (by omega)
  rcases scan_cases nums st NTHR with ⟨hnone, _⟩ | ⟨m, hm, hhead, hscan, hle⟩
  · refine .inl fun u hu x hx hxu => ?_
    have htop : nums (st.idx u) = ⊤ :=
      not_lt_top_iff.mp fun hlt => hnone u hu ⟨Nat.lt_of_le_of_lt hx hxu, hlt⟩
    exact top_le_iff.mp (htop ▸ hrest u hu x hx hxu)
  · refine .inr ⟨m, hm, hhead, ?_, h.take hm hhead.1 fun u hu x hx hxu => ?_⟩
    · unfold Barrier.round
      rw [hscan]
    · apply le_trans (hle u hu (Nat.lt_of_le_of_lt hx hxu))
      rcases lt_or_eq_of_le (hrest u hu x hx hxu) with hlt | heq
      · exact key_le.mpr (.inl hlt)
      · exact key_le.mpr (.inr ⟨heq, Nat.le_refl u⟩)

theorem Small.take {st : St} (h : Small NTHR TNUM nums st) (hm : Head TNUM nums st m) :
    Small NTHR TNUM nums (st.take TNUM nums m) := by
  intro t ht k hlo hk
  by_cases hlast : t = m ∧ k = st.idx m
  · rw [hlast.2]
    exact ne_of_lt hm.2
  · apply h t ht k hlo
    have hk : k < Function.update st.idx m (st.idx m + 1) t := hk
    rw [Function.update_apply] at hk
    split at hk
    · rename_i htm
      rw [htm]
      omega
    · exact hk

/-- The first phase comes to its end. -/
theorem exists_drained (hsort : SegmentsSorted NTHR TNUM nums) : ∀ (n : Nat) (st : St),
    Merging NTHR TNUM nums st → Small NTHR TNUM nums st → st.sidx + n = NTHR * TNUM →
    ∃ j st', j ≤ n ∧ rounds NTHR TNUM nums j st = some st' ∧ st'.sidx = st.sidx + j ∧
      Merging NTHR TNUM nums st' ∧ Small NTHR TNUM nums st' ∧ Drained NTHR TNUM nums st'
  | 0, st, h, hs, hn => by
    refine ⟨0, st, Nat.le_refl 0, rfl, rfl, h, hs, fun u hu x hx hxu => ?_⟩
    have := h.done hn u hu
    omega
  | n + 1, st, h, hs, hn => by
    rcases h.round hsort with hd | ⟨m, hm, hhead, hround, h'⟩
    · exact ⟨0, st, Nat.zero_le _, rfl, rfl, h, hs, hd⟩
    · obtain ⟨j, st', hj, hrun, hidx, hrest⟩ := exists_drained hsort n _ h' (hs.take hhead)
        (show st.sidx + 1 + n = NTHR * TNUM by omega)
      refine ⟨j + 1, st', by omega, ?_, ?_, hrest⟩
      · unfold rounds
        rw [hround]
        exact hrun
      · rw [hidx]
        show st.sidx + 1 + j = st.sidx + (j + 1)
        omega

theorem rounds_succ (n : Nat) (st : St) : rounds NTHR TNUM nums (n + 1) st
    = (round NTHR TNUM nums st).bind (rounds NTHR TNUM nums n) := rfl

theorem rounds_add : ∀ (j n : Nat) (st : St),
    rounds NTHR TNUM nums (j + n) st = (rounds NTHR TNUM nums j st).bind (rounds NTHR TNUM nums n)
  | 0, n, st => by
    rw [Nat.zero_add]
    rfl
  | j + 1, n, st => by
    rw [show j + 1 + n = j + n + 1 by omega, rounds_succ, rounds_succ, Option.bind_assoc]
    congr 1
    funext st'
    exact rounds_add j n st'

/-- With everything that is left in the segment taken from last, the second phase goes through. -/
theorem Merging.rest (hs : s < NTHR) : ∀ (n : Nat) (st : St),
    Merging NTHR TNUM nums st → Drained NTHR TNUM nums st → st.sidx + n = NTHR * TNUM →
    st.minidx = some s → (∀ t < NTHR, t ≠ s → st.idx t = (t + 1) * TNUM) →
    ∃ st', rounds NTHR TNUM nums n st = some st' ∧ st'.sidx = NTHR * TNUM ∧
      Merging NTHR TNUM nums st'
  | 0, st, h, _, hn, _, _ => ⟨st, rfl, hn, h⟩
  | n + 1, st, h, hd, hn, hmin, hother => by
    obtain ⟨i, hi, hleft⟩ := h.exists_left (by omega)
    have his : i = s := by
      apply Classical.byContradiction
      intro hne
      have := hother i hi hne
      omega
    rw [his] at hleft
    have h' := h.take hs hleft fun u hu x hx hxu => by
      have hus : u = s := by
        apply Classical.byContradiction
        intro hne
        have := hother u hu hne
        omega
      rw [key_le, hd s hs _ (Nat.le_refl _) hleft, hd u hu x hx hxu, hus]
      exact .inr ⟨rfl, Nat.le_refl s⟩
    have hother' : ∀ t < NTHR, t ≠ s → (st.take TNUM nums s).idx t = (t + 1) * TNUM := by
      intro t ht hts
      show Function.update st.idx s (st.idx s + 1) t = (t + 1) * TNUM
      rw [Function.update_of_ne hts]
      exact hother t ht hts
    obtain ⟨st', hrun, hrest⟩ := Merging.rest hs n _ h' (hd.take s)
      (show st.sidx + 1 + n = NTHR * TNUM by omega) rfl hother'
    refine ⟨st', ?_, hrest⟩
    unfold rounds
    rw [round_drained hd, hmin]
    exact hrun

theorem rounds_outside : ∀ (n : Nat) (st st' : St), rounds NTHR TNUM nums n st = some st' →
    st.outside = true → st'.outside = true
  | 0, st, st', h, ho => by
    rw [← Option.some.inj h]
    exact ho
  | n + 1, st, st', h, ho => by
    unfold rounds at h
    obtain ⟨st₁, hround, hrest⟩ := Option.bind_eq_some_iff.mp h
    apply rounds_outside n st₁ st' hrest
    unfold round at hround
    split at hround
    · cases hround
    · rw [← Option.some.inj hround]
      show (st.outside || _) = true
      rw [ho]
      rfl

/-- A second phase without a read outside a segment takes all its elements from one segment. -/
theorem rounds_drained : ∀ (n : Nat) (st st' : St), Drained NTHR TNUM nums st →
    st.minidx = some s → rounds NTHR TNUM nums n st = some st' → st'.outside = false →
    n = 0 ∨ st.idx s + n ≤ (s + 1) * TNUM
  | 0, _, _, _, _, _, _ => .inl rfl
  | n + 1, st, st', hd, hmin, h, ho => by
    unfold rounds at h
    rw [round_drained hd, hmin] at h
    have h : rounds NTHR TNUM nums n (st.take TNUM nums s) = some st' := h
    have hin : st.idx s < (s + 1) * TNUM := by
      apply Nat.lt_of_not_le
      intro hge
      have hout : (st.take TNUM nums s).outside = true := by
        show (st.outside || !decide _) = true
        rw [decide_eq_false fun hr => absurd hr.2 (Nat.not_lt.mpr hge)]
        simp
      rw [rounds_outside n _ _ h hout] at ho
      cases ho
    rcases rounds_drained n _ _ (hd.take s) rfl h ho with h0 | hle
    · exact .inr (by omega)
    · have hidx : (st.take TNUM nums s).idx s = st.idx s + 1 := Function.update_self ..
      exact .inr (by omega)

/-- As many elements as are left are in one segment: the others have none left. -/
theorem Merging.others_done {st : St} {n : Nat} (h : Merging NTHR TNUM nums st)
    (hn : st.sidx + n = NTHR * TNUM) (hs : s < NTHR) (hle : st.idx s + n ≤ (s + 1) * TNUM) :
    ∀ t < NTHR, t ≠ s → st.idx t = (t + 1) * TNUM := by
  have hsum := sum_update_add hs (fun i => st.idx i - i * TNUM) n
  rw [h.count, hn, ← sum_const NTHR TNUM] at hsum
  have hbound : ∀ i ∈ Finset.range NTHR,
      Function.update (fun i => st.idx i - i * TNUM) s (st.idx s - s * TNUM + n) i ≤ TNUM := by
    intro i hi
    have hi := Finset.mem_range.mp hi
    have hlo := h.lo i hi
    have hhi := h.hi i hi
    rw [Nat.succ_mul] at hle hhi
    rw [Function.update_apply]
    split
    · rename_i his
      rw [his] at hlo hhi
      omega
    · omega
  have hall := (Finset.sum_eq_sum_iff_of_le hbound).mp hsum
  intro t ht hts
  have hterm := hall t (Finset.mem_range.mpr ht)
  rw [Function.update_of_ne hts] at hterm
  have hlo := h.lo t ht
  have hhi := h.hi t ht
  rw [Nat.succ_mul] at hhi ⊢
  omega

end LearningNotes.Barrier
