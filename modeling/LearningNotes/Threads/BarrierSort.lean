import LearningNotes.Threads.Barrier

/-!
# What `barrier.c` leaves in `snums`

The threads and `merge` together, and exactly which arrays they sort.
-/

namespace LearningNotes.Barrier

variable {NTHR TNUM : Nat} {nums snums : Int → CLong} {n s t : Nat}

/-- The elements of segment `t`. -/
def segOf (TNUM : Nat) (nums : Int → CLong) (t : Nat) : List CLong :=
  seg nums (t * TNUM : Nat) (((t + 1) * TNUM : Nat) - 1)

/-- Either `LONG_MAX` is in no segment, or it is in segment `s` only and the greatest of the other
elements is there too, and in no later segment. -/
def Harmless (NTHR TNUM : Nat) (nums : Int → CLong) : Prop :=
  (∀ t < NTHR, ⊤ ∉ segOf TNUM nums t) ∨
  ∃ s < NTHR, (∀ t < NTHR, t ≠ s → ⊤ ∉ segOf TNUM nums t) ∧
    ∃ v ∈ segOf TNUM nums s, v ≠ ⊤ ∧
      ∀ t < NTHR, ∀ w ∈ segOf TNUM nums t, w ≠ ⊤ → w < v ∨ w = v ∧ t ≤ s

/-- `snums` has the numbers in order, and no element outside its segment was read. -/
def MergeRight (NTHR TNUM : Nat) (nums snums : Int → CLong) : Prop :=
  ∃ st, merge NTHR TNUM (sorted TNUM nums NTHR) snums = some st ∧ st.outside = false ∧
    (seg st.snums 0 ((NTHR * TNUM : Nat) - 1)).Pairwise (· ≤ ·) ∧
    (seg st.snums 0 ((NTHR * TNUM : Nat) - 1)).Perm (seg nums 0 ((NTHR * TNUM : Nat) - 1))

/-! ## The threads -/

/-- The order of `complong` is the one of the numbers. -/
theorem complong_le (a b : CLong) : complong a b ≤ 0 ↔ a ≤ b := by
  unfold complong
  rcases lt_trichotomy a b with h | h | h
  · rw [if_neg (ne_of_lt h), if_pos h]
    exact ⟨fun _ => le_of_lt h, fun _ => by decide⟩
  · rw [if_pos h]
    exact ⟨fun _ => le_of_eq h, fun _ => by decide⟩
  · rw [if_neg (ne_of_gt h), if_neg (not_lt_of_gt h)]
    exact ⟨fun hle => absurd hle (by decide), fun hle => absurd hle (not_le_of_gt h)⟩

/-- One thread sorts its segment and leaves the rest alone. -/
theorem thrFn_spec (TNUM : Nat) (nums : Int → CLong) (t : Nat) :
    Rearranged nums (thrFn TNUM nums (t * TNUM)) (t * TNUM : Nat) (((t + 1) * TNUM : Nat) - 1) ∧
      Ascending (thrFn TNUM nums (t * TNUM)) (t * TNUM : Nat) (((t + 1) * TNUM : Nat) - 1) := by
  unfold thrFn
  rw [show ((t * TNUM : Nat) : Int) + TNUM - 1 = (((t + 1) * TNUM : Nat) : Int) - 1 by
    rw [Nat.succ_mul]; omega]
  have hperm := List.mergeSort_perm (seg nums (t * TNUM : Nat) (((t + 1) * TNUM : Nat) - 1))
    fun a b => complong a b ≤ 0
  have hle : t * TNUM ≤ (t + 1) * TNUM := Nat.mul_le_mul_right _ (Nat.le_succ t)
  refine ⟨.of_storeAt hperm (by omega), .of_pairwise ?_⟩
  rw [seg_storeAt _ _ (by rw [hperm.length_eq, length_seg]; omega)]
  have hsorted := @List.pairwise_mergeSort CLong (fun a b => decide (complong a b ≤ 0))
    (fun a b c hab hbc => by
      simp only [decide_eq_true_eq, complong_le] at hab hbc ⊢
      exact le_trans hab hbc)
    (fun a b => by
      simp only [Bool.or_eq_true, decide_eq_true_eq, complong_le]
      exact le_total a b)
    (seg nums (t * TNUM : Nat) (((t + 1) * TNUM : Nat) - 1))
  apply hsorted.imp
  intro a b h
  exact (complong_le a b).mp (of_decide_eq_true h)

/-- The first `n` segments are sorted, and the others are as they were. -/
structure Threads (TNUM : Nat) (nums nums' : Int → CLong) (n : Nat) : Prop where
  perm : ∀ t, (segOf TNUM nums' t).Perm (segOf TNUM nums t)
  asc : ∀ t < n, Ascending nums' (t * TNUM : Nat) (((t + 1) * TNUM : Nat) - 1)
  whole : Rearranged nums nums' 0 ((n * TNUM : Nat) - 1)

/-- Each thread sorts its own segment. -/
theorem sorted_threads (TNUM : Nat) (nums : Int → CLong) :
    ∀ n, Threads TNUM nums (sorted TNUM nums n) n
  | 0 => ⟨fun _ => List.Perm.refl _, fun _ h => absurd h (Nat.not_lt_zero _), .refl nums _ _⟩
  | n + 1 => by
    have ih := sorted_threads TNUM nums n
    obtain ⟨hre, hasc⟩ := thrFn_spec TNUM (sorted TNUM nums n) n
    have hother : ∀ t ≠ n, ∀ k : Int, (t * TNUM : Nat) ≤ k → k ≤ ((t + 1) * TNUM : Nat) - 1 →
        sorted TNUM nums (n + 1) k = sorted TNUM nums n k := by
      intro t ht k hk hkt
      apply hre.frame
      rcases Nat.lt_or_gt_of_ne ht with hlt | hgt
      · have := Nat.mul_le_mul_right TNUM (show t + 1 ≤ n by omega)
        omega
      · have := Nat.mul_le_mul_right TNUM (show n + 1 ≤ t by omega)
        omega
    refine ⟨fun t => ?_, fun t ht => ?_, ?_⟩
    · by_cases htn : t = n
      · rw [htn]
        exact hre.perm.trans (ih.perm n)
      · rw [segOf, seg_congr (hother t htn)]
        exact ih.perm t
    · by_cases htn : t = n
      · rw [htn]
        exact hasc
      · intro i j hi hij hj
        rw [hother t htn i hi (by omega), hother t htn j (by omega) hj]
        exact ih.asc t (by omega) i j hi hij hj
    · have hle : n * TNUM ≤ (n + 1) * TNUM := Nat.mul_le_mul_right _ (Nat.le_succ n)
      exact (ih.whole.widen (Int.le_refl 0) (by omega)).trans (hre.widen (by omega) (Int.le_refl _))

/-- The numbers of a segment are the same in any order. -/
theorem Threads.harmless {nums' : Int → CLong} (h : Threads TNUM nums nums' n) :
    Harmless NTHR TNUM nums' ↔ Harmless NTHR TNUM nums := by
  have hmem : ∀ t w, w ∈ segOf TNUM nums' t ↔ w ∈ segOf TNUM nums t := by
    intro t w
    exact (h.perm t).mem_iff
  unfold Harmless
  simp only [hmem]

/-! ## All together -/

/-- The numbers of a thread. -/
theorem mem_segOf {nums : Int → CLong} {w : CLong} :
    w ∈ segOf TNUM nums t ↔ ∃ k, t * TNUM ≤ k ∧ k < (t + 1) * TNUM ∧ nums (k : Nat) = w := by
  rw [segOf, mem_seg]
  constructor
  · intro ⟨k, hlo, hhi, hk⟩
    exact ⟨k.toNat, by omega, by omega, by rw [show ((k.toNat : Nat) : Int) = k by omega]; exact hk⟩
  · intro ⟨k, hlo, hhi, hk⟩
    exact ⟨k, by omega, by omega, hk⟩

/-- The segments one after the other are the whole array. -/
theorem seg_whole (nums : Int → CLong) (TNUM : Nat) : ∀ n : Nat,
    (seg nums 0 ((n * TNUM : Nat) - 1) : Multiset CLong)
      = ∑ t ∈ Finset.range n, (segOf TNUM nums t : Multiset CLong)
  | 0 => by
    rw [seg_eq_nil (by omega)]
    rfl
  | n + 1 => by
    have hle : n * TNUM ≤ (n + 1) * TNUM := Nat.mul_le_mul_right _ (Nat.le_succ n)
    have hcat := seg_split nums (show (0 : Int) ≤ ((n * TNUM : Nat) : Int) - 1 + 1 by omega)
      (show ((n * TNUM : Nat) : Int) - 1 ≤ ((n + 1) * TNUM : Nat) - 1 by omega)
    rw [show ((n * TNUM : Nat) : Int) - 1 + 1 = (n * TNUM : Nat) by omega] at hcat
    rw [Finset.sum_range_succ, ← seg_whole nums TNUM n, ← hcat]
    rfl

/-- At the end everything has been taken. -/
theorem Merging.whole {st : St} (h : Merging NTHR TNUM nums st) (hend : st.sidx = NTHR * TNUM) :
    (seg st.snums 0 ((NTHR * TNUM : Nat) - 1)).Pairwise (· ≤ ·) ∧
      (seg st.snums 0 ((NTHR * TNUM : Nat) - 1)).Perm (seg nums 0 ((NTHR * TNUM : Nat) - 1)) := by
  have hasc := h.asc
  have hout := h.out
  rw [hend] at hasc hout
  refine ⟨hasc.pairwise, Multiset.coe_eq_coe.mp ?_⟩
  rw [hout, seg_whole]
  apply Finset.sum_congr rfl
  intro t ht
  rw [h.done hend t (Finset.mem_range.mp ht)]
  rfl

/-- When the second phase begins, nothing is left or everything that is left is in the segment that
was taken from last. -/
def Together (NTHR TNUM : Nat) (st : St) (n : Nat) : Prop :=
  n = 0 ∨ ∃ s < NTHR, st.minidx = some s ∧ ∀ t < NTHR, t ≠ s → st.idx t = (t + 1) * TNUM

/-- If all segments are used up together, no number stands for an empty segment. -/
theorem Together.harmless {st : St} (h : Merging NTHR TNUM nums st) (hs : Small NTHR TNUM nums st)
    (hd : Drained NTHR TNUM nums st) (hn : st.sidx + n = NTHR * TNUM)
    (ht : Together NTHR TNUM st n) : Harmless NTHR TNUM nums := by
  have htaken : ∀ t < NTHR, st.idx t = (t + 1) * TNUM → ⊤ ∉ segOf TNUM nums t := by
    intro t ht hidx hmem
    obtain ⟨k, hlo, hhi, hk⟩ := mem_segOf.mp hmem
    exact hs t ht k hlo (by omega) hk
  rcases ht with h0 | ⟨s, hsN, hmin, hother⟩
  · exact .inl fun t ht => htaken t ht (h.done (by omega) t ht)
  · have hne : st.sidx ≠ 0 := by
      intro h0
      rw [h.fresh h0] at hmin
      cases hmin
    obtain ⟨s', _, hmin', hpos, _, hmax⟩ := h.last hne
    have hss : s' = s := Option.some.inj (hmin'.symm.trans hmin)
    rw [hss] at hpos hmax
    have hhi := h.hi s hsN
    refine .inr ⟨s, hsN, fun t ht hts => htaken t ht (hother t ht hts), nums (st.idx s - 1 : Nat),
      mem_segOf.mpr ⟨st.idx s - 1, by omega, by omega, rfl⟩, hs s hsN _ (by omega) (by omega), ?_⟩
    intro t ht w hw hwtop
    obtain ⟨k, hlo, hk, rfl⟩ := mem_segOf.mp hw
    by_cases hkt : k < st.idx t
    · exact key_le.mp (hmax t ht k hlo hkt)
    · exact absurd (hd t ht k (by omega) hk) hwtop

/-- And the other way round. -/
theorem Harmless.together {st : St} (hh : Harmless NTHR TNUM nums) (h : Merging NTHR TNUM nums st)
    (hs : Small NTHR TNUM nums st) (hd : Drained NTHR TNUM nums st)
    (hn : st.sidx + n = NTHR * TNUM) : Together NTHR TNUM st n := by
  by_cases h0 : n = 0
  · exact .inl h0
  have hleft : ∀ t < NTHR, st.idx t < (t + 1) * TNUM → ⊤ ∈ segOf TNUM nums t := by
    intro t ht hlt
    exact mem_segOf.mpr ⟨st.idx t, h.lo t ht, hlt, hd t ht _ (Nat.le_refl _) hlt⟩
  rcases hh with hnone | ⟨s, hsN, hother, v, hv, hvtop, hvmax⟩
  · obtain ⟨i, hi, hlt⟩ := h.exists_left (by omega)
    exact absurd (hleft i hi hlt) (hnone i hi)
  · refine .inr ⟨s, hsN, ?_, ?_⟩
    · -- The greatest element below `LONG_MAX` was taken, and what was taken last is not below it.
      obtain ⟨k, hlo, hk, rfl⟩ := mem_segOf.mp hv
      have hkt : k < st.idx s := Nat.lt_of_not_le fun hle => hvtop (hd s hsN k hle hk)
      have hne : st.sidx ≠ 0 := by
        intro hz
        have hcount := h.count
        rw [hz, Finset.sum_eq_zero_iff] at hcount
        have := hcount s (Finset.mem_range.mpr hsN)
        omega
      obtain ⟨s', hs', hmin, hpos, _, hmax⟩ := h.last hne
      have hhi := h.hi s' hs'
      have hlast := hvmax s' hs' (nums (st.idx s' - 1 : Nat))
        (mem_segOf.mpr ⟨st.idx s' - 1, by omega, by omega, rfl⟩)
        (hs s' hs' _ (by omega) (by omega))
      have hss : s = s' := by
        have hle := le_antisymm (hmax s hsN k hlo hkt) (key_le.mpr hlast)
        exact congrArg Prod.snd (toLex.injective hle)
      rw [hmin, hss]
    · intro t ht hts
      have hhi := h.hi t ht
      rcases Nat.lt_or_eq_of_le hhi with hlt | heq
      · exact absurd (hleft t ht hlt) (hother t ht hts)
      · exact heq

/-- A merge that stays in its array uses the segments up together. -/
theorem Merging.together_of_rounds {st st' : St} (h : Merging NTHR TNUM nums st)
    (hd : Drained NTHR TNUM nums st) (hn : st.sidx + n = NTHR * TNUM)
    (hrun : rounds NTHR TNUM nums n st = some st') (ho : st'.outside = false) :
    Together NTHR TNUM st n := by
  by_cases h0 : n = 0
  · exact .inl h0
  have hne : st.sidx ≠ 0 := by
    intro hz
    obtain ⟨n, rfl⟩ : ∃ m, n = m + 1 := ⟨n - 1, by omega⟩
    rw [rounds_succ, round_drained hd, h.fresh hz] at hrun
    cases hrun
  obtain ⟨s, hs, hmin, _⟩ := h.last hne
  rcases rounds_drained n st st' hd hmin hrun ho with h0' | hle
  · exact absurd h0' h0
  · exact .inr ⟨s, hs, hmin, h.others_done hn hs hle⟩

/-- Segments that are used up together are merged. -/
theorem Together.rounds {st : St} (ht : Together NTHR TNUM st n) (h : Merging NTHR TNUM nums st)
    (hd : Drained NTHR TNUM nums st) (hn : st.sidx + n = NTHR * TNUM) :
    ∃ st', rounds NTHR TNUM nums n st = some st' ∧ st'.sidx = NTHR * TNUM ∧
      Merging NTHR TNUM nums st' := by
  rcases ht with h0 | ⟨s, hs, hmin, hother⟩
  · subst h0
    exact ⟨st, rfl, hn, h⟩
  · exact Merging.rest hs n st h hd hn hmin hother

/-- `merge` up to the second phase. -/
theorem merge_second_phase (hsort : SegmentsSorted NTHR TNUM nums) (snums : Int → CLong) :
    ∃ st n, merge NTHR TNUM nums snums = rounds NTHR TNUM nums n st ∧ st.sidx + n = NTHR * TNUM ∧
      Merging NTHR TNUM nums st ∧ Small NTHR TNUM nums st ∧ Drained NTHR TNUM nums st := by
  obtain ⟨j, st, hj, hrun, hidx, h, hs, hd⟩ := exists_drained hsort (NTHR * TNUM) _
    (.start NTHR TNUM nums snums) (fun t _ k hlo hk => absurd hk (Nat.not_lt.mpr hlo))
    (Nat.zero_add _)
  have hidx : st.sidx = j := hidx.trans (Nat.zero_add j)
  refine ⟨st, NTHR * TNUM - j, ?_, by omega, h, hs, hd⟩
  unfold merge
  conv => lhs; rw [show NTHR * TNUM = j + (NTHR * TNUM - j) by omega]
  rw [rounds_add, hrun]
  rfl

/-- A right merge needs the condition. -/
theorem MergeRight.harmless (h : MergeRight NTHR TNUM nums snums) : Harmless NTHR TNUM nums := by
  have hthreads := sorted_threads TNUM nums NTHR
  rw [← hthreads.harmless]
  obtain ⟨st', hmerge, ho, _⟩ := h
  obtain ⟨st, n, hrounds, hn, hm, hs, hd⟩ := merge_second_phase hthreads.asc snums
  rw [hrounds] at hmerge
  exact (hm.together_of_rounds hd hn hmerge ho).harmless hm hs hd hn

/-- The condition is enough. -/
theorem Harmless.mergeRight (h : Harmless NTHR TNUM nums) (snums : Int → CLong) :
    MergeRight NTHR TNUM nums snums := by
  have hthreads := sorted_threads TNUM nums NTHR
  rw [← hthreads.harmless] at h
  obtain ⟨st, n, hrounds, hn, hm, hs, hd⟩ := merge_second_phase hthreads.asc snums
  obtain ⟨st', hrest, hend, hm'⟩ := (h.together hm hs hd hn).rounds hm hd hn
  obtain ⟨hsorted, hperm⟩ := hm'.whole hend
  exact ⟨st', hrounds.trans hrest, hm'.inside, hsorted, hperm.trans hthreads.whole.perm⟩

/-- For any number of segments of any length and any `long`s in them, `merge` leaves in `snums` the
numbers in order and reads no element outside the segment it takes from, exactly if the
values `LONG_MAX` are harmless. -/
theorem merge_right_iff (NTHR TNUM : Nat) (nums snums : Int → CLong) :
    MergeRight NTHR TNUM nums snums ↔ Harmless NTHR TNUM nums :=
  ⟨fun h => h.harmless, fun h => h.mergeRight snums⟩

/-- Two segments of one element each, both `LONG_MAX`: `minidx` is read before it is assigned. -/
theorem merge_all_greatest : ¬MergeRight 2 1 (fun _ => ⊤) fun _ => ⊤ := by
  intro h
  have hmem : ∀ t, ⊤ ∈ segOf 1 (fun _ => ⊤) t :=
    fun t => mem_segOf.mpr ⟨t, by omega, by omega, rfl⟩
  rcases h.harmless with hnone | ⟨s, _, hother, _⟩
  · exact hnone 0 (by decide) (hmem 0)
  · by_cases hs : s = 0
    · exact hother 1 (by decide) (by omega) (hmem 1)
    · exact hother 0 (by decide) (by omega) (hmem 0)

end LearningNotes.Barrier
