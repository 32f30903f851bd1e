import LearningNotes.Lib.CInt
import LearningNotes.Lib.Segment
import LearningNotes.Lib.Sentinel

/-!
# The C++ `merge_sort` of the notes

`merge` copies the two sorted halves of a range to arrays `L` and `R`, puts the greatest `int` behind each
and takes the smaller head until the range is full. With two or more greatest `int`s in the right half
it reads `L` behind its last element. `merge_sort` moreover adds the two ends of the range,
and their sum may not fit an `int`.

What C++ leaves undefined has no result here: a read of `L` or `R` outside the array or where nothing
has been stored, and a sum that overflows.
-/

namespace LearningNotes.Algorithm

variable {arr arr' : Int → CInt} {p q r i j k n : Nat}

/-- `new int[n]`. Nothing is stored in it yet. -/
def newInts (n : Nat) : List (Option CInt) := List.replicate n none

/-- `for(int i=1;i<=n;++i) T[i]=arr[o+i];`, from `i` on. -/
def copyLoop (arr : Int → CInt) (o : Int) (n : Nat) (T : List (Option CInt)) (i : Nat) :
    List (Option CInt) :=
  if i ≤ n then copyLoop arr o n (T.set i (some (arr (o + i)))) (i + 1) else T
  termination_by n + 1 - i
  decreasing_by omega

/-- `T[i]`. -/
def readAt (T : List (Option CInt)) (i : Nat) : Option CInt := T[i]?.join

/-- The last `for` loop of `merge`, from index `k` on. -/
def mergeLoop (L R : List (Option CInt)) (r : Nat) (arr : Int → CInt) (k i j : Nat) :
    Option (Int → CInt) :=
  if k ≤ r then
    match readAt L i, readAt R j with
    | some x, some y =>
      if x ≤ y then mergeLoop L R r (Function.update arr k x) (k + 1) (i + 1) j
      else mergeLoop L R r (Function.update arr k y) (k + 1) i (j + 1)
    | _, _ => none
  else some arr
  termination_by r + 1 - k
  decreasing_by all_goals omega

def merge (arr : Int → CInt) (p q r : Nat) : Option (Int → CInt) :=
  let n1 := q - p + 1
  let n2 := r - q
  let L := newInts (n1 + 2)
  let R := newInts (n2 + 2)
  let L := copyLoop arr (p - 1) n1 L 1
  let R := copyLoop arr q n2 R 1
  let L := L.set (n1 + 1) (some ⊤)
  let R := R.set (n2 + 1) (some ⊤)
  mergeLoop L R r arr p 1 1

def mergeSort (arr : Int → CInt) (p r : Nat) : Option (Int → CInt) :=
  if p < r then
    if p + r ≤ INT_MAX then
      let q := (p + r) / 2
      (mergeSort arr p q).bind fun arr => (mergeSort arr (q + 1) r).bind fun arr => merge arr p q r
    else none
  else some arr
  termination_by r - p
  decreasing_by all_goals omega

/-! ## `merge` -/

/-- Index `0` stays as it was, and so does the place for the sentinel. -/
theorem copyLoop_eq (arr : Int → CInt) (o : Int) (n i : Nat) (hi : 1 ≤ i) (hn : i ≤ n + 1) :
    copyLoop arr o n (none :: (seg arr (o + 1) (o + i - 1)).map some
        ++ List.replicate (n + 2 - i) none) i
      = none :: (seg arr (o + 1) (o + n)).map some ++ [none] := by
  unfold copyLoop
  by_cases h : i ≤ n
  · rw [if_pos h]
    have hlen : (none :: (seg arr (o + 1) (o + i - 1)).map some).length = i := by
      simp only [List.length_cons, List.length_map, length_seg]
      omega
    have hset : (none :: (seg arr (o + 1) (o + i - 1)).map some
        ++ List.replicate (n + 2 - i) none).set i (some (arr (o + i)))
        = none :: (seg arr (o + 1) (o + (i + 1 : Nat) - 1)).map some
          ++ List.replicate (n + 2 - (i + 1)) none := by
      have hseg := seg_concat arr (show o + 1 ≤ o + i - 1 + 1 by omega)
      rw [show o + (i : Int) - 1 + 1 = o + i by omega] at hseg
      rw [show o + ((i + 1 : Nat) : Int) - 1 = o + i by omega, hseg]
      rw [show n + 2 - i = n + 2 - (i + 1) + 1 by omega, List.replicate_succ]
      rw [List.set_append_right _ _ (by omega), hlen, Nat.sub_self, List.set_cons_zero]
      simp
    rw [hset]
    exact copyLoop_eq arr o n (i + 1) (by omega) (by omega)
  · rw [if_neg h]
    have hin : i = n + 1 := by omega
    subst hin
    rw [show n + 2 - (n + 1) = 1 by omega, show o + ((n + 1 : Nat) : Int) - 1 = o + n by omega]
    rfl
  termination_by n + 1 - i

/-- The half at `o+1..o+n`, ready to be merged. -/
theorem copied (arr : Int → CInt) (o : Int) (n : Nat) :
    (copyLoop arr o n (newInts (n + 2)) 1).set (n + 1) (some ⊤)
      = none :: (seg arr (o + 1) (o + n) ++ [⊤]).map some := by
  have hcopy := copyLoop_eq arr o n 1 (Nat.le_refl 1) (by omega)
  rw [seg_eq_nil (by omega)] at hcopy
  have hnew : newInts (n + 2) = none :: ([] : List CInt).map some ++ List.replicate (n + 2 - 1) none := by
    rw [newInts, List.replicate_succ]
    rfl
  rw [hnew, hcopy]
  have hlen : (none :: (seg arr (o + 1) (o + n)).map some).length = n + 1 := by
    simp only [List.length_cons, List.length_map, length_seg]
    omega
  rw [List.set_append_right _ _ (by omega), hlen, Nat.sub_self]
  simp

theorem readAt_succ (S : List CInt) (i : Nat) : readAt (none :: S.map some) (i + 1) = S[i]? := by
  rw [readAt, List.getElem?_cons_succ, List.getElem?_map]
  cases S[i]? with
  | none => rfl
  | some x => rfl

/-- The loop reads the two arrays as the heads of two lists. -/
theorem mergeLoop_eq (S T : List CInt) (arr : Int → CInt) (k i j : Nat) :
    mergeLoop (none :: S.map some) (none :: T.map some) r arr k (i + 1) (j + 1)
      = (mergeHeads (r + 1 - k) (S.drop i) (T.drop j)).map (storeAt arr k) := by
  unfold mergeLoop
  by_cases hk : k ≤ r
  · rw [if_pos hk, readAt_succ, readAt_succ, show r + 1 - k = r + 1 - (k + 1) + 1 by omega]
    have hhead : ∀ (S : List CInt) (i : Nat), S[i]? = (S.drop i).head? := by simp
    have htail : ∀ (S : List CInt) (i : Nat), S.drop (i + 1) = (S.drop i).tail := by simp
    rw [hhead S i, hhead T j]
    cases hS : S.drop i with
    | nil => rfl
    | cons x l =>
      cases hT : T.drop j with
      | nil => rfl
      | cons y t =>
        have hl : S.drop (i + 1) = l := by rw [htail, hS, List.tail_cons]
        have ht : T.drop (j + 1) = t := by rw [htail, hT, List.tail_cons]
        simp only [List.head?_cons]
        by_cases hle : x ≤ y
        · rw [if_pos hle, mergeHeads_left hle, mergeLoop_eq S T _ (k + 1) (i + 1) j, hl, hT,
            Option.map_map]
          rfl
        · rw [if_neg hle, mergeHeads_right (lt_of_not_ge hle),
            mergeLoop_eq S T _ (k + 1) i (j + 1), ht, hS, Option.map_map]
          rfl
  · rw [if_neg hk, show r + 1 - k = 0 by omega]
    rfl
  termination_by r + 1 - k

theorem merge_eq (arr : Int → CInt) (hp : p ≤ q) (hr : q ≤ r) :
    merge arr p q r = (mergeHeads (r + 1 - p) (seg arr p q ++ [⊤]) (seg arr (q + 1) r ++ [⊤])).map
      (storeAt arr p) := by
  have hL := copied arr (p - 1) (q - p + 1)
  have hR := copied arr q (r - q)
  rw [show (p : Int) - 1 + 1 = p by omega,
    show (p : Int) - 1 + (q - p + 1 : Nat) = q by omega] at hL
  rw [show (q : Int) + (r - q : Nat) = r by omega] at hR
  unfold merge
  dsimp only
  rw [hL, hR, mergeLoop_eq _ _ arr p 0 0]
  rfl

/-- The merge of two sorted halves. It has a result exactly when the right half holds at most one
greatest `int`. -/
theorem merge_sorted (hp : p ≤ q) (hr : q ≤ r) (hl : Ascending arr p q)
    (hrt : Ascending arr (q + 1) r) :
    merge arr p q r = if (seg arr (q + 1) r).count ⊤ ≤ 1
      then some (storeAt arr p ((seg arr p q).merge (seg arr (q + 1) r))) else none := by
  have hlen : r + 1 - p = (seg arr p q).length + (seg arr (q + 1) r).length := by
    rw [length_seg, length_seg]
    omega
  rw [merge_eq arr hp hr, hlen, mergeHeads_top hl.pairwise hrt.pairwise]
  by_cases hcount : (seg arr (q + 1) r).count ⊤ ≤ 1
  · rw [if_pos hcount, if_pos hcount]
    rfl
  · rw [if_neg hcount, if_neg hcount]
    rfl

theorem rearranged_merge (hp : p ≤ q) (hr : q ≤ r) :
    Rearranged arr (storeAt arr p ((seg arr p q).merge (seg arr (q + 1) r))) p r := by
  apply Rearranged.of_storeAt _ (by omega)
  rw [← seg_split arr (show (p : Int) ≤ q + 1 by omega) (show (q : Int) ≤ r by omega)]
  exact List.merge_perm_append _

theorem ascending_merge (hp : p ≤ q) (hr : q ≤ r) (hl : Ascending arr p q)
    (hrt : Ascending arr (q + 1) r) :
    Ascending (storeAt arr p ((seg arr p q).merge (seg arr (q + 1) r))) p r := by
  apply Ascending.of_pairwise
  rw [seg_storeAt]
  · exact merge_pairwise hl.pairwise hrt.pairwise
  · rw [(List.merge_perm_append _).length_eq, List.length_append, length_seg, length_seg]
    omega

/-! ## `merge_sort` -/

/-- No sum of the ends of a range overflows, and the right half of no range holds the greatest `int`
twice. -/
def Safe (arr : Int → CInt) (p r : Nat) : Prop :=
  if p < r then
    let q := (p + r) / 2
    p + r ≤ INT_MAX ∧ Safe arr p q ∧ Safe arr (q + 1) r ∧ (seg arr (q + 1) r).count ⊤ ≤ 1
  else True
  termination_by r - p
  decreasing_by all_goals omega

theorem Safe.congr (p r : Nat) (h : ∀ k : Int, p ≤ k → k ≤ r → arr k = arr' k) :
    Safe arr p r ↔ Safe arr' p r := by
  unfold Safe
  by_cases hpr : p < r
  · rw [if_pos hpr, if_pos hpr]
    have hleft := Safe.congr p ((p + r) / 2) fun k hp hr => h k hp (by omega)
    have hright := Safe.congr ((p + r) / 2 + 1) r fun k hp hr => h k (by omega) hr
    have hseg : seg arr ((p + r) / 2 + 1 : Nat) r = seg arr' ((p + r) / 2 + 1 : Nat) r :=
      seg_congr fun k hp hr => h k (by omega) hr
    dsimp only
    rw [hleft, hright]
    rw [show (((p + r) / 2 : Nat) : Int) + 1 = ((p + r) / 2 + 1 : Nat) by omega, hseg]
  · rw [if_neg hpr, if_neg hpr]
  termination_by r - p
  decreasing_by all_goals omega

/-- The range is sorted, and nothing undefined is done. -/
def Sorted (arr : Int → CInt) (p r : Nat) : Prop :=
  ∃ arr', mergeSort arr p r = some arr' ∧ Ascending arr' p r ∧ Rearranged arr arr' p r

theorem mergeSort_step (h : p < r) (hsum : p + r ≤ INT_MAX) :
    mergeSort arr p r = (mergeSort arr p ((p + r) / 2)).bind fun arr =>
      (mergeSort arr ((p + r) / 2 + 1) r).bind fun arr => merge arr p ((p + r) / 2) r := by
  conv => lhs; unfold mergeSort
  rw [if_pos h, if_pos hsum]

theorem mergeSort_cases (arr : Int → CInt) (p r : Nat) :
    (Safe arr p r ∧ Sorted arr p r) ∨ (¬Safe arr p r ∧ mergeSort arr p r = none) := by
  by_cases hpr : p < r
  · have hsafe : Safe arr p r ↔ p + r ≤ INT_MAX ∧ Safe arr p ((p + r) / 2)
        ∧ Safe arr ((p + r) / 2 + 1) r ∧ (seg arr (((p + r) / 2 : Nat) + 1) r).count ⊤ ≤ 1 := by
      conv => lhs; unfold Safe
      rw [if_pos hpr]
    rw [hsafe]
    by_cases hsum : p + r ≤ INT_MAX
    · rw [Sorted, mergeSort_step hpr hsum]
      have hpq : p ≤ (p + r) / 2 := by omega
      have hqr : (p + r) / 2 < r := by omega
      have hleft := mergeSort_cases arr p ((p + r) / 2)
      generalize (p + r) / 2 = q at hpq hqr hleft ⊢
      rcases hleft with ⟨hs, arr₁, h₁, hasc₁, hre₁⟩ | ⟨hs, h₁⟩
      · -- The right half is still the one of the given array.
        have hsame : ∀ k : Int, q + 1 ≤ k → arr₁ k = arr k := by
          intro k hk
          exact hre₁.frame k (by omega)
        have hcongr : Safe arr₁ (q + 1) r ↔ Safe arr (q + 1) r :=
          Safe.congr (q + 1) r fun k hk _ => hsame k (by omega)
        rw [h₁, Option.bind_some]
        rcases mergeSort_cases arr₁ (q + 1) r with ⟨hs', arr₂, h₂, hasc₂, hre₂⟩ | ⟨hs', h₂⟩
        · rw [show ((q + 1 : Nat) : Int) = q + 1 by omega] at hasc₂ hre₂
          have hcount : (seg arr₂ (q + 1) r).count ⊤ = (seg arr (q + 1) r).count ⊤ := by
            rw [hre₂.perm.count_eq]
            exact congrArg _ (seg_congr fun k hk _ => hsame k hk)
          -- sorting the right half has left the left one as it was
          have hascl : Ascending arr₂ p q := by
            intro i j hi hij hj
            rw [hre₂.frame i (by omega), hre₂.frame j (by omega)]
            exact hasc₁ i j hi hij hj
          rw [h₂, Option.bind_some, merge_sorted hpq (by omega) hascl hasc₂, hcount]
          by_cases hc : (seg arr (q + 1) r).count ⊤ ≤ 1
          · rw [if_pos hc]
            have hre : Rearranged arr arr₂ p r :=
              (hre₁.widen (Int.le_refl _) (by omega)).trans (hre₂.widen (by omega) (Int.le_refl _))
            exact .inl ⟨⟨hsum, hs, hcongr.mp hs', hc⟩, _, rfl,
              ascending_merge hpq (by omega) hascl hasc₂,
              hre.trans (rearranged_merge hpq (by omega))⟩
          · rw [if_neg hc]
            exact .inr ⟨fun h => hc h.2.2.2, rfl⟩
        · rw [h₂]
          exact .inr ⟨fun h => hs' (hcongr.mpr h.2.2.1), rfl⟩
      · rw [h₁]
        exact .inr ⟨fun h => hs h.2.1, rfl⟩
    · -- `p + r` overflows
      refine .inr ⟨fun h => hsum h.1, ?_⟩
      unfold mergeSort
      rw [if_pos hpr, if_neg hsum]
  · refine .inl ⟨?_, arr, ?_, .of_le (by omega), .refl arr p r⟩
    · unfold Safe
      rw [if_neg hpr]
      trivial
    · unfold mergeSort
      rw [if_neg hpr]
  termination_by r - p
  decreasing_by all_goals omega

/-- For every array and every range, `merge_sort` leaves the range sorted with the elements it had, and
reads no temporary array outside its elements, exactly when the range is safe. -/
theorem mergeSort_sorts_iff (arr : Int → CInt) (p r : Nat) :
    (∃ arr', mergeSort arr p r = some arr' ∧ (seg arr' p r).Pairwise (· ≤ ·)
      ∧ (seg arr' p r).Perm (seg arr p r)) ↔ Safe arr p r := by
  rcases mergeSort_cases arr p r with ⟨hs, arr', h, hasc, hre⟩ | ⟨hs, h⟩
  · exact ⟨fun _ => hs, fun _ => ⟨arr', h, hasc.pairwise, hre.perm⟩⟩
  · rw [h]
    constructor
    · intro ⟨_, hsome, _⟩
      cases hsome
    · intro h
      exact absurd h hs

/-- Four times the greatest `int`: the last step of the merge of `3..4` with `1..2` reads `L[4]`, and `L`
has the elements `0` to `3`. -/
theorem mergeSort_greatest :
    ¬∃ arr', mergeSort (fun _ => ⊤) 1 4 = some arr' ∧ (seg arr' 1 4).Pairwise (· ≤ ·)
      ∧ (seg arr' 1 4).Perm (seg (fun _ => (⊤ : CInt)) 1 4) := by
  have hs : ¬Safe (fun _ => ⊤) 1 4 := by
    unfold Safe
    rw [if_pos (by decide)]
    intro h
    exact absurd h.2.2.2 (by decide)
  rcases mergeSort_cases (fun _ => ⊤) 1 4 with ⟨hsafe, _⟩ | ⟨_, h⟩
  · exact absurd hsafe hs
  · rw [h]
    intro ⟨_, hsome, _⟩
    cases hsome

end LearningNotes.Algorithm
