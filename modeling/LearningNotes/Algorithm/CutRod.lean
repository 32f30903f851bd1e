import LearningNotes.Lib.Cuts
import Mathlib.Algebra.Order.Ring.Int

/-!
# Cutting a rod

The three programs of the notes: the recursion with a cache, the table from below, and the table
that also keeps the first cut. Each goes through the first cuts of a rod in a loop; `FirstCuts` is
what `q` is in the middle of it, and at its end `q` is the best price. What a cache holds has been
computed so (`Cache`), whatever rods it was computed for.

The table from below has an array of its own, of a fixed length: it computes the best price of the
rods that fit the array and of no others.

Mirroring notes:
- Prices and their sums fit an `int`, so that `Int` is exact.
- The arrays that are passed are as long as `n` needs; the array `r` of `botton_up_cut_rod` ends at
  `r[N]`, and a write behind it is undefined, `none`. What the arrays hold at the start is a
  parameter, and `q₀` is the `q` that has not been set.
- `solution` is the loop in `main` that prints `s[n]`; it has a bound on its rounds.
-/

namespace LearningNotes.Algorithm

variable {p r : Nat → Int} {m n i j : Nat} {q : Int}

/-- `#define N 10` -/
def N : Nat := 10

mutual

/-- `memoized_cut_rod`: what it returns, and the cache after it. -/
def memoized_cut_rod (p : Nat → Int) (n : Nat) (r : Nat → Int) : Int × (Nat → Int) :=
  if r n ≥ 0 then (r n, r)
  else if n = 0 then (0, Function.update r n 0)
  else
    let (q, r) := memoizedLoop p n 1 Nat.one_pos (-1) r
    (q, Function.update r n q)
  termination_by (n, n + 2)

/-- The `for` loop of `memoized_cut_rod`, from `i` on. -/
def memoizedLoop (p : Nat → Int) (n i : Nat) (_ : 0 < i) (q : Int) (r : Nat → Int) :
    Int × (Nat → Int) :=
  if i ≤ n then
    let (v, r) := memoized_cut_rod p (n - i) r
    memoizedLoop p n (i + 1) (Nat.succ_pos i) (max q (p i + v)) r
  else (q, r)
  termination_by (n, n + 1 - i)

end

/-- Calls for rods of those lengths, one after the other with the same `r`: what they return. -/
def memoizedCalls (p : Nat → Int) : List Nat → (Nat → Int) → List Int
  | [], _ => []
  | n :: ns, r =>
    let (v, r) := memoized_cut_rod p n r
    v :: memoizedCalls p ns r

/-- The inner loop of `botton_up_cut_rod`, from `i` on. -/
def bottonUpInner (p r : Nat → Int) (j i : Nat) (q : Int) : Int :=
  if i ≤ j then bottonUpInner p r j (i + 1) (max q (p i + r (j - i))) else q
  termination_by j + 1 - i

/-- The outer loop of `botton_up_cut_rod`, from `j` on: `q`, and what is printed. -/
def bottonUpLoop (p : Nat → Int) (n j : Nat) (q : Int) (r : Nat → Int) :
    Option (Int × List (Nat × Int)) :=
  if j ≤ n then
    -- what is read here, `r[j-i]`, lies before `r[j]`
    let q := bottonUpInner p r j 1 (-1)
    if j ≤ N then do
      let r := Function.update r j q
      let (q, out) ← bottonUpLoop p n (j + 1) q r
      some (q, (j, r j) :: out)
    else none
  else some (q, [])
  termination_by n + 1 - j

def botton_up_cut_rod (q₀ : Int) (r₀ p : Nat → Int) (n : Nat) : Option (Int × List (Nat × Int)) :=
  bottonUpLoop p n 1 q₀ (Function.update r₀ 0 0)

/-- The inner loop of `extened_botton_up_cut_rod`, from `i` on. -/
def extenedInner (p r : Nat → Int) (j i : Nat) (q : Int) (s : Nat → Nat) : Int × (Nat → Nat) :=
  if i ≤ j then
    if q < p i + r (j - i) then
      extenedInner p r j (i + 1) (p i + r (j - i)) (Function.update s j i)
    else extenedInner p r j (i + 1) q s
  else (q, s)
  termination_by j + 1 - i

/-- The outer loop of `extened_botton_up_cut_rod`, from `j` on. -/
def extenedLoop (p : Nat → Int) (n j : Nat) (q : Int) (r : Nat → Int) (s : Nat → Nat) :
    Int × (Nat → Int) × (Nat → Nat) :=
  if j ≤ n then
    let (q, s) := extenedInner p r j 1 (-1) s
    extenedLoop p n (j + 1) q (Function.update r j q) s
  else (q, r, s)
  termination_by n + 1 - j

def extened_botton_up_cut_rod (q₀ : Int) (p r : Nat → Int) (s : Nat → Nat) (n : Nat) :
    Int × (Nat → Int) × (Nat → Nat) :=
  extenedLoop p n 1 q₀ r s

/-- `while(n>0) { cout<<s[n]; n=n-s[n]; }` -/
def solution (s : Nat → Nat) : Nat → Nat → Option (List Nat)
  | 0, _ => none
  | rounds + 1, n =>
    if n > 0 then do
      let rest ← solution s rounds (n - s n)
      some (s n :: rest)
    else some []

/-- The table `p[1..n]` has no price below 0. -/
def Prices (p : Nat → Int) (n : Nat) : Prop := ∀ i, 1 ≤ i → i ≤ n → 0 ≤ p i

theorem Prices.mono (hp : Prices p n) (hm : m ≤ n) : Prices p m :=
  fun i hi him => hp i hi (Nat.le_trans him hm)

/-! ## The first cut -/

/-- What `q` is when the first cuts before `i` have been tried. -/
structure FirstCuts (p : Nat → Int) (n i : Nat) (q : Int) : Prop where
  upper : ∀ j, 1 ≤ j → j < i → p j + best p (n - j) ≤ q
  attained : (i = 1 ∧ q = -1) ∨ ∃ j, 1 ≤ j ∧ j < i ∧ q = p j + best p (n - j)

theorem FirstCuts.start : FirstCuts p n 1 (-1) where
  upper := fun j _ _ => by omega
  attained := .inl ⟨rfl, rfl⟩

/-- A cut that is better than those before, of which the first one always is. -/
theorem FirstCuts.take (h : FirstCuts p n i q) (hi : 1 ≤ i) (hlt : q < p i + best p (n - i)) :
    FirstCuts p n (i + 1) (p i + best p (n - i)) where
  upper := by
    intro j hj hji
    by_cases hne : j = i
    · rw [hne]
    · have hup := h.upper j hj (by omega)
      omega
  attained := .inr ⟨i, hi, Nat.lt_succ_self i, rfl⟩

/-- The first cut is always better than the -1 that `q` starts with. -/
theorem FirstCuts.one_lt (h : FirstCuts p n i q) (hp : Prices p n) (hi : 1 ≤ i) (hin : i ≤ n)
    (hle : p i + best p (n - i) ≤ q) : 1 < i := by
  obtain ⟨-, hq⟩ | ⟨j, hj, hji, -⟩ := h.attained
  · have hprice := hp i hi hin
    have hbest := best_nonneg (hp.mono (Nat.sub_le n i))
    omega
  · omega

theorem FirstCuts.skip (h : FirstCuts p n i q) (hp : Prices p n) (hi : 1 ≤ i) (hin : i ≤ n)
    (hle : p i + best p (n - i) ≤ q) : FirstCuts p n (i + 1) q where
  upper := by
    intro j hj hji
    by_cases hne : j = i
    · rw [hne]
      exact hle
    · exact h.upper j hj (by omega)
  attained := by
    have hone := h.one_lt hp hi hin hle
    obtain ⟨hfirst, -⟩ | ⟨j, hj, hji, hq⟩ := h.attained
    · omega
    · exact .inr ⟨j, hj, by omega, hq⟩

theorem FirstCuts.max (h : FirstCuts p n i q) (hp : Prices p n) (hi : 1 ≤ i) (hin : i ≤ n) :
    FirstCuts p n (i + 1) (max q (p i + best p (n - i))) := by
  by_cases hlt : q < p i + best p (n - i)
  · rw [max_eq_right (Int.le_of_lt hlt)]
    exact h.take hi hlt
  · rw [max_eq_left (by omega)]
    exact h.skip hp hi hin (by omega)

theorem FirstCuts.eq_best (h : FirstCuts p n (n + 1) q) (hn : 1 ≤ n) : q = best p n := by
  obtain ⟨hi, -⟩ | ⟨j, hj, hjn, hq⟩ := h.attained
  · omega
  · exact LearningNotes.eq_best hj (by omega) hq fun i hi hin => h.upper i hi (by omega)

/-! ## The recursion with a cache -/

/-- What is in the cache has been computed. -/
def Cache (p r : Nat → Int) : Prop := ∀ i, r i = -1 ∨ r i = best p i

theorem Cache.update (h : Cache p r) (hq : q = best p n) : Cache p (Function.update r n q) := by
  intro i
  by_cases hi : i = n
  · rw [hi, Function.update_self]
    exact .inr hq
  · rw [Function.update_of_ne hi]
    exact h i

/-- The loop, if what it calls is right for shorter rods. -/
theorem memoizedLoop_spec (hp : Prices p n)
    (hcall : ∀ m < n, ∀ r, Cache p r →
      (memoized_cut_rod p m r).1 = best p m ∧ Cache p (memoized_cut_rod p m r).2) :
    ∀ (i : Nat) (hi : 0 < i) (q : Int) (r : Nat → Int), i ≤ n + 1 → FirstCuts p n i q →
      Cache p r → FirstCuts p n (n + 1) (memoizedLoop p n i hi q r).1 ∧
        Cache p (memoizedLoop p n i hi q r).2
  | i, hi, q, r, hin, hq, hr => by
    rw [memoizedLoop]
    by_cases hle : i ≤ n
    · rw [if_pos hle]
      obtain ⟨hv, hcache⟩ := hcall (n - i) (by omega) r hr
      dsimp only
      rw [hv]
      exact memoizedLoop_spec hp hcall (i + 1) _ _ _ (by omega) (hq.max hp hi hle) hcache
    · rw [if_neg hle]
      have hend : i = n + 1 := by omega
      exact ⟨hend ▸ hq, hr⟩
  termination_by i => n + 1 - i

/-- **`memoized_cut_rod`**, by induction on the length. -/
theorem memoized_cut_rod_spec (hp : Prices p n) (m : Nat) :
    m ≤ n → ∀ r, Cache p r →
      (memoized_cut_rod p m r).1 = best p m ∧ Cache p (memoized_cut_rod p m r).2 := by
  induction m using Nat.strong_induction_on with
  | _ m ih =>
    intro hm r hr
    rw [memoized_cut_rod]
    by_cases hknown : r m ≥ 0
    · rw [if_pos hknown]
      obtain hnot | hbest := hr m
      · omega
      · exact ⟨hbest, hr⟩
    · rw [if_neg hknown]
      by_cases hzero : m = 0
      · subst hzero
        rw [if_pos rfl]
        exact ⟨best_zero.symm, hr.update best_zero.symm⟩
      · rw [if_neg hzero]
        obtain ⟨hq, hcache⟩ := memoizedLoop_spec (hp.mono hm)
          (fun k hk => ih k hk (by omega)) 1 Nat.one_pos (-1) r (by omega) .start hr
        have hbest := hq.eq_best (by omega)
        exact ⟨hbest, hcache.update hbest⟩

theorem memoizedCalls_eq (hp : Prices p n) {ms : List Nat} (hms : ∀ m ∈ ms, m ≤ n) :
    ∀ r, Cache p r → memoizedCalls p ms r = ms.map (best p) := by
  induction ms with
  | nil => exact fun _ _ => rfl
  | cons m ms ih =>
    intro r hr
    rw [List.forall_mem_cons] at hms
    obtain ⟨hv, hcache⟩ := memoized_cut_rod_spec hp m hms.1 r hr
    rw [memoizedCalls, List.map_cons]
    dsimp only
    rw [hv, ih hms.2 _ hcache]

/-! ## The table from below -/

theorem bottonUpInner_spec (hp : Prices p j) (hr : ∀ k < j, r k = best p k) :
    ∀ (i : Nat) (q : Int), 1 ≤ i → i ≤ j + 1 → FirstCuts p j i q →
      FirstCuts p j (j + 1) (bottonUpInner p r j i q)
  | i, q, hi, hij, hq => by
    rw [bottonUpInner]
    by_cases hle : i ≤ j
    · rw [if_pos hle, hr (j - i) (by omega)]
      exact bottonUpInner_spec hp hr (i + 1) _ (by omega) (by omega) (hq.max hp hi hle)
    · rw [if_neg hle]
      have hend : i = j + 1 := by omega
      exact hend ▸ hq
  termination_by i => j + 1 - i

/-- The table is filled below `j`, and after a round up to `j`. -/
theorem filled_update (hr : ∀ k < j, r k = best p k) (hq : q = best p j) :
    ∀ k < j + 1, Function.update r j q k = best p k := by
  intro k hk
  by_cases hkj : k = j
  · rw [hkj, Function.update_self]
    exact hq
  · rw [Function.update_of_ne hkj]
    exact hr k (by omega)

theorem filled_zero (hr : r 0 = 0) : ∀ k < 1, r k = best p k := by
  intro k hk
  obtain rfl : k = 0 := by omega
  rw [hr, best_zero]

theorem bottonUpLoop_spec (hp : Prices p n) (hn : n ≤ N) :
    ∀ (j : Nat) (q : Int) (r : Nat → Int), 1 ≤ j → j ≤ n + 1 → (∀ k < j, r k = best p k) →
      (j = n + 1 → q = best p n) →
      bottonUpLoop p n j q r =
        some (best p n, (List.range' j (n + 1 - j)).map fun k => (k, best p k))
  | j, q, r, hj, hjn, hr, hq => by
    rw [bottonUpLoop]
    by_cases hle : j ≤ n
    · have hbest := (bottonUpInner_spec (hp.mono hle) hr 1 (-1) (by omega) (by omega) .start).eq_best hj
      rw [if_pos hle]
      dsimp only
      rw [if_pos (Nat.le_trans hle hn),
        bottonUpLoop_spec hp hn (j + 1) _ _ (by omega) (by omega) (filled_update hr hbest)
          fun h => by rw [hbest, show j = n by omega], Function.update_self, hbest,
        show n + 1 - j = n + 1 - (j + 1) + 1 by omega, List.range'_succ, List.map_cons]
      rfl
    · have hend : j = n + 1 := by omega
      rw [if_neg hle, hq hend, hend, Nat.sub_self]
      rfl
  termination_by j => n + 1 - j

theorem botton_up_cut_rod_eq (hp : Prices p n) (hn : 1 ≤ n) (hN : n ≤ N) (q₀ : Int)
    (r₀ : Nat → Int) : botton_up_cut_rod q₀ r₀ p n =
      some (best p n, (List.range' 1 n).map fun k => (k, best p k)) :=
  bottonUpLoop_spec hp hN 1 q₀ _ (by omega) (by omega) (filled_zero (Function.update_self ..))
    fun h => by omega

/-- A longer rod: the loop gets to the round that writes `r[N+1]`. -/
theorem bottonUpLoop_none (hn : N < n) :
    ∀ (j : Nat) (q : Int) (r : Nat → Int), j ≤ N + 1 → bottonUpLoop p n j q r = none
  | j, q, r, hj => by
    rw [bottonUpLoop, if_pos (by omega)]
    dsimp only
    by_cases hle : j ≤ N
    · rw [if_pos hle, bottonUpLoop_none hn (j + 1) _ _ (by omega)]
      rfl
    · rw [if_neg hle]
  termination_by j => N + 1 - j

theorem botton_up_cut_rod_none (hn : N < n) (q₀ : Int) (r₀ : Nat → Int) :
    botton_up_cut_rod q₀ r₀ p n = none :=
  bottonUpLoop_none hn 1 q₀ _ (Nat.le_add_left 1 N)

/-! ## The table with the first cuts -/

/-- The first cut that is kept for `n` is the first of a best composition. -/
def Kept (p : Nat → Int) (s : Nat → Nat) (n : Nat) : Prop :=
  1 ≤ s n ∧ s n ≤ n ∧ best p n = p (s n) + best p (n - s n)

/-- The inner loop: `s j` is the cut that gave `q`. -/
theorem extenedInner_spec (hp : Prices p j) (hr : ∀ k < j, r k = best p k) :
    ∀ (i : Nat) (q : Int) (s : Nat → Nat), 1 ≤ i → i ≤ j + 1 → FirstCuts p j i q →
      (1 < i → 1 ≤ s j ∧ s j < i ∧ q = p (s j) + best p (j - s j)) →
      ∃ q' s', extenedInner p r j i q s = (q', s') ∧ FirstCuts p j (j + 1) q' ∧
        (1 ≤ j → 1 ≤ s' j ∧ s' j ≤ j ∧ q' = p (s' j) + best p (j - s' j)) ∧
        ∀ k, k ≠ j → s' k = s k
  | i, q, s, hi, hij, hq, hs => by
    rw [extenedInner]
    by_cases hle : i ≤ j
    · rw [if_pos hle, hr (j - i) (by omega)]
      by_cases hlt : q < p i + best p (j - i)
      · rw [if_pos hlt]
        obtain ⟨q', s', hrun, hq', hs', hframe⟩ := extenedInner_spec hp hr (i + 1) _
          (Function.update s j i) (by omega) (by omega) (hq.take hi hlt)
          (fun _ => by rw [Function.update_self]; exact ⟨hi, Nat.lt_succ_self i, rfl⟩)
        refine ⟨q', s', hrun, hq', hs', fun k hk => ?_⟩
        rw [hframe k hk, Function.update_of_ne hk]
      · rw [if_neg hlt]
        have hkept := hs (hq.one_lt hp hi hle (by omega))
        exact extenedInner_spec hp hr (i + 1) q s (by omega) (by omega)
          (hq.skip hp hi hle (by omega)) fun _ => ⟨hkept.1, by omega, hkept.2.2⟩
    · rw [if_neg hle]
      have hend : i = j + 1 := by omega
      refine ⟨q, s, rfl, hend ▸ hq, fun hj => ?_, fun _ _ => rfl⟩
      have hkept := hs (by omega)
      exact ⟨hkept.1, by omega, hkept.2.2⟩
  termination_by i => j + 1 - i

theorem extenedLoop_spec (hp : Prices p n) :
    ∀ (j : Nat) (q : Int) (r : Nat → Int) (s : Nat → Nat), 1 ≤ j → j ≤ n + 1 →
      (∀ k < j, r k = best p k) → (∀ k, 1 ≤ k → k < j → Kept p s k) →
      (j = n + 1 → q = best p n) →
      ∃ r' s', extenedLoop p n j q r s = (best p n, r', s') ∧ ∀ k, 1 ≤ k → k ≤ n → Kept p s' k
  | j, q, r, s, hj, hjn, hr, hs, hq => by
    rw [extenedLoop]
    by_cases hle : j ≤ n
    · obtain ⟨q', s', hrun, hq', hkept, hframe⟩ :=
        extenedInner_spec (hp.mono hle) hr 1 (-1) s (by omega) (by omega) .start
          fun h => absurd h (by omega)
      have hbest := hq'.eq_best hj
      rw [if_pos hle, hrun]
      refine extenedLoop_spec hp (j + 1) _ _ _ (by omega) (by omega) (filled_update hr hbest) ?_
        fun h => by rw [hbest, show j = n by omega]
      intro k hk hkj
      by_cases hne : k = j
      · obtain ⟨hlo, hhi, heq⟩ := hkept hj
        rw [hne]
        exact ⟨hlo, hhi, by rw [← hbest, heq]⟩
      · unfold Kept
        rw [hframe k hne]
        exact hs k hk (by omega)
    · have hend : j = n + 1 := by omega
      rw [if_neg hle, hq hend]
      exact ⟨r, s, rfl, fun k hk hkn => hs k hk (by omega)⟩
  termination_by j => n + 1 - j

/-- **Following the first cuts** gives a best composition. -/
theorem solution_spec {s : Nat → Nat} {rounds : Nat} :
    ∀ {n : Nat}, (∀ k, 1 ≤ k → k ≤ n → Kept p s k) → n < rounds →
      ∃ c : Composition n, solution s rounds n = some c.blocks ∧ price p c = best p n := by
  induction rounds with
  | zero => exact fun _ hn => absurd hn (Nat.not_lt_zero _)
  | succ rounds ih =>
    intro n hs hn
    rw [solution]
    by_cases hpos : n > 0
    · obtain ⟨hlo, hhi, hbest⟩ := hs n hpos (Nat.le_refl n)
      obtain ⟨c, hrun, hc⟩ := ih (n := n - s n) (fun k hk hkn => hs k hk (by omega)) (by omega)
      obtain ⟨c', hblocks⟩ := exists_cons hlo hhi c
      refine ⟨c', ?_, ?_⟩
      · rw [if_pos hpos, hrun, hblocks]
        rfl
      · rw [price_of_blocks hblocks, hc, hbest]
    · obtain rfl : n = 0 := by omega
      obtain ⟨c, hc⟩ := exists_price_eq_best p 0
      refine ⟨c, ?_, hc⟩
      rw [if_neg hpos, c.blocks_eq_nil.mpr rfl]

/-! ## What the three programs compute -/

/-- `memoized_cut_rod`, called for any rods up to `n` with the same `r`, returns the best prices. -/
def MemoizedRight (p : Nat → Int) (n : Nat) : Prop :=
  ∀ ms : List Nat, (∀ m ∈ ms, m ≤ n) → memoizedCalls p ms (fun _ => -1) = ms.map (best p)

/-- `botton_up_cut_rod` returns the best price, and prints those of the shorter rods. -/
def BottonUpRight (p : Nat → Int) (n : Nat) : Prop :=
  ∀ (q₀ : Int) (r₀ : Nat → Int), botton_up_cut_rod q₀ r₀ p n =
    some (best p n, (List.range' 1 n).map fun k => (k, best p k))

/-- `extened_botton_up_cut_rod` returns the best price, and its first cuts lead to pieces that have
it. -/
def ExtenedRight (p : Nat → Int) (n : Nat) : Prop :=
  ∀ (q₀ : Int) (r : Nat → Int) (s : Nat → Nat), r 0 = 0 → ∃ r' s',
    extened_botton_up_cut_rod q₀ p r s n = (best p n, r', s') ∧
    ∃ c : Composition n, solution s' (n + 1) n = some c.blocks ∧ price p c = best p n

structure CutRodRight (p : Nat → Int) (n : Nat) : Prop where
  memoized : MemoizedRight p n
  bottonUp : BottonUpRight p n
  extened : ExtenedRight p n

theorem memoizedRight (hp : Prices p n) : MemoizedRight p n :=
  fun _ hms => memoizedCalls_eq hp hms _ fun _ => .inl rfl

theorem bottonUpRight_iff (hp : Prices p n) (hn : 1 ≤ n) : BottonUpRight p n ↔ n ≤ N := by
  constructor
  · intro h
    by_contra hlt
    have hnone := @botton_up_cut_rod_none p n (by omega) 0 fun _ => 0
    rw [h 0 fun _ => 0] at hnone
    exact absurd hnone (by simp)
  · intro hN
    exact botton_up_cut_rod_eq hp hn hN

theorem extenedRight (hp : Prices p n) (hn : 1 ≤ n) : ExtenedRight p n := by
  intro q₀ r s hr
  obtain ⟨r', s', hrun, hkept⟩ := extenedLoop_spec hp 1 q₀ r s (by omega) (by omega)
    (filled_zero hr) (fun k hk hk' => absurd hk' (by omega)) fun h => by omega
  exact ⟨r', s', hrun, solution_spec hkept (Nat.lt_succ_self n)⟩

/-- **The recursion and the table with the first cuts** compute the best price of every rod, and
**all three** do exactly for the rods that fit the array of `botton_up_cut_rod`. -/
theorem cut_rod_right_iff (hp : Prices p n) (hn : 1 ≤ n) :
    MemoizedRight p n ∧ ExtenedRight p n ∧ (CutRodRight p n ↔ n ≤ N) := by
  exact ⟨memoizedRight hp, extenedRight hp hn, fun h => (bottonUpRight_iff hp hn).mp h.bottonUp,
    fun hN => ⟨memoizedRight hp, (bottonUpRight_iff hp hn).mpr hN, extenedRight hp hn⟩⟩

/-- The prices of `main`. -/
def mainPrices (i : Nat) : Int := [0, 1, 5, 8, 9, 10, 17, 17, 20, 24, 30].getD i 0

/-- The rod of `main` has the greatest length. -/
theorem cut_rod_right_main : Prices mainPrices 10 ∧ CutRodRight mainPrices 10 := by
  have hp : ∀ i ≤ 10, 0 ≤ mainPrices i := by decide
  have hprices : Prices mainPrices 10 := by
    intro i _ hi
    exact hp i hi
  exact ⟨hprices, (cut_rod_right_iff hprices (by decide)).2.2.mpr (by decide)⟩

/-- A rod of length 11 whose pieces cost as much as they are long: the write of `r[11]` is behind
the array. -/
theorem cut_rod_eleven : Prices (fun i => i) 11 ∧ ¬ CutRodRight (fun i => i) 11 := by
  have hprices : Prices (fun i => i) 11 := by
    intro i _ _
    exact Int.natCast_nonneg i
  refine ⟨hprices, fun h => ?_⟩
  have hN := (bottonUpRight_iff hprices (by decide)).mp h.bottonUp
  exact absurd hN (by decide)

end LearningNotes.Algorithm
