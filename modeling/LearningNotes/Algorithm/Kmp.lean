import LearningNotes.Lib.Border
import LearningNotes.Lib.CInt
import LearningNotes.Lib.CString
import Mathlib.Logic.Function.Basic

/-!
# `kmpSearch` and `getNext` of the notes

`getNext` fills `next` from left to right. What it stores at `j` is the longest border of the first
`j` characters of the pattern, found through the entries it stored before. `kmpSearch` goes
through the text once and on a mismatch falls back to the entry of the part that matched.

Both keep lengths and indices in an `int`, and `strlen` returns a `size_t`. Of a text of more than
`INT_MAX` characters `kmpSearch` sees as many as the length converted to `int` says, which may
be none.

The loops have a bound on their rounds here and no result when it is reached. An index is
never negative where a string or `next` is read at it, and never beyond the end.
-/

namespace LearningNotes.Algorithm

variable {str sub : CString} {next : Int → Int} {i j k : Nat}

/-- `s[i]`, with the zero byte behind the string. -/
def charAt (s : CString) (i : Int) : UInt8 := s.1.getD i.toNat 0

/-- The loop of `getNext`, at most `n` rounds. -/
def nextLoop (sub : CString) (len : Int) : Nat → (Int → Int) → Int → Int → Option (Int → Int)
  | 0, next, j, _ => if j < len - 1 then none else some next
  | n + 1, next, j, k =>
    if j < len - 1 then
      if k = -1 ∨ charAt sub j = charAt sub k then
        let k := k + 1
        let j := j + 1
        nextLoop sub len n (Function.update next j k) j k
      else nextLoop sub len n next j (next k)
    else some next

/-- `getNext`. There is no result when `len - 1` overflows. -/
def getNext (n : Nat) (sub : CString) (next : Int → Int) : Option (Int → Int) :=
  let len := cint sub.1.length
  let next := Function.update next 0 (-1)
  if FitsInt (len - 1) then nextLoop sub len n next 0 (-1) else none

/-- The loop of `kmpSearch`, at most `n` rounds: `i` and `j` at its end. -/
def searchLoop (str sub : CString) (tLen sLen : Int) (next : Int → Int) :
    Nat → Int → Int → Option (Int × Int)
  | 0, i, j => if i < tLen ∧ j < sLen then none else some (i, j)
  | n + 1, i, j =>
    if i < tLen ∧ j < sLen then
      if j = -1 ∨ charAt str i = charAt sub j then searchLoop str sub tLen sLen next n (i + 1) (j + 1)
      else searchLoop str sub tLen sLen next n i (next j)
    else some (i, j)

/-- `kmpSearch`, with the table that `getNext` has filled. -/
def kmpSearch (n : Nat) (str sub : CString) (next : Int → Int) : Option Int :=
  let tLen := cint str.1.length
  let sLen := cint sub.1.length
  (searchLoop str sub tLen sLen next n 0 0).map fun (i, j) => if j = sLen then i - j else -1

/-! ## Entries of `next` -/

/-- The entry for the first `j` characters: their longest border, and `-1` where there is none. -/
structure Entry (p : List UInt8) (j : Nat) (b : Int) : Prop where
  lo : -1 ≤ b
  hi : b < j
  border : 0 ≤ b → IsBorder (p.take j) b.toNat
  longest : ∀ c : Nat, IsBorder (p.take j) c → c ≤ b

/-- The first entry is -1. -/
theorem entry_zero (p : List UInt8) : Entry p 0 (-1) :=
  ⟨Int.le_refl _, by decide, fun h => by omega, fun c h => by have := h.lt; omega⟩

/-- The other entries are the longest borders. -/
theorem Entry.longestBorder {p : List UInt8} {b : Int} (h : Entry p j b) (hj : 1 ≤ j)
    (hp : j ≤ p.length) : ∃ b' : Nat, b = b' ∧ LongestBorder (p.take j) b' := by
  have hzero := h.longest 0 (isBorder_zero (by rw [List.length_take]; omega))
  refine ⟨b.toNat, by omega, h.border (by omega), ?_⟩
  intro c hc
  have := h.longest c hc
  omega

/-- A byte of the text. -/
theorem charAt_eq (s : CString) (h : i < s.1.length) : charAt s i = s.1[i] := by
  rw [charAt, Int.toNat_natCast, List.getD_eq_getElem?_getD, List.getElem?_eq_getElem h,
    Option.getD_some]

/-- Bytes of two texts. -/
theorem charAt_eq_iff (s t : CString) (hi : i < s.1.length) (hj : j < t.1.length) :
    charAt s i = charAt t j ↔ s.1[i]? = t.1[j]? := by
  rw [charAt_eq s hi, charAt_eq t hj, List.getElem?_eq_getElem hi, List.getElem?_eq_getElem hj,
    Option.some.injEq]

/-- What the loop of `getNext` keeps. `k` is a border of the first `j` characters, and no longer one
can be continued with the next character. -/
structure Filling (p : List UInt8) (next : Int → Int) (j : Nat) (k : Int) : Prop where
  filled : ∀ x : Nat, x ≤ j → Entry p x (next x)
  lo : -1 ≤ k
  hi : k < j
  border : 0 ≤ k → IsBorder (p.take j) k.toNat
  passed : ∀ c : Nat, IsBorder (p.take j) c → k < c → p[c]? ≠ p[j]?

/-- One entry is there. -/
theorem Filling.start {p : List UInt8} (h : next 0 = -1) : Filling p next 0 (-1) := by
  refine ⟨?_, Int.le_refl _, by decide, fun h => by omega, fun c h => by have := h.lt; omega⟩
  intro x hx
  rw [Nat.le_zero.mp hx]
  exact h ▸ entry_zero p

/-- The border is continued by one character. -/
theorem Filling.extend {p : List UInt8} {k : Int} (h : Filling p next j k) (hj : j + 1 < p.length)
    (hm : k = -1 ∨ p[j]? = p[k.toNat]?) :
    Filling p (Function.update next (j + 1) (k + 1)) (j + 1) (k + 1) := by
  have hlo := h.lo
  have hhi := h.hi
  have hentry : Entry p (j + 1) (k + 1) := by
    refine ⟨by omega, by omega, fun _ => ?_, ?_⟩
    · by_cases hk : k = -1
      · rw [hk]
        exact isBorder_zero (by rw [List.length_take]; omega)
      · have hpk := hm.resolve_left hk
        rw [List.getElem?_eq_getElem (by omega), List.getElem?_eq_getElem (by omega)] at hpk
        rw [show (k + 1).toNat = k.toNat + 1 by omega, isBorder_succ (by omega) (by omega)]
        exact ⟨h.border (by omega), (Option.some.inj hpk).symm⟩
    · intro c hc
      cases c with
      | zero => omega
      | succ c =>
        have hcj := hc.lt
        rw [isBorder_succ (by omega) (by omega)] at hc
        by_cases hkc : k < c
        · apply absurd _ (h.passed c hc.1 hkc)
          rw [List.getElem?_eq_getElem (by omega), List.getElem?_eq_getElem (by omega), hc.2]
        · omega
  refine ⟨?_, by omega, by omega, hentry.border, ?_⟩
  · intro x hx
    by_cases hxj : x = j + 1
    · rw [hxj]
      have hupdate : Function.update next ((j : Int) + 1) (k + 1) ((j + 1 : Nat) : Int) = k + 1 :=
        Function.update_self ..
      rw [hupdate]
      exact hentry
    · rw [Function.update_of_ne (by omega)]
      exact h.filled x (by omega)
  · intro c hc hkc
    have := hentry.longest c hc
    omega

/-- The next shorter border is that of the border. -/
theorem Filling.fallBack {p : List UInt8} (h : Filling p next j k) (hj : j + 1 < p.length)
    (hm : p[j]? ≠ p[k]?) : Filling p next j (next k) := by
  have hhi := h.hi
  have he := h.filled k (by omega)
  have hk : IsBorder (p.take j) k := h.border (by omega)
  have hsuffix := (isBorder_take (by omega) hk.lt).mp hk
  have helo := he.lo
  have hehi := he.hi
  refine ⟨h.filled, by omega, by omega, ?_, ?_⟩
  · intro h0
    have hb := (he.border h0).suffix (by omega) hsuffix
    exact (isBorder_take (by omega) (by omega)).mpr hb
  · intro c hc hgt
    by_cases hkc : (k : Int) < c
    · exact h.passed c hc hkc
    by_cases heq : c = k
    · rw [heq]
      intro h
      exact hm h.symm
    · have hc' := (isBorder_take (by omega) hc.lt).mp hc
      have := he.longest c (isBorder_of_suffix (by omega) hsuffix hc' (by omega))
      omega

/-- `getNext` ends, as every round moves `j` on or moves `k` back. -/
theorem nextLoop_filled (sub : CString) : ∀ (m : Nat) (next : Int → Int) (j : Nat) (k : Int),
    j < sub.1.length → Filling sub.1 next j k → 2 * (sub.1.length - 1 - j : Int) + (k + 1) ≤ m →
    ∃ next', (∀ n, m ≤ n → nextLoop sub sub.1.length n next j k = some next') ∧
      ∀ x : Nat, x < sub.1.length → Entry sub.1 x (next' x)
  | m, next, j, k, hj, h, hm => by
    by_cases hlt : (j : Int) < sub.1.length - 1
    · have hlo := h.lo
      have hhi := h.hi
      cases m with
      | zero => omega
      | succ m =>
        have hchar : (k = -1 ∨ charAt sub j = charAt sub k) ↔
            (k = -1 ∨ sub.1[j]? = sub.1[k.toNat]?) := by
          by_cases hk : k = -1
          · exact ⟨fun _ => .inl hk, fun _ => .inl hk⟩
          · have hk' := charAt_eq_iff sub sub hj (show k.toNat < sub.1.length by omega)
            rw [show ((k.toNat : Nat) : Int) = k by omega] at hk'
            rw [hk']
        by_cases hmatch : k = -1 ∨ charAt sub j = charAt sub k
        · obtain ⟨next', hrun, hentry⟩ := nextLoop_filled sub m _ (j + 1) (k + 1) (by omega)
            -- the border grows by one character
            (h.extend (by omega) (hchar.mp hmatch)) (by omega)
          refine ⟨next', ?_, hentry⟩
          intro n hn
          obtain ⟨n, rfl⟩ : ∃ n', n = n' + 1 := ⟨n - 1, by omega⟩
          unfold nextLoop
          rw [if_pos hlt, if_pos hmatch]
          exact hrun n (by omega)
        · have hk : k = (k.toNat : Int) := by
            have : k ≠ -1 := fun h => hmatch (.inl h)
            omega
          have hne : sub.1[j]? ≠ sub.1[k.toNat]? := fun h => hmatch (hchar.mpr (.inr h))
          have h' := h
          rw [hk] at h'
          -- `k` falls back to the next shorter border
          have hback := h'.fallBack (by omega) hne
          rw [← hk] at hback
          have hent := (h'.filled k.toNat (by omega)).hi
          rw [← hk] at hent
          obtain ⟨next', hrun, hentry⟩ := nextLoop_filled sub m next j (next k) hj hback (by omega)
          refine ⟨next', ?_, hentry⟩
          intro n hn
          obtain ⟨n, rfl⟩ : ∃ n', n = n' + 1 := ⟨n - 1, by omega⟩
          unfold nextLoop
          rw [if_pos hlt, if_neg hmatch]
          exact hrun n (by omega)
    · refine ⟨next, ?_, fun x hx => h.filled x (by omega)⟩
      intro n _
      cases n with
      | zero =>
        unfold nextLoop
        rw [if_neg hlt]
      | succ n =>
        unfold nextLoop
        rw [if_neg hlt]

/-- Behind the last character the loop stores nothing. -/
theorem nextLoop_beyond (sub : CString) {len x : Int} (hx : len ≤ x) :
    ∀ (n : Nat) (next next' : Int → Int) (j k : Int),
      nextLoop sub len n next j k = some next' → next' x = next x
  | 0, next, next', j, k, h => by
    unfold nextLoop at h
    split at h
    · cases h
    · rw [← Option.some.inj h]
  | n + 1, next, next', j, k, h => by
    unfold nextLoop at h
    by_cases hlt : j < len - 1
    · rw [if_pos hlt] at h
      by_cases hm : k = -1 ∨ charAt sub j = charAt sub k
      · rw [if_pos hm] at h
        rw [nextLoop_beyond sub hx n _ _ _ _ h, Function.update_of_ne (by omega)]
      · rw [if_neg hm] at h
        exact nextLoop_beyond sub hx n _ _ _ _ h
    · rw [if_neg hlt] at h
      rw [← Option.some.inj h]

/-! ## `kmpSearch` -/

/-- The index is the first one the pattern occurs at, or `-1` and there is none. -/
def FirstAt (p t : List UInt8) (i : Int) : Prop :=
  (∃ s : Nat, i = s ∧ OccursAt p t s ∧ ∀ s' < s, ¬OccursAt p t s') ∨ (i = -1 ∧ ∀ s, ¬OccursAt p t s)

/-- What the loop of `kmpSearch` keeps. What was read ends with `j` characters of the pattern, and
the pattern occurs nowhere before these. -/
structure Searching (p t : List UInt8) (i : Nat) (j : Int) : Prop where
  le : i ≤ t.length
  lo : -1 ≤ j
  hi : j ≤ p.length
  suffix : 0 ≤ j → p.take j.toNat <:+ t.take i
  passed : ∀ s : Nat, OccursAt p t s → i - j ≤ s

/-- Nothing has been compared. -/
theorem Searching.start (p t : List UInt8) : Searching p t 0 0 :=
  ⟨Nat.zero_le _, by decide, by omega, fun _ => List.nil_suffix, fun s _ => by omega⟩

/-- The next bytes agree, or the comparison starts anew. -/
theorem Searching.extend {p t : List UInt8} {j : Int} (h : Searching p t i j) (hi : i < t.length)
    (hj : j < p.length) (hm : j = -1 ∨ t[i]? = p[j.toNat]?) : Searching p t (i + 1) (j + 1) := by
  have hlo := h.lo
  refine ⟨hi, by omega, by omega, fun _ => ?_, fun s hs => ?_⟩
  · by_cases hj1 : j = -1
    · rw [hj1]
      exact List.nil_suffix
    · have hm := hm.resolve_left hj1
      rw [List.getElem?_eq_getElem hi, List.getElem?_eq_getElem (by omega)] at hm
      rw [show (j + 1).toNat = j.toNat + 1 by omega, suffix_take_succ (by omega) hi]
      exact ⟨h.suffix (by omega), (Option.some.inj hm).symm⟩
  · have := h.passed s hs
    omega

/-- An occurrence passed over by falling back to the longest border would start at a longer border. -/
theorem Searching.fallBack {p t : List UInt8} {b : Int} (h : Searching p t i j) (hi : i < t.length)
    (hj : j < p.length) (hm : t[i]? ≠ p[j]?) (hb : Entry p j b) : Searching p t i b := by
  have hblo := hb.lo
  have hbhi := hb.hi
  have hsuffix : p.take j <:+ t.take i := h.suffix (by omega)
  refine ⟨h.le, hblo, by omega, fun h0 => (hb.border h0).suffix (by omega) hsuffix, ?_⟩
  intro s hs
  have hpass := h.passed s hs
  by_cases hsi : i < s
  · omega
  by_cases hsj : i - s = j
  · have hget := hs.getElem (i := i) (by omega) (by omega) hi
    apply absurd _ hm
    rw [List.getElem?_eq_getElem hi, List.getElem?_eq_getElem hj, ← hget]
    simp only [hsj]
  · have hs' := hs.suffix (i := i) (by omega) (by omega)
    have := hb.longest _ (isBorder_of_suffix (by omega) hsuffix hs' (by omega))
    omega

/-- The whole pattern has been compared. -/
theorem Searching.found {p t : List UInt8} (h : Searching p t i p.length) :
    FirstAt p t (i - p.length) := by
  have hsuffix := h.suffix (by omega)
  rw [Int.toNat_natCast, List.take_length] at hsuffix
  have hle := hsuffix.length_le
  rw [List.length_take] at hle
  refine .inl ⟨i - p.length, by omega, occursAt_of_suffix h.le hsuffix, ?_⟩
  intro s hs hocc
  have := h.passed s hocc
  omega

/-- The text has been used up. -/
theorem Searching.notFound {p t : List UInt8} {j : Int} (h : Searching p t t.length j)
    (hj : j < p.length) (hp : 0 < p.length) : FirstAt p t (-1) := by
  refine .inr ⟨rfl, fun s hocc => ?_⟩
  have := h.passed s hocc
  have := hocc.le hp
  omega

/-- The part of the text that `kmpSearch` sees. -/
def visible (str : CString) : List UInt8 := str.1.take (cint str.1.length).toNat

/-- The length as an `int` is not more than the length. -/
theorem cint_le_length (n : Nat) : cint n ≤ n := by
  unfold cint
  omega

/-- What the search sees is as long as the `int` says. -/
theorem length_visible (str : CString) : (visible str).length = (cint str.1.length).toNat := by
  have := cint_le_length str.1.length
  rw [visible, List.length_take]
  omega

/-- `kmpSearch` ends, as every round moves `i` on or moves `j` back. -/
theorem searchLoop_first (hnext : ∀ x : Nat, x < sub.1.length → Entry sub.1 x (next x))
    (hsub : 0 < sub.1.length) : ∀ (m : Nat) (i : Nat) (j : Int), Searching sub.1 (visible str) i j →
    2 * ((visible str).length - i : Int) + (j + 1) ≤ m →
    ∃ i' j', (∀ n, m ≤ n → searchLoop str sub (cint str.1.length) sub.1.length next n i j = some (i', j')) ∧
      FirstAt sub.1 (visible str) (if j' = sub.1.length then i' - j' else -1)
  | m, i, j, h, hm => by
    have hlen := length_visible str
    have hlo := h.lo
    have hhi := h.hi
    have hle := h.le
    by_cases hlt : (i : Int) < cint str.1.length ∧ j < sub.1.length
    · cases m with
      | zero => omega
      | succ m =>
        have hi : i < (visible str).length := by omega
        have hvis : (visible str)[i]? = str.1[i]? := List.getElem?_take_of_lt (by omega)
        have hstr : i < str.1.length := by
          have := cint_le_length str.1.length
          omega
        have hchar : (j = -1 ∨ charAt str i = charAt sub j) ↔
            (j = -1 ∨ (visible str)[i]? = sub.1[j.toNat]?) := by
          by_cases hj : j = -1
          · exact ⟨fun _ => .inl hj, fun _ => .inl hj⟩
          · have hj' := charAt_eq_iff str sub hstr (show j.toNat < sub.1.length by omega)
            rw [show ((j.toNat : Nat) : Int) = j by omega] at hj'
            rw [hj', hvis]
        by_cases hmatch : j = -1 ∨ charAt str i = charAt sub j
        · -- both go on
          obtain ⟨i', j', hrun, hfirst⟩ := searchLoop_first hnext hsub m (i + 1) (j + 1)
            (h.extend hi hlt.2 (hchar.mp hmatch)) (by omega)
          refine ⟨i', j', ?_, hfirst⟩
          intro n hn
          obtain ⟨n, rfl⟩ : ∃ n', n = n' + 1 := ⟨n - 1, by omega⟩
          unfold searchLoop
          rw [if_pos hlt, if_pos hmatch]
          exact hrun n (by omega)
        · have hj : j = (j.toNat : Int) := by
            have : j ≠ -1 := fun h => hmatch (.inl h)
            omega
          have hne : (visible str)[i]? ≠ sub.1[j.toNat]? := by
            intro h
            exact hmatch (hchar.mpr (.inr h))
          -- `j` falls back, and `i` stays
          have hentry := hnext j.toNat (by omega)
          have hback := hj ▸ h
          have hback := Searching.fallBack hback hi (by omega) hne hentry
          have hnexthi := hentry.hi
          rw [← hj] at hback hnexthi
          obtain ⟨i', j', hrun, hfirst⟩ := searchLoop_first hnext hsub m i (next j) hback (by omega)
          refine ⟨i', j', ?_, hfirst⟩
          intro n hn
          obtain ⟨n, rfl⟩ : ∃ n', n = n' + 1 := ⟨n - 1, by omega⟩
          unfold searchLoop
          rw [if_pos hlt, if_neg hmatch]
          exact hrun n (by omega)
    · refine ⟨i, j, ?_, ?_⟩
      · intro n _
        cases n with
        | zero =>
          unfold searchLoop
          rw [if_neg hlt]
        | succ n =>
          unfold searchLoop
          rw [if_neg hlt]
      · by_cases hj : j = sub.1.length
        · rw [if_pos hj, hj]
          exact Searching.found (hj ▸ h)
        · rw [if_neg hj]
          have hi : i = (visible str).length := by omega
          exact Searching.notFound (hi ▸ h) (by omega) hsub

/-! ## Both together -/

/-- `getNext` sets `next` as it should, and `kmpSearch` then finds the first occurrence. -/
def KmpRight (str sub : CString) : Prop :=
  ∀ next₀, ∃ next i,
    (∃ N, ∀ n, N ≤ n → getNext n sub next₀ = some next) ∧
    (∀ j : Nat, 1 ≤ j → j < sub.1.length →
      ∃ b : Nat, next j = b ∧ LongestBorder (sub.1.take j) b) ∧
    (∃ N, ∀ n, N ≤ n → kmpSearch n str sub next = some i) ∧ FirstAt sub.1 str.1 i

/-- `getNext` fills the table. -/
theorem getNext_entries (hsub : 0 < sub.1.length) (hfit : sub.1.length ≤ INT_MAX) (next₀ : Int → Int) :
    ∃ next N, (∀ n, N ≤ n → getNext n sub next₀ = some next) ∧
      ∀ x : Nat, x < sub.1.length → Entry sub.1 x (next x) := by
  obtain ⟨next, hrun, hentry⟩ := nextLoop_filled sub (2 * sub.1.length)
    (Function.update next₀ 0 (-1)) 0 (-1) hsub (.start (Function.update_self ..)) (by omega)
  refine ⟨next, 2 * sub.1.length, ?_, hentry⟩
  intro n hn
  unfold getNext
  dsimp only
  rw [cint_natCast hfit, if_pos]
  · exact hrun n hn
  · simp only [INT_MAX] at hfit
    unfold FitsInt
    omega

/-- `kmpSearch` finds the first place in what it sees. -/
theorem kmpSearch_visible (hsub : 0 < sub.1.length) (hfit : sub.1.length ≤ INT_MAX)
    (hnext : ∀ x : Nat, x < sub.1.length → Entry sub.1 x (next x)) (str : CString) :
    ∃ i N, (∀ n, N ≤ n → kmpSearch n str sub next = some i) ∧ FirstAt sub.1 (visible str) i := by
  obtain ⟨i, j, hrun, hfirst⟩ := @searchLoop_first str sub next hnext hsub
    (2 * (visible str).length + 1) 0 0 (.start _ _) (by omega)
  refine ⟨_, 2 * (visible str).length + 1, ?_, hfirst⟩
  intro n hn
  unfold kmpSearch
  dsimp only
  have hrun := hrun n hn
  rw [cint_natCast hfit, show ((0 : Nat) : Int) = 0 from rfl] at *
  rw [hrun]
  rfl

/-- An occurrence anywhere in the text means there is one in the visible part of it. -/
def SeesOne (str sub : CString) : Prop :=
  (∃ s, OccursAt sub.1 str.1 s) → ∃ s, OccursAt sub.1 (visible str) s

/-- A text whose length is an `int` is seen as a whole. -/
theorem visible_of_le (h : str.1.length ≤ INT_MAX) : visible str = str.1 := by
  rw [visible, cint_natCast h, Int.toNat_natCast, List.take_length]

/-- So nothing is missed in it. -/
theorem seesOne_of_le (h : str.1.length ≤ INT_MAX) : SeesOne str sub := by
  intro hocc
  rw [visible_of_le h]
  exact hocc

/-- The first occurrence in the visible part is the first one in the text. -/
theorem FirstAt.of_visible {i : Int} (h : FirstAt sub.1 (visible str) i) (hsub : 0 < sub.1.length)
    (hsees : SeesOne str sub) : FirstAt sub.1 str.1 i := by
  rcases h with ⟨s, hi, hocc, hfirst⟩ | ⟨hi, hnone⟩
  · refine .inl ⟨s, hi, hocc.of_take, ?_⟩
    intro s' hs' hocc'
    have hle := hocc.le hsub
    rw [length_visible] at hle
    exact hfirst s' hs' (hocc'.take (by omega))
  · refine .inr ⟨hi, fun s hocc => ?_⟩
    obtain ⟨s', hs'⟩ := hsees ⟨s, hocc⟩
    exact hnone s' hs'

/-- A place that is first in both. -/
theorem FirstAt.seesOne {i : Int} (h : FirstAt sub.1 str.1 i) (h' : FirstAt sub.1 (visible str) i) :
    SeesOne str sub := by
  intro ⟨s, hocc⟩
  rcases h with ⟨s', hi, _⟩ | ⟨_, hnone⟩
  · rcases h' with ⟨s'', _, hocc', _⟩ | ⟨hi', _⟩
    · exact ⟨s'', hocc'⟩
    · omega
  · exact absurd hocc (hnone s)

/-- Only a pattern whose length is an `int` has its table. -/
theorem KmpRight.length_le (h : KmpRight str sub) : sub.1.length ≤ INT_MAX := by
  apply Nat.le_of_not_lt
  intro hgt
  simp only [INT_MAX] at hgt
  obtain ⟨next, _, ⟨N, hnext⟩, hborder, _⟩ := h fun _ => -2
  obtain ⟨b, hb, _⟩ := hborder (sub.1.length - 1) (by omega) (by omega)
  have hrun := hnext N (Nat.le_refl N)
  unfold getNext at hrun
  dsimp only at hrun
  split at hrun
  · have hcint : cint sub.1.length ≤ ((sub.1.length - 1 : Nat) : Int) := by
      unfold cint
      omega
    have hsame := nextLoop_beyond sub hcint _ _ _ _ _ hrun
    rw [Function.update_of_ne (by omega)] at hsame
    omega
  · cases hrun

/-- A right answer needs the condition. -/
theorem KmpRight.seesOne (h : KmpRight str sub) (hsub : 0 < sub.1.length) : SeesOne str sub := by
  have hfit := h.length_le
  obtain ⟨next, i, ⟨N, hnext⟩, _, ⟨M, hsearch⟩, hfirst⟩ := h fun _ => 0
  obtain ⟨next', N', hnext', hentry⟩ := getNext_entries hsub hfit fun _ => 0
  have hsame : next = next' := by
    have hn := hnext (max N N') (Nat.le_max_left N N')
    rw [hnext' (max N N') (Nat.le_max_right N N')] at hn
    exact (Option.some.inj hn).symm
  obtain ⟨i', M', hsearch', hfirst'⟩ := kmpSearch_visible hsub hfit hentry str
  have hi : i = i' := by
    have hm := hsearch (max M M') (Nat.le_max_left M M')
    rw [hsame, hsearch' (max M M') (Nat.le_max_right M M')] at hm
    exact (Option.some.inj hm).symm
  exact hfirst.seesOne (hi ▸ hfirst')

/-- For every text and every pattern that is not empty, `getNext` and `kmpSearch` end and do what they
are for, exactly when the pattern has no more than `INT_MAX` characters and does not occur in the
text in invisible places only. A text of up to `INT_MAX` characters is all visible. -/
theorem kmp_right_iff (str sub : CString) (hsub : sub.1 ≠ []) :
    KmpRight str sub ↔ sub.1.length ≤ INT_MAX ∧ SeesOne str sub := by
  have hpos := List.length_pos_iff.mpr hsub
  constructor
  · intro h
    exact ⟨h.length_le, h.seesOne hpos⟩
  · intro ⟨hfit, hsees⟩ next₀
    obtain ⟨next, N, hnext, hentry⟩ := getNext_entries hpos hfit next₀
    obtain ⟨i, M, hsearch, hfirst⟩ := kmpSearch_visible hpos hfit hentry str
    exact ⟨next, i, ⟨N, hnext⟩, fun j hj hjl => (hentry j hjl).longestBorder hj (by omega),
      ⟨M, hsearch⟩, hfirst.of_visible hpos hsees⟩

/-- `"ab"` in `"aab"`. -/
theorem kmp_right_aab : KmpRight ⟨[97, 97, 98], by decide⟩ ⟨[97, 98], by decide⟩ :=
  (kmp_right_iff _ _ (by decide)).mpr ⟨by decide, seesOne_of_le (by decide)⟩

/-- `n` characters `a` and a `b`. -/
def longText (n : Nat) : CString :=
  ⟨List.replicate n 97 ++ [98], by simp [List.mem_append, List.mem_replicate]⟩

/-- In a text of 2^31 bytes nothing is seen. -/
theorem longText_unseen {n : Nat} (hn : n = INT_MAX) : ¬KmpRight (longText n) ⟨[98], by decide⟩ := by
  intro h
  have hocc : OccursAt [98] (longText n).1 n :=
    ⟨[], (List.drop_left' (List.length_replicate ..)).symm⟩
  obtain ⟨s, hs⟩ := h.seesOne (by decide) ⟨n, hocc⟩
  have hlen : (visible (longText n)).length = 0 := by
    have hl : (longText n).1.length = n + 1 := by
      rw [longText, List.length_append, List.length_replicate]
      rfl
    rw [length_visible, hl]
    simp only [INT_MAX] at hn
    unfold cint
    omega
  have hle := hs.le (by decide)
  rw [hlen] at hle
  exact absurd hle (by simp)

/-- The length of `INT_MAX` characters `a` and a `b` is a negative `int`, and the `b` is not found. -/
theorem kmp_long_text : ¬KmpRight (longText INT_MAX) ⟨[98], by decide⟩ := longText_unseen rfl

end LearningNotes.Algorithm
