import Mathlib.Data.List.TakeWhile
import Mathlib.Data.Nat.Digits.Lemmas

/-!
# Decimal numbers in ASCII

The part of `printf` and `atol` that a text file format rests on: `decimal` is
`"%d"` of a natural number, `padLeft w` is the blank padding of `"%*d"`, and
`atol` reads a number back after leading white space and an optional sign, up to
the first character that is no digit. C leaves `atol` undefined outside the range
of `long`; here it is unbounded. `atoi` is the conversion through `strtol`, which
stops at the bounds of `long`, and of which an `int` keeps the low 32 bits.

`atol_padLeft_decimal` is the round trip. `length_decimal_le` bounds the width,
so a field of `w` characters holds exactly the numbers below `10 ^ w`.
-/

namespace LearningNotes

/-- The character of a digit. -/
def digitChar (d : Nat) : UInt8 := UInt8.ofNat (48 + d)

/-- `"%d"` of a natural number. -/
def decimal (n : Nat) : List UInt8 :=
  if n = 0 then [digitChar 0] else (Nat.digits 10 n).reverse.map digitChar

/-- `"%lld"`: a minus sign in front of the digits of a negative number. -/
def decimalInt : Int → List UInt8
  | .ofNat n => decimal n
  | .negSucc n => '-'.toUInt8 :: decimal (n + 1)

/-- The padding of `"%*d"`: blanks in front, up to width `w`. -/
def padLeft (w : Nat) (s : List UInt8) : List UInt8 :=
  List.replicate (w - s.length) ' '.toUInt8 ++ s

/-- `isspace` in the C locale. -/
def isSpace (c : UInt8) : Bool := c = 32 || (9 ≤ c && c ≤ 13)

/-- `isdigit`. -/
def isDigit (c : UInt8) : Bool := 48 ≤ c && c ≤ 57

/-- The value of the leading digits. -/
def leadingDigits (s : List UInt8) : Nat :=
  (s.takeWhile isDigit).foldl (fun n c => 10 * n + (c.toNat - 48)) 0

/-- `atol`: white space, a sign, digits; what follows is ignored. -/
def atol (s : List UInt8) : Int :=
  match s.dropWhile isSpace with
  | [] => 0
  | c :: t =>
    if c = '-'.toUInt8 then - (leadingDigits t : Int)
    else if c = '+'.toUInt8 then leadingDigits t
    else leadingDigits (c :: t)

/-- `atoi`: what `strtol` returns, as an `int`. -/
def atoi (s : List UInt8) : Int32 := Int32.ofInt (max (-2 ^ 63) (min (2 ^ 63 - 1) (atol s)))

theorem toNat_digitChar {d : Nat} (h : d < 10) : (digitChar d).toNat = 48 + d := by
  unfold digitChar
  rw [UInt8.toNat_ofNat']
  omega

theorem isDigit_digitChar {d : Nat} (h : d < 10) : isDigit (digitChar d) = true := by
  have hn := toNat_digitChar h
  simp only [isDigit, Bool.and_eq_true, decide_eq_true_eq, UInt8.le_iff_toNat_le, hn]
  constructor
  · show 48 ≤ 48 + d
    omega
  · show 48 + d ≤ 57
    omega

/-- A decimal number consists of digits. -/
theorem isDigit_of_mem_decimal {n : Nat} {c : UInt8} (h : c ∈ decimal n) : isDigit c = true := by
  unfold decimal at h
  split at h
  · rw [List.mem_singleton.mp h]
    exact isDigit_digitChar (by omega)
  · obtain ⟨d, hd, rfl⟩ := List.mem_map.mp h
    exact isDigit_digitChar (Nat.digits_lt_base (by omega) (List.mem_reverse.mp hd))

theorem decimal_ne_nil (n : Nat) : decimal n ≠ [] := by
  unfold decimal
  split
  · simp
  · next h =>
    simpa using Nat.digits_ne_nil_iff_ne_zero.mpr h

/-- A character that is no digit does not occur in a decimal number. -/
theorem not_mem_decimal {c : UInt8} (h : isDigit c = false) (n : Nat) : c ∉ decimal n := by
  intro hc
  rw [isDigit_of_mem_decimal hc] at h
  exact Bool.noConfusion h

/-- The numbers below `10 ^ k` are those with at most `k` digits. -/
theorem length_decimal_le_iff {n k : Nat} (hk : 0 < k) : (decimal n).length ≤ k ↔ n < 10 ^ k := by
  unfold decimal
  split
  · next h =>
    subst h
    exact iff_of_true hk (Nat.pow_pos (by omega))
  · rw [List.length_map, List.length_reverse]
    exact Nat.digits_length_le_iff (by omega) n

theorem length_decimal_le {n k : Nat} (hk : 0 < k) (h : n < 10 ^ k) : (decimal n).length ≤ k :=
  (length_decimal_le_iff hk).mpr h

theorem length_decimal_pos (n : Nat) : 0 < (decimal n).length :=
  List.length_pos_iff.mpr (decimal_ne_nil n)

/-- The digits in front, up to a character that is no digit. -/
theorem takeWhile_isDigit_decimal (n : Nat) {s : List UInt8}
    (hs : ∀ c ∈ s.head?, isDigit c = false) : (decimal n ++ s).takeWhile isDigit = decimal n := by
  rw [List.takeWhile_append_of_pos fun c hc => isDigit_of_mem_decimal hc]
  cases s with
  | nil => rw [List.takeWhile_nil, List.append_nil]
  | cons c s =>
    have hc : isDigit c = false := hs c rfl
    rw [List.takeWhile_cons_of_neg (by rw [hc]; exact Bool.false_ne_true), List.append_nil]

/-- Reading the digits of a number gives the number. -/
theorem leadingDigits_decimal (n : Nat) {s : List UInt8}
    (hs : ∀ c ∈ s.head?, isDigit c = false) : leadingDigits (decimal n ++ s) = n := by
  unfold leadingDigits
  rw [takeWhile_isDigit_decimal n hs]
  unfold decimal
  split
  · next h => rw [h]; rfl
  · have hfold : ∀ ds : List Nat, (∀ d ∈ ds, d < 10) →
        (ds.reverse.map digitChar).foldl (fun n c => 10 * n + (c.toNat - 48)) 0
          = Nat.ofDigits 10 ds := by
      intro ds
      induction ds with
      | nil => intro _; rfl
      | cons d ds ih =>
        intro hd
        have h10 : d < 10 := hd d (List.mem_cons_self ..)
        rw [List.reverse_cons, List.map_append, List.foldl_append,
          ih fun e he => hd e (List.mem_cons_of_mem _ he), Nat.ofDigits_cons]
        show 10 * Nat.ofDigits 10 ds + ((digitChar d).toNat - 48) = d + 10 * Nat.ofDigits 10 ds
        rw [toNat_digitChar h10]
        omega
    rw [hfold _ fun d hd => Nat.digits_lt_base (by omega) hd, Nat.ofDigits_digits]

theorem isSpace_of_isDigit {c : UInt8} (hc : isDigit c = true) : isSpace c = false := by
  simp only [isDigit, isSpace, Bool.and_eq_true, decide_eq_true_eq, Bool.or_eq_false_iff,
    decide_eq_false_iff_not, Bool.and_eq_false_iff, UInt8.le_iff_toNat_le,
    ← UInt8.toNat_inj] at hc ⊢
  have h48 : (48 : UInt8).toNat = 48 := rfl
  have h32 : (32 : UInt8).toNat = 32 := rfl
  have h13 : (13 : UInt8).toNat = 13 := rfl
  omega

/-- Without white space and a sign, `atol` is the value of the digits. -/
theorem atol_of_isDigit {c : UInt8} (hc : isDigit c = true) (t : List UInt8) :
    atol (c :: t) = leadingDigits (c :: t) := by
  have hminus : c ≠ '-'.toUInt8 := by
    rintro rfl
    exact absurd hc (by decide)
  have hplus : c ≠ '+'.toUInt8 := by
    rintro rfl
    exact absurd hc (by decide)
  unfold atol
  rw [List.dropWhile_cons_of_neg (by rw [isSpace_of_isDigit hc]; exact Bool.false_ne_true)]
  dsimp only
  rw [if_neg hminus, if_neg hplus]

/-- `atol` reads the digits in front, and ignores what comes behind them. -/
theorem atol_decimal_append (n : Nat) {s : List UInt8} (hs : ∀ c ∈ s.head?, isDigit c = false) :
    atol (decimal n ++ s) = n := by
  have hval := leadingDigits_decimal n hs
  obtain ⟨c, t, hct⟩ := List.exists_cons_of_ne_nil (decimal_ne_nil n)
  have hc : isDigit c = true := by
    apply @isDigit_of_mem_decimal n
    rw [hct]
    exact List.mem_cons_self ..
  rw [hct, List.cons_append] at hval ⊢
  rw [atol_of_isDigit hc, hval]

/-- Nothing comes behind the digits. -/
theorem atol_decimal (n : Nat) : atol (decimal n) = n := by
  have h := atol_decimal_append n fun c (hc : c ∈ ([] : List UInt8).head?) => absurd hc (by simp)
  rwa [List.append_nil] at h

/-- **Round trip**: `atol` reads back what `"%*d"` wrote. -/
theorem atol_padLeft_decimal (w n : Nat) : atol (padLeft w (decimal n)) = n := by
  -- the padding is white space
  have hdrop : (padLeft w (decimal n)).dropWhile isSpace = (decimal n).dropWhile isSpace := by
    unfold padLeft
    rw [List.dropWhile_append_of_pos]
    intro a ha
    rw [List.eq_of_mem_replicate ha]
    rfl
  have h := atol_decimal n
  unfold atol at h ⊢
  rwa [hdrop]

/-- The same for a number that may be negative. -/
theorem atol_decimalInt (i : Int) : atol (decimalInt i) = i := by
  cases i with
  | ofNat n => exact atol_decimal n
  | negSucc n =>
    have hval := leadingDigits_decimal (n + 1) fun c (hc : c ∈ ([] : List UInt8).head?) => absurd hc (by simp)
    rw [List.append_nil] at hval
    show atol ('-'.toUInt8 :: decimal (n + 1)) = _
    unfold atol
    rw [List.dropWhile_cons_of_neg (by decide)]
    dsimp only
    rw [if_pos rfl, hval]
    rfl

/-- `k` digits are a number below `10 ^ k`. -/
theorem leadingDigits_lt (s : List UInt8) : leadingDigits s < 10 ^ s.length := by
  have hfold : ∀ (ds : List UInt8) (n : Nat), (∀ c ∈ ds, isDigit c = true) →
      ds.foldl (fun n c => 10 * n + (c.toNat - 48)) n < (n + 1) * 10 ^ ds.length := by
    intro ds
    induction ds with
    | nil =>
      intro n _
      rw [List.foldl_nil, List.length_nil, pow_zero, Nat.mul_one]
      exact Nat.lt_succ_self n
    | cons c ds ih =>
      intro n hds
      have hc := hds c (List.mem_cons_self ..)
      simp only [isDigit, Bool.and_eq_true, decide_eq_true_eq, UInt8.le_iff_toNat_le] at hc
      have h57 : c.toNat ≤ 57 := hc.2
      have hnext : 10 * n + (c.toNat - 48) + 1 ≤ (n + 1) * 10 := by omega
      calc (c :: ds).foldl (fun n c => 10 * n + (c.toNat - 48)) n
          < (10 * n + (c.toNat - 48) + 1) * 10 ^ ds.length :=
            ih _ fun d hd => hds d (List.mem_cons_of_mem _ hd)
        _ ≤ ((n + 1) * 10) * 10 ^ ds.length := Nat.mul_le_mul_right _ hnext
        _ = (n + 1) * 10 ^ (c :: ds).length := by
            rw [List.length_cons, pow_succ', Nat.mul_assoc]
  have h := hfold (s.takeWhile isDigit) 0 fun c hc => List.all_eq_true.mp List.all_takeWhile c hc
  rw [Nat.zero_add, Nat.one_mul] at h
  exact Nat.lt_of_lt_of_le h
    (Nat.pow_le_pow_right (by omega) (List.takeWhile_prefix _).length_le)

/-- `atoi` is exact for the values of an `int`. -/
theorem toInt_atoi {s : List UInt8} (hlo : -2 ^ 31 ≤ atol s) (hhi : atol s < 2 ^ 31) :
    (atoi s).toInt = atol s := by
  unfold atoi
  rw [min_eq_right (by omega), max_eq_right (by omega), Int32.toInt_ofInt_of_le hlo hhi]

theorem toInt_atoi_digits {s : List UInt8} (hs : ∀ c ∈ s, isDigit c = true)
    (hlt : leadingDigits s < 2 ^ 31) : (atoi s).toInt = leadingDigits s := by
  have hatol : atol s = leadingDigits s := by
    cases s with
    | nil => rfl
    | cons c s => exact atol_of_isDigit (hs c (List.mem_cons_self ..)) s
  rw [toInt_atoi (by omega) (by omega), hatol]

theorem decimalInt_ne_nil (i : Int) : decimalInt i ≠ [] := by
  cases i with
  | ofNat n => exact decimal_ne_nil n
  | negSucc n => exact List.cons_ne_nil _ _

/-- A character that is neither a digit nor a sign. -/
theorem not_mem_decimalInt {c : UInt8} (h : isDigit c = false) (hc : c ≠ '-'.toUInt8) (i : Int) :
    c ∉ decimalInt i := by
  cases i with
  | ofNat n => exact not_mem_decimal h n
  | negSucc n =>
    intro hmem
    rcases List.mem_cons.mp hmem with hc' | hmem
    · exact hc hc'
    · exact not_mem_decimal h (n + 1) hmem

theorem length_padLeft {w : Nat} {s : List UInt8} (h : s.length ≤ w) : (padLeft w s).length = w := by
  unfold padLeft
  rw [List.length_append, List.length_replicate]
  omega

theorem decimalInt_natCast (n : Nat) : decimalInt n = decimal n := rfl

end LearningNotes
