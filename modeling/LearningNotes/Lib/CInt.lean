import Mathlib.Data.Int.Order.Basic
import Mathlib.Order.BoundedOrder.Basic

/-!
# Conversions between C integer types

An `int` has 32 bits and a `size_t` 64. Values are kept as `Int` and `Nat`; what a
conversion does to a value that does not fit is written out where the source converts.
-/

namespace LearningNotes

/-- The greatest `int`. -/
@[simp, reducible] def INT_MAX : Nat := 2147483647

/-- The value fits an `int`. -/
def FitsInt (i : Int) : Prop := -2147483648 ≤ i ∧ i ≤ 2147483647

instance (i : Int) : Decidable (FitsInt i) := inferInstanceAs (Decidable (_ ∧ _))

/-- An `int`. -/
abbrev CInt : Type := {i : Int // FitsInt i}

instance (x y : CInt) : Decidable (x ≤ y) := inferInstanceAs (Decidable (x.1 ≤ y.1))

/-- `numeric_limits<int>::max()` is above every `int`. -/
instance : OrderTop CInt where
  top := ⟨2147483647, by decide⟩
  le_top := fun x => x.2.2

/-- A `long`. -/
abbrev CLong : Type := {i : Int // -9223372036854775808 ≤ i ∧ i ≤ 9223372036854775807}

instance (x y : CLong) : Decidable (x < y) := inferInstanceAs (Decidable (x.1 < y.1))

/-- `LONG_MAX` is above every `long`. -/
instance : OrderTop CLong where
  top := ⟨9223372036854775807, by decide⟩
  le_top := fun x => x.2.2

/-- Conversion to `int`. -/
@[irreducible] def cint (i : Int) : Int := (i + 2147483648) % 4294967296 - 2147483648

/-- Conversion to `size_t`. -/
@[irreducible] def csize (i : Int) : Nat := (i % 18446744073709551616).toNat

theorem cint_of_fits {i : Int} (h : FitsInt i) : cint i = i := by
  obtain ⟨hlo, hhi⟩ := h
  unfold cint
  omega

theorem cint_natCast {n : Nat} (h : n ≤ INT_MAX) : cint n = n := by
  apply cint_of_fits
  unfold FitsInt
  simp only [INT_MAX] at h
  omega

theorem csize_natCast {n : Nat} (h : n < 18446744073709551616) : csize n = n := by
  unfold csize
  omega

/-- A `size_t` converted to `int` is reduced twice. -/
theorem cint_csize (i : Int) : cint (csize i) = cint i := by
  unfold cint csize
  omega

end LearningNotes
