/-
Osjitter.Lib.Checked — signed arithmetic of 64 bits that has no result where
it overflows, and the mean of two numbers.

An overflow of a signed type is undefined in C, so a sum that leaves the range
is no number here but `none`, and a program that returns has made none. The
three rules `add_eq_some`, `sub_eq_some` and `mul_eq_some` say when an
operation has its exact result; they are `simp` lemmas, with `Fits` as the side
condition, which is decidable.

`tdiv_two_add` compares the rounding of a division to that of its parts, and
`abs_mean_sub_le` is the error of a mean that is taken as a first number plus
half a difference, in integers that round towards zero.
-/
import Mathlib

namespace Checked

/-! ## Arithmetic

The operations are those of the integers followed by one test. A program that
uses several has a result only if each of them fits, in the order of its
evaluation. -/

/-- The numbers of an `int64_t`. -/
def Fits (x : ℤ) : Prop := -2 ^ 63 ≤ x ∧ x < 2 ^ 63

instance decidableFits (x : ℤ) : Decidable (Fits x) :=
  inferInstanceAs (Decidable (_ ∧ _))

/-- A number of 64 bits with a sign, or none where it does not fit. -/
def int64 (x : ℤ) : Option ℤ := if Fits x then some x else none

/-- A sum, or none where it overflows. -/
def add (a b : ℤ) : Option ℤ := int64 (a + b)

/-- A difference, or none where it overflows. -/
def sub (a b : ℤ) : Option ℤ := int64 (a - b)

/-- A product, or none where it overflows. -/
def mul (a b : ℤ) : Option ℤ := int64 (a * b)

theorem add_eq_some {a b : ℤ} (h : Fits (a + b)) :
    add a b = some (a + b) := if_pos h

theorem sub_eq_some {a b : ℤ} (h : Fits (a - b)) :
    sub a b = some (a - b) := if_pos h

theorem mul_eq_some {a b : ℤ} (h : Fits (a * b)) :
    mul a b = some (a * b) := if_pos h

/-! ## The mean

The mean of two times is taken without adding them, which could overflow. The
price is a rounding: the half of a difference is rounded towards zero, and not
the half of the sum. -/

/-- A common offset comes out of the mean, which is truncated. -/
theorem tdiv_two_add {a b c : ℤ} (h : 0 ≤ a + c + (b + c)) :
    (a + c + (b + c)).tdiv 2 = (a + b) / 2 + c := by
  rw [Int.tdiv_eq_ediv_of_nonneg h]
  omega

/-- **The mean is near** everything between the two numbers. -/
theorem abs_mean_sub_le {a b x : ℤ} (ha : a ≤ x) (hb : x ≤ b) :
    |(a + b) / 2 - x| ≤ (b - a + 1) / 2 := by
  rw [abs_le]
  constructor <;> omega

end Checked
