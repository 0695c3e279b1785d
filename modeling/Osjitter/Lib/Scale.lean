/-
Osjitter.Lib.Scale — multiplication by a ratio in fixed point.

A ratio of two numbers is approximated by `mult / 2 ^ s`, so that a product and
a shift stand for a division. This is the arithmetic of it, in natural and
rational numbers; the words of a program come in with the bits that they have
room for.

  §1 `nearest a b`: the natural number nearest to `a / b`, as integer code
     computes it, with `abs_nearest_sub_le` for its error of a half.
     `nearest_mono`, `nearest_lt_iff` and `le_nearest_iff` compare it with
     bounds without a division.
  §2 `scaled n mult s`: `n * mult / 2 ^ s`, which multiplies by a ratio that
     `mult / 2 ^ s` approximates. It is monotone, and `scaled_sub_mem` is its
     error: one for the shift, and the error of the ratio `n` times.
  §3 `room r`: how many bits a factor may have whose products with the numbers
     up to `r` are to fit 64 bits, and `mul_room_lt`, that they do.
-/
import Mathlib

namespace Scale

/-! ## §1 Rounding division

Integer division rounds down, so half of the divisor is added before it. What
that does to a comparison is exact, and needs no rational numbers. -/

/-- The quotient, rounded to the nearest natural number. -/
def nearest (a b : ℕ) : ℕ := (a + b / 2) / b

/-- Being below a bound, without the division. -/
theorem nearest_lt_iff {a b c : ℕ} (hb : 0 < b) :
    nearest a b < c ↔ a + b / 2 < c * b :=
  Nat.div_lt_iff_lt_mul hb

/-- Not being below one. -/
theorem le_nearest_iff {a b c : ℕ} (hb : 0 < b) :
    c ≤ nearest a b ↔ c * b ≤ a + b / 2 :=
  Nat.le_div_iff_mul_le hb

/-- A greater dividend has no smaller quotient. -/
theorem nearest_mono {a a' b : ℕ} (h : a ≤ a') : nearest a b ≤ nearest a' b :=
  Nat.div_le_div_right (Nat.add_le_add_right h _)

/-- Half of a value that is large is at least half as large. -/
theorem le_nearest_of_two_mul_le {a b c : ℕ} (hb : 0 < b)
    (h : 2 * c ≤ nearest (2 * a) b) : c ≤ nearest a b := by
  rw [le_nearest_iff hb] at h ⊢
  have htwo : 2 * c * b = 2 * (c * b) := Nat.mul_assoc 2 c b
  omega

/-- The rounding error is at most one half. -/
theorem abs_nearest_sub_le {a b : ℕ} (hb : 0 < b) :
    |(nearest a b : ℚ) - a / b| ≤ 1 / 2 := by
  have hb' : (0 : ℚ) < b := Nat.cast_pos.mpr hb
  have hle : nearest a b * b ≤ a + b / 2 := (le_nearest_iff hb).mp le_rfl
  have hlt : a + b / 2 < (nearest a b + 1) * b :=
    (nearest_lt_iff hb).mp (Nat.lt_succ_self _)
  have hupper : 2 * (nearest a b * b) ≤ 2 * a + b := by omega
  have hlower : 2 * a ≤ 2 * (nearest a b * b) + b := by
    rw [Nat.succ_mul] at hlt
    omega
  have hupper' : 2 * ((nearest a b : ℚ) * b) ≤ 2 * a + b := by
    exact_mod_cast hupper
  have hlower' : 2 * (a : ℚ) ≤ 2 * (nearest a b * b) + b := by
    exact_mod_cast hlower
  have hcancel : (a : ℚ) / b * b = a := div_mul_cancel₀ _ hb'.ne'
  rw [abs_le]
  constructor
  · refine le_of_mul_le_mul_right ?_ hb'
    linarith
  · refine le_of_mul_le_mul_right ?_ hb'
    linarith

/-! ## §2 Scaling

The factor is an integer and the divisor a power of two. The error has two
parts: the shift drops less than one, and the factor is off by at most a half,
which counts as often as the number says. -/

/-- `n` times `mult / 2 ^ s`, rounded down. -/
def scaled (n mult s : ℕ) : ℕ := n * mult / 2 ^ s

/-- A greater number has no smaller result. -/
theorem scaled_mono {n n' : ℕ} (mult s : ℕ) (h : n ≤ n') :
    scaled n mult s ≤ scaled n' mult s :=
  Nat.div_le_div_right (Nat.mul_le_mul_right mult h)

/-- A ratio of at most 1. -/
theorem scaled_le {n mult s : ℕ} (h : mult ≤ 2 ^ s) : scaled n mult s ≤ n := by
  refine Nat.div_le_of_le_mul ?_
  rw [Nat.mul_comm]
  exact Nat.mul_le_mul_right n h

/-- Whatever the shift is. -/
theorem scaled_le_mul (n mult s : ℕ) : scaled n mult s ≤ n * mult :=
  Nat.div_le_self _ _

/-- **The error of scaling.** Where `mult` is within one half of the ratio
times `2 ^ s`, the result is off by the rounding of `mult` and, downwards, by
the final rounding. -/
theorem scaled_sub_mem {n mult s : ℕ} {x : ℚ}
    (h : |(mult : ℚ) - x * 2 ^ s| ≤ 1 / 2) :
    -1 - (n : ℚ) / 2 ^ (s + 1) < scaled n mult s - n * x ∧
      (scaled n mult s : ℚ) - n * x ≤ n / 2 ^ (s + 1) := by
  have hpow : (0 : ℚ) < 2 ^ s := by positivity
  have hn : (0 : ℚ) ≤ n := Nat.cast_nonneg n
  obtain ⟨hlower, hupper⟩ := abs_le.mp h
  have hfloor : scaled n mult s * 2 ^ s ≤ n * mult := Nat.div_mul_le_self _ _
  have hceil : n * mult < (scaled n mult s + 1) * 2 ^ s :=
    (Nat.div_lt_iff_lt_mul (by positivity)).mp (Nat.lt_succ_self _)
  have hfloor' : (scaled n mult s : ℚ) * 2 ^ s ≤ n * mult := by
    exact_mod_cast hfloor
  have hceil' : (n : ℚ) * mult < (scaled n mult s + 1) * 2 ^ s := by
    exact_mod_cast hceil
  have hhalf : (n : ℚ) / 2 ^ (s + 1) * 2 ^ s = n / 2 := by
    rw [pow_succ]
    field_simp
  have hmul : (n : ℚ) * (mult - x * 2 ^ s) ≤ n * (1 / 2) :=
    mul_le_mul_of_nonneg_left hupper hn
  have hmul' : (n : ℚ) * -(1 / 2) ≤ n * (mult - x * 2 ^ s) :=
    mul_le_mul_of_nonneg_left hlower hn
  constructor
  · refine lt_of_mul_lt_mul_right ?_ hpow.le
    linarith
  · refine le_of_mul_le_mul_right ?_ hpow
    linarith

/-! ## §3 Room for a factor

A product fits 64 bits if the factors have no more bits between them. A factor
of 32 bits always fits beside a number of 32, so only the bits above these are
counted. -/

/-- The bits left beside those of `r`, and 32 at most. -/
def room (r : ℕ) : ℕ := 32 - (r / 2 ^ 32).size

/-- The upper half of a word has 32 bits. -/
theorem size_high_le {r : ℕ} (hr : r < 2 ^ 64) : (r / 2 ^ 32).size ≤ 32 :=
  Nat.size_le.mpr (Nat.div_lt_of_lt_mul (by omega))

/-- A factor that fits the room is safe. -/
theorem mul_room_lt {r : ℕ} (hr : r < 2 ^ 64) : r * 2 ^ room r < 2 ^ 64 := by
  have hsize := size_high_le hr
  have hlt : r < 2 ^ 32 * 2 ^ (r / 2 ^ 32).size := by
    have hhigh := Nat.lt_size_self (r / 2 ^ 32)
    omega
  calc r * 2 ^ room r
    _ < 2 ^ 32 * 2 ^ (r / 2 ^ 32).size * 2 ^ room r :=
      Nat.mul_lt_mul_of_pos_right hlt (Nat.two_pow_pos _)
    _ = 2 ^ 64 := by
      rw [← Nat.pow_add, ← Nat.pow_add, room]
      congr 1
      omega

end Scale
