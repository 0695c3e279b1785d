/-
Osjitter.Util.Clock — conversion of TSC cycles to nanoseconds: `mul_u64_u32_shr`
of `util.h` and `clocks_calc_mult_shift` of `util.c`.

`mul_u64_u32_shr` is a product of 128 bits and a shift. The search for the
factors counts a shift down from 32 until the factor fits the bits that the
range leaves; `attempt` is the factor for one shift, `search` the loop and
`find_shift` what is stored behind it, whether the loop was left by its `break`
or not.

`from` is never 0 where the functions are called; the source divides by it. The
division by 0 of Lean is thus never reached, and nothing is proved about it.
-/
import Mathlib

namespace Osjitter.Util

/-! ## Conversion

Cycles are turned to nanoseconds by a product and a shift. The product is taken
in 128 bits and cut to 64 after the shift. -/

/-- `x = cyc; x *= mult; x >>= shift; return x;`, where `x` has 128 bits. -/
def mul_u64_u32_shr (cyc : UInt64) (mult shift : UInt32) : UInt64 :=
  let x := cyc.toBitVec.setWidth 128
  let x := x * mult.toBitVec.setWidth 128
  let x := x >>> shift.toNat
  ⟨x.setWidth 64⟩

/-! ## Factors

`clocks_calc_mult_shift` has two loops: the first counts the bits that the range
takes, the second goes down from the greatest shift until a factor has no more
bits than are left. `Search` says how the second one ends, since a loop that
runs to its end leaves another value of `sft` than its `break` does. -/

/-- `while (tmp) { tmp >>= 1; sftacc--; }` -/
def limit_shift (tmp : UInt64) (sftacc : UInt32) : UInt32 :=
  if tmp = 0 then sftacc else limit_shift (tmp >>> 1) (sftacc - 1)
termination_by tmp.toNat
decreasing_by
  next h =>
    have hpos : 0 < tmp.toNat :=
      Nat.pos_of_ne_zero fun h0 => h (UInt64.toNat_inj.mp h0)
    have hhalf : (tmp >>> 1).toNat = tmp.toNat / 2 := by
      rw [UInt64.toNat_shiftRight, Nat.shiftRight_eq_div_pow]
      rfl
    omega

/-- `tmp = (uint64_t) to << sft; tmp += from / 2; tmp = tmp / (uint64_t) from;` -/
def attempt (from' to' : UInt32) (sft : Nat) : UInt64 :=
  let tmp := to'.toUInt64 <<< UInt64.ofNat sft
  let tmp := tmp + (from' / 2).toUInt64
  tmp / from'.toUInt64

/-- How the search for the shift ends. -/
structure Search where
  tmp : UInt64
  sft : Nat
  /-- The loop was left by its `break`. -/
  broke : Bool
  deriving DecidableEq, Repr

/-- `for (sft = 32; sft > 0; sft--)`, at `sft` with the latest `tmp`. -/
def search (from' to' sftacc : UInt32) : Nat → UInt64 → Search
  | 0, tmp => ⟨tmp, 0, false⟩
  | sft + 1, _ =>
      let tmp := attempt from' to' (sft + 1)
      if tmp >>> sftacc.toUInt64 = 0 then ⟨tmp, sft + 1, true⟩
      else search from' to' sftacc sft tmp

/-- The search as `clocks_calc_mult_shift` starts it. -/
def find_shift (from' to' maxsec : UInt32) : Search :=
  let tmp := (maxsec.toUInt64 * from'.toUInt64) >>> 32
  search from' to' (limit_shift tmp 32) 32 0

/-- `*mult` and `*shift`. -/
def clocks_calc_mult_shift (from' to' maxsec : UInt32) : UInt32 × UInt32 :=
  let found := find_shift from' to' maxsec
  (found.tmp.toUInt32, UInt32.ofNat found.sft)

end Osjitter.Util
