/-
Osjitter.Util.Factors — what the comment of `clocks_calc_mult_shift` promises,
for every pair of frequencies and every range.

The programs ask for no range. With one, fewer bits are left for the factor
(`Scale.room`); then the product of the factor and any cycle count of the range
fits 64 bits, and the plain 64-bit formula gives what `mul_u64_u32_shr` gives.

  §1 `limit_shift` counts the bits that the range takes: its loop halves the
     limit until nothing is left (`toNat_limit_shift`, by `size_half`). `acc`
     is the number of bits that remain.
  §2 The search, for any frequencies. `accepted_iff` says when a factor is
     taken, and `search_rejected` what is stored where none is: the factor for
     a shift of 1 with a shift of 0.
  §3 `Factors` is the promise, for a range: the product fits, the plain formula
     is enough, the error is that of rounding, and no larger shift would do.
     `factors_iff` says that it is kept exactly where the search ends by its
     `break`, and that this is where the factor for a shift of 1 fits.

A `to` or a range of 0 is included; a `from` of 0 is not.
-/
import Mathlib
import Osjitter.Util.ClockTheorems

namespace Osjitter.Util

open Scale

/-! ## §1 The limit

The first loop shifts the upper half of the range to the right until nothing is
left, and takes one away from 32 for each step. That makes its result the number
of bits that a factor may have, which `Lib.Scale` calls the room. -/

/-- A shift by one is a division by two. -/
theorem toNat_shiftRight_one (tmp : UInt64) :
    (tmp >>> 1).toNat = tmp.toNat / 2 := by
  rw [UInt64.toNat_shiftRight, Nat.shiftRight_eq_div_pow]
  rfl

/-- Half a number has one bit less. -/
theorem size_half {n : ℕ} (hn : n ≠ 0) : (n / 2).size + 1 = n.size := by
  have hle : (n / 2).size + 1 ≤ n.size := by
    rw [Nat.succ_le_iff, Nat.lt_size]
    by_cases h0 : n / 2 = 0
    · rw [h0, Nat.size_zero, Nat.pow_zero]
      omega
    · have hhalf : 2 ^ ((n / 2).size - 1) ≤ n / 2 :=
        Nat.lt_size.mp (Nat.sub_lt (Nat.size_pos.mpr (by omega)) Nat.one_pos)
      have hpos := Nat.size_pos.mpr (Nat.pos_of_ne_zero h0)
      calc 2 ^ (n / 2).size
        _ = 2 ^ ((n / 2).size - 1) * 2 := by
          rw [← Nat.pow_succ, Nat.succ_eq_add_one]; congr 1; omega
        _ ≤ n := by omega
  have hge : n.size ≤ (n / 2).size + 1 := by
    rw [Nat.size_le, Nat.pow_succ]
    have hlt := Nat.lt_size_self (n / 2)
    omega
  omega

/-- **The first loop** takes away one for each bit. -/
theorem toNat_limit_shift (tmp : UInt64) (sftacc : UInt32)
    (h : tmp.toNat.size ≤ sftacc.toNat) :
    (limit_shift tmp sftacc).toNat = sftacc.toNat - tmp.toNat.size := by
  induction tmp, sftacc using limit_shift.induct with
  | case1 sftacc => rw [limit_shift, if_pos rfl]; rfl
  | case2 tmp sftacc hne ih =>
    have hne' : tmp.toNat ≠ 0 := fun h0 => hne (UInt64.toNat_inj.mp h0)
    have hsize := size_half hne'
    have hone : (1 : UInt32) ≤ sftacc := by
      rw [UInt32.le_iff_toNat_le]
      show 1 ≤ sftacc.toNat
      omega
    have hpred : (sftacc - 1).toNat = sftacc.toNat - 1 :=
      UInt32.toNat_sub_of_le _ _ hone
    rw [limit_shift, if_neg hne, ih, toNat_shiftRight_one, hpred]
    · omega
    · rw [toNat_shiftRight_one, hpred]
      omega

/-- The cycles of the range. -/
def range (from' maxsec : UInt32) : ℕ := maxsec.toNat * from'.toNat

/-- The product is taken in 64 bits, and fits. -/
theorem range_lt (from' maxsec : UInt32) : range from' maxsec < 2 ^ 64 := by
  have hfrom := from'.toNat_lt
  have hmax := maxsec.toNat_lt
  calc range from' maxsec
    _ ≤ (2 ^ 32 - 1) * (2 ^ 32 - 1) := Nat.mul_le_mul (by omega) (by omega)
    _ < 2 ^ 64 := by norm_num

/-- The `sftacc` of the second loop. -/
def acc (from' maxsec : UInt32) : UInt32 :=
  limit_shift ((maxsec.toUInt64 * from'.toUInt64) >>> 32) 32

/-- What the first loop leaves is the room beside the range. -/
theorem toNat_acc (from' maxsec : UInt32) :
    (acc from' maxsec).toNat = room (range from' maxsec) := by
  have hlt := range_lt from' maxsec
  have htmp : ((maxsec.toUInt64 * from'.toUInt64) >>> 32).toNat =
      range from' maxsec / 2 ^ 32 := by
    have hcount : (32 : UInt64).toNat % 64 = 32 := rfl
    rw [UInt64.toNat_shiftRight, hcount, Nat.shiftRight_eq_div_pow, UInt64.toNat_mul,
      UInt32.toNat_toUInt64, UInt32.toNat_toUInt64, ← range,
      Nat.mod_eq_of_lt hlt]
  have hsize := size_high_le hlt
  rw [acc, toNat_limit_shift, htmp, room]
  · rfl
  · rw [htmp]
    exact hsize

/-! ## §2 The search

An attempt is rejected if anything is left of it above the room. The test is a
shift of the word; it says the same as the comparison of numbers, as the sums
fit 64 bits. -/

section search

variable {from' to' maxsec : UInt32}

/-- Neither the shift nor the sum of an attempt leaves 64 bits. -/
theorem sum_fits (from' to' : UInt32) {sft : ℕ} (h : sft ≤ 32) :
    to'.toNat * 2 ^ sft + from'.toNat / 2 < 2 ^ 64 := by
  have hpow : to'.toNat * 2 ^ sft ≤ to'.toNat * 2 ^ 32 :=
    Nat.mul_le_mul_left _ (Nat.pow_le_pow_right (by omega) h)
  have hto := to'.toNat_lt
  have hfrom := from'.toNat_lt
  omega

/-- An attempt is accepted if its factor fits the room. -/
theorem accepted_iff {sft : ℕ} (h : sft ≤ 32) :
    attempt from' to' sft >>> (acc from' maxsec).toUInt64 = 0 ↔
      nearest (to'.toNat * 2 ^ sft) from'.toNat <
        2 ^ room (range from' maxsec) := by
  have hroom : room (range from' maxsec) ≤ 32 := Nat.sub_le _ _
  have hcount : (acc from' maxsec).toUInt64.toNat % 64 =
      room (range from' maxsec) := by
    rw [UInt32.toNat_toUInt64, toNat_acc, Nat.mod_eq_of_lt (by omega)]
  rw [← UInt64.toNat_inj, UInt64.toNat_shiftRight, hcount, Nat.shiftRight_eq_div_pow,
    (toNat_attempt from' to' (by omega) (sum_fits from' to' h)).2.2]
  exact Nat.div_eq_zero_iff.trans (or_iff_right (Nat.two_pow_pos _).ne')

/-- A search that accepts nothing runs to its end, and leaves its last attempt. -/
theorem search_rejected {sftacc : UInt32} {k : ℕ} (tmp : UInt64)
    (h : ∀ sft, 0 < sft → sft ≤ k + 1 → attempt from' to' sft >>> sftacc.toUInt64 ≠ 0) :
    search from' to' sftacc (k + 1) tmp = ⟨attempt from' to' 1, 0, false⟩ := by
  have hk := h (k + 1) (Nat.succ_pos k) (Nat.le_refl _)
  rw [search]
  simp only [if_neg hk]
  induction k with
  | zero => rfl
  | succ k ih =>
    have hk := h (k + 1) (Nat.succ_pos k) (Nat.le_succ _)
    rw [search]
    simp only [if_neg hk]
    exact ih (fun sft hpos hle => h sft hpos (by omega)) hk

end search

/-! ## §3 The promise

The comment over the function promises that 64 bits are enough to convert a
number in the range. That is `Factors`, and holds after the `break`. Without it
the loop has counted down once more than it has tried, so the factor is stored
beside a shift that it does not belong to. -/

/-- Factors for the conversion of `from'` to `to'` over a range. -/
structure Factors (from' to' maxsec mult shift : UInt32) : Prop where
  lower : 1 ≤ shift.toNat
  upper : shift.toNat ≤ 32
  mult_eq : mult.toNat = nearest (to'.toNat * 2 ^ shift.toNat) from'.toNat
  /-- No overflow of 64 bits in the range. -/
  fits : ∀ cyc : UInt64, cyc.toNat ≤ range from' maxsec →
    cyc.toNat * mult.toNat < 2 ^ 64
  /-- So 64 bits are enough to convert. -/
  plain : ∀ cyc : UInt64, cyc.toNat ≤ range from' maxsec →
    (cyc * mult.toUInt64) >>> shift.toUInt64 = mul_u64_u32_shr cyc mult shift
  /-- How far off the conversion is. -/
  error : ∀ cyc : UInt64, cyc.toNat ≤ range from' maxsec →
    -1 - (cyc.toNat : ℚ) / 2 ^ (shift.toNat + 1) <
        (mul_u64_u32_shr cyc mult shift).toNat -
          cyc.toNat * (to'.toNat / from'.toNat : ℚ) ∧
      ((mul_u64_u32_shr cyc mult shift).toNat : ℚ) -
          cyc.toNat * (to'.toNat / from'.toNat : ℚ) ≤
        cyc.toNat / 2 ^ (shift.toNat + 1)
  /-- No larger shift has a factor that fits the room. -/
  best : ∀ sft, shift.toNat < sft → sft ≤ 32 →
    2 ^ room (range from' maxsec) ≤ nearest (to'.toNat * 2 ^ sft) from'.toNat

/-- What a factor within the room guarantees. -/
theorem factors_of_fits {from' to' maxsec mult shift : UInt32}
    (hpos : 0 < from'.toNat) (hlower : 1 ≤ shift.toNat)
    (hupper : shift.toNat ≤ 32)
    (hmult : mult.toNat = nearest (to'.toNat * 2 ^ shift.toNat) from'.toNat)
    (hroom : mult.toNat < 2 ^ room (range from' maxsec))
    (hbest : ∀ sft, shift.toNat < sft → sft ≤ 32 →
      2 ^ room (range from' maxsec) ≤
        nearest (to'.toNat * 2 ^ sft) from'.toNat) :
    Factors from' to' maxsec mult shift := by
  have hfits : ∀ cyc : UInt64, cyc.toNat ≤ range from' maxsec →
      cyc.toNat * mult.toNat < 2 ^ 64 := fun cyc hcyc =>
    (Nat.mul_le_mul hcyc hroom.le).trans_lt (mul_room_lt (range_lt from' maxsec))
  have hscaled : ∀ cyc : UInt64, cyc.toNat ≤ range from' maxsec →
      scaled cyc.toNat mult.toNat shift.toNat < 2 ^ 64 := fun cyc hcyc =>
    (scaled_le_mul _ _ _).trans_lt (hfits cyc hcyc)
  refine ⟨hlower, hupper, hmult, hfits, fun cyc hcyc => ?_, fun cyc hcyc => ?_, hbest⟩
  · have hcount : shift.toUInt64.toNat % 64 = shift.toNat := by
      rw [UInt32.toNat_toUInt64, Nat.mod_eq_of_lt (by omega)]
    rw [← UInt64.toNat_inj, toNat_mul_u64_u32_shr_of_lt (hscaled cyc hcyc),
      UInt64.toNat_shiftRight, hcount, Nat.shiftRight_eq_div_pow,
      UInt64.toNat_mul, UInt32.toNat_toUInt64,
      Nat.mod_eq_of_lt (hfits cyc hcyc), scaled]
  · rw [toNat_mul_u64_u32_shr_of_lt (hscaled cyc hcyc)]
    refine scaled_sub_mem ?_
    have hnear := abs_nearest_sub_le (a := to'.toNat * 2 ^ shift.toNat) hpos
    rw [hmult]
    convert hnear using 3
    push_cast
    ring

/-- **The promise of `clocks_calc_mult_shift`** is kept if the search is left by
its `break`, which it is if the factor for a shift of 1 fits the room. Otherwise
that factor is stored with a shift of 0, for twice the ratio. -/
theorem factors_iff (from' to' maxsec : UInt32) (hfrom : from' ≠ 0) :
    ((find_shift from' to' maxsec).broke = true ↔
        nearest (to'.toNat * 2) from'.toNat < 2 ^ room (range from' maxsec)) ∧
      ((find_shift from' to' maxsec).broke = true →
        Factors from' to' maxsec (clocks_calc_mult_shift from' to' maxsec).1
          (clocks_calc_mult_shift from' to' maxsec).2) ∧
      ((find_shift from' to' maxsec).broke = false →
        clocks_calc_mult_shift from' to' maxsec =
          (UInt32.ofNat (nearest (to'.toNat * 2) from'.toNat), 0)) := by
  have hpos : 0 < from'.toNat :=
    Nat.pos_of_ne_zero fun h0 => hfrom (UInt32.toNat_inj.mp h0)
  have hfind : find_shift from' to' maxsec =
      search from' to' (acc from' maxsec) 32 0 := rfl
  by_cases hroom : nearest (to'.toNat * 2) from'.toNat <
    2 ^ room (range from' maxsec)
  · have hone : attempt from' to' 1 >>> (acc from' maxsec).toUInt64 = 0 :=
      (accepted_iff (by omega)).mpr hroom
    obtain ⟨sft, hsearch, hsft, hle, hacc, hmax⟩ :=
      search_eq (k := 32) from' to' 0
      ⟨1, Nat.one_pos, by omega, hone⟩
    rw [← hfind] at hsearch
    have hattempt :=
      (toNat_attempt from' to' (Nat.lt_of_le_of_lt hle (by omega))
      (sum_fits from' to' hle)).2.2
    have hfits := (accepted_iff hle).mp hacc
    have hmult : (attempt from' to' sft).toUInt32.toNat =
        nearest (to'.toNat * 2 ^ sft) from'.toNat := by
      -- the factor is stored in 32 bits, which it fits
      have hword : 2 ^ room (range from' maxsec) ≤ 2 ^ 32 :=
        Nat.pow_le_pow_right (by omega) (Nat.sub_le _ _)
      rw [UInt64.toNat_toUInt32, hattempt, Nat.mod_eq_of_lt (by omega)]
    have hshift : (UInt32.ofNat sft).toNat = sft := by
      rw [UInt32.toNat_ofNat', Nat.mod_eq_of_lt (by omega)]
    refine ⟨iff_of_true (by rw [hsearch]) hroom, fun _ => ?_, by rw [hsearch]; simp⟩
    simp only [clocks_calc_mult_shift, hsearch]
    refine factors_of_fits hpos ?_ ?_ ?_ ?_ ?_
    · rw [hshift]
      exact hsft
    · rw [hshift]
      exact hle
    · rw [hshift]
      exact hmult
    · rw [hmult]
      exact hfits
    · intro j hlt hj
      rw [hshift] at hlt
      exact Nat.le_of_not_lt fun hj' => hmax j hlt hj ((accepted_iff hj).mpr hj')
  · have hreject : ∀ sft, 0 < sft → sft ≤ 32 →
        attempt from' to' sft >>> (acc from' maxsec).toUInt64 ≠ 0 := by
      intro sft hsft hle hacc
      -- a greater shift has a greater factor, so none fits if that of 1 does
      -- not
      have hmono : to'.toNat * 2 ≤ to'.toNat * 2 ^ sft :=
        Nat.mul_le_mul_left _ (Nat.le_self_pow hsft.ne' 2)
      exact hroom ((nearest_mono hmono).trans_lt ((accepted_iff hle).mp hacc))
    have hsearch := search_rejected 0 hreject
    rw [← hfind] at hsearch
    have hattempt :=
      (toNat_attempt from' to' (by omega) (sum_fits from' to' Nat.one_le_ofNat)).2.2
    rw [hsearch]
    refine ⟨iff_of_false Bool.false_ne_true hroom, fun h => absurd h Bool.false_ne_true,
      fun _ => ?_⟩
    simp only [clocks_calc_mult_shift, hsearch]
    refine Prod.ext (UInt32.toNat_inj.mp ?_) rfl
    rw [UInt64.toNat_toUInt32, hattempt, UInt32.toNat_ofNat', Nat.pow_one]

/-- An hour of a counter of 3 GHz, the frequencies in kHz. -/
theorem factors_iff_hour : Factors 3000000 1000000 3600
    (clocks_calc_mult_shift 3000000 1000000 3600).1
    (clocks_calc_mult_shift 3000000 1000000 3600).2 := by
  obtain ⟨hbroke, hfactors, -⟩ := factors_iff 3000000 1000000 3600 (by decide)
  exact hfactors (hbroke.mpr (by decide))

end Osjitter.Util
