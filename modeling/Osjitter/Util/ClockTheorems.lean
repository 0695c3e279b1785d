/-
Osjitter.Util.ClockTheorems — the conversion to nanoseconds is accurate and
monotone.

  §1 `mul_u64_u32_shr` is `Scale.scaled`, cut to 64 bits
     (`toNat_mul_u64_u32_shr`); it cuts nothing where the result fits, and is
     then monotone in the cycles.
  §2 `attempt` is `Scale.nearest` (`toNat_attempt`), as no sum of the search
     overflows, and `search` finds the greatest shift for which it fits the
     room: `search_eq`, by induction on the shifts that are left.
  §3 `Calibrated`: what the factors found for a frequency guarantee. The search
     for a frequency without a range always ends by its `break`, with a shift
     from 12 to 32 (`calibrated_of_ne_zero`), and the factor is the widest that
     fits 32 bits. `Calibrated.error` bounds the error of a conversion by the
     rounding of the factor, `Calibrated.mult_le` keeps the result in 64 bits.

`conversion_accurate` puts this together for every frequency and every number
of cycles, against the exact rational. Ranges are left to `Util.Factors`.
-/
import Mathlib
import Osjitter.Lib.Scale
import Osjitter.Util.Clock

namespace Osjitter.Util

open Scale

/-! ## §1 The conversion

What the words do to the exact product: nothing is lost before the shift, and
after it only what does not fit 64 bits. A 32-bit number of cycles always fits,
whatever the factors are. -/

/-- The conversion scales in 128 bits and cuts the result to 64. -/
theorem toNat_mul_u64_u32_shr (cyc : UInt64) (mult shift : UInt32) :
    (mul_u64_u32_shr cyc mult shift).toNat =
      scaled cyc.toNat mult.toNat shift.toNat % 2 ^ 64 := by
  have hcyc := cyc.toNat_lt
  have hmult := mult.toNat_lt
  have hprod : cyc.toNat * mult.toNat < 2 ^ 128 :=
    (Nat.mul_le_mul hcyc.le hmult.le).trans_lt (by norm_num)
  have hcyc' : cyc.toNat % 2 ^ 128 = cyc.toNat := Nat.mod_eq_of_lt (by omega)
  have hmult' : mult.toNat % 2 ^ 128 = mult.toNat := Nat.mod_eq_of_lt (by omega)
  show ((BitVec.setWidth 128 cyc.toBitVec * BitVec.setWidth 128 mult.toBitVec) >>>
    shift.toNat).toNat % 2 ^ 64 = _
  rw [BitVec.toNat_ushiftRight, BitVec.toNat_mul, BitVec.toNat_setWidth,
    BitVec.toNat_setWidth, UInt64.toNat_toBitVec, UInt32.toNat_toBitVec, hcyc',
    hmult', Nat.mod_eq_of_lt hprod, Nat.shiftRight_eq_div_pow, scaled]

/-- The conversion where the result fits 64 bits. -/
theorem toNat_mul_u64_u32_shr_of_lt {cyc : UInt64} {mult shift : UInt32}
    (h : scaled cyc.toNat mult.toNat shift.toNat < 2 ^ 64) :
    (mul_u64_u32_shr cyc mult shift).toNat =
      scaled cyc.toNat mult.toNat shift.toNat := by
  rw [toNat_mul_u64_u32_shr, Nat.mod_eq_of_lt h]

/-- It is monotone below a value where the result fits. -/
theorem mul_u64_u32_shr_mono {cyc cyc' : UInt64} {mult shift : UInt32}
    (hle : cyc ≤ cyc') (h : scaled cyc'.toNat mult.toNat shift.toNat < 2 ^ 64) :
    mul_u64_u32_shr cyc mult shift ≤ mul_u64_u32_shr cyc' mult shift := by
  have hscaled :=
    scaled_mono mult.toNat shift.toNat (UInt64.le_iff_toNat_le.mp hle)
  rw [UInt64.le_iff_toNat_le, toNat_mul_u64_u32_shr_of_lt h,
    toNat_mul_u64_u32_shr_of_lt (hscaled.trans_lt h)]
  exact hscaled

/-- No 32-bit cycle count is cut. -/
theorem scaled_lt_of_u32 (d mult shift : UInt32) :
    scaled d.toUInt64.toNat mult.toNat shift.toNat < 2 ^ 64 := by
  have hd := d.toNat_lt
  have hmult := mult.toNat_lt
  have hle := scaled_le_mul d.toNat mult.toNat shift.toNat
  have hprod : d.toNat * mult.toNat ≤ (2 ^ 32 - 1) * (2 ^ 32 - 1) :=
    Nat.mul_le_mul (by omega) (by omega)
  rw [UInt32.toNat_toUInt64]
  omega

/-! ## §2 The search

The loop accepts the first attempt it likes on its way down, so it finds the
greatest shift that is acceptable. Its sums fit 64 bits for the shifts it tries.
-/

/-- A range of zero takes no bits. -/
theorem limit_shift_zero (sftacc : UInt32) : limit_shift 0 sftacc = sftacc := by
  rw [limit_shift, if_pos rfl]

/-- Where the sum fits 64 bits, an attempt rounds to the nearest. -/
theorem toNat_attempt (from' to' : UInt32) {sft : Nat} (hsft : sft < 64)
    (hfit : to'.toNat * 2 ^ sft + from'.toNat / 2 < 2 ^ 64) :
    (to'.toUInt64 <<< UInt64.ofNat sft).toNat = to'.toNat * 2 ^ sft ∧
      (to'.toUInt64 <<< UInt64.ofNat sft + (from' / 2).toUInt64).toNat =
        to'.toNat * 2 ^ sft + from'.toNat / 2 ∧
      (attempt from' to' sft).toNat =
        nearest (to'.toNat * 2 ^ sft) from'.toNat := by
  have hcount : (UInt64.ofNat sft).toNat % 64 = sft := by
    have hmod : sft % 2 ^ 64 = sft := Nat.mod_eq_of_lt (by omega)
    rw [UInt64.toNat_ofNat', hmod, Nat.mod_eq_of_lt hsft]
  have hshift : (to'.toUInt64 <<< UInt64.ofNat sft).toNat =
      to'.toNat * 2 ^ sft := by
    rw [UInt64.toNat_shiftLeft, hcount, UInt32.toNat_toUInt64, Nat.shiftLeft_eq,
      Nat.mod_eq_of_lt (by omega)]
  have hhalf : (from' / 2).toUInt64.toNat = from'.toNat / 2 := by
    rw [UInt32.toNat_toUInt64, UInt32.toNat_div]
    rfl
  have hsum : (to'.toUInt64 <<< UInt64.ofNat sft + (from' / 2).toUInt64).toNat =
      to'.toNat * 2 ^ sft + from'.toNat / 2 := by
    rw [UInt64.toNat_add, hshift, hhalf, Nat.mod_eq_of_lt hfit]
  refine ⟨hshift, hsum, ?_⟩
  simp only [attempt]
  rw [UInt64.toNat_div, hsum, UInt32.toNat_toUInt64, nearest]

/-- **The search** ends at the greatest shift whose attempt is accepted. -/
theorem search_eq (from' to' : UInt32) {sftacc : UInt32} {k : Nat}
    (tmp : UInt64) (h : ∃ sft, 0 < sft ∧ sft ≤ k ∧
      attempt from' to' sft >>> sftacc.toUInt64 = 0) :
    ∃ sft, search from' to' sftacc k tmp = ⟨attempt from' to' sft, sft, true⟩ ∧
      0 < sft ∧
      sft ≤ k ∧ attempt from' to' sft >>> sftacc.toUInt64 = 0 ∧
      ∀ j, sft < j → j ≤ k → attempt from' to' j >>> sftacc.toUInt64 ≠ 0 := by
  induction k generalizing tmp with
  | zero =>
    obtain ⟨sft, hpos, hle, -⟩ := h
    omega
  | succ k ih =>
    by_cases hk : attempt from' to' (k + 1) >>> sftacc.toUInt64 = 0
    · refine ⟨k + 1, ?_, Nat.succ_pos k, Nat.le_refl _, hk, fun j hlt hle => by omega⟩
      simp only [search, if_pos hk]
    · have hrest : ∃ sft, 0 < sft ∧ sft ≤ k ∧
          attempt from' to' sft >>> sftacc.toUInt64 = 0 := by
        obtain ⟨sft, hpos, hle, hacc⟩ := h
        have hne : sft ≠ k + 1 := fun heq => hk (heq ▸ hacc)
        exact ⟨sft, hpos, by omega, hacc⟩
      obtain ⟨sft, hsearch, hpos, hle, hacc, hmax⟩ :=
        ih (attempt from' to' (k + 1)) hrest
      refine ⟨sft, ?_, hpos, by omega, hacc, fun j hlt hjk => ?_⟩
      · simp only [search, if_neg hk]
        exact hsearch
      · by_cases hj : j = k + 1
        · exact hj ▸ hk
        · exact hmax j hlt (by omega)

/-- Nothing above 32 bits is left. -/
theorem shiftRight_eq_zero_iff (tmp : UInt64) :
    tmp >>> (32 : UInt32).toUInt64 = 0 ↔
    tmp.toNat < 2 ^ 32 := by
  have hcount : (32 : UInt32).toUInt64.toNat % 64 = 32 := rfl
  rw [← UInt64.toNat_inj, UInt64.toNat_shiftRight, hcount, Nat.shiftRight_eq_div_pow,
    UInt64.toNat_zero]
  omega

/-! ## §3 The factors

For the conversion from cycles to nanoseconds the range is 0, so the factor may
have 32 bits. `Calibrated` collects what is known of it then; accuracy and
monotonicity follow from the general rules of `Lib.Scale`. -/

/-- What the search finds for a frequency: the widest factor that fits 32
bits. -/
structure Calibrated (khz mult shift : UInt32) : Prop where
  khz_pos : 0 < khz.toNat
  lower : 12 ≤ shift.toNat
  upper : shift.toNat ≤ 32
  mult_eq : mult.toNat = nearest (1000000 * 2 ^ shift.toNat) khz.toNat
  widest : shift.toNat = 32 ∨ 2 ^ 31 ≤ mult.toNat

/-- The sums of the search fit 64 bits. -/
theorem attempt_fits (khz : UInt32) {sft : Nat} (h : sft ≤ 32) :
    1000000 * 2 ^ sft + khz.toNat / 2 < 2 ^ 64 := by
  have hpow : 2 ^ sft ≤ 2 ^ 32 := Nat.pow_le_pow_right (by omega) h
  have hkhz := khz.toNat_lt
  omega

/-- **The factors are found**: the search leaves through its `break`, and
what it leaves is stored unchanged. -/
theorem calibrated_of_ne_zero {khz : UInt32} (h : khz ≠ 0) :
    (find_shift khz 1000000 0).broke = true ∧
      (clocks_calc_mult_shift khz 1000000 0).1.toUInt64 =
          (find_shift khz 1000000 0).tmp ∧
      (clocks_calc_mult_shift khz 1000000 0).2.toNat =
          (find_shift khz 1000000 0).sft ∧
      Calibrated khz (clocks_calc_mult_shift khz 1000000 0).1
        (clocks_calc_mult_shift khz 1000000 0).2 := by
  have hpos : 0 < khz.toNat :=
    Nat.pos_of_ne_zero fun h0 => h (UInt32.toNat_inj.mp h0)
  have hlimit : ((0 : UInt32).toUInt64 * khz.toUInt64) >>> 32 = 0 := by
    rw [show (0 : UInt32).toUInt64 = 0 from rfl, UInt64.zero_mul]
    rfl
  have hattempt : ∀ {sft}, sft ≤ 32 →
      (attempt khz 1000000 sft).toNat =
          nearest (1000000 * 2 ^ sft) khz.toNat := fun hle =>
    (toNat_attempt khz 1000000 (by omega) (attempt_fits khz hle)).2.2
  have haccept : ∀ {sft}, sft ≤ 32 →
      (attempt khz 1000000 sft >>> (32 : UInt32).toUInt64 = 0 ↔
      1000000 * 2 ^ sft + khz.toNat / 2 < 2 ^ 32 * khz.toNat) := fun hle => by
    rw [shiftRight_eq_zero_iff, hattempt hle, nearest_lt_iff hpos]
  -- a shift of 12 is accepted for every frequency
  obtain ⟨sft, hsearch, -, hle, hacc, hmax⟩ := search_eq (k := 32) khz 1000000 0
    ⟨12, by omega, by omega, (haccept (by omega)).mpr (by omega)⟩
  have hfound : find_shift khz 1000000 0 =
      ⟨attempt khz 1000000 sft, sft, true⟩ := by
    simp only [find_shift, hlimit, limit_shift_zero]
    exact hsearch
  have hshift : (UInt32.ofNat sft).toNat = sft := by
    rw [UInt32.toNat_ofNat', Nat.mod_eq_of_lt (by omega)]
  have htmp : (attempt khz 1000000 sft).toNat < 2 ^ 32 :=
    (shiftRight_eq_zero_iff _).mp hacc
  have hmult : (attempt khz 1000000 sft).toUInt32.toNat =
      (attempt khz 1000000 sft).toNat := by
    rw [UInt64.toNat_toUInt32, Nat.mod_eq_of_lt htmp]
  simp only [clocks_calc_mult_shift, hfound]
  refine ⟨trivial, ?_, hshift, hpos, ?_, ?_, ?_, ?_⟩
  · rw [← UInt64.toNat_inj, UInt32.toNat_toUInt64, hmult]
  · rw [hshift]
    by_contra hlt
    exact hmax 12 (by omega) (by omega) ((haccept (by omega)).mpr (by omega))
  · rw [hshift]
    exact hle
  · rw [hshift, hmult, hattempt hle]
  · rw [hshift, hmult, hattempt hle]
    by_cases h32 : sft = 32
    · exact .inl h32
    · -- the next shift was rejected, so half of its factor is large
      have hrej := hmax (sft + 1) (by omega) (by omega)
      rw [Ne, haccept (by omega), Nat.not_lt, ← le_nearest_iff hpos] at hrej
      have hdouble : 1000000 * 2 ^ (sft + 1) = 2 * (1000000 * 2 ^ sft) := by
        rw [Nat.pow_succ]
        omega
      rw [hdouble] at hrej
      exact .inr (le_nearest_of_two_mul_le hpos hrej)

section calibrated

variable {khz mult shift : UInt32} (h : Calibrated khz mult shift)

include h

/-- The factor is the ratio of the two units, to one half. -/
theorem Calibrated.near :
    |(mult.toNat : ℚ) - 1000000 / khz.toNat * 2 ^ shift.toNat| ≤ 1 / 2 := by
  have hnear := abs_nearest_sub_le (a := 1000000 * 2 ^ shift.toNat) h.khz_pos
  rw [h.mult_eq]
  convert hnear using 3
  push_cast
  ring

/-- Above one cycle a nanosecond the factor is at most 1. -/
theorem Calibrated.mult_le (hkhz : 1000000 < khz.toNat) :
    mult.toNat ≤ 2 ^ shift.toNat := by
  have hlt : 1000000 * 2 ^ shift.toNat + khz.toNat / 2 <
      (2 ^ shift.toNat + 1) * khz.toNat := by
    have hmul : (1000000 + 1) * 2 ^ shift.toNat ≤ khz.toNat * 2 ^ shift.toNat :=
      Nat.mul_le_mul_right _ hkhz
    rw [Nat.add_mul, Nat.mul_comm (2 ^ shift.toNat)]
    have hpow : 0 < 2 ^ shift.toNat := Nat.two_pow_pos _
    omega
  rw [h.mult_eq]
  exact Nat.lt_succ_iff.mp ((nearest_lt_iff h.khz_pos).mpr hlt)

/-- The error of a conversion that is not cut. -/
theorem Calibrated.error {cyc : UInt64}
    (hfit : scaled cyc.toNat mult.toNat shift.toNat < 2 ^ 64) :
    -1 - (cyc.toNat : ℚ) / 2 ^ (shift.toNat + 1) <
        (mul_u64_u32_shr cyc mult shift).toNat - (cyc.toNat * 1000000 : ℚ) / khz.toNat ∧
      ((mul_u64_u32_shr cyc mult shift).toNat : ℚ) -
        (cyc.toNat * 1000000 : ℚ) / khz.toNat ≤
        cyc.toNat / 2 ^ (shift.toNat + 1) := by
  rw [toNat_mul_u64_u32_shr_of_lt hfit, mul_div_assoc]
  exact scaled_sub_mem h.near

end calibrated

/-- **The conversion is accurate and monotone**, for every frequency. -/
theorem conversion_accurate (khz : UInt32) (hkhz : khz ≠ 0) (found : Search)
    (mult shift : UInt32) (hfound : find_shift khz 1000000 0 = found)
    (hms : clocks_calc_mult_shift khz 1000000 0 = (mult, shift)) :
    -- the search
    found.broke = true ∧ (12 ≤ shift.toNat ∧ shift.toNat ≤ 32) ∧
    (mult.toNat = found.tmp.toNat ∧ shift.toNat = found.sft) ∧
    (shift.toNat = 32 ∨ 2 ^ 31 ≤ mult.toNat) ∧
    -- its sums and the 128-bit product are exact
    ((0 : UInt32).toUInt64 * khz.toUInt64 = 0 ∧
      (∀ sft ≤ 32, ((1000000 : UInt32).toUInt64 <<< UInt64.ofNat sft).toNat =
          1000000 * 2 ^ sft ∧
        ((1000000 : UInt32).toUInt64 <<< UInt64.ofNat sft + (khz / 2).toUInt64).toNat =
          1000000 * 2 ^ sft + khz.toNat / 2) ∧
      ∀ cyc : UInt64, cyc.toNat * mult.toNat < 2 ^ 128) ∧
    -- the conversion
    (∀ cyc : UInt64, cyc.toNat * mult.toNat / 2 ^ shift.toNat < 2 ^ 64 →
      (-1 - (cyc.toNat : ℚ) / 2 ^ (shift.toNat + 1) <
          (mul_u64_u32_shr cyc mult shift).toNat -
              (cyc.toNat * 1000000 : ℚ) / khz.toNat ∧
        ((mul_u64_u32_shr cyc mult shift).toNat : ℚ) -
          (cyc.toNat * 1000000 : ℚ) / khz.toNat ≤
          cyc.toNat / 2 ^ (shift.toNat + 1)) ∧
      ∀ cyc' ≤ cyc, mul_u64_u32_shr cyc' mult shift ≤ mul_u64_u32_shr cyc mult shift) ∧
    (1000000 < khz.toNat →
      ∀ cyc : UInt64, cyc.toNat * mult.toNat / 2 ^ shift.toNat < 2 ^ 64) := by
  obtain ⟨hbroke, hmult, hshift, hcal⟩ := calibrated_of_ne_zero hkhz
  obtain rfl : _ = mult := congrArg Prod.fst hms
  obtain rfl : _ = shift := congrArg Prod.snd hms
  subst hfound
  refine ⟨hbroke, ⟨hcal.lower, hcal.upper⟩, ⟨?_, hshift⟩, hcal.widest,
    ⟨?_, fun sft hsft => ?_,
    fun cyc => ?_⟩, fun cyc hfit => ⟨hcal.error hfit, fun cyc' hle => ?_⟩,
    fun hfast cyc => ?_⟩
  · rw [← hmult, UInt32.toNat_toUInt64]
  · rw [show (0 : UInt32).toUInt64 = 0 from rfl, UInt64.zero_mul]
  · have hexact :=
      toNat_attempt khz 1000000 (Nat.lt_of_le_of_lt hsft (by omega))
      (attempt_fits khz hsft)
    exact ⟨hexact.1, hexact.2.1⟩
  · have hcyc := cyc.toNat_lt
    have hmult := (clocks_calc_mult_shift khz 1000000 0).1.toNat_lt
    exact (Nat.mul_le_mul hcyc.le hmult.le).trans_lt (by norm_num)
  · exact mul_u64_u32_shr_mono hle hfit
  · exact (scaled_le (hcal.mult_le hfast)).trans_lt cyc.toNat_lt

/-- A TSC of 3 GHz. -/
theorem conversion_accurate_3ghz :
    12 ≤ (clocks_calc_mult_shift 3000000 1000000 0).2.toNat ∧
    ∀ cyc : UInt64,
      cyc.toNat * (clocks_calc_mult_shift 3000000 1000000 0).1.toNat /
        2 ^ (clocks_calc_mult_shift 3000000 1000000 0).2.toNat < 2 ^ 64 := by
  obtain ⟨-, hshift, -, -, -, -, hfast⟩ :=
    conversion_accurate 3000000 (by decide) _ _ _ rfl rfl
  exact ⟨hshift.1, hfast (by decide)⟩

end Osjitter.Util
