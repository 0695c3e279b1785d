/-
Osjitter.Order — whether the percentiles that `osjitter` and `pingpong` print
are in order.

Both tables print minimum, percentiles and maximum of a sorted array, and a
reader expects them to ascend. A percentile of an even number of deltas is the
mean of two, and their sum wraps from 2^32 on: it comes out 2^31 too small.
Below that the order holds for every array and survives the conversion to
nanoseconds, which is monotone.

`percentile_order_iff` is the exact condition, in three parts: for two
percentiles of any ascending array, for the columns of a row of `osjitter`, and
for those of a row of `pingpong`. Which sums wrap is `Wraps`, and what then
keeps the order is `Keeps` and `KeepsRow`, of `Util.StatsTheorems` and
`Util.Table`. `median_below_minimum` is the smallest example where nothing does.

The mean and the other columns are left out: they are no percentiles.
-/
import Mathlib
import Osjitter.Jitter.Results
import Osjitter.Pingpong.ResultsTheorems

namespace Osjitter

open Util Scale

/-- **The order of percentiles**: of two fractions of an array, and of the
columns in a row of either table. -/
theorem percentile_order_iff (x : List UInt32) (a b c d : Nat) (hx : x ≠ [])
    (hs : x.Pairwise (· ≤ ·)) (hb : 0 < b) (hle : a * d ≤ c * b) (hlt : c < d)
    (ha : x.length * a < 2 ^ 64) (hc : x.length * c < 2 ^ 64) :
    (Ordered x a b c d ↔ KeepsFirst id x (x.length * a / b) ∧
      Keeps id x (x.length * a / b) (x.length * c / d)) ∧
    (∀ (args : Jitter.GlobalArgs) (ws : Nat → Jitter.Worker)
      (invol_switch : Nat → UInt64) (ys : Nat → Option (List UInt32)),
      ∀ r ∈ (Jitter.pp_results args ws invol_switch ys).rows,
        (ws r.cpu).Sorted →
        (ws r.cpu).samples * 999 < 2 ^ 64 →
          (Ascend r.toPercentiles r.max_ns ↔
            KeepsRow (scaled · args.mult.toNat args.shift.toNat) (ws r.cpu).recorded)) ∧
    ∀ (args : Pingpong.Args) (ws : Nat → Pingpong.Result)
      (ys : Nat → Option (List UInt32)),
      ∀ r ∈ (Pingpong.pp_results args ws ys).rows,
        (ws r.thread).ds.Pairwise (· ≤ ·) →
        (ws r.thread).ds_size * 999 < 2 ^ 64 →
          ((r.min_ns ≤ r.p20_ns ∧ Ascend r.toPercentiles r.max_ns) ↔
            KeepsFirst (scaled · args.mult.toNat args.shift.toNat) (ws r.thread).ds
                ((ws r.thread).ds_size * 1 / 5) ∧
              KeepsRow (scaled · args.mult.toNat args.shift.toNat)
                (ws r.thread).ds) := by
  refine ⟨ordered_iff hs hx hb hle hlt ha hc, ?_, ?_⟩
  · intro args ws invol_switch ys r hr hsorted hfit
    obtain ⟨y, hrow⟩ := Jitter.row_of_mem hr
    exact Jitter.row_ascend_iff hsorted hfit hrow
  · intro args ws ys r hr hsorted hfit
    obtain ⟨-, mad, hrow⟩ := Pingpong.row_of_mem hr
    exact Pingpong.row_ascend_iff hsorted hfit hrow

/-- Three deltas that do not wrap: their percentiles are in order. -/
theorem percentile_order_three : Ordered [1, 2, 9] 1 5 1 2 := by
  have h :=
    percentile_order_iff [1, 2, 9] 1 5 1 2 (by decide) (by decide) (by decide)
      (by decide)
    (by decide) (by decide) (by decide)
  refine h.1.mpr ⟨fun hw => ?_, fun hw => ?_⟩
  · exact absurd hw (by decide)
  · exact absurd hw (by decide)

/-- Two deltas of 2^31 have the median 0. -/
theorem median_below_minimum : ¬ Ordered [2147483648, 2147483648] 1 2 1 2 ∧
    clocks_calc_mult_shift 1000000 1000000 0 = (2147483648, 31) ∧
    ∃ r ∈ (Pingpong.pp_results ⟨1000000, 2147483648, 31⟩
        (fun _ => ⟨[2147483648, 2147483648], [2147483648, 2147483648]⟩)
        fun _ => some [0, 0]).rows, ¬ Ascend r.toPercentiles r.max_ns := by
  refine ⟨?_, ?_, ?_⟩
  · rintro ⟨p, q, hp, -, hle, -⟩
    have hzero : percentile_u32 [2147483648, 2147483648] 1 2 = some 0 := by
      decide
    obtain rfl := Option.some.inj (hzero.symm.trans hp)
    exact absurd hle (by decide)
  · have hlimit : ((0 : UInt32).toUInt64 * (1000000 : UInt32).toUInt64) >>> 32 =
        0 := by decide
    simp only [clocks_calc_mult_shift, find_shift, hlimit, limit_shift_zero]
    decide +kernel
  · refine ⟨_, List.mem_cons_self, fun h => ?_⟩
    exact absurd h.1 (by decide)

end Osjitter
