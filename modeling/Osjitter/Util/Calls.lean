/-
Osjitter.Util.Calls — the calls of `percentile_u32`, and why its assertions
hold.

`percentile_u32` asserts that its array is sorted, that the index is inside it,
and before it takes a mean, that the index is not 0. Where an assertion fails
the function has no result, so it is enough to show that every call has one; but
a call whose result is not used would be missed. Here the callers are written
once more with their calls recorded (`Lib.Traced`), and their results are shown
to be those of the functions.

  §1 `cmp_u32` is a comparator in the sense of `qsort`, and tells all numbers
     apart, so every `qsort` sorts as `qsort_u32` does (`qsort_eq`).
  §2 What a call asserts (`Call.Holds`), and that it holds for every ascending
     array whose length a 32-bit number can hold (`Call.holds`): the index is
     that of `OrderStat`, and its product does not wrap.
  §3 `mad_u32` and the columns of a row with their calls recorded:
     `result_mad_calls` and `result_column_calls` say that nothing else is
     changed, `meets_mad_calls` and `meets_column_calls` that the calls hold.

The assertion of `spin_main_finalize` is no call of `percentile_u32`; it is in
`Pingpong.Bounds`.
-/
import Mathlib
import Osjitter.Lib.Qsort
import Osjitter.Lib.Traced
import Osjitter.Util.Table

namespace Osjitter.Util

open Qsort OrderStat

/-! ## §1 The comparator

What `qsort` is promised to do with a comparator depends on the comparator: it
must be a total order, and one that separates different numbers for the result
to be determined. `cmp_u32` is both, so the sorted array is the same for every
`qsort` (`qsort_eq`), and the model may use the one that it computes with. -/

/-- It compares as numbers do. -/
theorem cmp_u32_le_iff (x y : UInt32) : cmp_u32 x y ≤ 0 ↔ x ≤ y :=
  (cmp_u32_le_zero x y).trans UInt32.le_iff_toNat_le.symm

/-- Its sign flips with its arguments. -/
theorem cmp_u32_flip (x y : UInt32) : cmp_u32 y x = -cmp_u32 x y := by
  unfold cmp_u32
  by_cases hxy : x < y
  · have hyx : ¬ y < x := UInt32.lt_asymm hxy
    simp only [if_pos hxy, if_neg hyx, neg_neg]
  · by_cases hyx : y < x
    · simp only [if_neg hxy, if_pos hyx]
    · simp only [if_neg hxy, if_neg hyx, neg_zero]

/-- It is what the C library asks of a comparator. -/
theorem comparator_cmp_u32 : Comparator cmp_u32 where
  flip x y := by
    rw [cmp_u32_flip x y]
    omega
  trans x y z hxy hyz := by
    rw [cmp_u32_le_iff] at hxy hyz ⊢
    exact UInt32.le_trans hxy hyz

/-- It calls nothing equal but equal numbers. -/
theorem separates_cmp_u32 : Separates cmp_u32 := by
  intro x y h
  have hxy := (cmp_u32_le_iff x y).mp h.le
  have hyx : cmp_u32 y x ≤ 0 := by
    rw [cmp_u32_flip x y, h]
    decide
  exact UInt32.le_antisymm hxy ((cmp_u32_le_iff y x).mp hyx)

section qsort

variable {qsort : (UInt32 → UInt32 → Int) → List UInt32 → List UInt32}
    (hq : IsQsort qsort)

include hq

/-- The result ascends. -/
theorem qsort_sorted (xs : List UInt32) : (qsort cmp_u32 xs).Pairwise (· ≤ ·) :=
  (hq.ordered comparator_cmp_u32 xs).imp fun h => (cmp_u32_le_iff _ _).mp h

/-- It is a permutation, and has the same length. -/
theorem length_qsort (xs : List UInt32) :
    (qsort cmp_u32 xs).length = xs.length :=
  (hq.perm comparator_cmp_u32 xs).length_eq

/-- **Any `qsort`** sorts as the model's. -/
theorem qsort_eq (xs : List UInt32) : qsort cmp_u32 xs = qsort_u32 xs := by
  have hu := isQsort_insertionSort (α := UInt32)
  exact comparator_cmp_u32.unique separates_cmp_u32
    ((hq.perm comparator_cmp_u32 xs).trans (qsort_u32_perm xs).symm)
    (hq.ordered comparator_cmp_u32 xs) (hu.ordered comparator_cmp_u32 xs)

end qsort

/-! ## §2 A call

`percentile_u32` asserts that its array is sorted, that the index is inside it
and that there is an element before the one at the index where the mean is
taken. The product of the length and the numerator is computed in 64 bits, which
the assertions do not speak of; it is part of `Holds` that it does not wrap. -/

/-- A call of `percentile_u32`. -/
structure Call where
  x : List UInt32
  a : Nat
  b : Nat

/-- `size_t i = n * a / b;` -/
def Call.index (c : Call) : Nat := c.x.length * c.a % 2 ^ 64 / c.b

/-- The branch with the mean is taken. -/
def Call.Averages (c : Call) : Prop := ¬ (c.x.length % 2 ≠ 0 ∨ c.index = 0)

/-- The assertions hold, and the product does not wrap. -/
structure Call.Holds (c : Call) : Prop where
  sorted : is_sorted c.x = true
  fits : 0 < c.x.length → c.x.length * c.a < 2 ^ 64
  inside : 0 < c.x.length → c.index = c.x.length * c.a / c.b ∧
    c.index < c.x.length
  positive : 0 < c.x.length → c.Averages → 1 ≤ c.index

/-- **The assertions hold** for an ascending array and a fraction below 1. -/
theorem Call.holds {x : List UInt32} {a b : Nat} (hs : x.Pairwise (· ≤ ·))
    (hlen : x.length < 2 ^ 32) (ha : a < 2 ^ 32) (hab : a < b) :
    Call.Holds ⟨x, a, b⟩ := by
  have hfit : x.length * a < 2 ^ 64 := by
    calc x.length * a ≤ 2 ^ 32 * a := Nat.mul_le_mul_right a hlen.le
      _ < 2 ^ 32 * 2 ^ 32 := Nat.mul_lt_mul_of_pos_left ha (by norm_num)
      _ = 2 ^ 64 := by norm_num
  have hindex : Call.index ⟨x, a, b⟩ = x.length * a / b := by
    rw [Call.index, Nat.mod_eq_of_lt hfit]
  refine ⟨(is_sorted_iff x).mpr hs,
    fun _ => hfit, fun hpos => ⟨hindex, ?_⟩, fun _ havg => ?_⟩
  · rw [hindex]
    exact index_lt hpos hab
  · exact Nat.one_le_iff_ne_zero.mpr fun hzero => havg (.inr hzero)

/-- Its result, then. -/
theorem Call.Holds.exists_result {c : Call} (h : c.Holds) :
    ∃ p, percentile_u32 c.x c.a c.b = some p := by
  obtain ⟨x, a, b⟩ := c
  have hs := (is_sorted_iff x).mp h.sorted
  rcases Nat.eq_zero_or_pos x.length with hzero | hpos
  · obtain rfl := List.eq_nil_of_length_eq_zero hzero
    exact ⟨0, rfl⟩
  · obtain ⟨hindex, hlt⟩ := h.inside hpos
    rw [hindex] at hlt
    obtain ⟨p, hp, -⟩ := percentile_u32_eq hs (h.fits hpos) hlt
    exact ⟨p, hp⟩

/-! ## §3 The callers

The functions that call `percentile_u32` are written down again with their calls
recorded, and proved equal to those of the model (`result_mad_calls`,
`result_column_calls`). So a call in the record is one that the model makes. -/

/-- A call, with what the model of the function yields for it. -/
def percentile_call (x : List UInt32) (a b : Nat) : Traced Call UInt32 :=
  Traced.call ⟨x, a, b⟩ (percentile_u32 x a b)

/-- A call whose assertions hold has a result. -/
theorem meets_percentile_call {x : List UInt32} {a b : Nat}
    (h : Call.Holds ⟨x, a, b⟩) :
    Traced.Meets Call.Holds (fun _ => True) (percentile_call x a b) := by
  obtain ⟨p, hp⟩ := h.exists_result
  exact .call h hp trivial

/-- `mad_u32`, with the `qsort` of the system. -/
def mad_calls (qsort : (UInt32 → UInt32 → Int) → List UInt32 → List UInt32)
    (x y : List UInt32) : Traced Call (UInt32 × List UInt32) :=
  let n := x.length
  if n = 0 then pure (0, y)
  else do
    let median ← percentile_call x 1 2
    let y ← Traced.lift (fill_deviations median x y)
    let y := qsort cmp_u32 (y.take n) ++ y.drop n
    let mad ← percentile_call (y.take n) 1 2
    pure (mad, y)

/-- The columns of a row. -/
def column_calls (mult shift : UInt32) (x : List UInt32) :
    Traced Call Percentiles := do
  let median ← percentile_call x 1 2
  let p20 ← percentile_call x 1 5
  let p80 ← percentile_call x 4 5
  let p90 ← percentile_call x 90 100
  let p99 ← percentile_call x 99 100
  let p99_9 ← percentile_call x 999 1000
  pure {
    median_ns := to_ns mult shift median
    p20_ns := to_ns mult shift p20
    p80_ns := to_ns mult shift p80
    p90_ns := to_ns mult shift p90
    p99_ns := to_ns mult shift p99
    p99_9_ns := to_ns mult shift p99_9 }

/-- Without its calls, that is `percentiles`. -/
theorem result_column_calls (mult shift : UInt32) (x : List UInt32) :
    (column_calls mult shift x).result = percentiles mult shift x := by
  simp only [column_calls, percentiles, percentile_call, Traced.result_bind,
    Traced.result_call, Traced.result_pure, Option.bind_eq_bind]

/-- Without its calls, that is `mad_u32`. -/
theorem result_mad_calls
    {qsort : (UInt32 → UInt32 → Int) → List UInt32 → List UInt32}
    (hq : IsQsort qsort) (x y : List UInt32) :
    (mad_calls qsort x y).result = mad_u32 x y := by
  unfold mad_calls mad_u32
  by_cases hzero : x.length = 0
  · simp only [if_pos hzero, Traced.result_pure]
  · simp only [if_neg hzero, percentile_call, qsort_eq hq, Traced.result_bind,
      Traced.result_call, Traced.result_lift, Traced.result_pure,
      Option.bind_eq_bind]

/-- The six percentiles of a row are asked for with fractions below 1. -/
theorem meets_column_calls {x : List UInt32} (hs : x.Pairwise (· ≤ ·))
    (hlen : x.length < 2 ^ 32) (mult shift : UInt32) :
    Traced.Meets Call.Holds (fun _ => True) (column_calls mult shift x) := by
  have hcall : ∀ {a b : Nat}, a < 2 ^ 32 → a < b →
      Traced.Meets Call.Holds (fun _ => True) (percentile_call x a b) :=
    fun ha hab => meets_percentile_call (Call.holds hs hlen ha hab)
  refine (hcall (by norm_num) (by norm_num)).bind fun median _ => ?_
  refine (hcall (by norm_num) (by norm_num)).bind fun p20 _ => ?_
  refine (hcall (by norm_num) (by norm_num)).bind fun p80 _ => ?_
  refine (hcall (by norm_num) (by norm_num)).bind fun p90 _ => ?_
  refine (hcall (by norm_num) (by norm_num)).bind fun p99 _ => ?_
  exact (hcall (by norm_num) (by norm_num)).bind fun p99_9 _ => .pure trivial

/-- The deviations are sorted before the second call. -/
theorem meets_mad_calls
    {qsort : (UInt32 → UInt32 → Int) → List UInt32 → List UInt32}
    (hq : IsQsort qsort) {x y : List UInt32} (hs : x.Pairwise (· ≤ ·))
    (hlen : x.length < 2 ^ 32) (hy : x.length ≤ y.length) :
    Traced.Meets Call.Holds (fun _ => True) (mad_calls qsort x y) := by
  unfold mad_calls
  by_cases hzero : x.length = 0
  · simp only [if_pos hzero]
    exact .pure trivial
  · simp only [if_neg hzero]
    refine (meets_percentile_call (Call.holds hs hlen (by norm_num) (by norm_num))).bind
      fun median _ => ?_
    have hfill : Traced.Meets Call.Holds
        (fun y' => y' = x.map (deviation median) ++ y.drop x.length)
        (Traced.lift (fill_deviations median x y)) :=
      .lift (fill_deviations_eq median hy) rfl
    refine hfill.bind fun y' hy' => ?_
    have hsorted :
        (qsort cmp_u32 (y'.take x.length) ++ y'.drop x.length).take x.length =
        qsort cmp_u32 (x.map (deviation median)) := by
      have htake : y'.take x.length = x.map (deviation median) := by
        rw [hy', List.take_left' (by simp)]
      rw [htake, List.take_left' (by rw [length_qsort hq, List.length_map])]
    rw [hsorted]
    have hlen' : (qsort cmp_u32 (x.map (deviation median))).length <
        2 ^ 32 := by
      rwa [length_qsort hq, List.length_map]
    exact (meets_percentile_call (Call.holds (qsort_sorted hq _) hlen' (by norm_num)
      (by norm_num))).bind fun mad _ => .pure trivial

end Osjitter.Util
