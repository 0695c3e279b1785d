/-
Osjitter.Util.Table — what the result tables of `osjitter.c` and `pingpong.c`
have in common.

  §1 `print_rows`: the loop of both `pp_results`, whose turns print a row,
     pass on, return, or die in a failed assertion. A row of the table is one
     of its turn (`exists_turn_of_mem`), a turn that is reached has its row
     (`mem_rows_of_turn`), and where no turn dies there is a return value
     (`ret_ne_none`).
  §2 `Percentiles`: the columns that both compute in the same way, from a
     sorted array, each converted to nanoseconds. `percentiles_eq` says what
     they are for an array that is sorted and short enough for the products of
     the indices: the exact percentiles, less 2^31 where a sum wraps.
  §3 When the columns of a row ascend: `ascend_iff`. Between neighbouring
     columns the condition is `Keeps`, and the largest element closes the row.

The columns that only one of the programs has are in its own modules.
-/
import Mathlib
import Osjitter.Util.ClockTheorems
import Osjitter.Util.StatsTheorems

namespace Osjitter.Util

open Scale OrderStat

/-! ## §1 Rows

Both programs print a table with one loop, whose turns may print a row, pass
over it, return, or die in an assertion. What is printed before a return stays
printed, so a table is the list of its rows with the way it ended. -/

/-- What a turn of the loop of `pp_results` does. -/
inductive Turn (ρ : Type) where
  | row (r : ρ)
  | skip
  | ret (code : Int)
  | abort

/-- The rows printed, and the return value unless the program died. -/
structure Printed (ρ : Type) where
  rows : List ρ
  ret : Option Int

section print_rows

variable {α ρ : Type} (turn : α → Turn ρ)

/-- The loop, and `return 0;` behind it. -/
def print_rows : List α → Printed ρ
  | [] => ⟨[], some 0⟩
  | a :: as =>
      match turn a with
      | .row r => { print_rows as with rows := r :: (print_rows as).rows }
      | .skip => print_rows as
      | .ret code => ⟨[], some code⟩
      | .abort => ⟨[], none⟩

variable {turn}

/-- A printed row is that of a turn. -/
theorem exists_turn_of_mem {as : List α} {r : ρ}
    (h : r ∈ (print_rows turn as).rows) : ∃ a ∈ as, turn a = .row r := by
  induction as with
  | nil => cases h
  | cons a as ih =>
    unfold print_rows at h
    cases hturn : turn a with
    | row r' =>
      rw [hturn] at h
      rcases List.mem_cons.mp h with rfl | h
      · exact ⟨a, List.mem_cons_self, hturn⟩
      · obtain ⟨b, hb, hr⟩ := ih h
        exact ⟨b, List.mem_cons_of_mem _ hb, hr⟩
    | skip =>
      rw [hturn] at h
      obtain ⟨b, hb, hr⟩ := ih h
      exact ⟨b, List.mem_cons_of_mem _ hb, hr⟩
    | ret code =>
      rw [hturn] at h
      cases h
    | abort =>
      rw [hturn] at h
      cases h

/-- The row of a turn is printed if every turn before goes on. -/
theorem mem_rows_of_turn (as : List α) {bs : List α} {a : α} {r : ρ}
    (hturn : turn a = .row r)
    (hbefore : ∀ b ∈ as, turn b = .skip ∨ ∃ r', turn b = .row r') :
    r ∈ (print_rows turn (as ++ a :: bs)).rows := by
  induction as with
  | nil => simp [print_rows, hturn]
  | cons b as ih =>
    have hrest := ih fun c hc => hbefore c (List.mem_cons_of_mem _ hc)
    rcases hbefore b List.mem_cons_self with hb | ⟨r', hb⟩
    · simpa [print_rows, hb] using hrest
    · simp [print_rows, hb, hrest]

/-- The program lives through the loop if no turn dies. -/
theorem ret_ne_none {as : List α} (h : ∀ a ∈ as, turn a ≠ .abort) :
    (print_rows turn as).ret ≠ none := by
  induction as with
  | nil => simp [print_rows]
  | cons a as ih =>
    obtain ⟨ha, has⟩ := List.forall_mem_cons.mp h
    unfold print_rows
    cases hturn : turn a with
    | row r => exact ih has
    | skip => exact ih has
    | ret code => simp
    | abort => exact absurd hturn ha

end print_rows

/-! ## §2 Columns

A row has six percentiles of the same deltas, each converted to nanoseconds.
They are computed in the order of the source, and any that has no result ends
the program. -/

/-- A delta as it is printed. -/
def to_ns (mult shift d : UInt32) : UInt64 :=
  mul_u64_u32_shr d.toUInt64 mult shift

/-- The columns `median_ns` to `p99.9_ns`. -/
structure Percentiles where
  median_ns : UInt64
  p20_ns : UInt64
  p80_ns : UInt64
  p90_ns : UInt64
  p99_ns : UInt64
  p99_9_ns : UInt64
  deriving DecidableEq, Repr

/-- The six calls, in their order, and the conversions. -/
def percentiles (mult shift : UInt32) (x : List UInt32) :
    Option Percentiles := do
  let median ← percentile_u32 x 1 2
  let p20 ← percentile_u32 x 1 5
  let p80 ← percentile_u32 x 4 5
  let p90 ← percentile_u32 x 90 100
  let p99 ← percentile_u32 x 99 100
  let p99_9 ← percentile_u32 x 999 1000
  some {
    median_ns := to_ns mult shift median
    p20_ns := to_ns mult shift p20
    p80_ns := to_ns mult shift p80
    p90_ns := to_ns mult shift p90
    p99_ns := to_ns mult shift p99
    p99_9_ns := to_ns mult shift p99_9 }

/-- Each column is that of its fraction. -/
theorem percentiles_eq_some {mult shift : UInt32} {x : List UInt32}
    {p : Percentiles} (h : percentiles mult shift x = some p) :
    (percentile_u32 x 1 2).map (to_ns mult shift) = some p.median_ns ∧
      (percentile_u32 x 1 5).map (to_ns mult shift) = some p.p20_ns ∧
      (percentile_u32 x 4 5).map (to_ns mult shift) = some p.p80_ns ∧
      (percentile_u32 x 90 100).map (to_ns mult shift) = some p.p90_ns ∧
      (percentile_u32 x 99 100).map (to_ns mult shift) = some p.p99_ns ∧
      (percentile_u32 x 999 1000).map (to_ns mult shift) = some p.p99_9_ns := by
  simp only [percentiles, Option.bind_eq_bind, Option.bind_eq_some_iff] at h
  obtain ⟨median, hmedian, p20, hp20, p80, hp80, p90, hp90, p99, hp99, p99_9,
    hp99_9, h⟩ := h
  obtain rfl := Option.some.inj h
  simp only [hmedian, hp20, hp80, hp90, hp99, hp99_9, Option.map_some, and_self]

/-- The conversion of a 32-bit number of cycles is not cut. -/
theorem toNat_to_ns (mult shift d : UInt32) :
    (to_ns mult shift d).toNat = scaled d.toNat mult.toNat shift.toNat := by
  rw [to_ns, toNat_mul_u64_u32_shr_of_lt (scaled_lt_of_u32 d mult shift),
    UInt32.toNat_toUInt64]

/-- The conversion of deltas is monotone. -/
theorem to_ns_mono (mult shift : UInt32) {d e : UInt32}
    (h : d.toNat ≤ e.toNat) :
    (to_ns mult shift d).toNat ≤ (to_ns mult shift e).toNat := by
  rw [toNat_to_ns, toNat_to_ns]
  exact scaled_mono _ _ h

/-- The column of a fraction. -/
theorem percentile_ns {x : List UInt32} (hs : x.Pairwise (· ≤ ·)) (hx : x ≠ [])
    {a b : Nat} (hab : a < b) (hfit : x.length * a < 2 ^ 64)
    (mult shift : UInt32) :
    ∃ p, percentile_u32 x a b = some p ∧ (to_ns mult shift p).toNat =
      scaled (shown x (x.length * a / b)) mult.toNat shift.toNat := by
  obtain ⟨p, hp, hv⟩ :=
    percentile_u32_eq hs hfit (index_lt (List.length_pos_iff.mpr hx) hab)
  refine ⟨p, hp, ?_⟩
  rw [toNat_to_ns, hv, shown]

/-- The columns of a row, each by the index of its fraction. -/
structure Columns (f : Nat → Nat) (x : List UInt32)
    (p : Percentiles) : Prop where
  median : p.median_ns.toNat = f (shown x (x.length * 1 / 2))
  p20 : p.p20_ns.toNat = f (shown x (x.length * 1 / 5))
  p80 : p.p80_ns.toNat = f (shown x (x.length * 4 / 5))
  p90 : p.p90_ns.toNat = f (shown x (x.length * 90 / 100))
  p99 : p.p99_ns.toNat = f (shown x (x.length * 99 / 100))
  p99_9 : p.p99_9_ns.toNat = f (shown x (x.length * 999 / 1000))

/-- **The columns are computed** for every ascending array. -/
theorem percentiles_eq {x : List UInt32} (hs : x.Pairwise (· ≤ ·)) (hx : x ≠ [])
    (hfit : x.length * 999 < 2 ^ 64) (mult shift : UInt32) :
    ∃ p, percentiles mult shift x = some p ∧
      Columns (scaled · mult.toNat shift.toNat) x p := by
  obtain ⟨median, hmedian, vmedian⟩ :=
    percentile_ns hs hx (a := 1) (b := 2) (by omega) (by omega) mult shift
  obtain ⟨p20, hp20, v20⟩ :=
    percentile_ns hs hx (a := 1) (b := 5) (by omega) (by omega) mult shift
  obtain ⟨p80, hp80, v80⟩ :=
    percentile_ns hs hx (a := 4) (b := 5) (by omega) (by omega) mult shift
  obtain ⟨p90, hp90, v90⟩ :=
    percentile_ns hs hx (a := 90) (b := 100) (by omega) (by omega) mult shift
  obtain ⟨p99, hp99, v99⟩ :=
    percentile_ns hs hx (a := 99) (b := 100) (by omega) (by omega) mult shift
  obtain ⟨p99_9, hp99_9, v99_9⟩ :=
    percentile_ns hs hx (a := 999) (b := 1000) (by omega) hfit mult shift
  let ns := to_ns mult shift
  refine ⟨⟨ns median, ns p20, ns p80, ns p90, ns p99, ns p99_9⟩, ?_,
    vmedian, v20, v80, v90, v99, v99_9⟩
  simp [percentiles, hmedian, hp20, hp80, hp90, hp99, hp99_9, ns]

/-! ## §3 Order

The columns of a row ascend where each keeps the order to the next one, and the
last is not above the maximum in any case. -/

/-- The percentiles of a row ascend, up to its maximum. -/
def Ascend (p : Percentiles) (max_ns : UInt64) : Prop :=
  p.p20_ns ≤ p.median_ns ∧ p.median_ns ≤ p.p80_ns ∧ p.p80_ns ≤ p.p90_ns ∧
    p.p90_ns ≤ p.p99_ns ∧ p.p99_ns ≤ p.p99_9_ns ∧ p.p99_9_ns ≤ max_ns

/-- Each pair of neighbouring columns keeps its order. -/
def KeepsRow (f : Nat → Nat) (x : List UInt32) : Prop :=
  Keeps f x (x.length * 1 / 5) (x.length * 1 / 2) ∧
    Keeps f x (x.length * 1 / 2) (x.length * 4 / 5) ∧
    Keeps f x (x.length * 4 / 5) (x.length * 90 / 100) ∧
    Keeps f x (x.length * 90 / 100) (x.length * 99 / 100) ∧
    Keeps f x (x.length * 99 / 100) (x.length * 999 / 1000)

/-- **When the columns of a row ascend.** -/
theorem ascend_iff {f : Nat → Nat} (hf : Monotone f) {x : List UInt32}
    {p : Percentiles} {max_ns : UInt64} (hs : x.Pairwise (· ≤ ·)) (hx : x ≠ [])
    (hp : Columns f x p) (hmax : max_ns.toNat = f (entry x (x.length - 1))) :
    Ascend p max_ns ↔ KeepsRow f x := by
  have hn := List.length_pos_iff.mpr hx
  have hlast :=
    shown_le_last hs hf (index_lt (a := 999) (b := 1000) hn (by omega))
  simp only [Ascend, KeepsRow, UInt64.le_iff_toNat_le, hp.median, hp.p20,
    hp.p80, hp.p90, hp.p99, hp.p99_9, hmax, hlast, and_true]
  refine and_congr ?_ (and_congr ?_ (and_congr ?_ (and_congr ?_ ?_)))
  all_goals exact shown_le_shown_iff hs hf (by omega) (by omega)

end Osjitter.Util
