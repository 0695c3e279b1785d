/-
Osjitter.Asserts — no assertion of `percentile_u32` fails in `osjitter` or
`pingpong`.

Both programs sort an array after its elements are last changed, so whatever a
correction made of them, the tables read ascending arrays. `mad_u32` sorts the
array that it fills itself.

For each program the computed columns are written with their calls recorded
(`row_calls`, `turn_calls`); `row_eq_calls` and `turn_eq_calls` say that these
are the calls that a row makes, and `meets_row_calls` and `meets_turn_calls`
that their assertions hold. It follows that no turn of `pp_results` dies
(`row_turn_ne_abort`).

`percentile_asserts_hold` states it for any `qsort` that keeps its contract:
`OrdersU32` says that `cmp_u32` meets what the contract asks for, and
`AssertsHold` has a field for the calls of each program and one for each table.
Arrays of any length that 32 bits can hold are covered, the empty one included,
and no bound is put on the values.
-/
import Mathlib
import Osjitter.Util.Calls
import Osjitter.Jitter.Results
import Osjitter.Pingpong.ResultsTheorems

namespace Osjitter

open Util Qsort

variable {qsort : (UInt32 → UInt32 → Int) → List UInt32 → List UInt32}

/-! ## `osjitter`

`pp_results` computes a row of the table. What it calls is listed from the
source, call by call, and tied to the row that is computed without the record
(`row_eq_calls`), so that the list can leave none out. -/

namespace Jitter

/-- The computed columns of a row. -/
def row_calls (qsort : (UInt32 → UInt32 → Int) → List UInt32 → List UInt32)
    (args : GlobalArgs) (w : Worker) (ys : List UInt32) :
    Traced Call (UInt32 × Percentiles) := do
  let mad ← mad_calls qsort w.recorded ys
  let p ← column_calls args.mult args.shift w.recorded
  pure (mad.1, p)

/-- These are the calls of `row`, whose other columns make none. -/
theorem row_eq_calls (hq : IsQsort qsort) (args : GlobalArgs) (cpu : Nat)
    (w : Worker) (invol_switch : UInt64) (ys : List UInt32) :
    (row args cpu w invol_switch ys).map (fun r => (r.mad_ns, r.toPercentiles)) =
      (row_calls qsort args w ys).result.bind fun q =>
        w.longest.map fun _ => (to_ns args.mult args.shift q.1, q.2) := by
  simp only [row, row_calls, Traced.result_bind, Traced.result_pure,
    result_mad_calls hq, result_column_calls, Option.bind_eq_bind]
  cases mad_u32 w.recorded ys with
  | none => rfl
  | some mad =>
    cases percentiles args.mult args.shift w.recorded with
    | none => rfl
    | some p => cases w.longest <;> rfl

/-- No assertion fails in a row, and the row is computed. -/
theorem meets_row_calls (hq : IsQsort qsort) (args : GlobalArgs) {w : Worker}
    {ys : List UInt32} (hs : w.recorded.Pairwise (· ≤ ·))
    (hlen : w.recorded.length < 2 ^ 32) (hy : w.recorded.length ≤ ys.length) :
    Traced.Meets Call.Holds (fun _ => True) (row_calls qsort args w ys) :=
  (meets_mad_calls hq hs hlen hy).bind fun _ _ =>
    (meets_column_calls hs hlen args.mult args.shift).bind
      fun _ _ => .pure trivial

/-- Every sample that is counted is recorded, as the array has room for it. -/
theorem Worker.Sorted.length_recorded {w : Worker} (hw : w.Sorted) :
    w.recorded.length = w.samples := by
  simp [Worker.recorded, hw.room]

/-- **No turn dies** where the arrays are sorted. -/
theorem row_turn_ne_abort {args : GlobalArgs} {ws : Nat → Worker}
    {invol_switch : Nat → UInt64} {ys : Nat → Option (List UInt32)} {cpu : Nat}
    (hw : (ws cpu).Sorted) (hlen : (ws cpu).samples < 2 ^ 32)
    (hys : ∀ y, ys cpu = some y → (ws cpu).samples ≤ y.length) :
    row_turn args ws invol_switch ys cpu ≠ .abort := by
  have hrec := hw.length_recorded
  obtain ⟨max, hmax⟩ : ∃ max, (ws cpu).longest = some max := by
    unfold Worker.longest
    split
    · exact ⟨0, rfl⟩
    · have hroom := hw.room
      exact ⟨_, List.getElem?_eq_getElem (by omega)⟩
  unfold row_turn
  split
  · split
    · simp
    · next y hy =>
      have hylen := hys y hy
      have hq := isQsort_insertionSort (α := UInt32)
      obtain ⟨-, q, hresult, -⟩ := meets_row_calls hq args hw.sorted (by omega)
        (show (ws cpu).recorded.length ≤ y.length by omega)
      have hrow := row_eq_calls hq args cpu (ws cpu) (invol_switch cpu) y
      rw [hresult, Option.bind_some, hmax, Option.map_some] at hrow
      obtain ⟨r, hr, -⟩ := Option.map_eq_some_iff.mp hrow
      simp [hr]
  · simp

end Jitter

/-! ## `pingpong`

The same for one turn of the loop in `print_json` and `pp_results`. The deltas
come out of `qsort`, of which only the contract of the library is used. -/

namespace Pingpong

/-- The computed columns of a turn, whose row is left out for no deltas. -/
def turn_calls (qsort : (UInt32 → UInt32 → Int) → List UInt32 → List UInt32)
    (args : Args) (w : Result) (y : List UInt32) :
    Traced Call (UInt32 × Option Percentiles) := do
  let mad ← mad_calls qsort w.ds y
  if w.ds_size = 0 then pure (mad.1, none)
  else do
    let p ← column_calls args.mult args.shift w.ds
    pure (mad.1, some p)

/-- No assertion fails in a turn, and its results are computed. -/
theorem meets_turn_calls (hq : IsQsort qsort) (args : Args) {w : Result}
    {y : List UInt32} (hs : w.ds.Pairwise (· ≤ ·)) (hlen : w.ds_size < 2 ^ 32)
    (hy : w.ds_size ≤ y.length) :
    Traced.Meets Call.Holds (fun _ => True) (turn_calls qsort args w y) := by
  refine (meets_mad_calls hq hs hlen hy).bind fun mad _ => ?_
  by_cases hzero : w.ds_size = 0
  · simp only [if_pos hzero]
    exact .pure trivial
  · simp only [if_neg hzero]
    exact (meets_column_calls hs hlen args.mult args.shift).bind
      fun _ _ => .pure trivial

/-- What a `qsort` leaves of an array. -/
theorem sorted_of_qsort (hq : IsQsort qsort) {w : Result} {ds : List UInt32}
    (h : w.ds = qsort cmp_u32 ds) :
    w.ds_size = ds.length ∧ w.ds.Pairwise (· ≤ ·) := by
  rw [Result.ds_size, h]
  exact ⟨length_qsort hq ds, qsort_sorted hq ds⟩

/-- The computed columns that a turn shows, if it shows a row. -/
def computed : Turn Row → Option (Option (UInt64 × Percentiles))
  | .row r => some (some (r.mad_ns, r.toPercentiles))
  | .skip => some none
  | .ret _ => none
  | .abort => none

/-- These are the calls of a turn, whose other columns make none. -/
theorem turn_eq_calls (hq : IsQsort qsort) (args : Args) (ws : Nat → Result)
    {ys : Nat → Option (List UInt32)} {i : Nat} {y : List UInt32}
    (hy : ys i = some y) :
    computed (row_turn args ws ys i) =
      (turn_calls qsort args (ws i) y).result.map fun q =>
      q.2.map fun p => (to_ns args.mult args.shift q.1, p) := by
  simp only [row_turn, hy, turn_calls, Traced.result_bind, result_mad_calls hq]
  cases mad_u32 (ws i).ds y with
  | none => rfl
  | some mad =>
    by_cases hzero : (ws i).ds_size = 0
    · simp [hzero, computed]
    · have hmin : (ws i).ds[0]? = some _ :=
        List.getElem?_eq_getElem (Nat.pos_of_ne_zero hzero)
      have hmax : (ws i).ds[(ws i).ds_size - 1]? = some _ :=
        List.getElem?_eq_getElem (Nat.sub_lt (Nat.pos_of_ne_zero hzero) Nat.one_pos)
      simp only [if_neg hzero, row, hmin, hmax, Option.bind_eq_bind, Option.bind_some,
        Traced.result_bind, Traced.result_pure, result_column_calls]
      cases percentiles args.mult args.shift (ws i).ds with
      | none => rfl
      | some p => rfl

/-- **No turn dies** where the arrays are sorted. -/
theorem row_turn_ne_abort {args : Args} {ws : Nat → Result}
    {ys : Nat → Option (List UInt32)} {i : Nat}
    (hs : (ws i).ds.Pairwise (· ≤ ·)) (hlen : (ws i).ds_size < 2 ^ 32)
    (hys : ∀ y, ys i = some y → (ws i).ds_size ≤ y.length) :
    row_turn args ws ys i ≠ .abort := by
  cases hy : ys i with
  | none => simp [row_turn, hy]
  | some y =>
    intro habort
    have hq := isQsort_insertionSort (α := UInt32)
    obtain ⟨-, q, hresult, -⟩ := meets_turn_calls hq args hs hlen (hys y hy)
    have hturn := turn_eq_calls hq args ws hy
    rw [habort, hresult] at hturn
    cases hturn

end Pingpong

/-! ## Both programs

`AssertsHold` is what is asked of a program: every call of a modelled function
satisfies the assertions of that function, whatever the arrays of it contain. -/

/-- **The assertions hold** with a `qsort`: in every call for an array that
`worker_main` has corrected or `spin_main_finalize` has left, whatever is in
it, and neither table is cut short. The scratch arrays `ys` have at least the
entries of the recorded deltas: `pp_results` asks for one where there is none. -/
structure AssertsHold
    (qsort : (UInt32 → UInt32 → Int) → List UInt32 → List UInt32) : Prop where
  osjitter : ∀ (args : Jitter.Args) (start : UInt64) (m : Jitter.Locals)
    (gargs : Jitter.GlobalArgs)
    (ys : List UInt32), m.ds.length = args.n → args.n < 2 ^ 32 →
      (Jitter.publish args start m).samples ≤ ys.length →
      (Jitter.publish args start m).recorded = qsort cmp_u32
          ((m.ds.take (Jitter.publish args start m).samples).map
              (Jitter.correct m.tsc_delta_min)) ∧
        ∀ c ∈ (Jitter.row_calls qsort gargs
          (Jitter.publish args start m) ys).calls, c.Holds
  osjitter_lives : ∀ (gargs : Jitter.GlobalArgs) (ws : Nat → Jitter.Worker)
    (invol_switch : Nat → UInt64) (ys : Nat → Option (List UInt32)),
      (∀ cpu, ∃ args start m, m.ds.length = args.n ∧ args.n < 2 ^ 32 ∧
        ws cpu = Jitter.publish args start m) →
      (∀ cpu y, ys cpu = some y → (ws cpu).samples ≤ y.length) →
      (Jitter.pp_results gargs ws invol_switch ys).ret ≠ none
  finalized : ∀ (n : UInt32) (ds : List UInt32) (w : Pingpong.Result),
    Pingpong.Finalized n ds w → w.ds = qsort cmp_u32 ds
  pingpong : ∀ (args : Pingpong.Args) (w : Pingpong.Result) (ds y : List UInt32),
    w.ds = qsort cmp_u32 ds → ds.length < 2 ^ 32 → w.ds_size ≤ y.length →
      ∀ c ∈ (Pingpong.turn_calls qsort args w y).calls, c.Holds
  pingpong_lives : ∀ (args : Pingpong.Args) (ws : Nat → Pingpong.Result)
    (ys : Nat → Option (List UInt32)),
      (∀ i, ∃ ds, (ws i).ds = qsort cmp_u32 ds ∧ ds.length < 2 ^ 32) →
      (∀ i y, ys i = some y → (ws i).ds_size ≤ y.length) →
      (Pingpong.pp_results args ws ys).ret ≠ none

/-- `cmp_u32` is a total order that agrees with `≤`. -/
structure OrdersU32 : Prop where
  comparator : Comparator cmp_u32
  separates : Separates cmp_u32
  agrees : ∀ x y, cmp_u32 x y ≤ 0 ↔ x ≤ y

/-- **No assertion of `percentile_u32` fails**, whatever `qsort` does beyond
its contract. -/
theorem percentile_asserts_hold
    (qsort : (UInt32 → UInt32 → Int) → List UInt32 → List UInt32)
    (hq : IsQsort qsort) : OrdersU32 ∧ AssertsHold qsort := by
  refine ⟨⟨comparator_cmp_u32, separates_cmp_u32, cmp_u32_le_iff⟩, ?_, ?_, ?_, ?_, ?_⟩
  · intro args start m gargs ys hds hn hys
    have hw := Jitter.publish_sorted hds start
    have hlen := hw.length_recorded
    have hsamples := Jitter.samples_publish_le args start m
    refine ⟨?_, (Jitter.meets_row_calls hq gargs hw.sorted (by omega) (by omega)).1⟩
    rw [Jitter.recorded_publish hds start, qsort_eq hq]
  · intro gargs ws invol_switch ys hws hys
    apply ret_ne_none
    intro cpu _
    obtain ⟨args, start, m, hds, hn, hw⟩ := hws cpu
    have hsamples := Jitter.samples_publish_le args start m
    rw [← hw] at hsamples
    exact Jitter.row_turn_ne_abort (hw ▸ Jitter.publish_sorted hds start)
      (by omega) (hys cpu)
  · intro n ds w hw
    rw [hw.eq.2.1, qsort_eq hq]
  · intro args w ds y hds hlen hy
    obtain ⟨hsize, hs⟩ := Pingpong.sorted_of_qsort hq hds
    exact (Pingpong.meets_turn_calls hq args hs (by omega) (by omega)).1
  · intro args ws ys hws hys
    apply ret_ne_none
    intro i _
    obtain ⟨ds, hds, hlen⟩ := hws i
    obtain ⟨hsize, hs⟩ := Pingpong.sorted_of_qsort hq hds
    exact Pingpong.row_turn_ne_abort hs (by omega) (hys i)

/-- Insertion sort is a `qsort`. -/
theorem percentile_asserts_hold_insertionSort : OrdersU32 ∧
    AssertsHold fun cmp xs => xs.insertionSort fun x y => cmp x y ≤ 0 :=
  percentile_asserts_hold _ isQsort_insertionSort

end Osjitter
