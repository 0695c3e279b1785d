/-
Osjitter.Jitter.Results — the table of `osjitter.c`: `pp_results`.

A row has the columns that `row` computes from what a thread has published: the
counts and the sum, the median absolute deviation, the percentiles, and the
longest interruption, converted to nanoseconds. `row_turn` is a turn of the
loop: a CPU that is not selected is passed over, a `realloc` that fails ends the
function, and a failed assertion the process.

`Worker.Sorted` is what the rows rely on: as many entries as samples, and those
ascending. `publish_sorted` says that every publication leaves it so, and
`row_ascend_iff` when the columns of a row then ascend.

The column `iratio`, a quotient in double precision, is left out.
-/
import Mathlib
import Osjitter.Util.Table
import Osjitter.Jitter.ParseArgs

namespace Osjitter.Jitter

open Util

/-! ## A row

A row has the name of its CPU, the counters of the worker, and the values
computed from its deltas. All times are converted to nanoseconds when they are
printed. -/

/-- A row of the table. -/
structure Row extends Percentiles where
  cpu : Nat
  TSC_khz : UInt32
  intr : Nat
  delta : Nat
  ovfl_ns : UInt64
  invol_ctx : UInt64
  sum_intr_ns : UInt64
  rt_s : UInt32
  loop_ns : UInt64
  max_ns : UInt64
  mad_ns : UInt64
  deriving DecidableEq, Repr

/-- The array that `pp_results` reads, as far as it is used. -/
def Worker.recorded (w : Worker) : List UInt32 := w.deltas.take w.samples

/-- `w->samples ? w->deltas[w->samples - 1] : 0` -/
def Worker.longest (w : Worker) : Option UInt32 :=
  if w.samples = 0 then some 0 else w.deltas[w.samples - 1]?

/-- The row of a worker, with its `invol_switch` and the array `ys` that
`mad_u32` fills; none if an assertion fails. -/
def row (args : GlobalArgs) (cpu : Nat) (w : Worker) (invol_switch : UInt64)
    (ys : List UInt32) : Option Row := do
  let ns := fun cyc => mul_u64_u32_shr cyc args.mult args.shift
  let mad ← mad_u32 w.recorded ys
  let p ← percentiles args.mult args.shift w.recorded
  let max ← w.longest
  some {
    p with
    cpu := cpu
    TSC_khz := args.tsc_khz
    intr := w.thresh_cnt
    delta := w.samples
    ovfl_ns :=
      if w.tsc_overflow = 0 then 0 else ns (w.tsc_overflow - w.tsc_start)
    invol_ctx := invol_switch
    sum_intr_ns := ns w.tsc_total_int
    rt_s := args.runtime_s
    loop_ns := ns w.tsc_delta_min
    max_ns := to_ns args.mult args.shift max
    mad_ns := to_ns args.mult args.shift mad.1 }

/-- The turn of a CPU. `ys` is what `realloc` returns. -/
def row_turn (args : GlobalArgs) (ws : Nat → Worker)
    (invol_switch : Nat → UInt64) (ys : Nat → Option (List UInt32))
    (cpu : Nat) : Turn Row :=
  if CPU_ISSET cpu args.cpu_set then
    match ys cpu with
    | none => .ret (-1)
    | some y =>
        match row args cpu (ws cpu) (invol_switch cpu) y with
        | none => .abort
        | some r => .row r
  else .skip

/-- The loop over the CPUs, each with a row or without. -/
def pp_results (args : GlobalArgs) (ws : Nat → Worker)
    (invol_switch : Nat → UInt64) (ys : Nat → Option (List UInt32)) :
    Printed Row :=
  print_rows (row_turn args ws invol_switch ys) (List.range args.cpus.toNat)

/-! ## The order of a row

The percentiles are computed from an array that `worker_main` has left sorted,
so the rules of `Util.Table` apply to every row that is printed. -/

/-- What the arrays of a worker are like when `pp_results` reads them. -/
structure Worker.Sorted (w : Worker) : Prop where
  room : w.samples ≤ w.deltas.length
  sorted : w.recorded.Pairwise (· ≤ ·)

/-- No more samples are counted than the array has room for. -/
theorem samples_publish_le (args : Args) (start : UInt64) (m : Locals) :
    (publish args start m).samples ≤ args.n := by
  simp only [publish]
  split <;> omega

/-- The deltas are corrected, then sorted. -/
theorem recorded_publish {args : Args} {m : Locals} (h : m.ds.length = args.n)
    (start : UInt64) :
    (publish args start m).recorded =
      qsort_u32 ((m.ds.take (publish args start m).samples).map
        (correct m.tsc_delta_min)) := by
  have hlen := samples_publish_le args start m
  have hsort : (publish args start m).deltas =
      qsort_u32 ((m.ds.take (publish args start m).samples).map
        (correct m.tsc_delta_min)) ++
        m.ds.drop (publish args start m).samples := by
    rw [qsort_u32_eq]
    rfl
  rw [Worker.recorded, hsort, List.take_left' (by simp [h, hlen])]

/-- `worker_main` leaves them so. -/
theorem publish_sorted {args : Args} {m : Locals} (h : m.ds.length = args.n)
    (start : UInt64) : (publish args start m).Sorted := by
  constructor
  · simp [publish, h]
    split <;> omega
  · rw [recorded_publish h start]
    exact pairwise_toNat.mp (qsort_u32_pairwise _)

/-- The row of a turn is computed from the worker of its CPU. -/
theorem row_of_turn {args : GlobalArgs} {ws : Nat → Worker}
    {invol_switch : Nat → UInt64} {ys : Nat → Option (List UInt32)}
    {cpu : Nat} {r : Row} (h : row_turn args ws invol_switch ys cpu = .row r) :
    ∃ y, row args cpu (ws cpu) (invol_switch cpu) y = some r := by
  simp only [row_turn] at h
  split at h
  · split at h
    · cases h
    · next y hy =>
      split at h
      · cases h
      · next r' hrow =>
        obtain rfl : r' = r := by simpa using h
        exact ⟨y, hrow⟩
  · cases h

/-- A printed row is that of its CPU. -/
theorem row_of_mem {args : GlobalArgs} {ws : Nat → Worker}
    {invol_switch : Nat → UInt64} {ys : Nat → Option (List UInt32)} {r : Row}
    (h : r ∈ (pp_results args ws invol_switch ys).rows) :
    ∃ y, row args r.cpu (ws r.cpu) (invol_switch r.cpu) y = some r := by
  obtain ⟨cpu, -, hturn⟩ := exists_turn_of_mem h
  obtain ⟨y, hrow⟩ := row_of_turn hturn
  have hcpu : r.cpu = cpu := by
    simp only [row, Option.bind_eq_bind, Option.bind_eq_some_iff] at hrow
    obtain ⟨mad, -, p, -, max, -, hrow⟩ := hrow
    exact (congrArg Row.cpu (Option.some.inj hrow)).symm
  rw [hcpu]
  exact ⟨y, hrow⟩

/-- **When the percentiles of a row ascend.** -/
theorem row_ascend_iff {args : GlobalArgs} {cpu : Nat} {w : Worker}
    {invol_switch : UInt64} {y : List UInt32} {r : Row} (hw : w.Sorted)
    (hfit : w.samples * 999 < 2 ^ 64)
    (h : row args cpu w invol_switch y = some r) :
    Ascend r.toPercentiles r.max_ns ↔
      KeepsRow (Scale.scaled · args.mult.toNat args.shift.toNat) w.recorded := by
  have hlen : w.recorded.length = w.samples := by
    simp [Worker.recorded, hw.room]
  simp only [row, Option.bind_eq_bind, Option.bind_eq_some_iff] at h
  obtain ⟨mad, -, p, hp, max, hmax, hrow⟩ := h
  obtain rfl := Option.some.inj hrow
  by_cases hzero : w.samples = 0
  · have hnil : w.recorded = [] :=
      List.eq_nil_of_length_eq_zero (hlen.trans hzero)
    have hkeeps : ∀ f, KeepsRow f [] :=
      fun f => by simp [KeepsRow, Keeps, Wraps]
    rw [hnil]
    refine iff_of_true ?_ (hkeeps _)
    rw [hnil] at hp
    rw [Worker.longest, if_pos hzero] at hmax
    cases hp
    cases hmax
    simp [Ascend]
  · have hne : w.recorded ≠ [] :=
      fun hnil => hzero (by rw [← hlen, hnil, List.length_nil])
    obtain ⟨p', hp', hcol⟩ :=
      percentiles_eq hw.sorted hne (hlen ▸ hfit) args.mult args.shift
    obtain rfl : p' = p := Option.some.inj (hp'.symm.trans hp)
    refine ascend_iff (fun a b hab => Scale.scaled_mono _ _ hab) hw.sorted hne hcol ?_
    rw [Worker.longest, if_neg hzero] at hmax
    have hlast : w.samples - 1 < w.recorded.length := by omega
    have hget : w.recorded[w.samples - 1]? = some max := by
      rw [Worker.recorded, List.getElem?_take_of_lt (by omega), hmax]
    obtain ⟨_, hmax'⟩ := List.getElem?_eq_some_iff.mp hget
    rw [toNat_to_ns, hlen, entry_eq hlast, hmax']

end Osjitter.Jitter
