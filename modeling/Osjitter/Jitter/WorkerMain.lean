/-
Osjitter.Jitter.WorkerMain — the measurement of `worker_main` in
`osjitter.c`.

The TSC readings are given: `start`, and those of the loop in the order they
are taken. The accounting step is written twice in the source, unrolled and
in the loop, and the two declare `delta` with different widths; here it is
`account`, given `delta` as the comparisons and sums see it, extended to 64
bits. `unrolled` and `iteration` are the two copies, `measure` the loop with
the unrolled iteration in front of it, and `publish` what the thread stores in
its `Worker` behind it: the correction of the recorded deltas by the smallest
of the loop, and the sort.

Between the two copies the minimum is set back (`Locals.forget`), so the first
gap does not count for it.

`i` counts gaps above a threshold in a 64-bit clock, so for a clock that
ascends it stays below 2^64 (`thresh_cnt_lt`), and is a Nat. The loops that
wait for `start_work` and `quit_thread` and the failure of `calloc` are left to
the handshake; `_mm_pause` and the fences around `rdtsc` have no counterpart.
-/
import Mathlib
import Osjitter.Lib.Readings

namespace Osjitter.Jitter

open Readings

/-! ## Variables

What `worker_main` reads of the settings, and what it changes while it measures.
The array is there and all zero when the measurement begins. -/

/-- The fields of `Args` that `worker_main` reads. -/
structure Args where
  tsc_thresh : UInt32
  tsc_runtime : UInt64
  samples : UInt64
  deriving DecidableEq, Repr

/-- `n`, the number of entries of `ds`. -/
def Args.n (args : Args) : Nat := args.samples.toNat

/-- The local variables of `worker_main` that the measurement changes. -/
structure Locals where
  ds : List UInt32
  i : Nat := 0
  tsc_total_int : UInt64 := 0
  tsc_overflow : UInt64 := 0
  tsc_delta_min : UInt64
  tsc : UInt64
  deriving DecidableEq, Repr

def UINT32_MAX : UInt64 := 0xFFFFFFFF

def UINT64_MAX : UInt64 := 0xFFFFFFFFFFFFFFFF

/-! ## The measurement

The source has the body of the loop twice, once in front of it. The two copies
are not the same: the delta has 64 bits in the one and 32 in the other, and the
least delta is forgotten between them. What they have in common is `account`. -/

/-- `delta > UINT32_MAX ? UINT32_MAX : delta`, stored in a uint32_t. -/
def saturate (delta : UInt64) : UInt32 :=
  (if UINT32_MAX < delta then UINT32_MAX else delta).toUInt32

/-- `if (delta > tsc_thresh) { … }` -/
def Locals.record (args : Args) (t delta : UInt64) (m : Locals) : Locals :=
  if args.tsc_thresh.toUInt64 < delta then
    if m.i < args.n then
      { m with tsc_total_int := m.tsc_total_int + delta
               ds := m.ds.set m.i (saturate delta)
               i := m.i + 1 }
    else
      { m with tsc_total_int := m.tsc_total_int + delta
               tsc_overflow := if m.tsc_overflow = 0 then t else m.tsc_overflow
               i := m.i + 1 }
  else m

/-- The accounting of one reading. -/
def account (args : Args) (t delta : UInt64) (m : Locals) : Locals :=
  let m := Locals.record args t delta { m with tsc := t }
  { m with tsc_delta_min := if delta < m.tsc_delta_min then delta else m.tsc_delta_min }

/-- The unrolled iteration: `uint64_t delta = t - tsc;` -/
def unrolled (args : Args) (t : UInt64) (m : Locals) : Locals :=
  account args t (t - m.tsc) m

/-- An iteration of the loop: `uint32_t delta = t - tsc;` -/
def iteration (args : Args) (t : UInt64) (m : Locals) : Locals :=
  account args t (t - m.tsc).toUInt32.toUInt64 m

/-- The local variables before the measurement. -/
def Args.locals (args : Args) (start : UInt64) : Locals :=
  { ds := List.replicate args.n 0, tsc_delta_min := UINT64_MAX, tsc := start }

/-- `tsc_delta_min = UINT64_MAX;` after the unrolled iteration. -/
def Locals.forget (m : Locals) : Locals :=
  { m with tsc_delta_min := UINT64_MAX }

/-- The measurement, given the readings to come; none if they run out. -/
def measure (args : Args) (start : UInt64) (ts : List UInt64) : Option Locals :=
  let limit := start + args.tsc_runtime
  let m := args.locals start
  if m.tsc < limit then
    match ts with
    | [] => none
    | t :: ts =>
      loop (· < limit) Locals.tsc (iteration args) ts (unrolled args t m).forget
  else loop (· < limit) Locals.tsc (iteration args) ts m.forget

/-! ## The results

Behind the loop each recorded delta is corrected by the least one, and the array
is sorted. The fields that other threads read are set before the thread says
that it is done. -/

/-- What `worker_main` leaves of a measurement in its `Worker`. -/
structure Worker where
  deltas : List UInt32
  samples : Nat
  thresh_cnt : Nat
  tsc_start : UInt64
  tsc_overflow : UInt64
  tsc_total_int : UInt64
  tsc_delta_min : UInt64
  deriving DecidableEq, Repr

/-- `w->deltas[i] -= w->tsc_delta_min;`, a 64-bit difference stored in 32
bits. -/
def correct (tsc_delta_min : UInt64) (d : UInt32) : UInt32 :=
  (d.toUInt64 - tsc_delta_min).toUInt32

/-- The publication: the correction by the loop time, and `qsort`. -/
def publish (args : Args) (start : UInt64) (m : Locals) : Worker :=
  let samples := if m.i < args.n then m.i else args.n
  { deltas := ((m.ds.take samples).map (correct m.tsc_delta_min)).insertionSort (· ≤ ·) ++
      m.ds.drop samples
    samples
    thresh_cnt := m.i
    tsc_start := start
    tsc_overflow := m.tsc_overflow
    tsc_total_int := m.tsc_total_int - m.tsc_delta_min * UInt64.ofNat m.i
    tsc_delta_min := m.tsc_delta_min }

/-- `worker_main` once its array is allocated. -/
def worker_main (args : Args) (start : UInt64) (ts : List UInt64) :
    Option Worker :=
  (measure args start ts).map (publish args start)

end Osjitter.Jitter
