/-
Osjitter.Pingpong.Results — the output of `pingpong.c`: `pp_results` and
`print_json`.

Both read the arrays that `spin_main_finalize` leaves, `raw_ds` in the order
measured and `ds` sorted, so `ds_size` is the length of either.

A row of the table has minimum, median absolute deviation, percentiles and
maximum of the sorted array, converted to nanoseconds; a thread without deltas
has none. `ys` is what `realloc` returns for the scratch array of `mad_u32`, and
a failure of it ends the table. The JSON text is written as the loop of the
source does it, with the comma in front of all elements but the first.
-/
import Mathlib
import Osjitter.Lib.CString
import Osjitter.Util.Table
import Osjitter.Pingpong.Worker

namespace Osjitter.Pingpong

open Util CString

/-! ## Arguments and results

What the two functions read: the factors of the conversion, and of a thread its
two arrays. -/

/-- The fields of `Args` that the output reads. -/
structure Args where
  tsc_khz : UInt32
  mult : UInt32
  shift : UInt32
  deriving DecidableEq, Repr

/-- The fields of a `Worker` that the output reads. -/
structure Result where
  raw_ds : List UInt32
  ds : List UInt32
  deriving DecidableEq, Repr

/-- The number of deltas. -/
def Result.ds_size (w : Result) : Nat := w.ds.length

/-! ## The table

The loop prints a row for each thread with deltas. A thread without any has its
scratch array all the same, and the failure of `realloc` ends the loop there. -/

/-- A row of the table. -/
structure Row extends Percentiles where
  thread : Nat
  TSC_khz : UInt32
  delta : Nat
  min_ns : UInt64
  max_ns : UInt64
  mad_ns : UInt64
  deriving DecidableEq, Repr

/-- The row of a worker whose `mad` is computed. -/
def row (args : Args) (i : Nat) (w : Result) (mad : UInt32) : Option Row := do
  let min ← w.ds[0]?
  let max ← w.ds[w.ds_size - 1]?
  let p ← percentiles args.mult args.shift w.ds
  some {
    p with
    thread := i
    TSC_khz := args.tsc_khz
    delta := w.ds_size
    min_ns := to_ns args.mult args.shift min
    max_ns := to_ns args.mult args.shift max
    mad_ns := to_ns args.mult args.shift mad }

/-- The turn of a worker. `ys` is what `realloc` returns. -/
def row_turn (args : Args) (ws : Nat → Result) (ys : Nat → Option (List UInt32))
    (i : Nat) : Turn Row :=
  match ys i with
  | none => .ret (-1)
  | some y =>
      match mad_u32 (ws i).ds y with
      | none => .abort
      | some mad =>
          if (ws i).ds_size = 0 then .skip
          else
            match row args i (ws i) mad.1 with
            | none => .abort
            | some r => .row r

/-- The loop over the two threads. -/
def pp_results (args : Args) (ws : Nat → Result)
    (ys : Nat → Option (List UInt32)) : Printed Row :=
  print_rows (row_turn args ws ys) [0, 1]

/-! ## JSON

An array is written with its first element in front of the loop and a comma in
front of each of the others. -/

/-- `for (unsigned j = 1; j < w->ds_size; ++j)` -/
def json_rest (args : Args) : List UInt32 → List Char
  | [] => []
  | d :: ds =>
      ", ".toList ++ decimal (to_ns args.mult args.shift d).toNat ++ json_rest args ds

/-- `if (w->ds_size) …`, and the loop. -/
def json_items (args : Args) : List UInt32 → List Char
  | [] => []
  | d :: ds =>
      " ".toList ++ decimal (to_ns args.mult args.shift d).toNat ++ json_rest args ds

/-- The list of one thread. -/
def json_list (args : Args) (raw_ds : List UInt32) : List Char :=
  "    [".toList ++ json_items args raw_ds ++ "]".toList

/-- The text of the two arrays, with the brackets around them. -/
def print_json (args : Args) (ws : Nat → Result) : List Char :=
  "[\n".toList ++ json_list args (ws 0).raw_ds ++ ",\n".toList ++ json_list args
    (ws 1).raw_ds ++
    "\n]\n".toList

end Osjitter.Pingpong
