/-
Osjitter.Jitter.TableText — the text of the table of `osjitter.c`, and the rows
that a reader gets back from it.

The text is the header and a line for each row, in columns of the widths of the
source. A number that is wider than its column moves the rest of the line, so
the columns are no positions; a reader splits the line at white space instead
(`Lib.Columns`).

`FullRow` has all 18 columns, and `full_table_reads_back` says that such a
reader gets the header and exactly these rows, in order and complete.

The column `iratio` is a quotient in double precision: what `printf` makes of it
is given, as a word.
-/
import Mathlib
import Osjitter.Lib.Columns
import Osjitter.Jitter.Results

namespace Osjitter.Jitter

open Columns CString Util

/-! ## §1 Printing

The table is printed line by line, with a header and the widths of its columns.
A number that is wider than its column is printed in full. -/

/-- The header of `pp_results`. -/
def header : List Char :=
  " CPU  TSC_khz  #intr  #delta  ovfl_ns  invol_ctx  sum_intr_ns  iratio  rt_s  loop_ns".toList ++
    "  median_ns  p20_ns  p80_ns  p90_ns  p99_ns  p99.9_ns   max_ns  mad_ns".toList

/-- A row with its `iratio`. -/
structure FullRow extends Row where
  iratio : Word
  deriving DecidableEq

/-- The conversions of the format, each with its width. -/
def FullRow.cells (r : FullRow) : List (Nat × List Char) :=
  [(4, decimal r.cpu), (8, decimal r.TSC_khz.toNat), (6, decimal r.intr),
    (7, decimal r.delta), (8, decimal r.ovfl_ns.toNat),
    (10, decimal r.invol_ctx.toNat), (12, decimal r.sum_intr_ns.toNat),
    (7, r.iratio.text), (5, decimal r.rt_s.toNat), (8, decimal r.loop_ns.toNat),
    (10, decimal r.median_ns.toNat), (7, decimal r.p20_ns.toNat),
    (7, decimal r.p80_ns.toNat), (7, decimal r.p90_ns.toNat),
    (7, decimal r.p99_ns.toNat), (9, decimal r.p99_9_ns.toNat),
    (8, decimal r.max_ns.toNat), (7, decimal r.mad_ns.toNat)]

/-- What `pp_results` prints for some rows. -/
def table_text (rows : List FullRow) : List Char :=
  Columns.print header (fun r => line r.cells) rows

/-! ## §2 Reading

The reader splits a line at white space and takes the fields in their order. It
rejects a line with another number of fields, or with one that is not a number.
-/

/-- The row of the fields of a line. -/
def read_row : List (List Char) → Option FullRow
  | [cpu, khz, intr, delta, ovfl, invol, sum, iratio, rt, loop, median, p20,
    p80, p90, p99, p99_9,
      max, mad] =>
      (Word.of iratio).map fun iratio =>
        { cpu := value cpu
          TSC_khz := UInt32.ofNat (value khz)
          intr := value intr
          delta := value delta
          ovfl_ns := UInt64.ofNat (value ovfl)
          invol_ctx := UInt64.ofNat (value invol)
          sum_intr_ns := UInt64.ofNat (value sum)
          iratio := iratio
          rt_s := UInt32.ofNat (value rt)
          loop_ns := UInt64.ofNat (value loop)
          median_ns := UInt64.ofNat (value median)
          p20_ns := UInt64.ofNat (value p20)
          p80_ns := UInt64.ofNat (value p80)
          p90_ns := UInt64.ofNat (value p90)
          p99_ns := UInt64.ofNat (value p99)
          p99_9_ns := UInt64.ofNat (value p99_9)
          max_ns := UInt64.ofNat (value max)
          mad_ns := UInt64.ofNat (value mad) }
  | _ => none

/-- The rows of the text of a table. -/
def read_table (text : List Char) : Option (List FullRow) :=
  Columns.read (fields header) read_row text

/-- Every column of a row is a word. -/
theorem isWord_cells (r : FullRow) : ∀ p ∈ r.cells, IsWord p.2 := by
  simp [FullRow.cells, isWord_decimal, r.iratio.isWord]

/-- The line of a row is read back as the row. -/
theorem read_row_line (r : FullRow) :
    read_row (fields (line r.cells)) = some r := by
  have hfields := fields_line (isWord_cells r) (List.forall_mem_nil _)
  rw [List.append_nil] at hfields
  rw [hfields]
  simp only [FullRow.cells, List.map_cons, List.map_nil, read_row,
    value_decimal, Word.of_text, Option.map_some, UInt32.ofNat_toNat,
    UInt64.ofNat_toNat]

/-- **The table reads back**, whatever the widths of the numbers. -/
theorem full_table_reads_back (rows : List FullRow) :
    read_table (table_text rows) = some rows := by
  refine Columns.read_print (by decide)
    (fun r => ⟨?_, newline_notMem_line (isWord_cells r)⟩) read_row_line rows
  intro hnil
  have hfields := read_row_line r
  rw [hnil] at hfields
  cases hfields

end Osjitter.Jitter
