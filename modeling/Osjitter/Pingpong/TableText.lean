/-
Osjitter.Pingpong.TableText — the text of the table of `pingpong.c`, and the
rows that a reader gets back from it.

The text is the header and a line for each row, in columns of the widths of the
source, as `printf` pads them. A number wider than its column moves the rest of
the line; a reader that splits lines at white space (`Lib.Columns`) gets the
rows back all the same: `table_text_reads_back`.
-/
import Mathlib
import Osjitter.Lib.Columns
import Osjitter.Pingpong.Results

namespace Osjitter.Pingpong

open Columns CString Util

/-! ## §1 Printing

A line has the name of the thread and the columns of its row, each a number in a
width of its own. -/

/-- The header of `pp_results`. -/
def header : List Char :=
  ("Thread  TSC_khz  #delta  min_ns  max_ns  median_ns  p20_ns  p80_ns  p90_ns  p99_ns  " ++
    "p99.9_ns  mad_ns").toList

/-- The conversions of the format, each with its width. -/
def Row.cells (r : Row) : List (Nat × List Char) :=
  [(6, decimal r.thread), (8, decimal r.TSC_khz.toNat), (7, decimal r.delta),
    (7, decimal r.min_ns.toNat), (7, decimal r.max_ns.toNat),
    (10, decimal r.median_ns.toNat), (7, decimal r.p20_ns.toNat),
    (7, decimal r.p80_ns.toNat), (7, decimal r.p90_ns.toNat),
    (7, decimal r.p99_ns.toNat), (9, decimal r.p99_9_ns.toNat),
    (7, decimal r.mad_ns.toNat)]

/-- A line of the table, without its newline. -/
def Row.text (r : Row) : List Char := line r.cells ++ [' ']

/-- What `pp_results` prints for some rows. -/
def table_text (rows : List Row) : List Char :=
  Columns.print header Row.text rows

/-! ## §2 Reading

The reader expects as many fields as a row has, and numbers in all of them. -/

/-- The row of the fields of a line. -/
def read_row : List (List Char) → Option Row
  | [thread, khz, delta, min, max, median, p20, p80, p90, p99, p99_9, mad] =>
    some
      { thread := value thread
        TSC_khz := UInt32.ofNat (value khz)
        delta := value delta
        min_ns := UInt64.ofNat (value min)
        max_ns := UInt64.ofNat (value max)
        median_ns := UInt64.ofNat (value median)
        p20_ns := UInt64.ofNat (value p20)
        p80_ns := UInt64.ofNat (value p80)
        p90_ns := UInt64.ofNat (value p90)
        p99_ns := UInt64.ofNat (value p99)
        p99_9_ns := UInt64.ofNat (value p99_9)
        mad_ns := UInt64.ofNat (value mad) }
  | _ => none

/-- The rows of the text of a table. -/
def read_table (text : List Char) : Option (List Row) :=
  Columns.read (fields header) read_row text

/-- Every column of a row is a word. -/
theorem isWord_cells (r : Row) : ∀ p ∈ r.cells, IsWord p.2 := by
  simp [Row.cells, isWord_decimal]

/-- The line of a row is read back as the row. -/
theorem read_row_text (r : Row) : read_row (fields r.text) = some r := by
  have hspace : ∀ c ∈ [' '], isspace c = true :=
    List.forall_mem_singleton.mpr rfl
  rw [Row.text, fields_line (isWord_cells r) hspace]
  simp only [Row.cells, List.map_cons, List.map_nil, read_row, value_decimal,
    UInt32.ofNat_toNat, UInt64.ofNat_toNat]

/-- **The table reads back**: from its text come the rows, in order and complete,
also where a number is wider than its column. -/
theorem table_text_reads_back (rows : List Row) :
    read_table (table_text rows) = some rows := by
  refine Columns.read_print (by decide)
    (fun r => ⟨by simp [Row.text], ?_⟩) read_row_text rows
  rw [Row.text, List.mem_append, not_or]
  exact ⟨newline_notMem_line (isWord_cells r), by decide⟩

end Osjitter.Pingpong
