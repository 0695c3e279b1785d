/-
Osjitter.Lib.Columns — text in columns.

A cell is a word with spaces in front up to its width (`%7u`), a line is cells
with a space between them. A cell that is wider than its column shifts the rest
of the line, so nothing can be read off by position. A reader that splits lines
into fields at white space gets the words back, whatever the widths.

  §1 The fields of a line. `Word` carries the proof that it is not empty and
     has no white space, so a cell cannot be built of anything else;
     `isWord_decimal` makes a number one. `fields_line` reads a line back, from
     the rules `fields_spaces` for the padding and `fields_word` for a word
     with a space behind it.
  §2 The lines of a text, and rows that are read back from a table under a
     header. `table_lines` cuts a table at its newlines, of which a line has
     none (`newline_notMem_line`), and `read_print` is the round trip for rows
     that can be decoded from the fields of their line.

A table is thus unambiguous for any widths: two tables with the same text have
the same rows. What the numbers of a row mean is left to the caller, and so are
columns that are justified to the left, which none of the programs has.
-/
import Mathlib
import Osjitter.Lib.CString

namespace Columns

open CString

/-! ## §1 Lines

Two directions meet here: a line is written cell by cell, with widths, and read
by splitting it at white space, which knows of no width. The rules about
`fields` follow what it meets from the left. -/

/-- What a reader of fields takes for one. -/
def IsWord (s : List Char) : Prop := s ≠ [] ∧ ∀ c ∈ s, isspace c = false

instance decidableIsWord (s : List Char) : Decidable (IsWord s) :=
  inferInstanceAs (Decidable (_ ∧ _))

/-- A field that is kept as it is written. -/
structure Word where
  text : List Char
  isWord : IsWord text
  deriving DecidableEq

/-- A field as a word. -/
def Word.of (s : List Char) : Option Word :=
  if h : IsWord s then some ⟨s, h⟩ else none

theorem Word.of_text (w : Word) : Word.of w.text = some w := dif_pos w.isWord

/-- A number is a word. -/
theorem isWord_decimal (n : ℕ) : IsWord (decimal n) := by
  obtain ⟨hne, hdigit⟩ := isNumeral_decimal n
  refine ⟨hne, fun c hc => ?_⟩
  exact (not_isspace_of_isDigit (hdigit c hc)).1

/-- A word, right-aligned. -/
def cell (width : ℕ) (s : List Char) : List Char :=
  List.replicate (width - s.length) ' ' ++ s

/-- Cells, each with its width, and spaces between them. -/
def line : List (ℕ × List Char) → List Char
  | [] => []
  | [(width, s)] => cell width s
  | (width, s) :: cells => cell width s ++ ' ' :: line cells

/-- The fields of a line. -/
def fields (s : List Char) : List (List Char) :=
  (s.splitOnP isspace).filter (· ≠ [])

/-- White space in front is not part of a field. -/
theorem fields_space {c : Char} (hc : isspace c = true) (s : List Char) :
    fields (c :: s) = fields s := by
  have hsplit : (c :: s).splitOnP isspace = [] :: s.splitOnP isspace :=
    List.splitOnP_append_cons_of_forall_mem (List.forall_mem_nil _) c hc s
  simp [fields, hsplit]

/-- Nor is any amount of it, as the padding of a cell is. -/
theorem fields_spaces {cs : List Char} (hcs : ∀ c ∈ cs, isspace c = true)
    (s : List Char) : fields (cs ++ s) = fields s := by
  induction cs with
  | nil => rfl
  | cons c cs ih =>
    obtain ⟨hc, hcs⟩ := List.forall_mem_cons.mp hcs
    rw [List.cons_append, fields_space hc, ih hcs]

/-- A word and white space behind it make one field. -/
theorem fields_word {s : List Char} (hs : IsWord s) {c : Char}
    (hc : isspace c = true) (rest : List Char) :
    fields (s ++ c :: rest) = s :: fields rest := by
  rw [fields, List.splitOnP_append_cons_of_forall_mem hs.2 c hc, List.filter_cons]
  simp [fields, hs.1]

/-- A word at the end makes the last one. -/
theorem fields_last {s : List Char} (hs : IsWord s) : fields s = [s] := by
  rw [fields, List.splitOnP_eq_singleton hs.2]
  simp [hs.1]

/-- The padding is white space. -/
theorem isspace_replicate (n : ℕ) :
    ∀ c ∈ List.replicate n ' ', isspace c = true := by
  intro c hc
  rw [List.eq_of_mem_replicate hc]
  rfl

/-- **The words of a line**, whatever the widths. -/
theorem fields_line {cells : List (ℕ × List Char)}
    (hcells : ∀ p ∈ cells, IsWord p.2) {cs : List Char}
    (hcs : ∀ c ∈ cs, isspace c = true) :
    fields (line cells ++ cs) = cells.map Prod.snd := by
  induction cells with
  | nil =>
    have hnil := fields_spaces hcs []
    rw [List.append_nil] at hnil
    rw [line, List.nil_append, hnil]
    rfl
  | cons p cells ih =>
    obtain ⟨width, s⟩ := p
    obtain ⟨hs, hcells⟩ := List.forall_mem_cons.mp hcells
    have hpad := isspace_replicate (width - s.length)
    cases cells with
    | nil =>
      rw [line, cell, List.append_assoc, fields_spaces hpad]
      cases cs with
      | nil => rw [List.append_nil, fields_last hs]; rfl
      | cons c cs =>
        obtain ⟨hc, hcs⟩ := List.forall_mem_cons.mp hcs
        have hnil := fields_spaces hcs []
        rw [List.append_nil] at hnil
        rw [fields_word hs hc, hnil]
        rfl
    | cons q cells =>
      have hline : line ((width, s) :: q :: cells) =
          cell width s ++ ' ' :: line (q :: cells) := rfl
      rw [hline, cell, List.append_assoc, List.append_assoc, fields_spaces hpad,
        List.cons_append, fields_word hs rfl, ih hcells]
      rfl

/-! ## §2 Tables

A table is a header and a line for each row, each with a newline. Reading it
drops the header and gives every other line to a reader of rows, which may
refuse it. -/

/-- A text as lines of fields. -/
def table (text : List Char) : List (List (List Char)) :=
  ((text.splitOn '\n').filter (· ≠ [])).map fields

/-- **The lines of a text.** -/
theorem table_lines {ls : List (List Char)}
    (hls : ∀ l ∈ ls, l ≠ [] ∧ '\n' ∉ l) :
    table (ls.flatMap (· ++ ['\n'])) = ls.map fields := by
  induction ls with
  | nil => rfl
  | cons l ls ih =>
    obtain ⟨⟨hne, hnl⟩, hls⟩ := List.forall_mem_cons.mp hls
    have hrest := ih hls
    rw [table] at hrest ⊢
    rw [List.flatMap_cons, List.append_assoc, List.singleton_append,
      List.splitOn_append_cons_self_of_not_mem hnl,
      List.filter_cons_of_pos (by simpa using hne), List.map_cons, hrest,
      List.map_cons]

/-- A line has no newline inside, so a table is cut where it was put together.
-/
theorem newline_notMem_line {cells : List (ℕ × List Char)}
    (hcells : ∀ p ∈ cells, IsWord p.2) : '\n' ∉ line cells := by
  have hcell : ∀ {width s}, IsWord s → '\n' ∉ cell width s := by
    intro width s hs hmem
    rcases List.mem_append.mp hmem with hmem | hmem
    · exact absurd (List.eq_of_mem_replicate hmem) (by decide)
    · exact absurd (hs.2 _ hmem) (by decide)
  induction cells with
  | nil => exact List.not_mem_nil
  | cons p cells ih =>
    obtain ⟨hp, hcells⟩ := List.forall_mem_cons.mp hcells
    cases cells with
    | nil => exact hcell hp
    | cons q cells =>
      have hline : line (p :: q :: cells) =
          cell p.1 p.2 ++ ' ' :: line (q :: cells) := rfl
      rw [hline]
      simp only [List.mem_append, List.mem_cons, not_or]
      exact ⟨hcell hp, by decide, ih hcells⟩

/-- Rows under a header, each on a line. -/
def print {ρ : Type} (header : List Char) (text : ρ → List Char)
    (rows : List ρ) : List Char :=
  (header :: rows.map text).flatMap (· ++ ['\n'])

/-- The rows under a header with the given names. -/
def read {ρ : Type} (names : List (List Char))
    (decode : List (List Char) → Option ρ) (text : List Char) :
    Option (List ρ) :=
  match table text with
  | [] => none
  | l :: ls => if l = names then ls.mapM decode else none

/-- **A table reads back** if each of its lines does. -/
theorem read_print {ρ : Type} {header : List Char} {text : ρ → List Char}
    {decode : List (List Char) → Option ρ}
    (hheader : header ≠ [] ∧ '\n' ∉ header)
    (htext : ∀ r, text r ≠ [] ∧ '\n' ∉ text r)
    (hdecode : ∀ r, decode (fields (text r)) = some r) (rows : List ρ) :
    read (fields header) decode (print header text rows) = some rows := by
  have hlines : ∀ l ∈ header :: rows.map text, l ≠ [] ∧ '\n' ∉ l := by
    intro l hl
    rcases List.mem_cons.mp hl with rfl | hl
    · exact hheader
    · obtain ⟨r, -, rfl⟩ := List.mem_map.mp hl
      exact htext r
  have hrows : ((rows.map text).map fields).mapM decode = some rows := by
    induction rows with
    | nil => rfl
    | cons r rows ih =>
      have hrest := ih fun l hl => hlines l (by simp at hl ⊢; tauto)
      rw [List.map_cons, List.map_cons, List.mapM_cons, hdecode, hrest]
      rfl
  rw [read, print, table_lines hlines]
  simp only [List.map_cons, if_true, hrows]

end Columns
