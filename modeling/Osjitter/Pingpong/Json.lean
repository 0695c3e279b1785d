/-
Osjitter.Pingpong.Json — what a JSON reader makes of the text of `print_json`.

The elements between the brackets are followed by induction on the list: the
first stands behind a space, each later one behind a comma and a space, and the
reader skips the space in front of either. So the invariant speaks of the text
behind the white space (`readElements_rest`).

`read_array_line` reads the line of one thread, `print_json_eq_document` writes
the whole text as two such lines in brackets, and `parse_document` reads it.
The reader of `Lib.Json` has fuel, so the lengths of the texts come in
(`length_le_items`).

`print_json_reads_back`: the document is the array of the two lists of converted
deltas, for lists of any length; two texts are the same exactly if the lists
are. Whether the write to `stdout` succeeds is left out.
-/
import Mathlib
import Osjitter.Lib.Json
import Osjitter.Pingpong.ResultsTheorems

namespace Osjitter.Pingpong

open Util CString

/-! ## The elements

What stands between the brackets, from its first character that is not white
space. -/

/-- The JSON value of a list of numbers. -/
def numbers (vs : List UInt64) : Json := .arr (vs.map fun v => .int v.toNat)

/-- The elements behind the first, each behind a comma. -/
def rest_text (vs : List UInt64) : List Char :=
  vs.flatMap fun v => ", ".toList ++ decimal v.toNat

/-- The text of the elements, by its first one. -/
theorem items_text_cons (v : UInt64) (vs : List UInt64) :
    items_text (v :: vs) = ' ' :: (decimal v.toNat ++ rest_text vs) := by
  simp [items_text, rest_text]

/-- The text behind an element, by the next one. -/
theorem rest_text_cons (v : UInt64) (vs : List UInt64) :
    rest_text (v :: vs) = ',' :: ' ' :: (decimal v.toNat ++ rest_text vs) := by
  simp [rest_text]

/-- A comma or a bracket ends a number. -/
theorem endsInt_rest (vs : List UInt64) (r : List Char) :
    Json.EndsInt (rest_text vs ++ ']' :: r) := by
  intro c hc
  cases vs with
  | nil =>
    obtain rfl : ']' = c := by simpa [rest_text] using hc
    decide
  | cons v vs =>
    obtain rfl : ',' = c := by simpa [rest_text] using hc
    decide

/-- **The elements of a list**, by induction on those behind the first. -/
theorem readElements_rest (vs : List UInt64) (r : List Char) :
    ∀ (v : UInt64) (s : List Char) (fuel : ℕ),
      Json.skipWs s = decimal v.toNat ++ (rest_text vs ++ ']' :: r) →
        vs.length + 2 ≤ fuel →
      Json.readElements fuel s = some ((v :: vs).map fun v => .int v.toNat, r) := by
  induction vs with
  | nil =>
    intro v s fuel hs hfuel
    obtain ⟨fuel, rfl⟩ : ∃ k, fuel = k + 2 := ⟨fuel - 2, by omega⟩
    have hv : Json.read (fuel + 1) s = some (.int v.toNat, _) :=
      Json.read_int hs (endsInt_rest [] r)
    exact Json.readElements_last hv (Json.skipWs_cons rfl r)
  | cons w vs ih =>
    intro v s fuel hs hfuel
    obtain ⟨fuel, rfl⟩ : ∃ k, fuel = k + 2 := ⟨fuel - 2, by omega⟩
    have hv : Json.read (fuel + 1) s = some (.int v.toNat, _) :=
      Json.read_int hs (endsInt_rest (w :: vs) r)
    rw [rest_text_cons, List.cons_append, List.cons_append, List.append_assoc]
      at hv
    have hw : Json.skipWs (' ' :: (decimal w.toNat ++ (rest_text vs ++ ']' :: r))) =
        decimal w.toNat ++ (rest_text vs ++ ']' :: r) := by
      rw [Json.skipWs_cons_of_isWs rfl, Json.skipWs_decimal]
    have hrest := ih w _ (fuel + 1) hw (by simpa using hfuel)
    exact Json.readElements_cons hv (Json.skipWs_cons rfl _) hrest

/-- **The list of one thread**, with what stands behind it. -/
theorem read_array_line {s r : List Char} {vs : List UInt64} {fuel : ℕ}
    (hs : Json.skipWs s = '[' :: (items_text vs ++ ']' :: r))
    (hfuel : vs.length + 2 ≤ fuel) :
    Json.read fuel s = some (numbers vs, r) := by
  obtain ⟨fuel, rfl⟩ : ∃ k, fuel = k + 1 := ⟨fuel - 1, by omega⟩
  cases vs with
  | nil => exact Json.read_empty hs (Json.skipWs_cons rfl r)
  | cons v vs =>
    rw [items_text_cons, List.cons_append, List.append_assoc] at hs
    have hskip : Json.skipWs (' ' :: (decimal v.toNat ++ (rest_text vs ++ ']' :: r))) =
        decimal v.toNat ++ (rest_text vs ++ ']' :: r) := by
      rw [Json.skipWs_cons_of_isWs rfl, Json.skipWs_decimal]
    have hhead :
        (Json.skipWs (' ' :: (decimal v.toNat ++ (rest_text vs ++ ']' :: r)))).head? ≠
        some ']' := by
      obtain ⟨d, ds, hd, hdigit⟩ := Json.decimal_eq_cons v.toNat
      rw [hskip, hd]
      intro heq
      obtain rfl : d = ']' := Option.some.inj heq
      cases hdigit
    have hvs :=
      readElements_rest vs r v _ fuel ((Json.skipWs_skipWs _).trans hskip)
      (by simpa using hfuel)
    exact Json.read_array hs hhead hvs

/-- Each number takes a character at least. -/
theorem length_le_rest (vs : List UInt64) :
    vs.length ≤ (rest_text vs).length := by
  induction vs with
  | nil => exact Nat.zero_le _
  | cons v vs ih =>
    rw [rest_text_cons]
    simp only [List.length_cons, List.length_append]
    omega

/-- Each element has a character at least. -/
theorem length_le_items (vs : List UInt64) :
    vs.length ≤ (items_text vs).length := by
  cases vs with
  | nil => exact Nat.zero_le _
  | cons v vs =>
    have hrest := length_le_rest vs
    rw [items_text_cons]
    simp only [List.length_cons, List.length_append]
    omega

/-- So has the line, with the brackets. -/
theorem length_array_line (vs : List UInt64) :
    vs.length + 6 ≤ (array_line vs).length := by
  have hitems := length_le_items vs
  show vs.length + 6 ≤ ("    [".toList ++ items_text vs ++ "]".toList).length
  simp only [List.length_append, String.length_toList]
  have hopen : "    [".length = 5 := rfl
  have hclose : "]".length = 1 := rfl
  omega

/-! ## The document

The text is an array of two arrays, each on a line. -/

/-- The text of a line, its white space apart. -/
theorem skipWs_line (vs : List UInt64) (r : List Char) :
    Json.skipWs ('\n' :: (array_line vs ++ r)) =
      '[' :: (items_text vs ++ ']' :: r) := by
  have htext : array_line vs ++ r =
      ' ' :: ' ' :: ' ' :: ' ' :: '[' :: (items_text vs ++ ']' :: r) := by
    show "    [".toList ++ items_text vs ++ "]".toList ++ r = _
    simp
  rw [htext]
  rfl

/-- The document, as the reader meets it. -/
def document (us vs : List UInt64) : List Char :=
  '[' :: '\n' :: (array_line us ++ ',' :: '\n' :: (array_line vs ++ ['\n', ']', '\n']))

/-- The text is that of the two lists. -/
theorem print_json_eq_document (args : Args) (ws : Nat → Result) :
    print_json args ws = document (json args (ws 0)) (json args (ws 1)) := by
  rw [print_json_eq]
  simp [document]

/-- The two lists are read back. -/
theorem read_document (us vs : List UInt64) {fuel : ℕ}
    (hfuel : us.length + vs.length + 5 ≤ fuel) :
    Json.read fuel (document us vs) =
      some (.arr [numbers us, numbers vs], ['\n']) := by
  obtain ⟨fuel, rfl⟩ : ∃ k, fuel = k + 3 := ⟨fuel - 3, by omega⟩
  have hfirst :=
    skipWs_line us (',' :: '\n' :: (array_line vs ++ ['\n', ']', '\n']))
  have hsecond := skipWs_line vs ['\n', ']', '\n']
  have hline : Json.read (fuel + 1) ('[' :: (items_text us ++ ']' ::
      ',' :: '\n' :: (array_line vs ++ ['\n', ']', '\n']))) = some (numbers us,
          _) :=
    read_array_line (Json.skipWs_cons rfl _) (by omega)
  have hlast : Json.readElements (fuel + 1)
      ('\n' :: (array_line vs ++ ['\n', ']', '\n'])) =
      some ([numbers vs], ['\n']) :=
    Json.readElements_last (read_array_line hsecond (by omega)) rfl
  refine Json.read_array (Json.skipWs_cons rfl _) ?_ ?_
  · simp [hfirst]
  · rw [hfirst]
    exact Json.readElements_cons hline (Json.skipWs_cons rfl _) hlast

/-- The document denotes the two lists. -/
theorem parse_document (us vs : List UInt64) :
    Json.parse (document us vs) = some (.arr [numbers us, numbers vs]) := by
  have hus := length_array_line us
  have hvs := length_array_line vs
  have hlen : us.length + vs.length + 5 ≤ 2 * (document us vs).length + 2 := by
    simp only [document, List.length_cons, List.length_append]
    omega
  exact Json.parse_eq_some (read_document us vs hlen) rfl

/-- Different lists are different values. -/
theorem numbers_injective : Function.Injective numbers := by
  intro us vs h
  have hint : Function.Injective fun v : UInt64 => Json.int v.toNat := by
    intro u v huv
    exact UInt64.toNat.inj (Nat.cast_injective (Json.num.inj huv))
  exact hint.list_map (Json.arr.inj h)

/-- **`print_json` writes the measurement down**: its text is a JSON document
of the two lists of converted deltas, in order, and two runs write one text iff
these lists are the same. -/
theorem print_json_reads_back (args args' : Args) (ws ws' : Nat → Result) :
    Json.parse (print_json args ws) = some (.arr ([0, 1].map fun i =>
      .arr ((ws i).raw_ds.map fun d => .int (to_ns args.mult args.shift d).toNat))) ∧
    (print_json args ws = print_json args' ws' ↔ ∀ i < 2,
      (ws i).raw_ds.map (to_ns args.mult args.shift) =
        (ws' i).raw_ds.map (to_ns args'.mult args'.shift)) := by
  constructor
  · rw [print_json_eq_document, parse_document]
    simp [numbers, json]
  constructor
  · intro heq i hi
    have hparse := congrArg Json.parse heq
    rw [print_json_eq_document, print_json_eq_document, parse_document,
      parse_document] at hparse
    have hlists := Json.arr.inj (Option.some.inj hparse)
    interval_cases i
    · exact numbers_injective (List.cons.inj hlists).1
    · exact numbers_injective (List.cons.inj (List.cons.inj hlists).2).1
  · intro heq
    rw [print_json_eq_document, print_json_eq_document]
    unfold json
    rw [heq 0 (by decide), heq 1 (by decide)]

end Osjitter.Pingpong
