/-
Osjitter.Lib.PyText — the operations on `str` and on text files that the
Python scripts use.

  §1 `rindex` and slices, for lists of any type. `exists_last` splits a list at
     the last occurrence of an element, `rindex_append` finds it there and
     `rindex_eq_none` says when it raises; `slice` counts from the front, as
     its bounds are not negative here, and `split_head` is `split(c)[0]`.
  §2 Reading a text file line by line: `universal_newlines` makes one newline
     of the three kinds, `keepends` cuts behind each, and `lines` is what an
     iteration over the file gives.

An exception is `none`. Negative indices, steps of a slice, and encodings are
left out.
-/
import Mathlib

namespace PyText

/-! ## §1 Searching and slicing

Indices count from zero and a slice that leaves the text is cut off, as it is in
Python. A search that fails raises an exception there, which is no result here.
-/

section search

variable {α : Type*}

/-- `s[i:-k]`, for `0 ≤ i` and `0 < k`. -/
def slice (s : List α) (i k : ℕ) : List α := (s.take (s.length - k)).drop i

/-- What stands between a position and a suffix of length `k`. -/
theorem slice_append {c : α} (as bs es : List α) :
    slice (as ++ c :: (bs ++ es)) (as.length + 1) es.length = bs := by
  have hsplit : as ++ c :: (bs ++ es) = (as ++ [c] ++ bs) ++ es := by simp
  have hlen : (as ++ [c] ++ bs ++ es).length - es.length =
      (as ++ [c] ++ bs).length := by
    rw [List.length_append]
    exact Nat.add_sub_cancel _ _
  rw [slice, hsplit, hlen, List.take_left]
  exact List.drop_left' (by simp)

/-- A list with `c` in it, split at the last occurrence. -/
theorem exists_last {c : α} {xs : List α} (h : c ∈ xs) :
    ∃ as bs, xs = as ++ c :: bs ∧ c ∉ bs := by
  obtain ⟨as, bs, hxs, has⟩ :=
    List.eq_append_cons_of_mem (List.mem_reverse.mpr h)
  refine ⟨bs.reverse, as.reverse, ?_, by simpa using has⟩
  rw [← List.reverse_reverse xs, hxs]
  simp

variable [DecidableEq α]

/-- `s.rindex(sub)`, none for the `ValueError`. -/
def rindex (sub : List α) : List α → Option ℕ
  | [] => if sub = [] then some 0 else none
  | x :: xs =>
      match rindex sub xs with
      | some i => some (i + 1)
      | none => if sub <+: x :: xs then some 0 else none

/-- `s.split(sep, 1)[0]`, for a `sep` of one character. -/
def split_head (sep : α) (s : List α) : List α := s.takeWhile (· ≠ sep)

/-- A character that does not occur is not found from the end. -/
theorem rindex_eq_none {c : α} {xs : List α} (h : c ∉ xs) :
    rindex [c] xs = none := by
  induction xs with
  | nil => rfl
  | cons x xs ih =>
    obtain ⟨hx, hxs⟩ := List.ne_and_not_mem_of_not_mem_cons h
    have hhead : ¬ [c] <+: x :: xs := by simp [hx]
    rw [rindex, ih hxs]
    simp only [hhead, if_false]

/-- The search stops at the last occurrence. -/
theorem rindex_append {c : α} {bs : List α} (h : c ∉ bs) (as : List α) :
    rindex [c] (as ++ c :: bs) = some as.length := by
  induction as with
  | nil =>
    rw [List.nil_append, rindex, rindex_eq_none h]
    simp
  | cons a as ih =>
    rw [List.cons_append, rindex, ih]
    rfl

end search

/-! ## §2 Lines

A file that is opened as text has its line ends translated before it is cut into
lines, and every line keeps its end. -/

/-- Newlines as a file opened in text mode is read. -/
def universal_newlines : List Char → List Char
  | [] => []
  | '\r' :: '\n' :: s => '\n' :: universal_newlines s
  | '\r' :: s => '\n' :: universal_newlines s
  | c :: s => c :: universal_newlines s

/-- The lines of a text, each with its newline. -/
def keepends : List Char → List (List Char)
  | [] => []
  | c :: s =>
      if c = '\n' then ['\n'] :: keepends s
      else
        match keepends s with
        | [] => [[c]]
        | l :: ls => (c :: l) :: ls

/-- `for line in f` -/
def lines (text : List Char) : List (List Char) :=
  keepends (universal_newlines text)

end PyText
