/-
Osjitter.Jitter.ProcSched — the counter of involuntary context switches:
`read_proc_sched` of `osjitter.c`.

  §1 The function on its array, with every search and store checked against
     the bounds. What `open`, `read` and `close` yield is given: the bytes that
     are read stand at the front of an array of zeros.
  §2 `counter`: what it extracts, as a function of the bytes read alone. The
     search for the key finds it only where all of it has been read, as the key
     has no beginning that is one of its ends (`q_borderFree`); the line that it
     begins is then cut at its newline and its last space. `find_switches_eq`
     says that the function is that, and `read_proc_sched_contents` what comes
     of it for any contents.
  §3 The kernel's line, padded to its columns (`sched_line`), wherever it stands
     in the file, and the contents without one: no key, no newline behind it,
     no space before the number. `read_proc_sched_correct` has all cases.

A number is read as `atol` does; a counter above 2^63 would saturate. The path
of the file, made of the process and thread ids, is left out.
-/
import Mathlib
import Osjitter.Lib.CString
import Osjitter.Jitter.WorkerMain

namespace Osjitter.Jitter

open CString

/-! ## §1 The function

The file is read into an array of 4096 characters that is cleared before. All
searches are bounded by the number of characters read; an access outside the
array would be no result. -/

/-- A `Worker` with the field that `read_proc_sched` fills. -/
structure SchedWorker extends Worker where
  invol_switch : UInt64
  deriving DecidableEq, Repr

/-- An entry of the array that `calloc` returns. -/
def SchedWorker.zero : SchedWorker where
  deltas := []
  samples := 0
  thresh_cnt := 0
  tsc_start := 0
  tsc_overflow := 0
  tsc_total_int := 0
  tsc_delta_min := 0
  invol_switch := 0

/-- What `open`, `read` and `close` make of `/proc/…/sched`. `s` is what `read`
returns. -/
inductive SchedFile where
  | open_fails
  | read_fails
  | contents (s : List Char) (close_fails : Bool)
  deriving DecidableEq, Repr

/-- `static const char q[]`, the key of the line. -/
def q : List Char := "nr_involuntary_switches".toList

/-- The searches in `buf`, of which `n` characters were read. The outer none
is an access outside the array, the inner one a search without success. -/
def find_switches (buf : List Char) (n : Nat) : Option (Option Int) := do
  match memmem q (← slice buf 0 n) with
  | none => some none
  | some p =>
      let p := p + q.length
      match memchr '\n' (← slice buf p (n - p)) with
      | none => some none
      | some e =>
          let e := p + e
          let buf ← store buf e NUL
          match memrchr ' ' (← slice buf p (e - p)) with
          | none => some none
          | some m =>
              let number ← cstring buf (p + m + 1)
              some (some (atol number))

/-- `char buf[4*1024] = {0};` with the bytes read into it. -/
def sched_buf (s : List Char) : List Char :=
  s ++ List.replicate (4 * 1024 - s.length) NUL

/-- The return value, and `*w`. -/
def read_proc_sched (file : SchedFile) (w : SchedWorker) :
    Option (Int × SchedWorker) :=
  match file with
  | .open_fails => some (-1, w)
  | .read_fails => some (-1, w)
  | .contents s close_fails =>
      match find_switches (sched_buf s) s.length with
      | none => none
      | some none => some (-1, w)
      | some (some x) =>
          some (if close_fails then -1 else 0,
            { w with invol_switch := UInt64.ofInt x })

/-! ## §2 The bytes read

Of the characters read only those behind the first key matter, up to the next
newline. `counter` says so without an array, and `find_switches_eq` that the
searches compute it. -/

/-- The number behind the last space of the line of the key. -/
def counter (s : List Char) : Option Int := do
  let tail ← after q s
  let line ← upto '\n' tail
  let number ← behind ' ' line
  some (atol (number.takeWhile (· ≠ NUL)))

/-- The key has characters. -/
theorem q_ne_nil : q ≠ [] := by decide

/-- No end of the key is its beginning, so it cannot begin inside another one.
-/
theorem q_borderFree : BorderFree q := by
  unfold BorderFree
  decide

/-- The number is behind the last space of the line. -/
theorem counter_of_key {as tail : List Char}
    (h : memmem q (as ++ (q ++ tail)) = some as.length) :
    counter (as ++ (q ++ tail)) =
      (upto '\n' tail).bind fun line =>
        (behind ' ' line).map fun number => atol (number.takeWhile (· ≠ NUL)) := by
  have hafter : after q (as ++ (q ++ tail)) = some tail := by
    rw [after, h, Option.map_some, ← List.append_assoc, ← List.length_append,
      List.drop_left]
  simp only [counter, hafter, Option.bind_eq_bind, Option.bind_some, Option.map_eq_bind]
  rfl

/-- **Every access is inside the bytes read.** Whatever follows them in the
array, none of it is needed: not even its existence, at `rest = []`. -/
theorem find_switches_eq (s rest : List Char) :
    find_switches (s ++ rest) s.length = some (counter s) := by
  have hread : slice (s ++ rest) 0 s.length = some s := slice_append [] s rest
  simp only [find_switches, hread, Option.bind_eq_bind, Option.bind_some]
  cases hp : memmem q s with
  | none => simp [counter, after, hp]
  | some p =>
    obtain ⟨as, tail, rfl, rfl⟩ := eq_append_of_memmem hp q_ne_nil
    have hbehind : slice (as ++ (q ++ tail) ++ rest) (as.length + q.length)
        ((as ++ (q ++ tail)).length - (as.length + q.length)) = some tail := by
      have hslice := slice_append (as ++ q) tail rest
      have hlen : (as ++ (q ++ tail)).length - (as.length + q.length) =
          tail.length := by
        simp only [List.length_append]
        omega
      rw [hlen]
      simpa using hslice
    simp only [hbehind, Option.bind_some]
    rw [counter_of_key hp]
    cases he : memchr '\n' tail with
    | none => simp [upto, he]
    | some e =>
      obtain ⟨line, suffix, rfl, rfl, hline⟩ := eq_append_of_memchr he
      -- the line is cut off in the buffer, which `atol` reads to the NUL
      have hstore : store (as ++ (q ++ (line ++ '\n' :: suffix)) ++ rest)
          (as.length + q.length + line.length) NUL =
          some ((as ++ q) ++ (line ++ NUL :: (suffix ++ rest))) := by
        have hfill : store (((as ++ q) ++ line) ++ '\n' :: (suffix ++ rest))
            ((as ++ q) ++ line).length NUL =
            some (((as ++ q) ++ line) ++ NUL :: (suffix ++ rest)) :=
          store_append NUL (by simp)
        simpa [Nat.add_assoc] using hfill
      have hline' : slice ((as ++ q) ++ (line ++ NUL :: (suffix ++ rest)))
          (as.length + q.length)
            (as.length + q.length + line.length - (as.length + q.length)) =
          some line := by
        rw [Nat.add_sub_cancel_left, ← List.length_append, slice_append]
      simp only [hstore, hline', Option.bind_some, upto_append hline]
      cases hm : memrchr ' ' line with
      | none => simp [behind, hm]
      | some m =>
        obtain ⟨bs, number, rfl, rfl, hspace⟩ := eq_append_of_memrchr hm
        have hnumber : cstring
            ((as ++ q) ++ ((bs ++ ' ' :: number) ++ NUL :: (suffix ++ rest)))
            (as.length + q.length + bs.length + 1) =
                some (number.takeWhile (· ≠ NUL)) := by
          have hread :=
            cstring_append_takeWhile ((as ++ q) ++ (bs ++ [' '])) number
            (suffix ++ rest)
          simpa [Nat.add_assoc] using hread
        simp only [hnumber, behind_append hspace, Option.bind_some, Option.map_some]

/-- What `read_proc_sched` makes of the bytes read. -/
theorem read_proc_sched_contents (s : List Char) (close_fails : Bool)
    (w : SchedWorker) :
    read_proc_sched (.contents s close_fails) w =
      some (match counter s with
        | none => (-1, w)
        | some x =>
          (if close_fails then -1 else 0,
            { w with invol_switch := UInt64.ofInt x })) := by
  rw [read_proc_sched, sched_buf, find_switches_eq]
  cases counter s with
  | none => rfl
  | some x => rfl

/-- `read_proc_sched` fills its own field alone. -/
theorem toWorker_read_proc_sched {file : SchedFile}
    {w w' : SchedWorker} {r : Int} (h : read_proc_sched file w = some (r, w')) :
    w'.toWorker = w.toWorker := by
  cases file with
  | open_fails =>
    cases h
    rfl
  | read_fails =>
    cases h
    rfl
  | contents s close_fails =>
    rw [read_proc_sched_contents] at h
    cases hc : counter s with
    | none =>
      rw [hc] at h
      cases h
      rfl
    | some x =>
      rw [hc] at h
      cases h
      rfl

/-! ## §3 The kernel's line

The kernel writes a line with the key, spaces, a colon, spaces and the number.
Around it there may be any other lines, as long as none in front has the key. -/

/-- The kernel's line `%-45s:%21Ld`, with its key padded by `a` spaces and its
number by one more than `b`. -/
def sched_line (a b N : Nat) : List Char :=
  q ++ (List.replicate a ' ' ++ ':' ::
    (List.replicate (b + 1) ' ' ++ (decimal N ++ ['\n'])))

/-- A printed number has digits only. -/
theorem notMem_decimal {c : Char} (hc : c.isDigit = false) (N : Nat) :
    c ∉ decimal N := by
  intro hmem
  rw [(isNumeral_decimal N).2 c hmem] at hc
  cases hc

/-- **The line is isolated** from whatever precedes and follows it. -/
theorem counter_sched_line {pre : List Char} (hpre : ¬ q <:+: pre) (a b N : Nat)
    (suffix : List Char) :
    counter (pre ++ (sched_line a b N ++ suffix)) =
      some (atol (decimal N)) := by
  -- the line up to its last space, and the number
  let fore := List.replicate a ' ' ++ ':' :: List.replicate b ' '
  have hline : pre ++ (sched_line a b N ++ suffix) =
      pre ++ (q ++ ((fore ++ ' ' :: decimal N) ++ '\n' :: suffix)) := by
    simp [sched_line, fore, List.replicate_succ']
  have hnewline : '\n' ∉ fore ++ ' ' :: decimal N := by
    simp [fore, notMem_decimal]
  have hspace : ' ' ∉ decimal N := notMem_decimal (by decide) N
  have hNUL : NUL ∉ decimal N := (isNumeral_decimal N).NUL_notMem
  rw [hline, counter, after_append q_borderFree hpre]
  simp only [Option.bind_eq_bind, Option.bind_some, upto_append hnewline,
    behind_append hspace, takeWhile_ne_NUL hNUL]

/-- Without the key, without a newline behind it, or without a space between
the two nothing is extracted. -/
theorem counter_of_no_key {s : List Char} (h : ¬ q <:+: s) :
    counter s = none := by
  simp [counter, after_eq_none_iff.mpr h]

/-- A line that is cut off yields nothing. -/
theorem counter_of_no_newline {pre tail : List Char} (hpre : ¬ q <:+: pre)
    (h : '\n' ∉ tail) : counter (pre ++ (q ++ tail)) = none := by
  simp [counter, after_append q_borderFree hpre, upto_eq_none_iff.mpr h]

/-- Nor does a line without a space. -/
theorem counter_of_no_space {pre line : List Char} (hpre : ¬ q <:+: pre)
    (hline : '\n' ∉ line) (h : ' ' ∉ line) (suffix : List Char) :
    counter (pre ++ (q ++ (line ++ '\n' :: suffix))) = none := by
  simp [counter, after_append q_borderFree hpre, upto_append hline,
    behind_eq_none_iff.mpr h]

/-- **The counter of a file.** Every access is inside the bytes read; the
kernel's number is stored from any contents around its line; and contents
without such a line leave the `Worker` as it is. -/
theorem read_proc_sched_correct (close_fails : Bool) (w : SchedWorker) :
    (∀ s, (read_proc_sched (.contents s close_fails) w).isSome ∧
      (find_switches s s.length).isSome ∧
      ∀ rest, find_switches (s ++ rest) s.length = find_switches s s.length) ∧
    (∀ pre a b N suffix, ¬ q <:+: pre → N < 2 ^ 63 →
      read_proc_sched (.contents (pre ++ (sched_line a b N ++ suffix)) close_fails) w =
        some (if close_fails then -1 else 0,
          { w with invol_switch := UInt64.ofNat N })) ∧
    (∀ s, ¬ q <:+: s → read_proc_sched (.contents s close_fails) w = some (-1, w)) ∧
    (∀ pre tail, ¬ q <:+: pre → '\n' ∉ tail →
      read_proc_sched (.contents (pre ++ (q ++ tail)) close_fails) w =
          some (-1, w)) ∧
    ∀ pre line suffix, ¬ q <:+: pre → '\n' ∉ line → ' ' ∉ line →
      read_proc_sched (.contents
        (pre ++ (q ++ (line ++ '\n' :: suffix))) close_fails) w =
        some (-1, w) := by
  refine ⟨?_, ?_, ?_, ?_, ?_⟩
  · intro s
    have hexact : find_switches s s.length = some (counter s) := by
      simpa using find_switches_eq s []
    refine ⟨?_, ?_, ?_⟩
    · rw [read_proc_sched_contents]
      rfl
    · rw [hexact]
      rfl
    · intro rest
      rw [find_switches_eq, hexact]
  · intro pre a b N suffix hpre hN
    have hvalue : UInt64.ofInt (atol (decimal N)) =
        UInt64.ofNat (value (decimal N)) :=
      ofInt_atol (isNumeral_decimal N) (by rwa [value_decimal])
    rw [read_proc_sched_contents, counter_sched_line hpre]
    simp only [hvalue, value_decimal]
  · intro s h
    rw [read_proc_sched_contents, counter_of_no_key h]
  · intro pre tail hpre h
    rw [read_proc_sched_contents, counter_of_no_newline hpre h]
  · intro pre line suffix hpre hline h
    rw [read_proc_sched_contents, counter_of_no_space hpre hline h]

/-- A file of three lines, with 23 in the second. -/
theorem read_proc_sched_correct_three :
    read_proc_sched (.contents ("se.vruntime : 1.5\n".toList ++
      (sched_line 22 18 23 ++ "prio : 120\n".toList)) false) .zero =
      some (0, { SchedWorker.zero with invol_switch := 23 }) :=
  (read_proc_sched_correct false .zero).2.1 _ 22 18 23 _ (by decide) (by norm_num)

end Osjitter.Jitter
