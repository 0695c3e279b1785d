/-
Osjitter.Util.Sources — `get_tsc_khz`, whatever its sources give.

The file under `/sys` and the lines of the commands are texts of any length,
with any characters in them; they are cut up in arrays of 16 characters that
are not initialised.

  §1 The answer of a source: it fails, is silent, or gives a frequency.
     `Proc.answer` and `Cmd.answer` say it of a text, in terms of the text
     alone; `first` is the answer of several sources in order, and
     `first_gives` says which one it is.
  §2 The sources stay inside their arrays, and what they answer does not depend
     on what was in them: `get_tsc_khz_proc_carries` and
     `get_tsc_khz_cmd_carries` relate the C functions to the answers. A
     newline at the end of a text is overwritten by the terminator
     (`terminate`), and what is behind an earlier one is not read.
  §3 `get_tsc_khz_iff`: the first source that is not silent decides. What the
     kernel prints in each of them is a text whose answer is its frequency
     (`Proc.Prints`, `Cmd.Prints`), so a frequency that is printed anywhere is
     found, whichever of the other sources are there.

The parser on lines that the grep pattern admits is `Util.TscKhzTheorems`. What
the commands themselves do with the log is left out: their lines are given.
-/
import Mathlib
import Osjitter.Util.TscKhzTheorems

namespace Osjitter.Util

open CString

/-! ## §1 Answers

The source of the frequency has three functions that may fail, find nothing or
find a number. Each of these is an answer, computed from what the file or the
command gives and from nothing else: neither from the buffer nor from what the
other sources said. -/

/-- What a source makes of the frequency. -/
inductive Answer where
  | fails
  | silent
  | gives (khz : UInt32)
  deriving DecidableEq, Repr

/-- The second answer stands in for a silent one. -/
def Answer.orElse : Answer → Answer → Answer
  | .silent, a => a
  | a, _ => a

/-- The first that is not silent. -/
def first (as : List Answer) : Answer := as.foldr Answer.orElse .silent

/-- The answer of a source that gives a number as a text. -/
def number (text : List Char) (close_fails : Bool) : Answer :=
  let khz := UInt32.ofInt (atoi (text.takeWhile (· ≠ NUL)))
  if close_fails then .fails else if khz = 0 then .silent else .gives khz

/-- Without a newline at the end. -/
def chomp (s : List Char) : List Char :=
  if s.getLast? = some '\n' then s.dropLast else s

/-- A file that is not there is silent. -/
def Proc.answer : Proc → Answer
  | .noent => .silent
  | .open_fails => .fails
  | .read_fails => .fails
  | .contents s close_fails => number (chomp (s.take 15)) close_fails

/-- A command that cannot be started is silent. -/
def Cmd.answer : Cmd → Answer
  | .popen_fails => .silent
  | .eof => .silent
  | .error => .fails
  | .line s pclose_fails =>
      if 22 < s.length then .fails
      else if s.length < 11 then .silent
      else number ((s.drop 1).take
        (s.length - 10) ++ (s.drop (s.length - 8)).take 3) pclose_fails

/-- In the order in which they are asked. -/
def Sources.answers (sources : Sources) : List Answer :=
  [sources.proc.answer, sources.journal.answer, sources.dmesg.answer]

/-- Sources that agree agree with the result. -/
theorem first_gives {khz : UInt32} {as : List Answer} (hmem : .gives khz ∈ as)
    (hall : ∀ a ∈ as, a = .silent ∨ a = .gives khz) :
    first as = .gives khz := by
  induction as with
  | nil => cases hmem
  | cons a as ih =>
    obtain ⟨ha, hrest⟩ := List.forall_mem_cons.mp hall
    rcases ha with rfl | rfl
    · exact ih (by simpa using hmem) hrest
    · rfl

/-- An answer that is not silent is final. -/
theorem first_two (a b c : Answer) :
    first [a, b, c] = (a.orElse b).orElse c := by
  cases a with
  | fails => rfl
  | gives khz => rfl
  | silent => cases b with
    | fails => rfl
    | gives khz => rfl
    | silent => cases c <;> rfl

/-! ## §2 The sources

The functions themselves work in a buffer of 16 characters and return a status
and a number in two variables. `Carries` ties these to an answer, and holds of
each source with no access outside the buffer or the line. -/

/-- How a return value and `*tsc_khz` carry an answer. -/
def Carries (o : Int × UInt32) : Answer → Prop
  | .fails => o.1 < 0
  | .silent => 0 ≤ o.1 ∧ o.2 = 0
  | .gives khz => 0 ≤ o.1 ∧ o.2 = khz ∧ khz ≠ 0

/-- A number that was read, and a status that depends on closing the source
only. -/
theorem carries_number (text : List Char) (close_fails : Bool) :
    Carries
      (if close_fails then -1 else 0,
        UInt32.ofInt (atoi (text.takeWhile (· ≠ NUL))))
      (number text close_fails) := by
  unfold number
  cases close_fails with
  | true => exact Int.negSucc_lt_zero 0
  | false =>
    by_cases hzero : UInt32.ofInt (atoi (text.takeWhile (· ≠ NUL))) = 0
    · simp only [hzero, if_true, Bool.false_eq_true, if_false]
      exact ⟨Int.le_refl 0, rfl⟩
    · simp only [hzero, Bool.false_eq_true, if_false]
      exact ⟨Int.le_refl 0, rfl, hzero⟩

/-- The terminator goes over a newline at the end. -/
theorem terminate {β : Type} (t rest : List Char) (f : List Char → Option β) :
    (if 0 < t.length ∧ (t ++ NUL :: rest)[t.length - 1]? = some '\n' then
        (store (t ++ NUL :: rest) (t.length - 1) NUL).bind
          fun buf => (cstring buf 0).bind f
      else (cstring (t ++ NUL :: rest) 0).bind f) =
        f ((chomp t).takeWhile (· ≠ NUL)) := by
  have hread : ∀ as cs,
      cstring (as ++ NUL :: cs) 0 = some (as.takeWhile (· ≠ NUL)) :=
    fun as cs => cstring_append_takeWhile [] as cs
  rcases List.eq_nil_or_concat t with rfl | ⟨t, c, rfl⟩
  · rw [if_neg (fun h => absurd h.1 (Nat.lt_irrefl 0)), hread]
    rfl
  · rw [List.concat_eq_append]
    have hlen : (t ++ [c]).length - 1 = t.length := by simp
    have hat : (t ++ [c] ++ NUL :: rest)[t.length]? = some c := by simp
    rw [hlen, hat]
    by_cases hc : c = '\n'
    · subst hc
      have hpos : 0 < (t ++ ['\n']).length := by simp
      have hstore : store (t ++ ['\n'] ++ NUL :: rest) t.length NUL =
          some (t ++ NUL :: NUL :: rest) := by
        rw [List.append_assoc]
        exact store_append NUL (by simp)
      have hchomp : chomp (t ++ ['\n']) = t := by simp [chomp]
      rw [if_pos ⟨hpos, rfl⟩, hstore, Option.bind_some, hread, hchomp, Option.bind_some]
    · have hchomp : chomp (t ++ [c]) = t ++ [c] := by simp [chomp, hc]
      rw [if_neg (fun h => hc (Option.some.inj h.2)), hread, hchomp, Option.bind_some]

/-- **The file** is read inside its array. -/
theorem get_tsc_khz_proc_carries {buf : List Char} (hbuf : buf.length = 16)
    (proc : Proc) :
    ∃ o, get_tsc_khz_proc buf proc 0 = some o ∧ Carries o proc.answer := by
  cases proc with
  | noent => exact ⟨_, rfl, Int.natCast_nonneg 1, rfl⟩
  | open_fails => exact ⟨_, rfl, Int.negSucc_lt_zero 0⟩
  | read_fails => exact ⟨_, rfl, Int.negSucc_lt_zero 0⟩
  | contents s close_fails =>
    have htake : s.take (min s.length 15) = s.take 15 := by
      rw [Nat.min_comm, ← List.take_take, List.take_length]
    have hlen : (s.take 15).length = min s.length 15 := by
      rw [List.length_take, Nat.min_comm]
    have hcopy : mempcpy ([] ++ buf) ([] : List Char).length s 0 (min s.length 15) =
        some (([] ++ (s.drop 0).take (min s.length 15)) ++ buf.drop (min s.length 15),
          ([] : List Char).length + min s.length 15) :=
      mempcpy_append (by omega) (by omega)
    simp only [List.nil_append, List.length_nil, List.drop_zero, Nat.zero_add,
      htake] at hcopy
    have hstore : store (s.take 15 ++ buf.drop (min s.length 15))
        (s.take 15).length NUL =
        some (s.take 15 ++ NUL :: (buf.drop (min s.length 15)).tail) :=
      store_append NUL (by rw [List.length_drop]; omega)
    rw [hlen] at hstore
    have hend := terminate (s.take 15) (buf.drop (min s.length 15)).tail fun n =>
      some (if close_fails then (-1 : ℤ) else 0, UInt32.ofInt (atoi n))
    rw [hlen] at hend
    refine ⟨_, ?_, carries_number (chomp (s.take 15)) close_fails⟩
    simp only [get_tsc_khz_proc, hcopy, hstore, Option.bind_eq_bind, Option.bind_some]
    exact hend

/-- A line that is not passed over is cut out of its two ends: the digits before
the point, and three behind it. -/
theorem get_tsc_khz_cmd_line {buf s : List Char} (hbuf : buf.length = 16)
    (hlong : s.length ≤ 22) (hshort : 11 ≤ s.length) (pclose_fails : Bool)
    (tsc_khz : UInt32) :
    get_tsc_khz_cmd buf (.line s pclose_fails) tsc_khz =
      some (if pclose_fails then -1 else 0,
        UInt32.ofInt (atoi (((s.drop 1).take (s.length - 10) ++
          (s.drop (s.length - 8)).take 3).takeWhile (· ≠ NUL)))) := by
  obtain ⟨as, has⟩ : ∃ as, (s.drop 1).take (s.length - 10) = as := ⟨_, rfl⟩
  obtain ⟨bs, hbs⟩ : ∃ bs, (s.drop (s.length - 8)).take 3 = bs := ⟨_, rfl⟩
  have hlen : as.length = s.length - 10 := by
    rw [← has, List.length_take, List.length_drop]
    omega
  have hlen' : (as ++ bs).length = s.length - 10 + 3 := by
    rw [List.length_append, hlen, ← hbs, List.length_take, List.length_drop]
    omega
  -- `buf` splits where the first copy, the second one and the terminator end
  have hfirst : mempcpy ([] ++ buf) ([] : List Char).length s 1 (s.length - 10) =
      some (([] ++ (s.drop 1).take (s.length - 10)) ++ buf.drop (s.length - 10),
        ([] : List Char).length + (s.length - 10)) :=
    mempcpy_append (by omega) (by omega)
  have hsecond : mempcpy (as ++ buf.drop (s.length - 10)) as.length s (s.length - 8) 3 =
      some ((as ++ (s.drop (s.length - 8)).take 3) ++ (buf.drop (s.length - 10)).drop 3,
        as.length + 3) :=
    mempcpy_append (by omega) (by rw [List.length_drop]; omega)
  have hthird : store ((as ++ bs) ++ (buf.drop (s.length - 10)).drop 3)
      (as ++ bs).length NUL =
      some ((as ++ bs) ++ NUL :: ((buf.drop (s.length - 10)).drop 3).tail) :=
    store_append NUL (by rw [List.length_drop, List.length_drop]; omega)
  have hfourth :
      cstring ((as ++ bs) ++ NUL :: ((buf.drop (s.length - 10)).drop 3).tail) 0 =
      some ((as ++ bs).takeWhile (· ≠ NUL)) :=
    cstring_append_takeWhile [] _ _
  simp only [List.nil_append, List.length_nil, Nat.zero_add, has] at hfirst
  rw [hlen, hbs] at hsecond
  rw [hlen'] at hthird
  have hoff : s.length - 1 - 8 - 1 = s.length - 10 := by omega
  have hoff' : s.length - 7 - 1 = s.length - 8 := by omega
  have hmore : ¬ 15 + 7 < s.length := by omega
  have hless : ¬ s.length < 11 := by omega
  simp only [get_tsc_khz_cmd, hmore, hless, if_false, hoff, hoff', hfirst,
    hsecond, hthird, hfourth, has, hbs, Option.bind_eq_bind, Option.bind_some]

/-- **A command** is read inside its line and its array. -/
theorem get_tsc_khz_cmd_carries {buf : List Char} (hbuf : buf.length = 16)
    (cmd : Cmd) :
    ∃ o, get_tsc_khz_cmd buf cmd 0 = some o ∧ Carries o cmd.answer := by
  cases cmd with
  | popen_fails => exact ⟨_, rfl, Int.natCast_nonneg 1, rfl⟩
  | eof => exact ⟨_, rfl, Int.le_refl 0, rfl⟩
  | error => exact ⟨_, rfl, Int.negSucc_lt_zero 0⟩
  | line s pclose_fails =>
    rw [Cmd.answer]
    by_cases hlong : 22 < s.length
    · rw [if_pos hlong]
      exact ⟨_, get_tsc_khz_cmd_of_long hlong buf pclose_fails 0, Int.negSucc_lt_zero 0⟩
    · rw [if_neg hlong]
      by_cases hshort : s.length < 11
      · rw [if_pos hshort]
        exact ⟨_, get_tsc_khz_cmd_of_short hshort buf pclose_fails 0,
          Int.le_refl 0, rfl⟩
      · rw [if_neg hshort]
        exact ⟨_, get_tsc_khz_cmd_line hbuf (by omega) (by omega) pclose_fails 0,
          carries_number _ pclose_fails⟩

/-! ## §3 The result

`get_tsc_khz` asks the sources in turn and returns early on a failure, so its
result is the first answer that is not silent. A kernel that prints its
frequency prints it in one of two formats, and both are answered with the number
itself. -/

/-- A negative status is a failure. -/
theorem Carries.eq_fails {o : Int × UInt32} {a : Answer} (h : Carries o a)
    (hr : o.1 < 0) : a = .fails := by
  cases a with
  | fails => rfl
  | silent => exact absurd hr (Int.not_lt.mpr h.1)
  | gives khz => exact absurd hr (Int.not_lt.mpr h.1)

/-- A source is asked unless one before it has answered. -/
theorem Carries.ask {o : Int × UInt32} {a a' : Answer} (h : Carries o a)
    (hr : ¬ o.1 < 0) {source : UInt32 → Option (Int × UInt32)}
    (hsource : ∃ o', source 0 = some o' ∧ Carries o' a') :
    ∃ o', Util.ask source o.2 = some o' ∧ Carries o' (a.orElse a') := by
  cases a with
  | fails => exact absurd h hr
  | silent =>
    obtain ⟨o', hsource, hcarry⟩ := hsource
    refine ⟨o', ?_, hcarry⟩
    rw [h.2, Util.ask, if_pos rfl, hsource]
  | gives khz =>
    obtain ⟨-, rfl, hne⟩ := h
    exact ⟨(0, o.2), if_neg hne, Int.le_refl 0, rfl, hne⟩

/-- How `get_tsc_khz` ends. -/
def Ends (o : Int × UInt32) (a : Answer) : Prop :=
  (o.1 < 0 ∧ ∀ khz, a ≠ .gives khz) ∨ (o.1 = 0 ∧ a = .gives o.2)

/-- A failure ends the program, and no frequency is given. -/
theorem Carries.ends {o : Int × UInt32} {a : Answer} (h : Carries o a)
    (hr : o.1 < 0) : Ends o a := by
  refine .inl ⟨hr, fun khz => ?_⟩
  rw [h.eq_fails hr]
  exact Answer.noConfusion

/-- After the last source. -/
theorem Carries.ends_last {o : Int × UInt32} {a : Answer} (h : Carries o a)
    (hr : ¬ o.1 < 0) :
    ∃ o', (if o.2 = 0 then some (-1, o.2) else some (0, o.2)) = some o' ∧
      Ends o' a := by
  cases a with
  | fails => exact absurd h hr
  | silent =>
    rw [if_pos h.2]
    exact ⟨_, rfl, .inl ⟨Int.negSucc_lt_zero 0, fun khz => Answer.noConfusion⟩⟩
  | gives khz =>
    obtain ⟨-, rfl, hne⟩ := h
    rw [if_neg hne]
    exact ⟨_, rfl, .inr ⟨rfl, rfl⟩⟩

/-- The sources are asked in turn, in the same buffer. -/
theorem get_tsc_khz_ends {buf : List Char} (hbuf : buf.length = 16)
    (sources : Sources) :
    ∃ o, get_tsc_khz buf sources = some o ∧ Ends o (first sources.answers) := by
  obtain ⟨o₁, hproc, hcarry₁⟩ := get_tsc_khz_proc_carries hbuf sources.proc
  rw [get_tsc_khz, hproc, Sources.answers, first_two]
  simp only [Option.bind_eq_bind, Option.bind_some]
  by_cases hr₁ : o₁.1 < 0
  · rw [if_pos hr₁]
    have hfails := hcarry₁.eq_fails hr₁
    rw [hfails] at hcarry₁ ⊢
    exact ⟨_, rfl, hcarry₁.ends hr₁⟩
  · rw [if_neg hr₁]
    obtain ⟨o₂, hjournal, hcarry₂⟩ :=
      hcarry₁.ask hr₁ (get_tsc_khz_cmd_carries hbuf sources.journal)
    rw [hjournal, Option.bind_some]
    by_cases hr₂ : o₂.1 < 0
    · rw [if_pos hr₂]
      have hfails := hcarry₂.eq_fails hr₂
      rw [hfails] at hcarry₂ ⊢
      exact ⟨_, rfl, hcarry₂.ends hr₂⟩
    · rw [if_neg hr₂]
      obtain ⟨o₃, hdmesg, hcarry₃⟩ :=
        hcarry₂.ask hr₂ (get_tsc_khz_cmd_carries hbuf sources.dmesg)
      rw [hdmesg, Option.bind_some]
      by_cases hr₃ : o₃.1 < 0
      · rw [if_pos hr₃]
        exact ⟨_, rfl, hcarry₃.ends hr₃⟩
      · rw [if_neg hr₃]
        exact hcarry₃.ends_last hr₃

/-- The formats in which the kernel gives a frequency. -/
def Proc.Prints (khz : ℕ) (proc : Proc) : Prop :=
  proc = .contents (decimal khz ++ ['\n']) false

/-- The line of the kernel log that names the frequency. -/
def Cmd.Prints (khz : ℕ) (cmd : Cmd) : Prop := cmd = .line (khz_line khz) false

section prints

variable {khz : ℕ} (hpos : 0 < khz) (hkhz : khz < 2 ^ 31)

include hpos hkhz

/-- A frequency of less than 31 bits is not cut by the conversion to an int. -/
theorem number_of_value {text : List Char} (htext : IsNumeral text)
    (hvalue : value text = khz) :
    number text false = .gives (UInt32.ofNat khz) := by
  have hne : UInt32.ofNat khz ≠ 0 := by
    rw [Ne, ← UInt32.toNat_inj, UInt32.toNat_ofNat', Nat.mod_eq_of_lt (by omega)]
    exact hpos.ne'
  rw [number, takeWhile_ne_NUL htext.NUL_notMem, ofInt_atoi htext (by omega), hvalue]
  simp only [hne, Bool.false_eq_true, if_false]

/-- The file gives the number with a newline behind it. -/
theorem Proc.Prints.answer {proc : Proc} (h : proc.Prints khz) :
    proc.answer = .gives (UInt32.ofNat khz) := by
  have hlen : (decimal khz).length ≤ 10 :=
    length_decimal_le (by norm_num) (by omega)
  have htake : (decimal khz ++ ['\n']).take 15 = decimal khz ++ ['\n'] := by
    refine List.take_of_length_le ?_
    rw [List.length_append, List.length_singleton]
    omega
  have hchomp : chomp (decimal khz ++ ['\n']) = decimal khz := by simp [chomp]
  rw [h, Proc.answer, htake, hchomp]
  exact number_of_value hpos hkhz (isNumeral_decimal khz) (value_decimal khz)

/-- The line gives the number in MHz, with three digits behind the point. -/
theorem Cmd.Prints.answer {cmd : Cmd} (h : cmd.Prints khz) :
    cmd.answer = .gives (UInt32.ofNat khz) := by
  have hthree :=
    isNumeral_three_digits (Nat.mod_lt khz (by norm_num : 0 < 1000))
  have hds := isNumeral_decimal (khz / 1000)
  have hpos := List.length_pos_iff.mpr hds.1
  have hfit : (decimal (khz / 1000)).length ≤ 12 :=
    length_decimal_le (by norm_num) (by omega)
  have hline : (khz_line khz).length = (decimal (khz / 1000)).length + 10 := by
    rw [khz_line, length_mhz_line, length_three_digits]
  have hoff : (khz_line khz).length - 10 = (decimal (khz / 1000)).length := by
    omega
  have hoff' : (khz_line khz).length - 8 =
      (decimal (khz / 1000)).length + 2 := by omega
  rw [h, Cmd.answer, if_neg (by omega), if_neg (by omega), hoff, hoff',
    khz_line, take_drop_ds, take_drop_mmm _ (length_three_digits _)]
  exact number_of_value ‹_› hkhz (hds.append hthree) (value_khz khz)

end prints

/-- Each source is silent or prints the frequency, and one prints it. -/
structure Sources.Print (khz : ℕ) (sources : Sources) : Prop where
  proc : sources.proc.answer = .silent ∨ sources.proc.Prints khz
  journal : sources.journal.answer = .silent ∨ sources.journal.Prints khz
  dmesg : sources.dmesg.answer = .silent ∨ sources.dmesg.Prints khz
  some : sources.proc.Prints khz ∨ sources.journal.Prints khz ∨
    sources.dmesg.Prints khz

/-- **The frequency.** No access is outside an array, whatever the sources give;
success means the answer of the first source that is not silent, so a frequency
that the kernel prints is found no matter which of the sources are there. -/
theorem get_tsc_khz_iff (buf : List Char) (hbuf : buf.length = 16)
    (sources : Sources) :
    (get_tsc_khz buf sources).isSome ∧
      (∀ khz, get_tsc_khz buf sources = some (0, khz) ↔
        first sources.answers = .gives khz) ∧
      ∀ khz, 0 < khz → khz < 2 ^ 31 → sources.Print khz →
        get_tsc_khz buf sources = some (0, UInt32.ofNat khz) := by
  obtain ⟨o, hget, hends⟩ := get_tsc_khz_ends hbuf sources
  have hiff : ∀ khz, get_tsc_khz buf sources = some (0, khz) ↔
      first sources.answers = .gives khz := by
    intro khz
    rw [hget]
    rcases hends with ⟨hneg, hnone⟩ | ⟨hzero, hgives⟩
    · refine iff_of_false (fun h => ?_) (hnone khz)
      rw [Option.some.inj h] at hneg
      exact Int.lt_irrefl 0 hneg
    · rw [hgives, Answer.gives.injEq, Option.some.injEq, Prod.ext_iff]
      exact and_iff_right hzero
  refine ⟨by rw [hget]; rfl, hiff, fun khz hpos hkhz h => (hiff _).mpr ?_⟩
  have hproc := h.proc.imp_right (Proc.Prints.answer hpos hkhz)
  have hjournal := h.journal.imp_right (Cmd.Prints.answer hpos hkhz)
  have hdmesg := h.dmesg.imp_right (Cmd.Prints.answer hpos hkhz)
  refine first_gives ?_ ?_
  · rcases h.some with hprints | hprints | hprints
    · rw [Sources.answers, hprints.answer hpos hkhz]
      exact List.mem_cons_self
    · rw [Sources.answers, hprints.answer hpos hkhz]
      exact List.mem_cons_of_mem _ List.mem_cons_self
    · rw [Sources.answers, hprints.answer hpos hkhz]
      exact List.mem_cons_of_mem _ (List.mem_cons_of_mem _ List.mem_cons_self)
  · intro a ha
    simp only [Sources.answers, List.mem_cons, List.not_mem_nil, or_false] at ha
    rcases ha with rfl | rfl | rfl
    · exact hproc
    · exact hjournal
    · exact hdmesg

/-- The journal gives 2994.375 MHz, and there is no file under `/sys`. -/
theorem get_tsc_khz_iff_2994375 :
    get_tsc_khz (List.replicate 16 'x') ⟨.noent, .line (khz_line 2994375) false, .eof⟩ =
      some (0, 2994375) :=
  (get_tsc_khz_iff (List.replicate 16 'x') rfl _).2.2 2994375 (by norm_num)
    (by norm_num)
    ⟨.inl rfl, .inr rfl, .inl rfl, .inr (.inl rfl)⟩

end Osjitter.Util
