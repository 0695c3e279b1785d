/-
Osjitter.Util.TscKhzTheorems — the line parser of `get_tsc_khz_cmd` undoes the
kernel's formatting, inside its buffer.

The kernel prints the frequency in MHz with three digits behind the point, and
the parser splices the two parts of the number together, from the end of the
line: it takes three digits there, and what is in front of the point from the
beginning.

  §1 The lines that the grep pattern admits (`mhz_line`), and the one that the
     kernel prints for a frequency (`khz_line`). `value_khz` says that the two
     parts together denote it.
  §2 The splice of a line: digits, three digits, terminator
     (`get_tsc_khz_cmd_mhz_line`), each copied by a `mempcpy` whose bounds are
     checked.
  §3 The parser on every line. A line that is too long fails, one that is too
     short is silent, and both without an access outside the buffer; a line of
     the pattern gives its number (`get_tsc_khz_cmd_value`).
  §4 The next source behind a silent one, and the result,
     `get_tsc_khz_cmd_correct`: every frequency that a signed int can hold.

Lines that the pattern does not admit are covered in `Util.Sources`.
-/
import Mathlib
import Osjitter.Util.TscKhz

namespace Osjitter.Util

open CString

/-! ## §1 Lines

The kernel prints a frequency in MHz with three digits behind a point, and the
digits without the point are those of the frequency in kHz. -/

/-- The line `' D.ddd MHz\n'` of the grep pattern. -/
def mhz_line (ds mmm : List Char) : List Char :=
  ' ' :: (ds ++ '.' :: (mmm ++ [' ', 'M', 'H', 'z', '\n']))

/-- A number below 1000 in three digits. -/
def three_digits (n : ℕ) : List Char :=
  [Nat.digitChar (n / 100), Nat.digitChar (n / 10 % 10), Nat.digitChar (n % 10)]

/-- A frequency as the kernel prints it: `%lu.%03lu MHz`. -/
def khz_line (khz : ℕ) : List Char :=
  mhz_line (decimal (khz / 1000)) (three_digits (khz % 1000))

@[simp] theorem length_mhz_line (ds mmm : List Char) :
    (mhz_line ds mmm).length = ds.length + mmm.length + 7 := by
  simp only [mhz_line, List.length_cons, List.length_append, List.length_nil]
  omega

@[simp] theorem length_three_digits (n : ℕ) : (three_digits n).length = 3 := rfl

/-- Three digits are a numeral, with zeros in front. -/
theorem isNumeral_three_digits {n : ℕ} (h : n < 1000) :
    IsNumeral (three_digits n) := by
  have hdigit : ∀ d < 10, (Nat.digitChar d).isDigit = true := by decide
  refine ⟨by simp [three_digits], fun c hc => ?_⟩
  simp only [three_digits, List.mem_cons, List.not_mem_nil, or_false] at hc
  rcases hc with rfl | rfl | rfl
  · exact hdigit _ (by omega)
  · exact hdigit _ (by omega)
  · exact hdigit _ (by omega)

/-- They denote the number. -/
theorem value_three_digits {n : ℕ} (h : n < 1000) :
    value (three_digits n) = n := by
  have hdigit : ∀ d < 10, (Nat.digitChar d).toNat - '0'.toNat = d := by decide
  have hhundreds := hdigit (n / 100) (by omega)
  have htens := hdigit (n / 10 % 10) (by omega)
  have hones := hdigit (n % 10) (by omega)
  simp only [value, three_digits, Nat.ofDigitChars_cons, Nat.ofDigitChars_nil,
    hhundreds, htens, hones]
  omega

/-- The digits without the point denote the frequency. -/
theorem value_khz (khz : ℕ) :
    value (decimal (khz / 1000) ++ three_digits (khz % 1000)) = khz := by
  rw [value_append, value_decimal, value_three_digits (Nat.mod_lt _ (by norm_num)),
    length_three_digits]
  omega

/-- A number below a power of ten has no more digits. -/
theorem length_decimal_le {n k : ℕ} (hk : 0 < k) (h : n < 10 ^ k) :
    (decimal n).length ≤ k :=
  (Nat.length_toDigits_le_iff (by norm_num) hk).mpr h

/-! ## §2 The splice

The parser takes the digits in front of the point and the three behind it out of
the line, by offsets from both ends, and puts them side by side in its buffer.
-/

/-- The digits in front of the point, from the second character on. -/
theorem take_drop_ds (ds mmm : List Char) :
    ((mhz_line ds mmm).drop 1).take ds.length = ds := by
  simp [mhz_line]

/-- The three digits behind it. -/
theorem take_drop_mmm (ds : List Char) {mmm : List Char}
    (hmmm : mmm.length = 3) :
    ((mhz_line ds mmm).drop (ds.length + 2)).take 3 = mmm := by
  have hsplit : mhz_line ds mmm =
      (' ' :: (ds ++ ['.'])) ++ (mmm ++ [' ', 'M', 'H', 'z', '\n']) := by
    simp [mhz_line]
  have hlen : (' ' :: (ds ++ ['.'])).length = ds.length + 2 := by simp
  rw [hsplit, ← hlen, List.drop_left, ← hmmm, List.take_left]

/-- **The splice.** The offsets from the end of the line cut out the two
numerals, and the terminator follows them: at 12 digits it fills the array. -/
theorem get_tsc_khz_cmd_mhz_line {buf ds mmm : List Char}
    (hbuf : buf.length = 16) (hds : IsNumeral ds) (hmmm : IsNumeral mmm)
    (hlen : mmm.length = 3) (hfit : ds.length ≤ 12) (pclose_fails : Bool)
    (tsc_khz : UInt32) :
    get_tsc_khz_cmd buf (.line (mhz_line ds mmm) pclose_fails) tsc_khz =
      some (if pclose_fails then -1 else 0, UInt32.ofInt (atoi (ds ++ mmm))) := by
  have hpos : 0 < ds.length := List.length_pos_iff.mpr hds.1
  have hline : (mhz_line ds mmm).length = ds.length + 10 := by
    rw [length_mhz_line, hlen]
  -- `buf` splits where the first copy, the second one and the terminator end
  have hfirst : mempcpy ([] ++ buf) ([] : List Char).length
      (mhz_line ds mmm) 1 ds.length =
      some (([] ++ ((mhz_line ds mmm).drop 1).take ds.length) ++ buf.drop ds.length,
        ([] : List Char).length + ds.length) :=
    mempcpy_append (by omega) (by omega)
  have hsecond : mempcpy (ds ++ buf.drop ds.length) ds.length (mhz_line ds mmm)
      (ds.length + 2) 3 =
      some ((ds ++ ((mhz_line ds mmm).drop (ds.length + 2)).take 3) ++
        (buf.drop ds.length).drop 3, ds.length + 3) :=
    mempcpy_append (by omega) (by rw [List.length_drop]; omega)
  have hthird : store ((ds ++ mmm) ++ buf.drop (ds.length + 3)) (ds ++ mmm).length NUL =
      some ((ds ++ mmm) ++ NUL :: (buf.drop (ds.length + 3)).tail) :=
    store_append NUL (by rw [List.length_drop]; omega)
  rw [take_drop_ds, List.nil_append, List.nil_append, List.length_nil,
    Nat.zero_add] at hfirst
  rw [take_drop_mmm ds hlen, List.drop_drop] at hsecond
  rw [List.length_append, hlen] at hthird
  have hfourth : cstring ((ds ++ mmm) ++ NUL :: (buf.drop (ds.length + 3)).tail) 0 =
      some (ds ++ mmm) :=
    cstring_append (hds.append hmmm).NUL_notMem [] _
  have hmore : ¬ 15 + 7 < (mhz_line ds mmm).length := by omega
  have hless : ¬ (mhz_line ds mmm).length < 11 := by omega
  have hoff : (mhz_line ds mmm).length - 1 - 8 - 1 = ds.length := by omega
  have hoff' : (mhz_line ds mmm).length - 7 - 1 = ds.length + 2 := by omega
  simp only [get_tsc_khz_cmd, hmore, hless, if_false, hoff, hoff', hfirst,
    hsecond, hthird, hfourth, Option.bind_eq_bind, Option.bind_some]

/-! ## §3 The parser

What the parser does with a line depends on its length first: too long is an
error, too short is no answer, and what is left is cut out of the line. -/

/-- A line too long is refused, whatever the array: nothing is written. -/
theorem get_tsc_khz_cmd_of_long {s : List Char} (h : 15 + 7 < s.length)
    (buf : List Char) (pclose_fails : Bool) (tsc_khz : UInt32) :
    get_tsc_khz_cmd buf (.line s pclose_fails) tsc_khz =
      some (-1, tsc_khz) := by
  simp only [get_tsc_khz_cmd, h, if_true]

/-- A line too short is passed over. -/
theorem get_tsc_khz_cmd_of_short {s : List Char} (h : s.length < 11)
    (buf : List Char) (pclose_fails : Bool) (tsc_khz : UInt32) :
    get_tsc_khz_cmd buf (.line s pclose_fails) tsc_khz = some (0, tsc_khz) := by
  have hmore : ¬ 15 + 7 < s.length := by omega
  simp only [get_tsc_khz_cmd, hmore, h, if_true, if_false]

/-- Every line of the grep pattern is read inside itself and written inside the
array, however many digits it has. -/
theorem isSome_get_tsc_khz_cmd_mhz_line {buf ds mmm : List Char}
    (hbuf : buf.length = 16) (hds : IsNumeral ds) (hmmm : IsNumeral mmm)
    (hlen : mmm.length = 3) (pclose_fails : Bool) (tsc_khz : UInt32) :
    (get_tsc_khz_cmd buf (.line (mhz_line ds mmm) pclose_fails) tsc_khz).isSome := by
  by_cases hfit : ds.length ≤ 12
  · rw [get_tsc_khz_cmd_mhz_line hbuf hds hmmm hlen hfit]
    rfl
  · rw [get_tsc_khz_cmd_of_long (by rw [length_mhz_line]; omega)]
    rfl

/-- **The value read** from a line that fits: all digits, cut to 32 bits. -/
theorem get_tsc_khz_cmd_value {buf ds mmm : List Char} (hbuf : buf.length = 16)
    (hds : IsNumeral ds) (hmmm : IsNumeral mmm) (hlen : mmm.length = 3)
    (hfit : ds.length ≤ 12) (pclose_fails : Bool) (tsc_khz : UInt32) :
    get_tsc_khz_cmd buf (.line (mhz_line ds mmm) pclose_fails) tsc_khz =
      some (if pclose_fails then -1 else 0, UInt32.ofNat (value (ds ++ mmm))) := by
  have hnumeral := hds.append hmmm
  have hvalue : value (ds ++ mmm) < 2 ^ 63 := by
    have hlt := value_lt hnumeral.2
    have hpow : 10 ^ (ds ++ mmm).length ≤ 10 ^ 15 :=
      Nat.pow_le_pow_right (by norm_num) (by rw [List.length_append]; omega)
    omega
  rw [get_tsc_khz_cmd_mhz_line hbuf hds hmmm hlen hfit, ofInt_atoi hnumeral hvalue]

/-- **The parser undoes the formatting.** -/
theorem get_tsc_khz_cmd_khz_line {buf : List Char}
    (hbuf : buf.length = 16) {khz : ℕ} (hkhz : khz < 2 ^ 31)
    (pclose_fails : Bool) (tsc_khz : UInt32) :
    get_tsc_khz_cmd buf (.line (khz_line khz) pclose_fails) tsc_khz =
      some (if pclose_fails then -1 else 0, UInt32.ofNat khz) := by
  have hthree :=
    isNumeral_three_digits (Nat.mod_lt khz (by norm_num : 0 < 1000))
  have hfit : (decimal (khz / 1000)).length ≤ 12 := by
    refine length_decimal_le (by norm_num) ?_
    omega
  have hread :=
    get_tsc_khz_cmd_value hbuf (isNumeral_decimal (khz / 1000)) hthree
    (length_three_digits _) hfit pclose_fails tsc_khz
  rwa [value_khz] at hread

/-! ## §4 The next source

No answer is not an error: the program asks the next source. A failure is final.
-/

/-- A command that yields no line, or one that is too short. -/
def Silent (cmd : Cmd) : Prop :=
  cmd = .eof ∨ ∃ s pclose_fails, s.length < 11 ∧ cmd = .line s pclose_fails

/-- What `get_tsc_khz` makes of the answer of its last source. -/
def answer : Int × UInt32 → Int × UInt32
  | (r, tsc_khz) =>
      if r < 0 then (r, tsc_khz) else if tsc_khz = 0 then (-1, tsc_khz)
        else (0, tsc_khz)

/-- A silent command leaves the frequency as it was. -/
theorem Silent.get_tsc_khz_cmd_eq {cmd : Cmd} (h : Silent cmd) (buf : List Char)
    (tsc_khz : UInt32) :
    get_tsc_khz_cmd buf cmd tsc_khz = some (0, tsc_khz) := by
  rcases h with rfl | ⟨s, pclose_fails, hshort, rfl⟩
  · rfl
  · exact get_tsc_khz_cmd_of_short hshort buf pclose_fails tsc_khz

/-- Behind a silent journal `dmesg` is asked. -/
theorem get_tsc_khz_of_silent {buf : List Char} {sources : Sources} {r : ℤ}
    (hproc : get_tsc_khz_proc buf sources.proc 0 = some (r, 0)) (hr : 0 ≤ r)
    (hjournal : Silent sources.journal) :
    get_tsc_khz buf sources = (get_tsc_khz_cmd buf sources.dmesg 0).map answer := by
  have hskip : get_tsc_khz_cmd buf sources.journal 0 = some (0, 0) :=
    hjournal.get_tsc_khz_cmd_eq buf 0
  have hnot : ¬ r < 0 := not_lt.mpr hr
  simp only [get_tsc_khz, ask, hproc, hskip, hnot, Option.bind_eq_bind,
    Option.bind_some, if_true, if_false, lt_irrefl]
  cases get_tsc_khz_cmd buf sources.dmesg 0 with
  | none => rfl
  | some last =>
    obtain ⟨r', tsc_khz⟩ := last
    simp only [Option.bind_some, Option.map_some, answer]
    split
    · rfl
    · split
      · rfl
      · rfl

/-- **The parser of the TSC frequency.** It undoes the kernel's formatting,
stays inside the line and the array for every number of digits, refuses a line
too long before anything is written, and leaves a silent command to the next
source. -/
theorem get_tsc_khz_cmd_correct (buf : List Char) (hbuf : buf.length = 16)
    (tsc_khz : UInt32) :
    (∀ khz, 1 ≤ khz → khz ≤ 2 ^ 31 - 1 →
      get_tsc_khz_cmd buf (.line (khz_line khz) false) tsc_khz =
          some (0, UInt32.ofNat khz)) ∧
    (∀ ds mmm pclose_fails, IsNumeral ds → IsNumeral mmm → mmm.length = 3 →
      (get_tsc_khz_cmd buf (.line (mhz_line ds mmm) pclose_fails) tsc_khz).isSome) ∧
    (∀ unwritten s pclose_fails, 15 + 7 < s.length →
      get_tsc_khz_cmd unwritten (.line s pclose_fails) tsc_khz =
          some (-1, tsc_khz)) ∧
    (∀ unwritten, get_tsc_khz_cmd unwritten .eof tsc_khz = some (0, tsc_khz)) ∧
    (∀ unwritten s pclose_fails, s.length < 11 →
      get_tsc_khz_cmd unwritten (.line s pclose_fails) tsc_khz =
          some (0, tsc_khz)) ∧
    ∀ (sources : Sources) (r : ℤ),
      get_tsc_khz_proc buf sources.proc 0 = some (r, 0) → 0 ≤ r →
      Silent sources.journal →
      get_tsc_khz buf sources = (get_tsc_khz_cmd buf sources.dmesg 0).map answer := by
  refine ⟨?_, ?_, ?_, ?_, ?_, ?_⟩
  · intro khz _ hkhz
    exact get_tsc_khz_cmd_khz_line hbuf (by omega) false tsc_khz
  · intro ds mmm pclose_fails hds hmmm hlen
    exact isSome_get_tsc_khz_cmd_mhz_line hbuf hds hmmm hlen pclose_fails tsc_khz
  · intro unwritten s pclose_fails hlong
    exact get_tsc_khz_cmd_of_long hlong unwritten pclose_fails tsc_khz
  · intro unwritten
    exact Silent.get_tsc_khz_cmd_eq (.inl rfl) unwritten tsc_khz
  · intro unwritten s pclose_fails hshort
    exact get_tsc_khz_cmd_of_short hshort unwritten pclose_fails tsc_khz
  · intro sources r hproc hr hjournal
    exact get_tsc_khz_of_silent hproc hr hjournal

/-- A frequency of 2994375 kHz. -/
theorem get_tsc_khz_cmd_correct_2994375 :
    khz_line 2994375 = " 2994.375 MHz\n".toList ∧
      get_tsc_khz_cmd (List.replicate 16 NUL) (.line (khz_line 2994375) false) 0 =
        some (0, 2994375) :=
  ⟨by decide, (get_tsc_khz_cmd_correct (List.replicate 16 NUL) rfl 0).1 2994375 (by norm_num)
    (by norm_num)⟩

end Osjitter.Util
