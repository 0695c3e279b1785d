/-
Osjitter.Lib.Json — JSON texts and the values they denote.

The reader is that of RFC 8259, for characters that are given: it knows nothing
of the writers whose texts it reads, so a theorem that it reads a text back
says that the text is JSON and what it denotes.

  §1 Values. A number is the rational that it denotes, so `1`, `1.0` and `10e-1`
     are one value; members of an object keep their order.
  §2 Tokens: white space, numbers and strings with their escapes. A number has
     no leading zero, so `decimal` has to be shown to write none
     (`decimal_eq_cons`).
  §3 The reader of a document, by recursive descent, with the length of the
     text as fuel. `parse` asks for one value and nothing but white space
     behind it.
  §4 Rules for arrays: `read_int`, `read_empty`, `read_array`,
     `readElements_last` and `readElements_cons`. Each says what the reader
     does with one more bracket, element or comma, so that a writer's loop is
     followed step by step; `parse_eq_some` puts them together for a document.

The rules cover what the programs write, arrays and natural numbers. Objects,
strings, fractions and exponents can be read but have no rules.
-/
import Mathlib
import Osjitter.Lib.CString

/-! ## §1 Values

A document is a tree whose leaves are numbers and texts. Objects keep the order
of their members and may name one twice, as a text can. -/

/-- A JSON value. A string is given by its code points, an escape `\uXXXX` in
it by the code unit. Members of an object keep their order. -/
inductive Json where
  | null
  | bool (b : Bool)
  | num (q : ℚ)
  | str (units : List ℕ)
  | arr (elements : List Json)
  | obj (members : List (List ℕ × Json))

namespace Json

open CString

/-- An integer. -/
def int (n : ℕ) : Json := num n

/-! ## §2 Tokens

Each of these takes one token off a text and yields what is left of it, or
fails. Numbers are read in full, with fraction and exponent, though programs
that print whole numbers need neither: the parser is that of the format, and not
of what is printed. -/

/-- The four white space characters of JSON, which are fewer than those of C. -/
def isWs (c : Char) : Bool := c = ' ' || c = '\t' || c = '\n' || c = '\r'

/-- A text without the white space in front. -/
def skipWs (s : List Char) : List Char := s.dropWhile isWs

/-- A text without the digits in front. -/
def behindDigits (s : List Char) : List Char := s.dropWhile Char.isDigit

/-- `0`, or digits that do not start with it. -/
def readInt : List Char → Option (ℕ × List Char)
  | '0' :: r => some (0, r)
  | s => if digits s = [] then none else some (value (digits s), behindDigits s)

/-- A fraction, which has a digit at least, or none at all. -/
def readFrac : List Char → Option (ℚ × List Char)
  | '.' :: r =>
      if digits r = [] then none
      else some (value (digits r) / 10 ^ (digits r).length, behindDigits r)
  | s => some (0, s)

/-- The exponent, behind its letter. -/
def readExpDigits : List Char → Option (ℤ × List Char)
  | '-' :: r =>
    if digits r = [] then none else some (-value (digits r), behindDigits r)
  | '+' :: r =>
      if digits r = [] then none else some (value (digits r), behindDigits r)
  | r => if digits r = [] then none else some (value (digits r), behindDigits r)

/-- An exponent, with either letter, or none at all. -/
def readExp : List Char → Option (ℤ × List Char)
  | [] => some (0, [])
  | c :: r => if c = 'e' ∨ c = 'E' then readExpDigits r else some (0, c :: r)

/-- A minus sign; a plus sign is not allowed here. -/
def readSign : List Char → ℚ × List Char
  | '-' :: s => (-1, s)
  | s => (1, s)

/-- A number: sign, whole part, fraction and exponent, in this order. -/
def readNumber (s : List Char) : Option (ℚ × List Char) := do
  let (n, r) ← readInt (readSign s).2
  let (f, r) ← readFrac r
  let (e, r) ← readExp r
  some ((readSign s).1 * (n + f) * 10 ^ e, r)

/-- The value of a hexadecimal digit of either case. -/
def hexDigit (c : Char) : Option ℕ :=
  if c.isDigit then some (c.toNat - '0'.toNat)
  else if 'a' ≤ c ∧ c ≤ 'f' then some (c.toNat - 'a'.toNat + 10)
  else if 'A' ≤ c ∧ c ≤ 'F' then some (c.toNat - 'A'.toNat + 10)
  else none

/-- What stands for a character behind a backslash. -/
def escape : Char → Option ℕ
  | '"' => some 34
  | '\\' => some 92
  | '/' => some 47
  | 'b' => some 8
  | 'f' => some 12
  | 'n' => some 10
  | 'r' => some 13
  | 't' => some 9
  | _ => none

/-- A string, behind its opening quote. -/
def readString : List Char → Option (List ℕ × List Char)
  | [] => none
  | '"' :: r => some ([], r)
  | '\\' :: 'u' :: a :: b :: c :: d :: r => do
      let units ← [a, b, c, d].mapM hexDigit
      let (us, r) ← readString r
      some (Nat.ofDigits 16 units.reverse :: us, r)
  | '\\' :: c :: r => do
      let u ← escape c
      let (us, r) ← readString r
      some (u :: us, r)
  | c :: r => do
      let (us, r) ← if c < ' ' then none else readString r
      some (c.toNat :: us, r)

/-! ## §3 Documents

The three readers call each other with less fuel, so that the definitions are
structural and compute. The rules of §4 hold for any fuel that is left; only
`parse` says how much is given. -/

mutual

/-- The value at the front. -/
def read : ℕ → List Char → Option (Json × List Char)
  | 0, _ => none
  | fuel + 1, s =>
      match skipWs s with
      | '[' :: r =>
          match skipWs r with
          | ']' :: r => some (arr [], r)
          | r => (readElements fuel r).map fun p => (arr p.1, p.2)
      | '{' :: r =>
          match skipWs r with
          | '}' :: r => some (obj [], r)
          | r => (readMembers fuel r).map fun p => (obj p.1, p.2)
      | '"' :: r => (readString r).map fun p => (str p.1, p.2)
      | 'n' :: 'u' :: 'l' :: 'l' :: r => some (null, r)
      | 't' :: 'r' :: 'u' :: 'e' :: r => some (bool true, r)
      | 'f' :: 'a' :: 'l' :: 's' :: 'e' :: r => some (bool false, r)
      | r => (readNumber r).map fun p => (num p.1, p.2)

/-- Elements of an array, to the closing bracket. -/
def readElements : ℕ → List Char → Option (List Json × List Char)
  | 0, _ => none
  | fuel + 1, s => do
      let (v, r) ← read fuel s
      match skipWs r with
      | ',' :: r => (readElements fuel r).map fun p => (v :: p.1, p.2)
      | ']' :: r => some ([v], r)
      | _ => none

/-- Members of an object, to the closing brace. -/
def readMembers : ℕ → List Char → Option (List (List ℕ × Json) × List Char)
  | 0, _ => none
  | fuel + 1, s =>
      match skipWs s with
      | '"' :: r => do
          let (name, r) ← readString r
          match skipWs r with
          | ':' :: r => do
              let (v, r) ← read fuel r
              match skipWs r with
              | ',' :: r => (readMembers fuel r).map fun p =>
                ((name, v) :: p.1, p.2)
              | '}' :: r => some ([(name, v)], r)
              | _ => none
          | _ => none
      | _ => none

end

/-- The value of a document. At most two calls of the reader start at a
character, and the fuel allows for as many. -/
def parse (s : List Char) : Option Json := do
  let (v, r) ← read (2 * s.length + 2) s
  if skipWs r = [] then some v else none

/-! ## §4 Rules

The rules say what the parser does with a text that is put together of the
printed form of a value and a rest. The rest matters for numbers only, which end
where no character continues them (`EndsInt`). -/

/-- What ends an integer: no digit, no point and no exponent. -/
def EndsInt (r : List Char) : Prop :=
  ∀ c ∈ r.head?, c.isDigit = false ∧ c ≠ '.' ∧ c ≠ 'e' ∧ c ≠ 'E'

/-- White space in front is skipped. -/
theorem skipWs_cons_of_isWs {c : Char} (h : isWs c = true) (r : List Char) :
    skipWs (c :: r) = skipWs r := List.dropWhile_cons_of_pos h

/-- Nothing is skipped in front of any other character. -/
theorem skipWs_cons {c : Char} (h : isWs c = false) (r : List Char) :
    skipWs (c :: r) = c :: r := List.dropWhile_cons_of_neg (by simp [h])

/-- Skipping twice is skipping once. -/
theorem skipWs_skipWs (s : List Char) : skipWs (skipWs s) = skipWs s :=
  List.dropWhile_idempotent isWs s

/-- A digit is not white space. -/
theorem isWs_of_isDigit {c : Char} (h : c.isDigit = true) : isWs c = false := by
  have hne : ∀ d : Char, d.isDigit = false → c ≠ d := by
    rintro d hd rfl
    rw [h] at hd
    cases hd
  simp [isWs, hne ' ' rfl, hne '\t' rfl, hne '\n' rfl, hne '\r' rfl]

/-- Digits end at the first character that is none. -/
theorem behindDigits_append {ds r : List Char}
    (hds : ∀ c ∈ ds, c.isDigit = true) (hr : ∀ c ∈ r.head?, c.isDigit = false) :
    behindDigits (ds ++ r) = r := by
  have hkeep : r.dropWhile Char.isDigit = r := by
    cases r with
    | nil => rfl
    | cons c r => simp [hr c rfl]
  rw [behindDigits, List.dropWhile_append_of_pos hds, hkeep]

/-- A printed number is read back as a whole part. -/
theorem readInt_decimal (n : ℕ) {r : List Char}
    (hr : ∀ c ∈ r.head?, c.isDigit = false) :
    readInt (decimal n ++ r) = some (n, r) := by
  rcases Nat.eq_zero_or_pos n with rfl | hn
  · rfl
  · have hds := (isNumeral_decimal n).2
    have hhead := decimal_head hn
    rw [readInt.eq_2, digits_append hds hr, behindDigits_append hds hr,
      if_neg (isNumeral_decimal n).1, value_decimal]
    intro r' heq
    cases hd : decimal n with
    | nil => exact (isNumeral_decimal n).1 hd
    | cons d ds =>
      rw [hd, List.cons_append] at heq
      rw [hd] at hhead
      exact hhead (congrArg some (List.cons.inj heq).1)

/-- A numeral starts with a digit. -/
theorem decimal_eq_cons (n : ℕ) :
    ∃ d ds, decimal n = d :: ds ∧ d.isDigit = true := by
  obtain ⟨hne, hdigit⟩ := isNumeral_decimal n
  cases hd : decimal n with
  | nil => exact absurd hd hne
  | cons d ds =>
    exact ⟨d, ds, rfl, hdigit d (by rw [hd]; exact List.mem_cons_self)⟩

/-- No white space stands in front of a numeral. -/
theorem skipWs_decimal (n : ℕ) (r : List Char) :
    skipWs (decimal n ++ r) = decimal n ++ r := by
  obtain ⟨d, ds, hd, hdigit⟩ := decimal_eq_cons n
  rw [hd, List.cons_append, skipWs_cons (isWs_of_isDigit hdigit)]

/-- A printed number is read back as a number, with nothing behind it that would
continue it. -/
theorem readNumber_decimal (n : ℕ) {r : List Char} (hr : EndsInt r) :
    readNumber (decimal n ++ r) = some ((n : ℚ), r) := by
  have hsign : readSign (decimal n ++ r) = (1, decimal n ++ r) := by
    obtain ⟨d, ds, hd, hdigit⟩ := decimal_eq_cons n
    rw [hd, List.cons_append, readSign.eq_2]
    intro s heq
    exact (not_isspace_of_isDigit hdigit).2.1 (List.cons.inj heq).1
  have hfrac : readFrac r = some (0, r) := by
    rw [readFrac.eq_2]
    rintro s rfl
    exact (hr '.' rfl).2.1 rfl
  have hexp : readExp r = some (0, r) := by
    cases r with
    | nil => rfl
    | cons c r =>
      obtain ⟨-, -, he, hE⟩ := hr c rfl
      rw [readExp, if_neg (not_or.mpr ⟨he, hE⟩)]
  have hint := readInt_decimal n fun c hc => (hr c hc).1
  simp only [readNumber, hsign, hint, hfrac, hexp, Option.bind_eq_bind,
    Option.bind_some]
  norm_num

section rules

variable {fuel : ℕ} {s r r' : List Char} {v : Json} {vs : List Json}

/-- An integer. -/
theorem read_int {n : ℕ} (hs : skipWs s = decimal n ++ r) (hr : EndsInt r) :
    read (fuel + 1) s = some (int n, r) := by
  have hnumber := readNumber_decimal n hr
  obtain ⟨d, ds, hd, hdigit⟩ := decimal_eq_cons n
  have hne : ∀ c : Char, c.isDigit = false → d ≠ c := by
    rintro c hc rfl
    rw [hdigit] at hc
    cases hc
  rw [hd, List.cons_append] at hs hnumber
  rw [read, hs]
  split
  · next heq => exact absurd (List.cons.inj heq).1 (hne '[' rfl)
  · next heq => exact absurd (List.cons.inj heq).1 (hne '{' rfl)
  · next heq => exact absurd (List.cons.inj heq).1 (hne '"' rfl)
  · next heq => exact absurd (List.cons.inj heq).1 (hne 'n' rfl)
  · next heq => exact absurd (List.cons.inj heq).1 (hne 't' rfl)
  · next heq => exact absurd (List.cons.inj heq).1 (hne 'f' rfl)
  · rw [hnumber]
    rfl

/-- An array without elements, whatever white space is inside. -/
theorem read_empty (hs : skipWs s = '[' :: r) (hr : skipWs r = ']' :: r') :
    read (fuel + 1) s = some (arr [], r') := by
  rw [read, hs]
  simp only [hr]

/-- An array that does not close at once. -/
theorem read_array (hs : skipWs s = '[' :: r) (hr : (skipWs r).head? ≠ some ']')
    (hvs : readElements fuel (skipWs r) = some (vs, r')) :
    read (fuel + 1) s = some (arr vs, r') := by
  rw [read, hs]
  simp only
  split
  · next heq => exact absurd (congrArg List.head? heq) hr
  · rw [hvs]
    rfl

/-- The last element, in front of a bracket. -/
theorem readElements_last (hv : read fuel s = some (v, r))
    (hr : skipWs r = ']' :: r') :
    readElements (fuel + 1) s = some ([v], r') := by
  simp only [readElements, hv, hr, Option.bind_eq_bind, Option.bind_some]

/-- An element with a comma behind it, and the elements after it. -/
theorem readElements_cons {r'' : List Char} (hv : read fuel s = some (v, r))
    (hr : skipWs r = ',' :: r') (hvs : readElements fuel r' = some (vs, r'')) :
    readElements (fuel + 1) s = some (v :: vs, r'') := by
  simp only [readElements, hv, hr, hvs, Option.bind_eq_bind, Option.bind_some,
    Option.map_some]

/-- **A document** is a value with white space behind it. -/
theorem parse_eq_some (hv : read (2 * s.length + 2) s = some (v, r))
    (hr : skipWs r = []) : parse s = some v := by
  simp only [parse, hv, Option.bind_eq_bind, Option.bind_some, hr, if_true]

end rules

end Json
