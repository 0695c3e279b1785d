/-
Osjitter.Lib.CString — the C functions on character arrays that the programs
read their input with, over lists of characters.

Nothing here knows of a program. A text in memory is a list; where an array
ends matters to a theorem, the list is the array and an access outside it has
no result.

  §1 Decimal numerals. `decimal` is what `printf` writes for a natural number
     and `value` what digits denote: `value_decimal` is the round trip,
     `decimal_head` says that no zero is in front, and `value_lt` bounds a
     value by the number of its digits.
  §2 `strtol`, `atol` and `atoi`, which read a numeral behind spaces and a
     sign and stop at the first other character. `strtol` saturates to 64
     bits, `atoi` cuts that to 32 with the wrap of a conversion to int, as
     glibc does. `strtol_numeral` is the general rule, `atol_numeral`,
     `atoi_numeral`, `ofInt_atol` and `ofInt_atoi` are what callers use;
     `strtol_dropWhile`, `strtol_minus` and `strtol_plus` take a text apart.
  §3 `memchr`, `memrchr` and `memmem`, as positions in a list. Each has an
     `_append` rule, which finds something behind a part that cannot hold it,
     an `eq_append_of_` rule for the way back, and one for failure.
     `memmem_append` needs that no proper end of the needle is its beginning
     (`BorderFree`). `after`, `upto` and `behind` are the texts around a
     position.
  §4 Accesses to arrays: `mempcpy`, `store` and `slice`, none where they leave
     the array, and `cstring`, the text up to the terminator.

Left out: locales (a space is one of the six of the C locale), `errno`, bases
other than 10, and the pointers behind the last digit.
-/
import Mathlib

namespace CString

/-! ## §1 Numerals

A numeral is a list of digits that is not empty; zeros may stand in front. The
numerals that `printf` writes are read by value, so nothing here depends on how
`Nat.repr` computes its digits. -/

/-- A number as it is printed. -/
def decimal (n : ℕ) : List Char := Nat.toDigits 10 n

/-- The number that digits denote. -/
def value (ds : List Char) : ℕ := Nat.ofDigitChars 10 ds 0

/-- A nonempty list of digits. -/
def IsNumeral (ds : List Char) : Prop := ds ≠ [] ∧ ∀ c ∈ ds, c.isDigit = true

instance decidableIsNumeral (ds : List Char) : Decidable (IsNumeral ds) :=
  decidable_of_iff (ds ≠ [] ∧ ds.all Char.isDigit = true) (by simp [IsNumeral])

@[simp] theorem value_decimal (n : ℕ) : value (decimal n) = n :=
  Nat.ofDigitChars_ten_toDigits

/-- What `printf` writes is a numeral. -/
theorem isNumeral_decimal (n : ℕ) : IsNumeral (decimal n) :=
  ⟨Nat.toDigits_ne_nil,
    fun _ hc => Nat.isDigit_of_mem_toDigits (by decide) (by decide) hc⟩

/-- Only zero is printed with a zero in front. -/
theorem decimal_head {n : ℕ} (h : 0 < n) : (decimal n).head? ≠ some '0' := by
  induction n using Nat.strong_induction_on with
  | _ n ih =>
    rw [decimal, Nat.toDigits_eq_if (by decide)]
    split
    · simpa using h.ne'
    · next hn =>
      have hdiv : 0 < n / 10 := by omega
      rw [List.head?_append_of_ne_nil _ Nat.toDigits_ne_nil]
      exact ih (n / 10) (Nat.div_lt_self h (by decide)) hdiv

/-- Digits behind others: the ones in front count a power of ten more. -/
theorem value_append (ds es : List Char) :
    value (ds ++ es) = 10 ^ es.length * value ds + value es := by
  rw [value, Nat.ofDigitChars_append, Nat.ofDigitChars_eq_ofDigitChars_zero]
  rfl

/-- Digits denote a number of as many digits. -/
theorem value_lt {ds : List Char} (h : ∀ c ∈ ds, c.isDigit = true) :
    value ds < 10 ^ ds.length := by
  induction ds with
  | nil => simp [value]
  | cons d ds ih =>
    have hd : d.toNat ≤ 57 := by
      have hdigit := h d List.mem_cons_self
      simp only [Char.isDigit, Bool.and_eq_true, decide_eq_true_eq] at hdigit
      exact hdigit.2
    have hone : value [d] ≤ 9 := by
      simp only [value, Nat.ofDigitChars_cons, Nat.ofDigitChars_nil, Char.reduceToNat]
      omega
    have hrest := ih fun c hc => h c (List.mem_cons_of_mem _ hc)
    rw [← List.singleton_append, value_append, List.singleton_append,
      List.length_cons, pow_succ]
    calc 10 ^ ds.length * value [d] + value ds
        < 10 ^ ds.length * value [d] + 10 ^ ds.length :=
          Nat.add_lt_add_left hrest _
      _ = 10 ^ ds.length * (value [d] + 1) := by ring
      _ ≤ 10 ^ ds.length * 10 := Nat.mul_le_mul_left _ (by omega)

/-- Two numerals make one, with a zero in front or not. -/
theorem IsNumeral.append {ds es : List Char} (hds : IsNumeral ds)
    (hes : IsNumeral es) : IsNumeral (ds ++ es) := by
  refine ⟨by simp [hds.1], fun c hc => ?_⟩
  rcases List.mem_append.mp hc with hc | hc
  · exact hds.2 c hc
  · exact hes.2 c hc

/-! ## §2 Reading a number

The three functions are one: `atol` is `strtol` without the pointer, and `atoi`
is `atol` with the conversion to int of glibc. Texts are taken apart from the
left: spaces, one sign, digits, and what follows is never looked at. -/

/-- The character that ends a string. -/
def NUL : Char := Char.ofNat 0

/-- `isspace` of the C locale: a blank, or one of the five control characters
from tab to carriage return. -/
def isspace (c : Char) : Bool := c = ' ' || ('\t' ≤ c && c ≤ '\r')

/-- The digits at the front. -/
def digits (s : List Char) : List Char := s.takeWhile Char.isDigit

/-- `strtol(s, NULL, 10)`, for a `long` of 64 bits. -/
def strtol (s : List Char) : ℤ :=
  match s.dropWhile isspace with
  | '-' :: s => max (-(value (digits s) : ℤ)) (-2 ^ 63)
  | '+' :: s => min (value (digits s) : ℤ) (2 ^ 63 - 1)
  | s => min (value (digits s) : ℤ) (2 ^ 63 - 1)

/-- `atol` of glibc, where `long` has 64 bits: `strtol` of base 10. -/
def atol (s : List Char) : ℤ := strtol s

/-- `(int) strtol(s, NULL, 10)` -/
def atoi (s : List Char) : ℤ := (strtol s).bmod (2 ^ 32)

/-- A digit is neither a space nor a sign. -/
theorem not_isspace_of_isDigit {c : Char} (h : c.isDigit = true) :
    isspace c = false ∧ c ≠ '-' ∧ c ≠ '+' := by
  have hle : '0' ≤ c := by
    simp only [Char.isDigit, Bool.and_eq_true, decide_eq_true_eq] at h
    exact h.1
  have hval : 48 ≤ c.toNat := hle
  refine ⟨?_, ?_, ?_⟩
  · have hsp : c ≠ ' ' := by
      rintro rfl
      exact absurd hval (by decide)
    have hcr : ¬ c ≤ '\r' := by
      intro hc
      have hc' : c.toNat ≤ 13 := hc
      omega
    simp [isspace, hsp, hcr]
  · rintro rfl
    exact absurd hval (by decide)
  · rintro rfl
    exact absurd hval (by decide)

/-- No NUL is among digits. -/
theorem IsNumeral.NUL_notMem {ds : List Char} (h : IsNumeral ds) :
    NUL ∉ ds := by
  intro hmem
  exact absurd (h.2 _ hmem) (by decide)

/-- Digits end at the first character that is none. -/
theorem digits_append {ds rest : List Char} (hds : ∀ c ∈ ds, c.isDigit = true)
    (hrest : ∀ c ∈ rest.head?, c.isDigit = false) :
    digits (ds ++ rest) = ds := by
  have hnil : rest.takeWhile Char.isDigit = [] := by
    cases rest with
    | nil => rfl
    | cons c rest => simp [hrest c rfl]
  rw [digits, List.takeWhile_append_of_pos hds, hnil, List.append_nil]

/-- No digit is among blanks. -/
theorem not_isDigit_of_isspace {c : Char} (h : isspace c = true) :
    c.isDigit = false := by
  by_contra hdigit
  have hspace :=
    (not_isspace_of_isDigit (Bool.eq_true_of_not_eq_false hdigit)).1
  rw [h] at hspace
  cases hspace

/-- A list is what is left without its end, with that end behind it. -/
theorem rdropWhile_append_rtakeWhile {α : Type} (p : α → Bool) (l : List α) :
    l.rdropWhile p ++ l.rtakeWhile p = l := by
  rw [List.rdropWhile, List.rtakeWhile, ← List.reverse_append,
    List.takeWhile_append_dropWhile, List.reverse_reverse]

/-- Blanks in front are skipped. -/
theorem strtol_dropWhile (s : List Char) :
    strtol (s.dropWhile isspace) = strtol s := by
  rw [strtol, strtol, List.dropWhile_idempotent]

/-- A minus sign is read once; the value saturates at the least number of 64
bits. -/
theorem strtol_minus (s : List Char) :
    strtol ('-' :: s) = max (-(value (digits s) : ℤ)) (-2 ^ 63) := rfl

/-- A plus sign is read once, as if it were not there. -/
theorem strtol_plus (s : List Char) :
    strtol ('+' :: s) = min (value (digits s) : ℤ) (2 ^ 63 - 1) := rfl

/-- **Reading a numeral** that stands at the front. -/
theorem strtol_numeral {ds rest : List Char} (hds : IsNumeral ds)
    (hrest : ∀ c ∈ rest.head?, c.isDigit = false) :
    strtol (ds ++ rest) = min (value ds : ℤ) (2 ^ 63 - 1) := by
  obtain ⟨hne, hdigit⟩ := hds
  cases ds with
  | nil => exact absurd rfl hne
  | cons d ds =>
    obtain ⟨hsp, hminus, hplus⟩ :=
      not_isspace_of_isDigit (hdigit d List.mem_cons_self)
    have hdigits := digits_append hdigit hrest
    rw [List.cons_append] at hdigits
    have hdrop : List.dropWhile isspace (d :: (ds ++ rest)) =
        d :: (ds ++ rest) := by
      simp [hsp]
    rw [List.cons_append, strtol, hdrop]
    split
    · next heq => exact absurd (List.cons.inj heq).1 hminus
    · next heq => exact absurd (List.cons.inj heq).1 hplus
    · rw [hdigits]

/-- A numeral is read as its value, or as the greatest `long`. -/
theorem atol_numeral {ds : List Char} (hds : IsNumeral ds) :
    atol ds = min (value ds : ℤ) (2 ^ 63 - 1) := by
  have hread : strtol (ds ++ []) = min (value ds : ℤ) (2 ^ 63 - 1) :=
    strtol_numeral hds (by simp)
  rwa [List.append_nil] at hread

/-- A number below 2^63 is read as it is. -/
theorem ofInt_atol {ds : List Char} (hds : IsNumeral ds)
    (hlt : value ds < 2 ^ 63) :
    UInt64.ofInt (atol ds) = UInt64.ofNat (value ds) := by
  have hmin : min (value ds : ℤ) (2 ^ 63 - 1) = value ds := by omega
  have hmod : ((value ds : ℤ) % 2 ^ 64).toNat = value ds % 2 ^ 64 := by omega
  rw [atol_numeral hds, hmin, UInt64.ofInt, hmod, UInt64.ofNat_mod_size]

/-- A numeral that does not fit an int is cut down to 32 bits, so that it may
come out as any number. -/
theorem atoi_numeral {ds : List Char} (hds : IsNumeral ds) :
    atoi ds = (min (value ds : ℤ) (2 ^ 63 - 1)).bmod (2 ^ 32) := by
  rw [atoi, ← atol, atol_numeral hds]

/-- Cut to 32 bits, as the programs store it, a number below 2^63 is read up to
a multiple of 2^32. -/
theorem ofInt_atoi {ds : List Char} (hds : IsNumeral ds)
    (hlt : value ds < 2 ^ 63) :
    UInt32.ofInt (atoi ds) = UInt32.ofNat (value ds) := by
  have hmin : min (value ds : ℤ) (2 ^ 63 - 1) = value ds := by omega
  have hbmod : (value ds : ℤ).bmod (2 ^ 32) % (2 ^ 32 : ℕ) =
      (value ds : ℤ) % (2 ^ 32 : ℕ) :=
    Int.bmod_emod
  have hmod : ((value ds : ℤ).bmod (2 ^ 32) % 2 ^ 32).toNat =
      value ds % 2 ^ 32 := by omega
  rw [atoi_numeral hds, hmin, UInt32.ofInt, hmod, UInt32.ofNat_mod_size]

/-! ## §3 Searching

A position that a search yields is the length of what is in front of it, so
every rule speaks of a list that is put together: what is in front has no match,
then comes the match, then anything. Callers have their text in that form. -/

section search

variable {α : Type} [DecidableEq α]

/-- The first position of a character. -/
def memchr (c : α) (xs : List α) : Option ℕ := xs.findIdx? (· = c)

/-- The last position of a character. -/
def memrchr (c : α) (xs : List α) : Option ℕ :=
  (xs.reverse.findIdx? (· = c)).map fun i => xs.length - 1 - i

/-- The first position of a list. -/
def memmem (needle : List α) : List α → Option ℕ
  | [] => if needle = [] then some 0 else none
  | x :: xs =>
      if needle <+: x :: xs then some 0 else (memmem needle xs).map (· + 1)

/-- A search fails just where there is nothing to find. -/
theorem memchr_eq_none_iff {c : α} {xs : List α} :
    memchr c xs = none ↔ c ∉ xs := by
  rw [memchr, List.findIdx?_eq_none_iff]
  constructor
  · intro h hc
    simpa using h c hc
  · rintro h x hx
    simp only [decide_eq_false_iff_not]
    rintro rfl
    exact h hx

/-- The first occurrence is behind what has none. -/
theorem memchr_append {c : α} {as : List α} (h : c ∉ as) (bs : List α) :
    memchr c (as ++ c :: bs) = some as.length := by
  induction as with
  | nil => simp [memchr, List.findIdx?_cons]
  | cons a as ih =>
    have ha : a ≠ c := fun heq => h (heq ▸ List.mem_cons_self)
    have hrest := ih fun hc => h (List.mem_cons_of_mem _ hc)
    simp only [memchr] at hrest
    simp [memchr, List.findIdx?_cons, ha, hrest]

/-- A character found splits the list at its first occurrence. -/
theorem eq_append_of_memchr {c : α} {xs : List α} {i : ℕ}
    (h : memchr c xs = some i) :
    ∃ as bs, xs = as ++ c :: bs ∧ as.length = i ∧ c ∉ as := by
  have hmem : c ∈ xs := by
    by_contra hc
    rw [memchr_eq_none_iff.mpr hc] at h
    cases h
  obtain ⟨as, bs, rfl, has⟩ := List.eq_append_cons_of_mem hmem
  rw [memchr_append has] at h
  exact ⟨as, bs, rfl, Option.some.inj h, has⟩

/-- The search from the end fails for the same texts as that from the front. -/
theorem memrchr_eq_none_iff {c : α} {xs : List α} :
    memrchr c xs = none ↔ c ∉ xs := by
  rw [memrchr, Option.map_eq_none_iff]
  exact memchr_eq_none_iff.trans (by rw [List.mem_reverse])

/-- The last occurrence is in front of what has none. -/
theorem memrchr_append {c : α} {bs : List α} (h : c ∉ bs) (as : List α) :
    memrchr c (as ++ c :: bs) = some as.length := by
  have hrev : (as ++ c :: bs).reverse = bs.reverse ++ c :: as.reverse := by simp
  have hfind : memchr c (bs.reverse ++ c :: as.reverse) =
      some bs.reverse.length :=
    memchr_append (by simpa using h) as.reverse
  rw [memchr] at hfind
  rw [memrchr, hrev, hfind, Option.map_some]
  simp only [List.length_append, List.length_cons, List.length_reverse,
    Option.some.injEq]
  omega

/-- The way back: a position found from the end splits the list there. -/
theorem eq_append_of_memrchr {c : α} {xs : List α} {i : ℕ}
    (h : memrchr c xs = some i) :
    ∃ as bs, xs = as ++ c :: bs ∧ as.length = i ∧ c ∉ bs := by
  rw [memrchr, Option.map_eq_some_iff] at h
  obtain ⟨j, hj, rfl⟩ := h
  obtain ⟨as, bs, hxs, rfl, has⟩ := eq_append_of_memchr hj
  have hsplit : xs = bs.reverse ++ c :: as.reverse := by
    rw [← List.reverse_reverse xs, hxs]
    simp
  refine ⟨bs.reverse, as.reverse, hsplit, ?_, by simpa using has⟩
  rw [hsplit]
  simp only [List.length_append, List.length_cons, List.length_reverse]
  omega

/-- What is found is there. -/
theorem prefix_of_memmem {needle xs : List α} {i : ℕ}
    (h : memmem needle xs = some i) : needle <+: xs.drop i := by
  induction xs generalizing i with
  | nil =>
    simp only [memmem] at h
    split at h
    · next hnil => simp [hnil]
    · cases h
  | cons x xs ih =>
    simp only [memmem] at h
    split at h
    · next hpre =>
      obtain rfl := Option.some.inj h
      exact hpre
    · obtain ⟨j, hj, rfl⟩ := Option.map_eq_some_iff.mp h
      exact ih hj

/-- And inside the list. -/
theorem memmem_add_le {needle xs : List α} {i : ℕ}
    (h : memmem needle xs = some i) (hne : needle ≠ []) :
    i + needle.length ≤ xs.length := by
  have hle := (prefix_of_memmem h).length_le
  have hpos := List.length_pos_iff.mpr hne
  rw [List.length_drop] at hle
  omega

/-- The way back: a position found splits the list in front of the needle. -/
theorem eq_append_of_memmem {needle xs : List α} {i : ℕ}
    (h : memmem needle xs = some i) (hne : needle ≠ []) :
    ∃ as bs, xs = as ++ (needle ++ bs) ∧ as.length = i := by
  obtain ⟨bs, hbs⟩ := prefix_of_memmem h
  have hle := memmem_add_le h hne
  refine ⟨xs.take i, bs, ?_, List.length_take_of_le (by omega)⟩
  rw [hbs, List.take_append_drop]

/-- A needle is not found just where it is not a part of the list. -/
theorem memmem_eq_none_iff {needle xs : List α} :
    memmem needle xs = none ↔ ¬ needle <:+: xs := by
  induction xs with
  | nil =>
    simp only [memmem]
    split
    · next hnil => simp [hnil]
    · next hnil => simp [hnil]
  | cons x xs ih =>
    simp only [memmem, List.infix_cons_iff, not_or]
    split
    · next hpre => simp [hpre]
    · next hpre => simp [hpre, ih]

/-- No occurrence is found later than a given one. -/
theorem memmem_le {needle xs : List α} {i : ℕ} (h : needle <+: xs.drop i) :
    ∃ j ≤ i, memmem needle xs = some j := by
  induction xs generalizing i with
  | nil =>
    have hnil : needle = [] := by simpa using h
    exact ⟨0, Nat.zero_le _, by simp [memmem, hnil]⟩
  | cons x xs ih =>
    by_cases hpre : needle <+: x :: xs
    · exact ⟨0, Nat.zero_le _, by simp [memmem, hpre]⟩
    · cases i with
      | zero => exact absurd h hpre
      | succ i =>
        obtain ⟨j, hj, hfind⟩ := ih (i := i) h
        exact ⟨j + 1, Nat.succ_le_succ hj, by simp [memmem, hpre, hfind]⟩

/-- No proper beginning of the list is also an end of it. -/
def BorderFree (xs : List α) : Prop :=
  ∀ k < xs.length, 0 < k → xs.take k ≠ xs.drop (xs.length - k)

/-- **The first occurrence.** A list without borders is found where it stands,
if what stands before does not contain it: an earlier occurrence would overlap
with it. -/
theorem memmem_append {needle as : List α} (hborder : BorderFree needle)
    (h : ¬ needle <:+: as) (bs : List α) :
    memmem needle (as ++ (needle ++ bs)) = some as.length := by
  have hne : needle ≠ [] := fun hnil => h (hnil ▸ List.nil_infix)
  have hpos := List.length_pos_iff.mpr hne
  have hthere : needle <+: (as ++ (needle ++ bs)).drop as.length := by simp
  obtain ⟨j, hj, hfind⟩ := memmem_le hthere
  rcases Nat.eq_or_lt_of_le hj with rfl | hlt
  · exact hfind
  · exfalso
    have hpre := prefix_of_memmem hfind
    rw [List.drop_append_of_le_length hj] at hpre
    have hd : (as.drop j).length = as.length - j := List.length_drop
    have htake := List.prefix_iff_eq_take.mp hpre
    by_cases hin : needle.length ≤ (as.drop j).length
    · -- the earlier occurrence lies inside `as`
      rw [List.take_append_of_le_length hin] at htake
      refine h ?_
      rw [htake]
      exact (List.take_prefix _ _).isInfix.trans (List.drop_suffix _ _).isInfix
    · -- it overlaps with the later one in a border
      have hover : needle.length - (as.drop j).length ≤ needle.length :=
        Nat.sub_le _ _
      rw [List.take_append, List.take_of_length_le (by omega),
        List.take_append_of_le_length hover] at htake
      have hdrop := congrArg (List.drop (as.drop j).length) htake
      rw [List.drop_left] at hdrop
      refine hborder (needle.length - (as.drop j).length) (by omega) (by omega) ?_
      rw [← hdrop]
      congr 1
      omega

/-- What follows the first occurrence of a list. -/
def after (needle xs : List α) : Option (List α) :=
  (memmem needle xs).map fun i => xs.drop (i + needle.length)

/-- What precedes the first occurrence of a character. -/
def upto (c : α) (xs : List α) : Option (List α) := (memchr c xs).map xs.take

/-- What follows its last occurrence. -/
def behind (c : α) (xs : List α) : Option (List α) :=
  (memrchr c xs).map fun i => xs.drop (i + 1)

/-- What comes after the needle, where nothing in front can hold it. -/
theorem after_append {needle as : List α} (hborder : BorderFree needle)
    (h : ¬ needle <:+: as) (bs : List α) :
    after needle (as ++ (needle ++ bs)) = some bs := by
  rw [after, memmem_append hborder h, Option.map_some, ← List.append_assoc,
    ← List.length_append, List.drop_left]

/-- There is nothing after a needle that does not occur. -/
theorem after_eq_none_iff {needle xs : List α} :
    after needle xs = none ↔ ¬ needle <:+: xs := by
  rw [after, Option.map_eq_none_iff, memmem_eq_none_iff]

/-- What comes up to the first occurrence. -/
theorem upto_append {c : α} {as : List α} (h : c ∉ as) (bs : List α) :
    upto c (as ++ c :: bs) = some as := by
  rw [upto, memchr_append h, Option.map_some, List.take_left]

/-- There is no such part where the character does not occur. -/
theorem upto_eq_none_iff {c : α} {xs : List α} : upto c xs = none ↔ c ∉ xs := by
  rw [upto, Option.map_eq_none_iff, memchr_eq_none_iff]

/-- What comes behind the last occurrence. -/
theorem behind_append {c : α} {bs : List α} (h : c ∉ bs) (as : List α) :
    behind c (as ++ c :: bs) = some bs := by
  rw [behind, memrchr_append h, Option.map_some, List.append_cons]
  exact congrArg some (List.drop_left' (by simp))

/-- There is no such part where the character does not occur. -/
theorem behind_eq_none_iff {c : α} {xs : List α} :
    behind c xs = none ↔ c ∉ xs := by
  rw [behind, Option.map_eq_none_iff, memrchr_eq_none_iff]

end search

/-! ## §4 Arrays

An array is a list of fixed length. Reading and writing are partial: a position
outside the list has no result, so a caller whose result is some value has
stayed inside its arrays. Nothing is assumed about the contents of an array
beyond what was written to it. -/

/-- `mempcpy(buf + t, src + off, n)`: the array, and the position behind what
is written. -/
def mempcpy (buf : List Char) (t : ℕ) (src : List Char) (off n : ℕ) :
    Option (List Char × ℕ) :=
  if off + n ≤ src.length ∧ t + n ≤ buf.length then
    some (buf.take t ++ (src.drop off).take n ++ buf.drop (t + n), t + n)
  else none

/-- `buf[t] = c;` -/
def store (buf : List Char) (t : ℕ) (c : Char) : Option (List Char) :=
  if t < buf.length then some (buf.set t c) else none

/-- The `n` characters from `p` on, for a search. -/
def slice (buf : List Char) (p n : ℕ) : Option (List Char) :=
  if p + n ≤ buf.length then some ((buf.drop p).take n) else none

/-- The string at `p`, none if no NUL ends it. -/
def cstring (buf : List Char) (p : ℕ) : Option (List Char) :=
  (memchr NUL (buf.drop p)).map fun n => (buf.drop p).take n

/-- The part of an array between two others. -/
theorem slice_append (as bs cs : List Char) :
    slice (as ++ (bs ++ cs)) as.length bs.length = some bs := by
  have hlen : as.length + bs.length ≤ (as ++ (bs ++ cs)).length := by
    simp only [List.length_append]
    omega
  rw [slice, if_pos hlen, List.drop_left, List.take_left]

/-- A text in the middle of an array, which ends at the first terminator. -/
theorem cstring_append {bs : List Char} (h : NUL ∉ bs) (as cs : List Char) :
    cstring (as ++ (bs ++ NUL :: cs)) as.length = some bs := by
  rw [cstring, List.drop_left, memchr_append h, Option.map_some, List.take_left]

/-- A text without a terminator is not cut. -/
theorem takeWhile_ne_NUL {bs : List Char} (h : NUL ∉ bs) :
    bs.takeWhile (· ≠ NUL) = bs := by
  rw [List.takeWhile_eq_self_iff]
  intro c hc
  rw [decide_eq_true_eq]
  rintro rfl
  exact h hc

/-- A string ends at its first NUL. -/
theorem cstring_append_takeWhile (as bs cs : List Char) :
    cstring (as ++ (bs ++ NUL :: cs)) as.length =
      some (bs.takeWhile (· ≠ NUL)) := by
  by_cases hmem : NUL ∈ bs
  · obtain ⟨us, vs, rfl, hus⟩ := List.eq_append_cons_of_mem hmem
    have htake : (us ++ NUL :: vs).takeWhile (· ≠ NUL) = us := by
      rw [List.takeWhile_append, takeWhile_ne_NUL hus]
      simp
    rw [htake, List.append_assoc, List.cons_append]
    exact cstring_append hus as _
  · rw [takeWhile_ne_NUL hmem]
    exact cstring_append hmem as cs

/-- A copy behind what was written so far. -/
theorem mempcpy_append {as bs src : List Char} {off n : ℕ}
    (hsrc : off + n ≤ src.length) (hbuf : n ≤ bs.length) :
    mempcpy (as ++ bs) as.length src off n =
      some ((as ++ (src.drop off).take n) ++ bs.drop n, as.length + n) := by
  have hlen : as.length + n ≤ (as ++ bs).length := by
    rw [List.length_append]
    omega
  rw [mempcpy, if_pos ⟨hsrc, hlen⟩, List.take_left, List.drop_append,
    Nat.add_sub_cancel_left, List.drop_eq_nil_of_le (Nat.le_add_right _ _),
    List.nil_append]

/-- A character is stored behind the first ones if the array has room for it. -/
theorem store_append {as bs : List Char} (c : Char) (hbuf : 0 < bs.length) :
    store (as ++ bs) as.length c = some (as ++ c :: bs.tail) := by
  cases bs with
  | nil => cases hbuf
  | cons b bs => simp [store]

end CString
