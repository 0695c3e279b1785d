/-
Osjitter.Pingpong.ParseArgsTheorems — what the command lines of `pingpong` mean.

  §1 A command line is a list of options (`Opt`), written down by `words`. Those
     that the loop takes (`Opt.Valid`) have an effect on `Args` each.
  §2 The loop goes through the words of valid options (`parse_options_words`),
     and stops at the first words that are not (`Stops`,
     `parse_options_stops`), with the message that they deserve.
  §3 `read_options` reads the options back, so no command line is two lists of
     options (`Reads.eq`).
  §4 An option counts where it occurs last: `settings` says so of a list of
     options, field by field, and `foldl_effect` that the loop does it.
  §5 `parse_args_iff`: the accepted command lines are the words of valid
     options, and the arguments are their settings with the defaults.
     `parse_args_checked` is what holds of all arguments that are accepted
     (`Checked`): the numbers that have a default are not 0, and `-p` is left
     only with a method that uses it.

Nothing is asked of the numbers: any word may stand for one, as `atoi` reads it.
-/
import Osjitter.Pingpong.ParseArgs

namespace Osjitter.Pingpong

open CString

/-! ## §1 Options

An option is a word with its arguments, which may be any words. The parser's
tables are turned into one effect, total on all options, which is what the table
does for those that it has. -/

/-- An option on the command line. -/
inductive Opt where
  | number (opt v : String)
  | pin (thread cpu : String)
  | flag (opt : String)
  deriving DecidableEq, Repr

/-- How an option is written. -/
def Opt.words : Opt → List String
  | .number opt v => [opt, v]
  | .pin thread cpu => ["--pin", thread, cpu]
  | .flag opt => [opt]

/-- The words of a command line. -/
def words (os : List Opt) : List String := os.flatMap Opt.words

/-- Options with a number. -/
def number_words : List String := ["--khz", "-n", "-k", "-p"]

/-- Options without an argument. -/
def flag_words : List String :=
  ["--json", "--spin", "--spin-pause", "--cv", "--null", "--pipe", "--futex", "--sem"]

/-- The options that the loop takes. -/
def Opt.Valid : Opt → Prop
  | .number opt _ => opt ∈ number_words
  | .pin thread _ => atoi_unsigned thread ≤ 1
  | .flag opt => opt ∈ flag_words

/-- The value of the option `opt`. -/
def Opt.number? (opt : String) : Opt → Option UInt32
  | .number o v => if o = opt then some (atoi_unsigned v) else none
  | _ => none

/-- The entry of `pin` for thread `j`. -/
def Opt.pin? (j : Tid) : Opt → Option UInt32
  | .pin thread cpu =>
      if j = decide (atoi_unsigned thread = 1)
        then some (atoi_unsigned cpu + 1) else none
  | _ => none

/-- The method that an option picks, if it picks one. -/
def Opt.method? : Opt → Option (Option Method)
  | .flag opt => method_option opt
  | _ => none

/-- What an option does, field by field. -/
def Opt.effect (args : GlobalArgs) (o : Opt) : GlobalArgs :=
  { args with
    tsc_khz := (o.number? "--khz").getD args.tsc_khz
    n := (o.number? "-n").getD args.n
    k := (o.number? "-k").getD args.k
    p := (o.number? "-p").getD args.p
    pin := fun j => (o.pin? j).getD (args.pin j)
    json := if o = .flag "--json" then true else args.json
    method := o.method?.getD args.method }

/-- The table of numbers does what the effects say. -/
theorem number_option_of_mem {opt : String} (h : opt ∈ number_words) : ∃ set,
    number_option opt = some set ∧
      ∀ v args, set (atoi_unsigned v) args = (Opt.number opt v).effect args := by
  simp only [number_words, List.mem_cons, List.not_mem_nil, or_false] at h
  obtain rfl | rfl | rfl | rfl := h
  all_goals exact ⟨_, rfl, fun v args => rfl⟩

/-- It has no other words. -/
theorem number_option_of_notMem {opt : String} (h : opt ∉ number_words) :
    number_option opt = none := by
  simp only [number_words, List.mem_cons, List.not_mem_nil, or_false, not_or]
    at h
  obtain ⟨hkhz, hn, hk, hp⟩ := h
  simp only [number_option, if_neg hkhz, if_neg hn, if_neg hk, if_neg hp]

/-- The table of flags does what the effects say. -/
theorem flag_option_of_mem {opt : String} (h : opt ∈ flag_words) : ∃ set,
    flag_option opt = some set ∧
      ∀ args, set args = (Opt.flag opt).effect args := by
  simp only [flag_words, List.mem_cons, List.not_mem_nil, or_false] at h
  obtain rfl | rfl | rfl | rfl | rfl | rfl | rfl | rfl := h
  all_goals exact ⟨_, rfl, fun args => rfl⟩

/-- It has no other words. -/
theorem flag_option_of_notMem {opt : String} (h : opt ∉ flag_words) :
    flag_option opt = none := by
  simp only [flag_words, List.mem_cons, List.not_mem_nil, or_false, not_or] at h
  obtain ⟨hjson, hspin, hpause, hcv, hnull, hpipe, hfutex, hsem⟩ := h
  simp only [flag_option, method_option, if_neg hjson, if_neg hspin,
    if_neg hpause, if_neg hcv, if_neg hnull, if_neg hpipe, if_neg hfutex,
    if_neg hsem, Option.map_none]

/-- So does `--pin`. -/
theorem set_pin_eq (args : GlobalArgs) (thread cpu : String) :
    args.set_pin (atoi_unsigned thread) (atoi_unsigned cpu) =
      (Opt.pin thread cpu).effect args := by
  have hpin : Function.update args.pin (atoi_unsigned thread = 1)
      (atoi_unsigned cpu + 1) =
      fun j => ((Opt.pin thread cpu).pin? j).getD (args.pin j) := by
    funext j
    by_cases hj : j = decide (atoi_unsigned thread = 1)
    · simp [Opt.pin?, hj]
    · simp [Opt.pin?, hj]
  rw [GlobalArgs.set_pin, hpin]
  rfl

/-! ## §2 The loop

The tables have no word in common, so the order in which the loop asks them does
not matter. It goes on behind a valid option, and stops for a reason that
depends on the words in front alone. -/

/-- The other words that the loop knows. -/
def other_words : List String := ["--pin", "-h", "--help"]

/-- Words of numbers are in no other table. -/
theorem number_words_other {opt : String} (h : opt ∈ number_words) :
    opt ∉ other_words ∧ opt ∉ flag_words := by
  simp only [number_words, List.mem_cons, List.not_mem_nil, or_false] at h
  obtain rfl | rfl | rfl | rfl := h
  all_goals decide

/-- Words of flags are in no other table. -/
theorem flag_words_other {opt : String} (h : opt ∈ flag_words) :
    opt ∉ other_words ∧ opt ∉ number_words := by
  simp only [flag_words, List.mem_cons, List.not_mem_nil, or_false] at h
  obtain rfl | rfl | rfl | rfl | rfl | rfl | rfl | rfl := h
  all_goals decide

/-- Words with which the loop stops. -/
inductive Stops : List String → Stop → Prop
  | help {opt rest} :
  opt = "-h" ∨ opt = "--help" → Stops (opt :: rest) (.exit 0 "")
  | missing {opt} : opt ∈ number_words →
    Stops [opt] (.fail (opt ++ " argument is missing\n"))
  | pin {rest} : rest.length < 2 →
      Stops ("--pin" :: rest) (.fail "--pin THREAD CPU arguments are missing\n")
  | thread {thread cpu rest} : 1 < atoi_unsigned thread →
      Stops ("--pin" :: thread :: cpu :: rest)
        (.fail "--pin THREAD CPU - 0 <= THREAD <= 1\n")
  | unknown {opt rest} : opt ∉ other_words → opt ∉ number_words →
    opt ∉ flag_words →
      Stops (opt :: rest) (.exit 1 ("Unknown argument: " ++ opt ++ "\n"))

/-- A word that is none of these is neither the help nor `--pin`. -/
theorem not_other {opt : String} (h : opt ∉ other_words) :
    ¬ (opt = "-h" ∨ opt = "--help") ∧ opt ≠ "--pin" := by
  simp only [other_words, List.mem_cons, List.not_mem_nil, or_false, not_or]
    at h
  exact ⟨not_or.mpr h.2, h.1⟩

/-- One turn of the loop. -/
theorem parse_options_cons {o : Opt} (h : o.Valid) (rest : List String)
    (args : GlobalArgs) :
    parse_options (o.words ++ rest) args =
      parse_options rest (o.effect args) := by
  cases o with
  | number opt v =>
    obtain ⟨hhelp, hpin⟩ := not_other (number_words_other h).1
    obtain ⟨set, hset, heffect⟩ := number_option_of_mem h
    rw [Opt.words, List.cons_append, List.cons_append, List.nil_append,
      parse_options.eq_def]
    simp only [hhelp, hpin, hset, if_false, heffect]
  | pin thread cpu =>
    have hthread : ¬ 1 < atoi_unsigned thread := UInt32.not_lt.mpr h
    rw [← set_pin_eq]
    simp [Opt.words, parse_options, hthread]
  | flag opt =>
    obtain ⟨hhelp, hpin⟩ := not_other (flag_words_other h).1
    obtain ⟨set, hset, heffect⟩ := flag_option_of_mem h
    rw [Opt.words, List.cons_append, List.nil_append, parse_options.eq_def]
    simp only [hhelp, hpin, number_option_of_notMem (flag_words_other h).2,
      hset, if_false, heffect]

/-- The loop over valid options. -/
theorem parse_options_words {os : List Opt} (h : ∀ o ∈ os, o.Valid)
    (rest : List String) (args : GlobalArgs) :
    parse_options (words os ++ rest) args =
      parse_options rest (os.foldl Opt.effect args) := by
  induction os generalizing args with
  | nil => rfl
  | cons o os ih =>
    obtain ⟨ho, hos⟩ := List.forall_mem_cons.mp h
    rw [words, List.flatMap_cons, List.append_assoc, parse_options_cons ho,
      List.foldl_cons]
    exact ih hos _

/-- The last turn. -/
theorem parse_options_stops {rest : List String} {stop : Stop}
    (h : Stops rest stop) (args : GlobalArgs) :
    parse_options rest args = .error stop := by
  cases h with
  | help hopt =>
    rw [parse_options.eq_def]
    simp only [hopt, if_true]
  | missing hopt =>
    obtain ⟨hhelp, hpin⟩ := not_other (number_words_other hopt).1
    obtain ⟨set, hset, -⟩ := number_option_of_mem hopt
    rw [parse_options.eq_def]
    simp only [hhelp, hpin, hset, if_false]
  | @pin rest hlen =>
    match rest, hlen with
    | [], _ | [_], _ => simp [parse_options]
  | thread hthread => simp [parse_options, hthread]
  | unknown hother hnumber hflag =>
    obtain ⟨hhelp, hpin⟩ := not_other hother
    rw [parse_options.eq_def]
    simp only [hhelp, hpin, number_option_of_notMem hnumber,
      flag_option_of_notMem hflag, if_false]

/-! ## §3 Reading the options

Words determine options: the first word says what kind it is, and how many words
belong to it. So no command line is that of two lists of valid options. -/

/-- The options at the front of a command line, and what follows them. -/
def read_options : List String → List Opt × List String
  | [] => ([], [])
  | opt :: rest =>
      if opt = "--pin" then
        match rest with
        | thread :: cpu :: rest =>
            if atoi_unsigned thread ≤ 1 then
              (.pin thread cpu :: (read_options rest).1, (read_options rest).2)
            else ([], opt :: thread :: cpu :: rest)
        | rest => ([], opt :: rest)
      else if opt ∈ number_words then
        match rest with
        | v :: rest =>
          (.number opt v :: (read_options rest).1, (read_options rest).2)
        | [] => ([], [opt])
      else if opt ∈ flag_words
        then (.flag opt :: (read_options rest).1, (read_options rest).2)
      else ([], opt :: rest)

/-- `argv` is the words of valid options, behind which the loop ends. -/
structure Reads (argv : List String) (os : List Opt)
    (rest : List String) : Prop where
  text : words os ++ rest = argv
  valid : ∀ o ∈ os, o.Valid
  halts : rest = [] ∨ ∃ stop, Stops rest stop

/-- A valid option in front. -/
theorem Reads.cons {o : Opt} {argv rest : List String} {os : List Opt}
    (ho : o.Valid) (h : Reads argv os rest) :
    Reads (o.words ++ argv) (o :: os) rest where
  text := by rw [words, List.flatMap_cons, List.append_assoc, ← words, h.text]
  valid := List.forall_mem_cons.mpr ⟨ho, h.valid⟩
  halts := h.halts

/-- Words at which the loop stops. -/
theorem Reads.stop {rest : List String} {stop : Stop} (h : Stops rest stop) :
    Reads rest [] rest :=
  ⟨rfl, by simp, .inr ⟨stop, h⟩⟩

/-- The loop stops at a word that is no option. -/
theorem Reads.unknown {opt : String} {rest : List String} (hpin : opt ≠ "--pin")
    (hnumber : opt ∉ number_words) (hflag : opt ∉ flag_words) :
    Reads (opt :: rest) [] (opt :: rest) := by
  by_cases hhelp : opt = "-h" ∨ opt = "--help"
  · exact .stop (.help hhelp)
  · refine .stop (.unknown ?_ hnumber hflag)
    simp only [other_words, List.mem_cons, List.not_mem_nil, or_false, not_or]
    exact ⟨hpin, not_or.mp hhelp⟩

/-- The function reads as the relation says. -/
theorem reads_read_options (argv : List String) :
    Reads argv (read_options argv).1 (read_options argv).2 := by
  fun_induction read_options argv with
  | case1 => exact ⟨rfl, by simp, .inl rfl⟩
  | case2 thread cpu rest hthread ih =>
    exact ih.cons (o := .pin thread cpu) hthread
  | case3 thread cpu rest hthread =>
    exact .stop (.thread (UInt32.not_le.mp hthread))
  | case4 rest hrest =>
    refine .stop (.pin ?_)
    match rest, hrest with
    | [], _ | [_], _ => simp
    | thread :: cpu :: rest, hrest => exact absurd rfl (hrest thread cpu rest)
  | case5 opt hpin hnumber v rest ih =>
    exact ih.cons (o := .number opt v) hnumber
  | case6 opt hpin hnumber => exact .stop (.missing hnumber)
  | case7 opt rest hpin hnumber hflag ih => exact ih.cons (o := .flag opt) hflag
  | case8 opt rest hpin hnumber hflag => exact .unknown hpin hnumber hflag

/-- A word that is none of these is not `--pin`. -/
theorem not_pin {opt : String} (h : opt ∉ other_words) : opt ≠ "--pin" :=
  (not_other h).2

/-- A valid option is read. -/
theorem read_options_cons {o : Opt} (h : o.Valid) (rest : List String) :
    read_options (o.words ++ rest) =
      (o :: (read_options rest).1, (read_options rest).2) := by
  cases o with
  | number opt v =>
    have hpin := not_pin (number_words_other h).1
    have hnumber : opt ∈ number_words := h
    rw [Opt.words, List.cons_append, List.cons_append, List.nil_append,
      read_options.eq_def]
    simp only [hpin, hnumber, if_false, if_true]
  | pin thread cpu =>
    have hthread : atoi_unsigned thread ≤ 1 := h
    rw [Opt.words, List.cons_append, List.cons_append, List.cons_append,
      List.nil_append, read_options.eq_def]
    simp only [hthread, if_true]
  | flag opt =>
    obtain ⟨hother, hnumber⟩ := flag_words_other h
    have hflag : opt ∈ flag_words := h
    rw [Opt.words, List.cons_append, List.nil_append, read_options.eq_def]
    simp only [not_pin hother, hnumber, hflag, if_false, if_true]

/-- Nothing is read where the loop stops. -/
theorem read_options_stops {rest : List String} {stop : Stop}
    (h : Stops rest stop) : read_options rest = ([], rest) := by
  cases h with
  | help hopt =>
    rw [read_options.eq_def]
    rcases hopt with rfl | rfl <;> simp [number_words, flag_words]
  | missing hopt =>
    rw [read_options.eq_def]
    simp only [not_pin (number_words_other hopt).1, hopt, if_false, if_true]
  | @pin rest hlen =>
    match rest, hlen with
    | [], _ | [_], _ => simp [read_options]
  | thread hthread => simp [read_options, UInt32.not_le.mpr hthread]
  | unknown hother hnumber hflag =>
    rw [read_options.eq_def]
    simp only [not_pin hother, hnumber, hflag, if_false]

/-- **Reading back what was written**, so there is one way to read a command
line. -/
theorem Reads.eq {argv rest : List String} {os : List Opt}
    (h : Reads argv os rest) : read_options argv = (os, rest) := by
  obtain ⟨rfl, hvalid, hhalts⟩ := h
  induction os with
  | nil =>
    rcases hhalts with rfl | ⟨stop, hstop⟩
    · rfl
    · exact read_options_stops hstop
  | cons o os ih =>
    obtain ⟨ho, hos⟩ := List.forall_mem_cons.mp hvalid
    rw [words, List.flatMap_cons, List.append_assoc, read_options_cons ho,
      ← words, ih hos]

/-! ## §4 The last of each kind

Each field is set by options of one kind and overwritten by later ones, so its
value is that of the last of them, or what it was before. -/

/-- The value of the last option that has one. -/
def last {α : Type} (f : Opt → Option α) (os : List Opt) (d : α) : α :=
  ((os.filterMap f).getLast?).getD d

/-- The last option counts if it is of the kind. -/
theorem last_concat {α : Type} (f : Opt → Option α) (os : List Opt)
    (o : Opt) (d : α) : last f (os ++ [o]) d = (f o).getD (last f os d) := by
  unfold last
  cases hf : f o <;> simp [hf]

/-- The arguments that the options of a command line set. -/
def settings (os : List Opt) : GlobalArgs where
  tsc_khz := last (Opt.number? "--khz") os 0
  mult := 0
  shift := 0
  n := last (Opt.number? "-n") os 0
  k := last (Opt.number? "-k") os 0
  p := last (Opt.number? "-p") os 0
  pin j := last (Opt.pin? j) os 0
  json := decide (Opt.flag "--json" ∈ os)
  method := last Opt.method? os (some .METHOD_SPIN)

/-- By induction from the end, since the last option counts. -/
theorem foldl_effect (os : List Opt) :
    os.foldl Opt.effect .zero = settings os := by
  induction os using List.reverseRecOn with
  | nil => rfl
  | append_singleton os o ih =>
    rw [List.foldl_append, List.foldl_cons, List.foldl_nil, ih]
    simp only [Opt.effect, settings, last_concat, GlobalArgs.mk.injEq,
      true_and, and_true]
    by_cases ho : o = .flag "--json" <;> simp [ho, eq_comm]

/-! ## §5 Command lines

`settings` of the options and the defaults behind the loop are what an accepted
command line means. -/

/-- **What a command line means.** Every command line is in exactly one way the
words of valid options, followed by nothing or by words with which the loop
stops. In the first case its arguments are those of the last option of each
kind, with the defaults; in the other case the first words that are not those of
a valid option say how the program ends. -/
theorem parse_args_iff (argv : List String) :
    (∃! r : List Opt × List String, Reads argv r.1 r.2) ∧
      ∀ os rest, Reads argv os rest →
        (rest = [] → parse_args argv = .ok (settings os).defaults) ∧
          ∀ stop, Stops rest stop → parse_args argv = .error stop := by
  refine ⟨⟨read_options argv, reads_read_options argv, ?_⟩, ?_⟩
  · rintro ⟨os, rest⟩ h
    exact h.eq.symm
  · intro os rest h
    have hparse : parse_args argv =
        (parse_options rest (settings os)).map GlobalArgs.defaults := by
      rw [parse_args, ← h.text, parse_options_words h.valid, foldl_effect]
    refine ⟨?_, fun stop hstop => ?_⟩
    · rintro rfl
      rw [hparse]
      rfl
    · rw [hparse, parse_options_stops hstop]
      rfl

/-- What the defaults and the last rule of `parse_args` establish. -/
structure Checked (args : GlobalArgs) : Prop where
  n : args.n ≠ 0
  k : args.k ≠ 0
  pause : args.method = some .METHOD_SPIN_PAUSE → args.p = 0

/-- The defaults leave no number at 0 that must not be. -/
theorem GlobalArgs.defaults_checked (args : GlobalArgs) :
    Checked args.defaults := by
  by_cases hm : args.method = some .METHOD_SPIN_PAUSE ∧ args.p ≠ 0
  · constructor <;> by_cases hn : args.n = 0 <;> by_cases hk : args.k = 0 <;>
      simp [defaults, hn, hk, hm]
  · constructor <;> by_cases hn : args.n = 0 <;> by_cases hk : args.k = 0 <;>
      simp [defaults, hn, hk, hm]
    all_goals
      intro hmethod
      exact not_not.mp fun hp => hm ⟨hmethod, hp⟩

/-- **Accepted arguments are checked.** -/
theorem parse_args_checked {argv : List String} {args : GlobalArgs}
    (h : parse_args argv = .ok args) : Checked args := by
  unfold parse_args at h
  cases hopts : parse_options argv .zero with
  | ok a =>
    rw [hopts] at h
    cases h
    exact a.defaults_checked
  | error stop =>
    rw [hopts] at h
    cases h

/-- A method given twice, and a default behind the loop. -/
example :
    (parse_args ["--futex", "-n", "8", "--spin-pause", "--pin", "1", "3", "-p",
      "2", "-n",
    "0"]).map (fun args => (args.n, args.k, args.pin true, args.method)) =
      .ok (1000000, 1000, 4, some .METHOD_SPIN_PAUSE_MORE) := rfl

end Osjitter.Pingpong
