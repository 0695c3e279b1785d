/-
Osjitter.Pingpong.ParseArgs — the arguments of `pingpong.c`.

`parse_options` is the loop over the arguments; options with a number, options
that pick a method, and flags are each a table of names with the fields that
they set. `--pin` takes a thread and a CPU, and `defaults` fills in what is
still 0 behind the loop, and lets `-p` with `--spin-pause` mean the method with
more pauses.

A word that is read as a number is cut to 32 bits, since `atoi` is stored in an
`unsigned`. A loop that stops has a status to exit with, and for an argument
that is missing or unknown a message. The text of the help is left out.
-/
import Mathlib
import Osjitter.Lib.CString
import Osjitter.Pingpong.Methods
import Osjitter.Pingpong.Results

namespace Osjitter.Pingpong

open CString

/-! ## Arguments

The fields that the options set, all 0 at the beginning. -/

/-- The `Args` of the whole program. No method is METHOD_NULL. -/
structure GlobalArgs extends Args where
  n : UInt32
  k : UInt32
  p : UInt32
  pin : Tid → UInt32
  json : Bool
  method : Option Method
  deriving DecidableEq

/-- `*args = (const Args){0};` -/
def GlobalArgs.zero : GlobalArgs where
  tsc_khz := 0
  mult := 0
  shift := 0
  n := 0
  k := 0
  p := 0
  pin _ := 0
  json := false
  method := some .METHOD_SPIN

/-- How `parse_args` ends without arguments: in `exit`, or with `return -1`. -/
inductive Stop where
  | exit (status : Int) (stderr : String)
  | fail (stderr : String)
  deriving DecidableEq, Repr

/-- `atoi`, stored in an `unsigned`. -/
def atoi_unsigned (v : String) : UInt32 := UInt32.ofInt (atoi v.toList)

/-! ## Options

Each table has the words of one kind of option with what they do; a word that is
in none is unknown. -/

/-- The options that take a number. -/
def number_option (opt : String) : Option (UInt32 → GlobalArgs → GlobalArgs) :=
  if opt = "--khz" then some fun v args => { args with tsc_khz := v }
  else if opt = "-n" then some fun v args => { args with n := v }
  else if opt = "-k" then some fun v args => { args with k := v }
  else if opt = "-p" then some fun v args => { args with p := v }
  else none

/-- The options that select a method. -/
def method_option (opt : String) : Option (Option Method) :=
  if opt = "--spin" then some (some .METHOD_SPIN)
  else if opt = "--spin-pause" then some (some .METHOD_SPIN_PAUSE)
  else if opt = "--cv" then some (some .METHOD_COND_VAR)
  else if opt = "--null" then some none
  else if opt = "--pipe" then some (some .METHOD_PIPE)
  else if opt = "--futex" then some (some .METHOD_FUTEX)
  else if opt = "--sem" then some (some .METHOD_SEMAPHORE)
  else none

/-- The options without a value. -/
def flag_option (opt : String) : Option (GlobalArgs → GlobalArgs) :=
  if opt = "--json" then some fun args => { args with json := true }
  else (method_option opt).map fun method args => { args with method }

/-- `args->pin[j] = cpu + 1` -/
def GlobalArgs.set_pin (args : GlobalArgs) (j cpu : UInt32) : GlobalArgs :=
  { args with pin := Function.update args.pin (j = 1) (cpu + 1) }

/-! ## The loop

Words are taken from the front. An option takes as many as it needs and stops
the loop if they are not there. -/

/-- `for (int i = 1; i < argc; ++i)` -/
def parse_options : List String → GlobalArgs → Except Stop GlobalArgs
  | [], args => .ok args
  | opt :: rest, args =>
      if opt = "-h" ∨ opt = "--help" then .error (.exit 0 "")
      else if opt = "--pin" then
        match rest with
        | j :: cpu :: rest =>
            if 1 < atoi_unsigned j
              then .error (.fail "--pin THREAD CPU - 0 <= THREAD <= 1\n")
            else parse_options rest (args.set_pin (atoi_unsigned j) (atoi_unsigned cpu))
        | _ => .error (.fail "--pin THREAD CPU arguments are missing\n")
      else
        match number_option opt with
        | some set =>
            match rest with
            | v :: rest => parse_options rest (set (atoi_unsigned v) args)
            | [] => .error (.fail (opt ++ " argument is missing\n"))
        | none =>
            match flag_option opt with
            | some set => parse_options rest (set args)
            | none => .error (.exit 1 ("Unknown argument: " ++ opt ++ "\n"))

/-- The defaults behind the loop. -/
def GlobalArgs.defaults (args : GlobalArgs) : GlobalArgs :=
  let args := if args.n = 0 then { args with n := 1000000 } else args
  let args := if args.k = 0 then { args with k := 1000 } else args
  if args.method = some .METHOD_SPIN_PAUSE ∧ args.p ≠ 0 then
    { args with method := some .METHOD_SPIN_PAUSE_MORE }
  else args

/-- `parse_args` of the arguments behind the program's name. -/
def parse_args (argv : List String) : Except Stop GlobalArgs :=
  (parse_options argv .zero).map GlobalArgs.defaults

end Osjitter.Pingpong
