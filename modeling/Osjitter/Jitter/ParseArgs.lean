/-
Osjitter.Jitter.ParseArgs — the arguments of `osjitter.c` and the CPUs it
starts threads on: `parse_args`, `set_params` and `create_workers`.

A set of CPUs has room for 1024 of them, and `CPU_SET` ignores all others, as
that of glibc does. `parse_options` is the loop over the arguments, one option
with its value a turn, and stops at the first that is wrong. Numbers are read by
`atoi`, whatever stands in the text.

What the calls to the system return is in `Host` and `Calls`. The products in
double precision that give `tsc_thresh` and `tsc_runtime` are those of `Float`,
with the roundings of the source; C leaves open what comes of a value that is
too large for the integer, so that is in `Calls` as well. No value is negative.

`create_workers` is given here as the list of the CPUs on which it starts a
thread; its steps among those of the other threads are in `Jitter.Handshake`.
Left out are the text of the help and the messages of calls that fail.
-/
import Mathlib
import Osjitter.Lib.CString
import Osjitter.Util.Clock
import Osjitter.Jitter.WorkerMain

namespace Osjitter.Jitter

open CString Util

/-! ## CPU sets

A set of CPUs is a set of numbers below 1024. Putting another number in it does
nothing, and no error is reported. -/

/-- A `cpu_set_t` holds no CPU beyond its size. -/
abbrev cpu_set_t := Finset (Fin 1024)

/-- `CPU_SET`, which ignores a CPU beyond the size. -/
def CPU_SET (cpu : Int) (set : cpu_set_t) : cpu_set_t :=
  if h : 0 ≤ cpu ∧ cpu.toNat < 1024 then insert ⟨cpu.toNat, h.2⟩ set else set

/-- `CPU_ISSET`, which is false for a CPU beyond the size. -/
def CPU_ISSET (cpu : Nat) (set : cpu_set_t) : Bool :=
  if h : cpu < 1024 then decide (⟨cpu, h⟩ ∈ set) else false

/-! ## Arguments

`parse_args` clears its `Args`, goes through the words behind the name of the
program, and sets defaults for what is still 0 then. An option with an argument
is looked up with what it does to the settings, and may refuse the argument; the
other words end the program, with or without an error. -/

/-- The `Args` of the whole program. -/
structure GlobalArgs extends Args where
  cpus : UInt32
  cpu_set : cpu_set_t
  sched_policy : Int
  sched_prio : Int
  runtime_s : UInt32
  thresh_ns : UInt32
  tsc_khz : UInt32
  mult : UInt32
  shift : UInt32
  pid : Nat
  tid_off : Nat
  deriving DecidableEq

/-- `*args = (const Args){0};` -/
def GlobalArgs.zero : GlobalArgs where
  tsc_thresh := 0
  tsc_runtime := 0
  samples := 0
  cpus := 0
  cpu_set := ∅
  sched_policy := 0
  sched_prio := 0
  runtime_s := 0
  thresh_ns := 0
  tsc_khz := 0
  mult := 0
  shift := 0
  pid := 0
  tid_off := 0

/-- How `parse_args` ends without arguments: in `exit`, or by a message and
`return -1`. -/
inductive Stop where
  | exit (status : Int)
  | fail (msg : String)
  deriving DecidableEq, Repr

/-- `for (unsigned k = b; k <= e; ++k) CPU_SET(k, &args->cpu_set);` -/
def set_range (b e : Nat) (set : cpu_set_t) : cpu_set_t :=
  (List.range' b (e + 1 - b)).foldl
    (fun (set : cpu_set_t) (k : Nat) => CPU_SET k set) set

/-- The argument of `--cpu`. -/
def select_cpus (v : List Char) (set : cpu_set_t) : Except Stop cpu_set_t :=
  match memchr '-' v with
  | some p =>
      let b := UInt32.ofInt (atoi (v.take p))
      let e := UInt32.ofInt (atoi (v.drop (p + 1)))
      if 1024 ≤ b ∨ 1024 ≤ e then .error (.fail "--cpu range out of range\n")
      else .ok (set_range b.toNat e.toNat set)
  | none => .ok (CPU_SET (atoi v) set)

/-- What an option does with its argument; none for other words. -/
def parse_option (opt : String) :
    Option (List Char → GlobalArgs → Except Stop GlobalArgs) :=
  if opt = "--cpu" then
    some fun v args => (select_cpus v args.cpu_set).map
      fun set => { args with cpu_set := set }
  else if opt = "-t" then
    some fun v args => .ok { args with runtime_s := UInt32.ofInt (atoi v) }
  else if opt = "-d" then
    some fun v args => .ok { args with thresh_ns := UInt32.ofInt (atoi v) }
  else if opt = "--sched" then
    some fun v args => .ok { args with
      sched_policy := atoi v
      sched_prio := if args.sched_prio = 0 then 1 else args.sched_prio }
  else if opt = "--prio" then
    some fun v args => .ok { args with sched_prio := atoi v }
  else if opt = "--khz" then
    some fun v args => .ok { args with tsc_khz := UInt32.ofInt (atoi v) }
  else none

/-- `for (int i = 1; i < argc; ++i)` -/
def parse_options : List String → GlobalArgs → Except Stop GlobalArgs
  | [], args => .ok args
  | opt :: rest, args =>
      match parse_option opt with
      | some set =>
          match rest with
          | [] => .error (.fail (opt ++ " argument is missing\n"))
          | v :: rest =>
              match set v.toList args with
              | .ok args => parse_options rest args
              | .error stop => .error stop
      | none =>
          if opt = "-h" ∨ opt = "--help" then .error (.exit 0)
          else .error (.fail ("unknown option: " ++ opt ++ "\n"))

/-- The defaults behind the loop. -/
def GlobalArgs.defaults (args : GlobalArgs) : GlobalArgs :=
  let args := if args.runtime_s = 0 then { args with runtime_s := 10 } else args
  let args :=
    if args.thresh_ns = 0 then { args with thresh_ns := 100 } else args
  if args.samples = 0
    then { args with samples := (args.runtime_s * 105000).toUInt64 } else args

/-- `parse_args` of the arguments behind the program's name. -/
def parse_args (argv : List String) : Except Stop GlobalArgs :=
  (parse_options argv .zero).map GlobalArgs.defaults

/-! ## Parameters

`set_params` asks the machine what the options leave open: which CPUs are
online, and the frequency of the TSC. It converts the threshold and the runtime
to cycles in double precision, where the rounding is that of Lean's `Float`, and
the result is cut to an integer that may be too small for it. -/

/-- The CPUs of a machine: how many are configured, and which are online. -/
structure Host where
  cpus : UInt32
  online : Nat → Bool

/-- How the creation of a thread ends: it may fail before the thread is
started, or after. -/
inductive Create where
  | ok
  | before
  | after
  deriving DecidableEq, Repr

/-- What the calls of a run return, and what a conversion from a `double` gives
that is out of the range of the integer. -/
structure Calls where
  is_cpu_online_fails : Nat → Bool
  get_tsc_khz : Option UInt32
  unspecified32 : UInt32
  unspecified64 : UInt64
  pid : Nat
  tid_off : Nat
  create : Nat → Create

/-- The online CPUs of `ks`; none if a call fails. -/
def set_online (host : Host) (calls : Calls) :
    List Nat → cpu_set_t → Option cpu_set_t
  | [], set => some set
  | k :: ks, set =>
      if calls.is_cpu_online_fails k then none
      else set_online host calls ks (if host.online k then CPU_SET k set else set)

/-- `if (!CPU_COUNT(&args->cpu_set)) …`. The loop runs while `k <= cpus`, so
it does not end for the largest `cpus`. -/
def default_cpu_set (host : Host) (calls : Calls) (set : cpu_set_t) :
    Option cpu_set_t :=
  if set = ∅ then
    if host.cpus.toNat = 2 ^ 32 - 1 then none
    else set_online host calls (List.range (host.cpus.toNat + 1)) set
  else some set

/-- `if (!args->tsc_khz) …` -/
def tsc_rate (calls : Calls) (tsc_khz : UInt32) : Option UInt32 :=
  if tsc_khz = 0 then calls.get_tsc_khz else some tsc_khz

/-- `(uint32_t) e`, for an `e` that is not negative. -/
def double_to_uint32 (calls : Calls) (e : Float) : UInt32 :=
  if e < 4294967296 then e.toUInt32 else calls.unspecified32

/-- `(uint64_t) d`, for a `d` that is not negative. -/
def double_to_uint64 (calls : Calls) (d : Float) : UInt64 :=
  if d < 18446744073709551616 then d.toUInt64 else calls.unspecified64

/-- The threshold in cycles. -/
def set_tsc_thresh (calls : Calls) (tsc_khz thresh_ns : UInt32) : UInt32 :=
  let d : Float := 1000000000
  let d := d / thresh_ns.toFloat
  let e := tsc_khz.toFloat
  let e := e * 1000
  let e := e / d
  double_to_uint32 calls e

/-- The runtime in cycles. -/
def set_tsc_runtime (calls : Calls) (tsc_khz runtime_s : UInt32) : UInt64 :=
  let d := tsc_khz.toFloat
  let d := d * 1000
  let d := d * runtime_s.toFloat
  double_to_uint64 calls d

/-- `set_params` of `osjitter.c`; none if a call fails or the loop over the CPUs
does not end. -/
def set_params (host : Host) (calls : Calls) (args : GlobalArgs) :
    Option GlobalArgs := do
  let args :=
    { args with pid := calls.pid, tid_off := calls.tid_off, cpus := host.cpus }
  let set ← default_cpu_set host calls args.cpu_set
  let khz ← tsc_rate calls args.tsc_khz
  let factors := clocks_calc_mult_shift khz 1000000 0
  some { args with
    cpu_set := set
    tsc_khz := khz
    mult := factors.1
    shift := factors.2
    tsc_thresh := set_tsc_thresh calls khz args.thresh_ns
    tsc_runtime := set_tsc_runtime calls khz args.runtime_s }

/-! ## Workers

Threads are created in the order of the CPUs, for those in the set that the
machine has. The first call that fails ends it, maybe after its thread was
started. -/

/-- The CPUs of `cpus` on which `create_workers` starts a thread, and whether
it returns 0. -/
def create_workers (set : cpu_set_t) (calls : Calls) :
    List Nat → List Nat × Bool
  | [] => ([], true)
  | cpu :: cpus =>
      if CPU_ISSET cpu set then
        match calls.create cpu with
        | .ok =>
            let rest := create_workers set calls cpus
            (cpu :: rest.1, rest.2)
        | .before => ([], false)
        | .after => ([cpu], false)
      else create_workers set calls cpus

/-- The CPUs on which `main` starts a pinned thread. -/
def started (argv : List String) (host : Host) (calls : Calls) : List Nat :=
  match parse_args argv with
  | .error _ => []
  | .ok args =>
      match set_params host calls args with
      | none => []
      | some args =>
        (create_workers args.cpu_set calls (List.range args.cpus.toNat)).1

end Osjitter.Jitter
