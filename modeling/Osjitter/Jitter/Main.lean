/-
Osjitter.Jitter.Main — `main` of `osjitter.c`, from the command line to the
table.

  §1 What is read before the threads are created: `check_cpuinfo`, which asks
     for a TSC that is constant and does not stop, `is_cpu_online`, and the
     search for the thread id in `get_tid_off`. `pthread_to_tid_eq` says when
     that search finds it.
  §2 The program: `params` is all that happens before the threads, and
     `main_prints` a run of theirs that returns 0 with a table.
  §3 When `main` comes to its threads: `Steady` of the features of the CPU,
     `Listed` of the files about the CPUs, `Frequency` of the TSC. `params_iff`
     puts them together, and `configured` is what they make of the arguments.
     `main_comes_to_end` gives every accepted command line the bound and the
     progress of `Jitter.Termination`: its capacity fits (`params_fit`).
  §4 The tables of `main`. `Covered` says which CPUs are measured, for any text
     behind `--cpu`: those selected, or those online where none is.
     `main_table_iff` is the result, from the command line to the rows, in both
     directions; `main_table_two` is a command line with its one row.

What files, commands and calls yield is in `System`, with the value of a
conversion that C does not define. Other values than 0 that `main` returns are
states of the machine of `Jitter.Handshake`; the messages are left out.
-/
import Mathlib
import Osjitter.Util.TscKhz
import Osjitter.Jitter.Capacity
import Osjitter.Jitter.Termination

namespace Osjitter.Jitter

open Machines Util CString

/-! ## §1 Files

What a file or a pipeline yields is given as its lines or its text, with the
calls that may fail. The thread id is found by comparing the memory of the
program with it, word by word, from the address of the `pthread_t` on. -/

/-- What the pipeline over `/proc/cpuinfo` yields: the lines that `getline`
returns up to an error or the end. -/
inductive CpuInfo where
  | popen_fails
  | lines (ls : List (List Char)) (error pclose_fails : Bool)
  deriving DecidableEq, Repr

/-- `!strcmp(line, s)` -/
def strcmp_eq (line : List Char) (s : String) : Bool :=
  line.takeWhile (· ≠ NUL) = s.toList

/-- The loop of `check_cpuinfo`: `constant_tsc` and `nonstop_tsc` behind it. -/
def scan_flags : List (List Char) → Bool × Bool → Bool × Bool
  | [], flags => flags
  | line :: ls, (constant_tsc, nonstop_tsc) =>
      let constant_tsc :=
        if strcmp_eq line "constant_tsc\n" then true else constant_tsc
      let nonstop_tsc :=
        if strcmp_eq line "nonstop_tsc\n" then true else nonstop_tsc
      scan_flags ls (constant_tsc, nonstop_tsc)

/-- The return value, and what is written to `stderr` but for `perror`. -/
def check_cpuinfo : CpuInfo → Int × String
  | .popen_fails => (-1, "")
  | .lines ls error pclose_fails =>
      let (constant_tsc, nonstop_tsc) := scan_flags ls (false, false)
      if error then (-1, "")
      else if pclose_fails then (-1, "")
      else
        let (r, stderr) :=
          if constant_tsc then ((0 : Int), "")
            else (1, "CPU doesn't support a constant TSC\n")
        if nonstop_tsc then (r, stderr)
          else (1, stderr ++ "CPU's TSC stops in sleep states\n")

/-- What `/sys/devices/system/cpu/cpu%u/online` yields. -/
inductive OnlineFile where
  | noent
  | open_fails
  | read_fails
  | contents (s : List Char) (close_fails : Bool)
  deriving DecidableEq, Repr

/-- The return value, and `*b`. -/
def is_cpu_online (file : OnlineFile) (b : Bool) : Int × Bool :=
  match file with
  | .noent => (0, true)
  | .open_fails => (-1, b)
  | .read_fails => (-1, b)
  | .contents s close_fails =>
      -- `read` of up to 2 bytes into `char buf[2] = {0};`
      let buf := s.take 2 ++ List.replicate (2 - s.length) NUL
      (if close_fails then -1 else 0, buf[0]? = some '1' && buf[1]? = some '\n')

/-- `memory p` is the unsigned at the byte `p` of the thread's own block. -/
def get_tid_off (memory : Nat → UInt32) (pid : UInt32) : Nat :=
  ((List.range' 128 224 4).find? fun p => memory p = pid).getD 0

/-- The word at the offset that the search found. -/
def pthread_to_tid (memory : Nat → UInt32) (off : Nat) : UInt32 := memory off

/-- **The thread id is found** if every block holds it at the same place, and no
word before it is the process id. -/
theorem pthread_to_tid_eq {memory memory' : Nat → UInt32}
    {pid tid : UInt32} {d : Nat} (hd : d ∈ List.range' 128 224 4)
    (hpid : memory d = pid)
    (hfirst : ∀ p ∈ List.range' 128 224 4, p < d → memory p ≠ pid)
    (htid : memory' d = tid) :
    pthread_to_tid memory' (get_tid_off memory pid) = tid := by
  obtain ⟨as, bs, hsplit⟩ := List.append_of_mem hd
  have hsorted : (List.range' 128 224 4).Pairwise (· < ·) :=
    List.pairwise_lt_range' 4 (by decide)
  have hfind : (List.range' 128 224 4).find? (fun p => memory p = pid) =
      some d := by
    rw [List.find?_eq_some_iff_append]
    refine ⟨by simpa using hpid, as, bs, hsplit, fun p hp => ?_⟩
    have hlt : p < d := by
      rw [hsplit] at hsorted
      exact (List.pairwise_append.mp hsorted).2.2 p hp d List.mem_cons_self
    have hmem : p ∈ List.range' 128 224 4 := by
      rw [hsplit]
      exact List.mem_append_left _ hp
    simpa using hfirst p hmem hlt
  rw [get_tid_off, hfind, pthread_to_tid, Option.getD_some, htid]

/-! ## §2 The program

`main` returns before its threads are created if something is missing, and the
model of `params` has no result then. Behind that it is the machine of
`Jitter.Handshake`, started with what `params` has left. -/

/-- The system that `main` runs on. -/
structure System where
  cpuinfo : CpuInfo
  cpus : UInt32
  online : Nat → OnlineFile
  buf : List Char
  sources : Sources
  unspecified32 : UInt32
  unspecified64 : UInt64
  pid : UInt32
  memory : Nat → UInt32
  calloc_fails : Bool

/-- The machine, as `set_params` sees it. -/
def System.host (sys : System) : Host where
  cpus := sys.cpus
  online k := (is_cpu_online (sys.online k) false).2

/-- The frequency, if `get_tsc_khz` finds one. -/
def System.get_tsc_khz (sys : System) : Option UInt32 :=
  match Util.get_tsc_khz sys.buf sys.sources with
  | none => none
  | some (r, khz) => if r < 0 then none else some khz

/-- What the calls of `set_params` return. -/
def System.calls (sys : System) : Calls where
  is_cpu_online_fails k := (is_cpu_online (sys.online k) false).1 ≠ 0
  get_tsc_khz := sys.get_tsc_khz
  unspecified32 := sys.unspecified32
  unspecified64 := sys.unspecified64
  pid := sys.pid.toNat
  tid_off := get_tid_off sys.memory sys.pid
  create _ := .ok

/-- The arguments with which `main` comes to `create_workers`; none if it
returns before, or never comes there. -/
def params (argv : List String) (sys : System) : Option GlobalArgs :=
  if (check_cpuinfo sys.cpuinfo).1 ≠ 0 then none
  else
    match parse_args argv with
    | .error _ => none
    | .ok args =>
        match set_params sys.host sys.calls args with
        | none => none
        | some args => if sys.calloc_fails then none else some args

/-- `main` can return 0 with a table of the rows `rs`. -/
def main_prints (argv : List String) (sys : System)
    (rs : List (Nat × Row)) : Prop :=
  ∃ args h s, params argv sys = some args ∧
    Run (osjitter args) (fun _ _ => True) h s ∧
    s.main = .ret 0 ∧ table h = rs

/-! ## §3 The way to the threads

Each condition is stated of what the system has, and is proved to be what the
code tests: the flags of the processor, the files of the CPUs that have to be
read, the sources of the frequency. A frequency in the arguments needs no
source, and a set that is not empty needs no files. -/

/-- A flag is found if one of the lines is that flag. -/
theorem scan_flags_eq (ls : List (List Char)) (flags : Bool × Bool) :
    scan_flags ls flags = (flags.1 || ls.any (strcmp_eq · "constant_tsc\n"),
      flags.2 || ls.any (strcmp_eq · "nonstop_tsc\n")) := by
  induction ls generalizing flags with
  | nil => simp [scan_flags]
  | cons line ls ih =>
    rw [scan_flags, ih, List.any_cons, List.any_cons]
    cases strcmp_eq line "constant_tsc\n" <;>
      cases strcmp_eq line "nonstop_tsc\n" <;> simp

/-- Both features are among the lines, and these were read to their end. -/
def Steady (cpuinfo : CpuInfo) : Prop :=
  ∃ ls, cpuinfo = .lines ls false false ∧
    (∃ l ∈ ls, strcmp_eq l "constant_tsc\n" = true) ∧
    ∃ l ∈ ls, strcmp_eq l "nonstop_tsc\n" = true

/-- The check succeeds for a TSC with both features. -/
theorem check_cpuinfo_iff (cpuinfo : CpuInfo) :
    (check_cpuinfo cpuinfo).1 = 0 ↔ Steady cpuinfo := by
  cases cpuinfo with
  | popen_fails => simp [check_cpuinfo, Steady]
  | lines ls error pclose_fails =>
    have hsteady : Steady (.lines ls error pclose_fails) ↔ error = false ∧
        pclose_fails = false ∧
        ls.any (strcmp_eq · "constant_tsc\n") = true ∧
        ls.any (strcmp_eq · "nonstop_tsc\n") = true := by
      rw [List.any_eq_true, List.any_eq_true]
      constructor
      · rintro ⟨ls', heq, hconstant, hnonstop⟩
        obtain ⟨rfl, rfl, rfl⟩ := CpuInfo.lines.inj heq
        exact ⟨rfl, rfl, hconstant, hnonstop⟩
      · rintro ⟨rfl, rfl, hflags⟩
        exact ⟨ls, rfl, hflags⟩
    rw [hsteady]
    simp only [check_cpuinfo, scan_flags_eq, Bool.false_or]
    cases error
    · cases pclose_fails
      · cases ls.any (strcmp_eq · "constant_tsc\n") <;>
          cases ls.any (strcmp_eq · "nonstop_tsc\n") <;> simp
      · simp
    · simp

/-- **The two bytes of the file.** -/
theorem is_cpu_online_eq (file : OnlineFile) (b : Bool) :
    is_cpu_online file b = (0, true) ↔
      file = .noent ∨ ∃ rest, file = .contents ('1' :: '\n' :: rest) false := by
  cases file with
  | noent => simp [is_cpu_online]
  | open_fails => simp [is_cpu_online]
  | read_fails => simp [is_cpu_online]
  | contents s close_fails =>
    constructor
    · intro h
      simp only [is_cpu_online, Prod.mk.injEq] at h
      obtain ⟨hclose, hbytes⟩ := h
      right
      match s, hbytes with
      | [], hbytes => simp [NUL] at hbytes
      | [x], hbytes => simp [NUL] at hbytes
      | x :: y :: rest, hbytes =>
        simp at hbytes
        obtain ⟨rfl, rfl⟩ := hbytes
        cases close_fails with
        | true => simp at hclose
        | false => exact ⟨rest, rfl⟩
    · rintro (h | ⟨rest, h⟩)
      · cases h
      · cases h
        simp [is_cpu_online]

/-- What `set_params` and the allocation make of the arguments, but for the set
of CPUs. -/
def GlobalArgs.configured (args : GlobalArgs) (sys : System) (khz : UInt32) :
    GlobalArgs :=
  { args with
    pid := sys.pid.toNat
    tid_off := get_tid_off sys.memory sys.pid
    cpus := sys.cpus
    tsc_khz := khz
    mult := (clocks_calc_mult_shift khz 1000000 0).1
    shift := (clocks_calc_mult_shift khz 1000000 0).2
    tsc_thresh := set_tsc_thresh sys.calls khz args.thresh_ns
    tsc_runtime := set_tsc_runtime sys.calls khz args.runtime_s }

/-- The frequency: an option, or what the system says. -/
def Frequency (args : GlobalArgs) (sys : System) (khz : UInt32) : Prop :=
  if args.tsc_khz = 0
    then ∃ r, Util.get_tsc_khz sys.buf sys.sources = some (r, khz) ∧ 0 ≤ r
  else khz = args.tsc_khz

/-- Every file `online` can be read that is asked for. -/
def Listed (args : GlobalArgs) (sys : System) : Prop :=
  args.cpu_set = ∅ → sys.cpus.toNat ≠ 2 ^ 32 - 1 ∧
    ∀ k ≤ sys.cpus.toNat, (is_cpu_online (sys.online k) false).1 = 0

/-- The loop over the CPUs ends well if no file fails. -/
theorem set_online_iff {host : Host} {calls : Calls} {ks : List Nat}
    {set : cpu_set_t} :
    (∃ set', set_online host calls ks set = some set') ↔
      ∀ k ∈ ks, calls.is_cpu_online_fails k = false := by
  induction ks generalizing set with
  | nil => simp [set_online]
  | cons k ks ih =>
    rw [set_online, List.forall_mem_cons]
    by_cases hk : calls.is_cpu_online_fails k = true
    · simp [hk]
    · rw [if_neg hk, ih]
      simp [hk]

/-- The set is complete if every file that is asked for can be read. -/
theorem listed_iff (args : GlobalArgs) (sys : System) :
    (∃ set, default_cpu_set sys.host sys.calls args.cpu_set = some set) ↔
      Listed args sys := by
  unfold Listed
  by_cases hempty : args.cpu_set = ∅
  · rw [default_cpu_set, if_pos hempty]
    by_cases hcpus : sys.cpus.toNat = 2 ^ 32 - 1
    · simp [System.host, hempty, hcpus]
    · have hcpus' : ¬ sys.host.cpus.toNat = 2 ^ 32 - 1 := hcpus
      rw [if_neg hcpus', set_online_iff]
      simp only [System.calls, List.mem_range, decide_eq_false_iff_not, not_not, hempty]
      exact ⟨fun h _ => ⟨hcpus, fun k hk => h k (Nat.lt_succ_of_le hk)⟩,
        fun h k hk => (h trivial).2 k (Nat.le_of_lt_succ hk)⟩
  · simp [default_cpu_set_of_ne hempty, hempty]

/-- The frequency is that of the arguments, or the one found. -/
theorem frequency_iff (args : GlobalArgs) (sys : System) (khz : UInt32) :
    tsc_rate sys.calls args.tsc_khz = some khz ↔ Frequency args sys khz := by
  unfold tsc_rate Frequency
  split
  · show sys.get_tsc_khz = some khz ↔ _
    unfold System.get_tsc_khz
    cases Util.get_tsc_khz sys.buf sys.sources with
    | none => simp
    | some answer =>
      obtain ⟨r, khz'⟩ := answer
      by_cases hr : r < 0
      · simp only [hr, if_true, Option.some.injEq, Prod.mk.injEq]
        constructor
        · nofun
        · rintro ⟨r', ⟨rfl, -⟩, hle⟩
          omega
      · simp only [hr, if_false, Option.some.injEq, Prod.mk.injEq]
        constructor
        · rintro rfl
          exact ⟨r, ⟨rfl, rfl⟩, by omega⟩
        · rintro ⟨-, ⟨-, h⟩, -⟩
          exact h
  · rw [Option.some.injEq, eq_comm]

/-- **When `main` comes to its threads.** -/
theorem params_iff {argv : List String} {sys : System} {args₀ args : GlobalArgs}
    (hparse : parse_args argv = .ok args₀) :
    params argv sys = some args ↔
      Steady sys.cpuinfo ∧ sys.calloc_fails = false ∧
      ∃ set khz, default_cpu_set sys.host sys.calls args₀.cpu_set = some set ∧
        Frequency args₀ sys khz ∧
        args = { args₀.configured sys khz with cpu_set := set } := by
  have hset : ∀ args', set_params sys.host sys.calls args₀ = some args' ↔
      ∃ set khz, default_cpu_set sys.host sys.calls args₀.cpu_set = some set ∧
        Frequency args₀ sys khz ∧
            args' = { args₀.configured sys khz with cpu_set := set } := by
    intro args'
    simp only [set_params, Option.bind_eq_bind, Option.bind_eq_some_iff,
      ← frequency_iff]
    constructor
    · rintro ⟨set, hset, khz, hkhz, h⟩
      exact ⟨set, khz, hset, hkhz, (Option.some.inj h).symm⟩
    · rintro ⟨set, khz, hset, hkhz, rfl⟩
      exact ⟨set, hset, khz, hkhz, rfl⟩
  unfold params
  rw [hparse, ← check_cpuinfo_iff]
  by_cases hsteady : (check_cpuinfo sys.cpuinfo).1 = 0
  · simp only [hsteady, ne_eq, not_true_eq_false, if_false, true_and]
    rw [← hset]
    cases set_params sys.host sys.calls args₀ with
    | none => simp
    | some args' =>
      cases sys.calloc_fails <;> simp [eq_comm]
  · simp [hsteady]

/-- The capacity is small enough for the products of `percentile_u32`. -/
theorem params_fit {argv : List String} {sys : System} {args : GlobalArgs}
    (h : params argv sys = some args) : args.samples.toNat * 999 < 2 ^ 64 := by
  cases hparse : parse_args argv with
  | error e => simp [params, hparse] at h
  | ok args₀ =>
    obtain ⟨-, -, set, khz, -, -, rfl⟩ := (params_iff hparse).mp h
    have hsamples := parse_args_samples hparse
    show args₀.samples.toNat * 999 < 2 ^ 64
    omega

/-- **From the command line to the end.** Every accepted command line with which
`main` comes to its threads leads to the end: the steps that are not spent
waiting are bounded, and without failures there is one until `main` returns 0. -/
theorem main_comes_to_end {argv : List String} {sys : System}
    {args : GlobalArgs} (h : params argv sys = some args) :
    (∀ k s, Counted (osjitter args) (Ascending args) (· = ·) (osjitter args).init k s →
      k ≤ args.budget) ∧
    ∀ h s, Run (osjitter args) (Fair args) h s → s.main = .ret 0 ∨
      Ahead args s :=
  ⟨fun _ _ hcounted => le_budget hcounted,
    fun _ _ hrun => ahead_of_run (params_fit h) hrun⟩

/-! ## §4 The tables of `main`

The threads run on the CPUs of `Covered`, and a row for each of them is printed
in the order of the CPUs. The rows are those of `Jitter.Report`, for the
parameters that the command line and the frequency give. -/

/-- The file says that the CPU is online, or there is none: it cannot go
offline. -/
def OnlineFile.Online (file : OnlineFile) : Prop :=
  file = .noent ∨ ∃ rest, file = .contents ('1' :: '\n' :: rest) false

/-- The CPUs that are measured: those selected by the options; if none is, those
online. -/
def Covered (argv : List String) (sys : System) (c : Nat) : Prop :=
  c < sys.cpus.toNat ∧ c < 1024 ∧
    ((∃ v ∈ cpu_args argv, Selects v c) ∨ ¬ SelectsSome argv ∧ (sys.online c).Online)

section main_table

variable {argv : List String} {sys : System} {args₀ : GlobalArgs}

/-- The CPUs of the loops of `main`. -/
theorem mem_selected_iff (hparse : parse_args argv = .ok args₀)
    {set : cpu_set_t} {khz : UInt32}
    (hset : default_cpu_set sys.host sys.calls args₀.cpu_set = some set)
    (c : Nat) :
    c ∈ ({ args₀.configured sys khz with cpu_set := set } : GlobalArgs).selected ↔
      Covered argv sys c := by
  have hlist := (listed_iff args₀ sys).mp ⟨set, hset⟩
  have hempty := cpu_set_eq_empty_iff hparse
  have hsel :
      c ∈ ({ args₀.configured sys khz with cpu_set := set } : GlobalArgs).selected ↔
      c < sys.cpus.toNat ∧ ∃ hc : c < 1024, (⟨c, hc⟩ : Fin 1024) ∈ set := by
    rw [mem_selected, Selected, CPU_ISSET_iff]
    exact and_congr_left' List.mem_range
  rw [hsel, Covered, ← exists_prop (a := c < 1024)]
  refine and_congr_right fun hlt => exists_congr fun hc => ?_
  by_cases hsome : SelectsSome argv
  · have hne : args₀.cpu_set ≠ ∅ := fun heq => hempty.mp heq hsome
    rw [default_cpu_set_of_ne hne] at hset
    rw [← Option.some.inj hset, mem_parse_args hparse]
    simp only [hsome, not_true_eq_false, false_and, or_false]
  · have hnone : ¬ ∃ v ∈ cpu_args argv, Selects v c :=
      fun ⟨v, hv, hc'⟩ => hsome ⟨v, hv, ⟨c, hc⟩, hc'⟩
    rw [hempty.mpr hsome] at hset
    have hread := (hlist (hempty.mpr hsome)).2 c hlt.le
    rw [mem_default_cpu_set hset, OnlineFile.Online,
      ← is_cpu_online_eq (sys.online c) false]
    simp only [System.host, hlt.le, true_and, Prod.ext_iff, hread, hnone, hsome,
      not_false_eq_true, false_or]

/-- **From the command line to the table.** `main` can return 0 with the rows
`rs` exactly when: the TSC is constant and does not stop; the online CPUs can be
told where none is selected; a frequency is given or found; the rows are those
of the measured CPUs in ascending order; and each is the row of some readings
under the configured parameters. -/
theorem main_table_iff (hparse : parse_args argv = .ok args₀)
    (rs : List (Nat × Row)) :
    main_prints argv sys rs ↔
      Steady sys.cpuinfo ∧ Listed args₀ sys ∧ sys.calloc_fails = false ∧
      ((rs.map Prod.fst).Pairwise (· < ·) ∧ ∀ c, c ∈ rs.map Prod.fst ↔
        Covered argv sys c) ∧
      ∃ khz, Frequency args₀ sys khz ∧
        ∀ p ∈ rs, ∃ ts, RowFor (args₀.configured sys khz) p.1 ts p.2 := by
  have hascending : ∀ args : GlobalArgs, args.selected.Pairwise (· < ·) :=
    fun _ => List.pairwise_lt_range.filter _
  constructor
  · rintro ⟨args, h, s, hp, hrun, hret, rfl⟩
    obtain ⟨hsteady, hcalloc, set, khz, hset, hkhz, rfl⟩ :=
      (params_iff hparse).mp hp
    have hreporting := reporting_of_run hrun
    have hkeys := hreporting.printing
    simp only [Printing, hret] at hkeys
    refine ⟨hsteady, (listed_iff args₀ sys).mp ⟨set, hset⟩, hcalloc,
      ⟨?_, fun c => ?_⟩, khz, hkhz,
      fun p hp => ⟨_, hreporting.rows p hp⟩⟩
    · rw [hkeys trivial]
      exact hascending _
    · rw [hkeys trivial]
      exact mem_selected_iff hparse hset c
  · rintro ⟨hsteady, hlisted, hcalloc, ⟨hsorted, hmem⟩, khz, hkhz, hrows⟩
    obtain ⟨set, hset⟩ := (listed_iff args₀ sys).mpr hlisted
    have hkeys : rs.map Prod.fst =
        ({ args₀.configured sys khz with cpu_set := set } : GlobalArgs).selected := by
      -- two ascending lists with the same members
      refine List.Perm.eq_of_pairwise
        (fun a b _ _ hab hba => absurd hba (Nat.lt_asymm hab)) hsorted
        (hascending _) ((List.perm_ext_iff_of_nodup (hsorted.imp Nat.ne_of_lt)
          ((hascending _).imp Nat.ne_of_lt)).mpr fun c => ?_)
      rw [hmem c, mem_selected_iff hparse hset c]
    obtain ⟨h, s, hrun, hret, htable⟩ := run_of_table hkeys hrows
    exact ⟨_, h, s, (params_iff hparse).mpr ⟨hsteady, hcalloc, set, khz, hset,
      hkhz, rfl⟩, hrun.mono fun _ _ _ => trivial, hret, htable⟩

end main_table

/-- Readings that reach the limit make a row. -/
theorem exists_row_for (args : GlobalArgs) (cpu : Nat) (start : UInt64)
    (ts : List UInt64) (hfit : args.samples.toNat * 999 < 2 ^ 64)
    (hmono : (start :: ts).Pairwise (· ≤ ·))
    (hend : ∃ t ∈ start :: ts, start + args.tsc_runtime ≤ t) :
    ∃ r, RowFor args cpu (start :: ts) r := by
  have hseven : counter (sched_line 0 0 7) = some 7 := by decide
  obtain ⟨w, hw⟩ := exists_worker args.toArgs hmono hend
  obtain ⟨hsorted, hle⟩ := worker_main_sorted hw
  have hroom : w.samples * 999 < 2 ^ 64 :=
    (Nat.mul_le_mul_right 999 hle).trans_lt hfit
  obtain ⟨r, hrow⟩ : ∃ r,
      row args cpu w (UInt64.ofInt 7) (List.replicate w.samples 0) = some r :=
    exists_row hsorted hroom _ (by simp)
  exact ⟨r, start, ts, w, _, 7, _, rfl, hw, hseven, hrow⟩

/-- Four CPUs, and none of the files under `/sys`. -/
def four_cpus : System where
  cpuinfo :=
    .lines ["constant_tsc\n".toList, "nonstop_tsc\n".toList] false false
  cpus := 4
  online _ := .noent
  buf := []
  sources := ⟨.noent, .eof, .eof⟩
  unspecified32 := 0
  unspecified64 := 0
  pid := 1
  memory _ := 0
  calloc_fails := false

/-- The CPU 2 is named, and has the only row. -/
theorem main_table_two :
    ∃ r, main_prints ["--cpu", "2", "--khz", "1000000"] four_cpus [(2, r)] := by
  obtain ⟨args₀, hparse, hset, hkhz, hsamples, hruntime⟩ : ∃ args₀,
      parse_args ["--cpu", "2", "--khz", "1000000"] = .ok args₀ ∧
        args₀.cpu_set ≠ ∅ ∧
        args₀.tsc_khz = 1000000 ∧ args₀.samples = 1050000 ∧
        (args₀.configured four_cpus 1000000).tsc_runtime = 10000000000 :=
    ⟨_, rfl, by decide, by decide, by decide, by decide +kernel⟩
  obtain ⟨r, hrow⟩ :=
    exists_row_for (args₀.configured four_cpus 1000000) 2 5 [20000000000]
    (by rw [GlobalArgs.configured, hsamples]; decide) (by decide)
    ⟨20000000000, by decide, by rw [hruntime]; decide⟩
  refine ⟨r, (main_table_iff hparse [(2, r)]).mpr ?_⟩
  refine ⟨⟨_, rfl, by decide, by decide⟩,
    fun h => absurd h hset, rfl, ⟨by simp, fun c => ?_⟩, 1000000, ?_,
    fun p hp => ?_⟩
  · have hread : atoi "2".toList = 2 := by decide
    have hargs : cpu_args ["--cpu", "2", "--khz", "1000000"] = ["2".toList] :=
      rfl
    have hsome : SelectsSome ["--cpu", "2", "--khz", "1000000"] :=
      ⟨_, List.mem_cons_self, 2, hread⟩
    have hselects : Selects "2".toList c ↔ (2 : Int) = c := by
      rw [← hread]
      rfl
    have hfour : four_cpus.cpus.toNat = 4 := rfl
    simp only [Covered, hargs, hsome, hselects, List.mem_singleton,
      exists_eq_left, hfour, not_true_eq_false, false_and, or_false,
      List.map_cons, List.map_nil]
    omega
  · rw [Frequency, if_neg (by rw [hkhz]; decide), hkhz]
  · obtain rfl := List.mem_singleton.mp hp
    exact ⟨_, hrow⟩

end Osjitter.Jitter
