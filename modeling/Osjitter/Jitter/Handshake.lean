/-
Osjitter.Jitter.Handshake — the threads of `osjitter.c`: `main` from
`create_workers` on, and a `worker_main` for each selected CPU.

  §1 A worker between its creation and its return. The measurement is that of
     `WorkerMain`, a reading a step; what it stores in its `Worker` is a list
     of stores, `stores`, and these make `publish`. The two flags are read in
     loops, each turn of which is a step.
  §2 The main thread, and the machine of all threads: `create_workers`, the two
     flags and the sleep between them, `read_proc_sched` of each CPU, the joins
     and `pp_results`.

One step is one access to a shared variable or one call, with the local
computation around it. `qsort`, which works on the worker's own array, and a
row of `pp_results` are one step each; `_mm_pause` is none. The scheduler picks
who steps; `Choice` holds what the calls of the step return, and any call may
fail. Threads may go on after `main` returns, until the process is gone.

An event is what an observer of the whole process could see: threads that are
created, fail to allocate and return, readings of the TSC, the counters that are
read, the stores of a thread, and the rows that are printed.

Left out are memory orders (steps are interleaved), the attributes of threads,
the pinning itself, and the numbers of the messages to `stderr`.
-/
import Mathlib
import Osjitter.Lib.Machine
import Osjitter.Jitter.Results
import Osjitter.Jitter.ProcSched

namespace Osjitter.Jitter

open Machines Util

/-- What the threads show. At `fields` `pp_results` reads a `Worker`, and at
`row` it prints the row. -/
inductive Event where
  | created (cpu : Nat)
  | calloc_fails (cpu : Nat)
  | tsc (cpu : Nat) (t : UInt64)
  | store (cpu : Nat)
  | returned (cpu : Nat) (nonnull : Bool)
  | sched (cpu : Nat)
  | pp_results
  | fields (cpu : Nat)
  | row (cpu : Nat) (r : Row)
  deriving DecidableEq, Repr

/-- What a step takes from outside the program. -/
structure Choice where
  create : Create := .ok
  fails : Bool := false
  file : SchedFile := .open_fails
  ys : Option (List UInt32) := none
  tsc : UInt64 := 0

/-! ## §1 A worker

A worker goes through `worker_main` step by step: it allocates, waits for the
first flag, measures, waits for the second, and stores its results field by
field. A wait is a step that stays where it is, so a scheduler may make any
number of them. The stores are a list, since others could see the fields between
any two. -/

/-- A store to the fields of a `Worker`. -/
inductive Store where
  | deltas (ds : List UInt32)
  | samples (n : Nat)
  | thresh_cnt (i : Nat)
  | tsc_start (start : UInt64)
  | tsc_overflow (t : UInt64)
  | tsc_total_int (t : UInt64)
  | tsc_delta_min (t : UInt64)
  | correct (i : Nat)
  | qsort
  deriving DecidableEq, Repr

/-- What a store does to the fields; the correction of an entry reads one of
them. -/
def Store.apply (w : Worker) : Store → Worker
  | .deltas ds => { w with deltas := ds }
  | .samples n => { w with samples := n }
  | .thresh_cnt i => { w with thresh_cnt := i }
  | .tsc_start start => { w with tsc_start := start }
  | .tsc_overflow t => { w with tsc_overflow := t }
  | .tsc_total_int t => { w with tsc_total_int := t }
  | .tsc_delta_min t => { w with tsc_delta_min := t }
  | .correct i =>
      { w with deltas := w.deltas.modify i (Jitter.correct w.tsc_delta_min) }
  | .qsort => { w with deltas :=
      (w.deltas.take w.samples).insertionSort (· ≤ ·) ++ w.deltas.drop w.samples }

/-- The stores of `worker_main` behind its loops. -/
def stores (args : Args) (start : UInt64) (m : Locals) : List Store :=
  let samples := if m.i < args.n then m.i else args.n
  [.deltas m.ds, .samples samples, .thresh_cnt m.i, .tsc_start start,
    .tsc_overflow m.tsc_overflow,
    .tsc_total_int (m.tsc_total_int - m.tsc_delta_min * UInt64.ofNat m.i),
    .tsc_delta_min m.tsc_delta_min] ++
  (List.range samples).map .correct ++ [.qsort]

/-- Where a worker stands. At `ret` it is about to return. -/
inductive WorkerCtl where
  | absent
  | calloc
  | start_work
  | start
  | unrolled (start : UInt64) (m : Locals)
  | loop (start : UInt64) (m : Locals)
  | quit_thread (start : UInt64) (m : Locals)
  | store (todo : List Store)
  | ret (nonnull : Bool)
  | done (nonnull : Bool)
  deriving DecidableEq, Repr

/-- A step of `worker_main`, given the two flags. -/
def worker_main_step (args : Args) (cpu : Nat) (start_work quit_thread : Bool)
    (w : Worker) (c : Choice) :
    WorkerCtl → Option (WorkerCtl × Worker × List Event)
  | .absent => none
  | .calloc =>
      if c.fails then some (.ret false, w, [.calloc_fails cpu])
        else some (.start_work, w, [])
  | .start_work => some (if start_work then .start else .start_work, w, [])
  | .start => some (.unrolled c.tsc (args.locals c.tsc), w, [.tsc cpu c.tsc])
  | .unrolled start m =>
      if m.tsc < start + args.tsc_runtime then
        some (.loop start (unrolled args c.tsc m).forget, w, [.tsc cpu c.tsc])
      else some (.loop start m.forget, w, [])
  | .loop start m =>
      if m.tsc < start + args.tsc_runtime then
        some (.loop start (iteration args c.tsc m), w, [.tsc cpu c.tsc])
      else some (.quit_thread start m, w, [])
  | .quit_thread start m =>
      some (if quit_thread then .store (stores args start m)
        else .quit_thread start m, w, [])
  | .store [] => some (.ret true, w, [])
  | .store (f :: todo) => some (.store todo, f.apply w, [.store cpu])
  | .ret nonnull => some (.done nonnull, w, [.returned cpu nonnull])
  | .done _ => none

/-! ## §2 All threads

`main` goes through its loops over the CPUs, one CPU a step, and through the two
stores to the flags. A step is one of `main` or of a worker, in any order; what
calls return is part of the step, so a theorem about all runs covers every
failure. -/

/-- Where `main` stands. The lists are the CPUs that a loop has not passed. -/
inductive MainCtl where
  | create_workers (cpus : List Nat)
  | start_work
  | nanosleep
  | read_proc_sched (cpus : List Nat)
  | quit_thread
  | join_workers (cpus : List Nat) (error_in_thread : Bool)
  | pp_results (cpus : List Nat)
  | ret (code : Int)
  | abort
  deriving DecidableEq, Repr

/-- The flags, the `Worker`s that the threads share, and where everybody stands.
-/
structure State where
  main : MainCtl
  start_work : Bool
  quit_thread : Bool
  workers : Nat → WorkerCtl
  ws : Nat → SchedWorker

/-- `for (unsigned cpu = 0; cpu < args->cpus; ++cpu)` -/
def GlobalArgs.all_cpus (args : GlobalArgs) : List Nat :=
  List.range args.cpus.toNat

/-- The same state, with `main` at another place. -/
def State.goto (s : State) (ctl : MainCtl) : State := { s with main := ctl }

/-- A step of `main`. -/
def State.main_step (args : GlobalArgs) (s : State) (c : Choice) :
    Option (State × List Event) :=
  match s.main with
  | .create_workers [] => some (s.goto .start_work, [])
  | .create_workers (cpu :: cpus) =>
      if CPU_ISSET cpu args.cpu_set then
        match c.create with
        | .before => some (s.goto (.ret 1), [])
        | .after =>
            some ({ s.goto (.ret 1)
              with workers := Function.update s.workers cpu .calloc },
              [.created cpu])
        | .ok =>
            some ({ s.goto (.create_workers cpus) with
              workers :=
                Function.update s.workers cpu .calloc }, [.created cpu])
      else some (s.goto (.create_workers cpus), [])
  | .start_work => some ({ s.goto .nanosleep with start_work := true }, [])
  | .nanosleep =>
      some (s.goto (if c.fails then .ret 1 else .read_proc_sched args.all_cpus), [])
  | .read_proc_sched [] => some (s.goto .quit_thread, [])
  | .read_proc_sched (cpu :: cpus) =>
      if CPU_ISSET cpu args.cpu_set then
        (read_proc_sched c.file (s.ws cpu)).map fun (r, w) =>
          ({ s.goto (if r = 0 then .read_proc_sched cpus else .ret 1) with
            ws := Function.update s.ws cpu w }, [.sched cpu])
      else some (s.goto (.read_proc_sched cpus), [])
  | .quit_thread =>
      some ({ s.goto (.join_workers args.all_cpus false) with quit_thread := true }, [])
  | .join_workers [] error_in_thread =>
      if error_in_thread then some (s.goto (.ret 1), [])
      else some (s.goto (.pp_results args.all_cpus), [.pp_results])
  | .join_workers (cpu :: cpus) error_in_thread =>
      if CPU_ISSET cpu args.cpu_set then
        if c.fails then some (s.goto (.ret 1), [])
        else
          match s.workers cpu with
          | .done nonnull =>
              some (s.goto (.join_workers cpus (error_in_thread || !nonnull)), [])
          | _ => none
      else some (s.goto (.join_workers cpus error_in_thread), [])
  | .pp_results [] => some (s.goto (.ret 0), [])
  | .pp_results (cpu :: cpus) =>
      match row_turn args (fun k => (s.ws k).toWorker) (fun k => (s.ws k).invol_switch)
          (fun _ => c.ys) cpu with
      | .row r => some (s.goto (.pp_results cpus), [.fields cpu, .row cpu r])
      | .skip => some (s.goto (.pp_results cpus), [])
      | .ret _ => some (s.goto (.ret 1), [.fields cpu])
      | .abort => some (s.goto .abort, [.fields cpu])
  | .ret _ => none
  | .abort => none

/-- A step of the worker of a CPU. -/
def State.worker_step (args : GlobalArgs) (s : State) (cpu : Nat) (c : Choice) :
    Option (State × List Event) :=
  (worker_main_step args.toArgs cpu s.start_work s.quit_thread (s.ws cpu).toWorker c
    (s.workers cpu)).map fun (ctl, w, es) =>
      ({ s with
        workers := Function.update s.workers cpu ctl
        ws := Function.update s.ws cpu { s.ws cpu with toWorker := w } }, es)

/-- Who steps, and what its calls return. -/
inductive Label where
  | main (c : Choice)
  | worker (cpu : Nat) (c : Choice)

/-- The program from `create_workers` on. -/
def osjitter (args : GlobalArgs) : Machine State Label Event where
  init :=
    { main := .create_workers args.all_cpus
      start_work := false
      quit_thread := false
      workers := fun _ => .absent
      ws := fun _ => .zero }
  step s
    | .main c => s.main_step args c
    | .worker cpu c => s.worker_step args cpu c

end Osjitter.Jitter
