/-
Osjitter.Pingpong.Worker — what the thread functions of `pingpong.c` have
in common, and `spin_pingpong` around them.

`spin_main`, `spin_pause_main`, `spin_pause_more_main`, `cv_main`,
`pipe_main`, `semaphore_main` and `futex_main` repeat one frame: allocate
`ds`, wait for `start_work`, and for `i < w.n` take the sender branch when
`i % 2 == w.init` and the receiver branch otherwise; `spin_main_finalize`
ends each. They differ in the two branches. So a `Body` holds the branches
of one method as control points and a computed step, `workerStep` is the
frame around a body, and `spin_pingpong` is the machine of the main thread
and two workers over one shared memory.

Conventions of the model.

* One step is one access to a shared variable or one call, with the local
  computation around it. The scheduler picks who steps; `Choice` holds what
  the step reads from outside: the clock value, whether the call it makes
  fails, whether a weak compare-exchange or a wait gives up spuriously, and
  which waiter a wake-up picks.
* `_mm_pause` has no effect; a loop of them is a number of pending pause
  steps.
* `ds` is the list of the deltas written, so `j` is its length. A write
  past the calloc'ed `n / 2` entries extends the list like any other: what
  such a write does to the rest of the heap is not modelled.
* A worker that returns 0 keeps its control point: it stands where the call
  failed, and never steps again.
* The calls that only prepare thread attributes (`pthread_attr_init`,
  affinity, `pthread_attr_destroy`) are part of the `create` step.
* Steps are interleaved: memory orders and fences have no counterpart.
-/
import Mathlib
import Osjitter.Lib.Machine
import Osjitter.Lib.Relay

namespace Osjitter.Pingpong

open Machines

/-- The 64-bit timestamps with the order the code's `<` and `<=` compute. -/
instance linearOrderUInt64 : LinearOrder UInt64 where
  le_refl := UInt64.le_refl
  le_trans _ _ _ := UInt64.le_trans
  le_antisymm _ _ := UInt64.le_antisymm
  le_total := UInt64.le_total
  lt_iff_le_not_ge _ _ := by
    simp only [UInt64.lt_iff_toNat_lt, UInt64.le_iff_toNat_le]
    omega
  toDecidableLE := inferInstance

/-- `w.init`: the worker of slot 0 or 1. -/
abbrev Tid := Bool

/-- What the two workers show: clock reads, stored and received timestamps,
and recorded deltas. -/
abbrev Event := Relay.Event UInt64

/-- The fields of `Worker` that a thread function reads, besides `init`. -/
structure Worker where
  n : UInt32
  k : UInt32
  p : UInt32
  deriving DecidableEq, Repr

/-- What a step takes from outside the program. -/
structure Choice where
  clock : UInt64 := 0
  fails : Bool := false
  spurious : Bool := false
  pick : Nat := 0
  deriving DecidableEq, Repr

/-- No call fails and nothing happens spuriously. -/
def Choice.Quiet (c : Choice) : Prop := c.fails = false ∧ c.spurious = false

instance (c : Choice) : Decidable c.Quiet := inferInstanceAs (Decidable (_ ∧ _))

/-! ## A worker

The frame and a body meet in `Out`, what a step of a branch leaves: the memory,
the registers, the events, and where to go. The frame does what all functions
have in common around it, so a method is given by its branches and nothing else.
-/

/-- The local variables of a thread function: the loop counter, `tsc`, the
sender's `t` or the receiver's `new_tsc`, and the deltas `ds[0..j)`. -/
structure Regs where
  i : Nat := 0
  tsc : UInt64 := 1
  t : UInt64 := 0
  ds : List UInt32 := []
  deriving DecidableEq, Repr

/-- `delta = now - new_tsc; ds[j++] = delta; tsc = new_tsc;` -/
def Regs.record (r : Regs) (now : UInt64) : Regs :=
  { r with ds := r.ds ++ [(now - r.t).toUInt32], tsc := r.t }

/-- The pauses before a store: `k = i < 2 ? w.k : w.k * 2`. -/
def Worker.pauses (x : Worker) (r : Regs) : Nat :=
  (if r.i < 2 then x.k else x.k * 2).toNat

/-- Where a branch goes after a step: to another control point, to the next
iteration, to `return 0` after the message, or to `abort()`. -/
inductive Next (At : Type) where
  | goto (b : At)
  | next
  | fail (msg : String)
  | abort (msg : String)
  deriving DecidableEq, Repr

/-- The result of a step of a branch. -/
structure Out (Mem At : Type) where
  mem : Mem
  regs : Regs
  next : Next At
  pauses : Nat := 0
  ev : List Event := []

/-- The two branches of a thread function over the shared variables `Mem`,
and what `spin_pingpong` does to slot `i` before it creates thread `i`. -/
structure Body (Mem At : Type) where
  mem0 : Mem
  setup : Tid → Choice → Mem → Except String Mem
  send : At
  recv : At
  step : Tid → Choice → Mem → Regs → At → Option (Out Mem At)

section branches

variable {Mem At : Type} (w : Tid) (c : Choice) (mem : Mem) (r : Regs)

/-- The pauses of the sender branch. -/
def pause (x : Worker) (b : At) : Out Mem At :=
  { mem, regs := r, next := .goto b, pauses := x.pauses r }

/-- `t = fenced_rdtsc(); if (t <= tsc) continue;` of the sender branch. -/
def fenced_rdtsc (again b : At) : Out Mem At :=
  if c.clock ≤ r.tsc then { mem, regs := r, next := .goto again, ev := [.clock w c.clock] }
  else { mem, regs := { r with t := c.clock }, next := .goto b, ev := [.clock w c.clock] }

/-- `now = fenced_rdtscp();` of the receiver branch, and the delta. -/
def fenced_rdtscp (k : Next At) : Out Mem At :=
  { mem, regs := r.record c.clock, next := k, ev := [.leg w r.ds.length r.t c.clock] }

/-- A call that returns an error makes the worker return 0. -/
def failing (msg : String) : Out Mem At := { mem, regs := r, next := .fail msg }

end branches

/-- Control points of a thread function. -/
inductive Ctl (At : Type) where
  | calloc
  | gate
  | head
  | body (b : At)
  | finalize
  deriving DecidableEq, Repr

/-- A worker's control point and local variables. -/
structure Local (At : Type) where
  ctl : Ctl At := .calloc
  regs : Regs := {}
  deriving DecidableEq, Repr

/-- Before creation, running, returned `x` with `raw_ds` and `ds`, or
returned 0. -/
inductive Status where
  | absent
  | running
  | returned (raw_ds ds : List UInt32)
  | failed
  deriving DecidableEq, Repr

/-- A worker, with the pauses it has still to make. -/
structure Thread (At : Type) where
  status : Status := .absent
  loc : Local At := {}
  pauses : Nat := 0
  deriving DecidableEq, Repr

/-- What a worker's step does to the worker as a whole. -/
inductive Fate where
  | run
  | fail (msg : String)
  | ret (raw_ds ds : List UInt32)
  | abort (msg : String)
  deriving DecidableEq, Repr

/-- What a step of the frame leaves: a step of the branches with the fate of the
worker. -/
structure WorkerOut (Mem At : Type) where
  mem : Mem
  loc : Local At
  pauses : Nat := 0
  fate : Fate := .run
  ev : List Event := []

/-- The message of a failed `calloc` or `malloc`. -/
def allocMsg : String := "Failed to allocate delta array in thread"

/-- `spin_main_finalize`: the assertion on `j`, the copy, the sort. -/
def spin_main_finalize (n : Nat) (ds : List UInt32) (mallocFails : Bool) :
    Fate :=
  if ds.length ≤ n / 2 then
    if mallocFails then .fail allocMsg
    else .ret ds (ds.insertionSort (· ≤ ·))
  else .abort "j <= x->n/2"

variable {Mem At : Type}

/-- Where a worker is after a step of a branch. -/
def Out.landing (o : Out Mem At) (l : Local At) : Local At :=
  match o.next with
  | .goto b => ⟨.body b, o.regs⟩
  | .next => ⟨.head, { o.regs with i := o.regs.i + 1 }⟩
  | .fail _ | .abort _ => l

/-- A branch goes on, fails, or dies. -/
def Next.fate : Next At → Fate
  | .goto _ | .next => .run
  | .fail msg => .fail msg
  | .abort msg => .abort msg

/-- One step of the thread function with the branches `B`, run as worker
`w`. -/
def workerStep (B : Body Mem At) (x : Worker) (w : Tid) (c : Choice)
    (start_work : Bool) (mem : Mem) (pauses : Nat) (l : Local At) :
    Option (WorkerOut Mem At) :=
  if 0 < pauses then some { mem, loc := l, pauses := pauses - 1 } else
  match l.ctl with
  | .calloc =>
      if c.fails then some { mem, loc := l, fate := .fail allocMsg }
      else some { mem, loc := { l with ctl := .gate } }
  | .gate =>
      if start_work then some { mem, loc := { l with ctl := .head } }
      else some { mem, loc := l }
  | .head =>
      if l.regs.i < x.n.toNat then
        if l.regs.i % 2 == w.toNat
          then some { mem, loc := { l with ctl := .body B.send } }
        else some { mem, loc := { l with ctl := .body B.recv } }
      else some { mem, loc := { l with ctl := .finalize } }
  | .body b =>
      (B.step w c mem l.regs b).map fun o =>
        { mem := o.mem, loc := o.landing l, pauses := o.pauses, fate := o.next.fate,
          ev := o.ev }
  | .finalize =>
      some { mem, loc := l, fate := spin_main_finalize x.n.toNat l.regs.ds c.fails }

/-! ## The main thread

`spin_pingpong` creates two threads, opens the gate, joins both and returns. A
failing call ends it early, where a thread that was created may still be
running. The machine has a step for the main thread and for each worker, in any
order. -/

/-- Control points of `spin_pingpong`. -/
inductive Main where
  | setup (i : Tid)
  | create (i : Tid)
  | start
  | join (i : Tid)
  | report
  | exited (code : Nat)
  deriving DecidableEq, Repr

/-- The process: the main thread, the flags, the shared memory, the two
workers, and what was written to `stderr`. -/
structure State (Mem At : Type) where
  main : Main := .setup false
  start_work : Bool := false
  error_in_thread : Bool := false
  mem : Mem
  thr : Tid → Thread At := fun _ => {}
  stderr : List String := []
  aborted : Bool := false

/-- The scheduler's choice: who steps, and with what. -/
inductive Label where
  | main (c : Choice)
  | worker (w : Tid) (c : Choice)
  deriving DecidableEq, Repr

/-- What the step takes from outside. -/
def Label.choice : Label → Choice
  | .main c => c
  | .worker _ c => c

/-- Has the thread function returned? -/
def Status.stopped : Status → Bool
  | .returned _ _ | .failed => true
  | _ => false

/-- The text `spin_pingpong` prints when a worker returned 0. -/
def errorMsg : String := "One thread reported an error"

/-- `return 1` from `spin_pingpong`, after a message. -/
def State.giveUp (s : State Mem At) (msg : String) : State Mem At :=
  { s with main := .exited 1, stderr := s.stderr ++ [msg] }

/-- One step of `spin_pingpong`. `join` is enabled once the worker has
returned. -/
def mainStep (B : Body Mem At) (c : Choice) (s : State Mem At) :
    Option (State Mem At) :=
  match s.main with
  | .setup i =>
      match B.setup i c s.mem with
      | .ok mem => some { s with mem, main := .create i }
      | .error msg => some (s.giveUp msg)
  | .create i =>
      if c.fails then some (s.giveUp "pthread_create failed")
      else some { s with
        thr := Function.update s.thr i { status := .running }
        main := if i then .start else .setup true }
  | .start => some { s with start_work := true, main := .join false }
  | .join i =>
      if c.fails then some (s.giveUp "pthread_join failed")
      else if (s.thr i).status.stopped then
        some { s with
          error_in_thread := s.error_in_thread || (s.thr i).status == .failed
          main := if i then .report else .join true }
      else none
  | .report =>
      if s.error_in_thread then some (s.giveUp errorMsg)
      else some { s with main := .exited 0 }
  | .exited _ => none

/-- Is the process still there? -/
def State.alive (s : State Mem At) : Bool :=
  !s.aborted && match s.main with
    | .exited _ => false
    | _ => true

/-- What a worker's step does to the process. -/
def State.apply (s : State Mem At) (w : Tid) (o : WorkerOut Mem At) :
    State Mem At :=
  let put (st : Status) : State Mem At :=
    { s with mem := o.mem, thr := Function.update s.thr w ⟨st, o.loc, o.pauses⟩ }
  match o.fate with
  | .run => put .running
  | .fail msg => { put .failed with stderr := s.stderr ++ [msg] }
  | .ret raw_ds ds => put (.returned raw_ds ds)
  | .abort msg =>
    { put .running with stderr := s.stderr ++ [msg], aborted := true }

/-- `spin_pingpong` with a method: the main thread and two workers. -/
def spin_pingpong (B : Body Mem At) (x : Worker) :
    Machine (State Mem At) Label Event where
  init := { mem := B.mem0 }
  step s
    | .main c => if s.alive then (mainStep B c s).map fun t => (t, []) else none
    | .worker w c =>
        if s.alive ∧ (s.thr w).status = .running then
          (workerStep B x w c s.start_work s.mem (s.thr w).pauses (s.thr w).loc).map
            fun o => (s.apply w o, o.ev)
        else none

/-- Steps in which no call fails. -/
def NoFail (_ : State Mem At) (a : Label) : Prop := a.choice.fails = false

instance (s : State Mem At) (a : Label) : Decidable (NoFail s a) :=
  inferInstanceAs (Decidable (_ = _))

/-- Every step. -/
def Any (_ : State Mem At) (_ : Label) : Prop := True

instance (s : State Mem At) (a : Label) : Decidable (Any s a) :=
  inferInstanceAs (Decidable True)

end Osjitter.Pingpong
