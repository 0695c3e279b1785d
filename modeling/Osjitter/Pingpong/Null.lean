/-
Osjitter.Pingpong.Null — `spin_null_main`, whose threads do not communicate.

Each thread reads the clock twice, `n / 2` times, and records the difference.
Main thread, creation, gate and `spin_main_finalize` are those of the other
methods, so `null_pingpong` is the machine of `Pingpong.Worker` with another
function for the workers.

There is no shared memory but the flags of the main thread. The loop counts up
to `n / 2`, so an odd `n` needs no more room than the even one below it.
-/
import Osjitter.Pingpong.Worker

namespace Osjitter.Pingpong

open Machines

/-! ## A thread

Between the two readings of a pair a thread has one of them; there is no other
step in its loop but the test of the number of pairs. -/

/-- Control points of the loop. -/
inductive NullAt where
  | rdtsc
  | rdtscp
  deriving DecidableEq, Repr

/-- The readings of the loop. Nothing is shared, and nothing is set up. -/
def nullBody : Body Unit NullAt where
  mem0 := ()
  setup _ _ mem := .ok mem
  send := .rdtsc
  recv := .rdtsc
  step w c _ r
    | .rdtsc => some
        { mem := (), regs := { r with t := c.clock }, next := .goto .rdtscp,
          ev := [.clock w c.clock] }
    | .rdtscp => some
        { mem := (), regs := { r
            with ds := r.ds ++ [(c.clock - r.t).toUInt32] }, next := .next,
          ev := [.leg w r.ds.length r.t c.clock] }

/-- One step of `spin_null_main`, run as worker `w`. -/
def spin_null_main (x : Worker) (w : Tid) (c : Choice) (start_work : Bool) (l : Local NullAt) :
    Option (WorkerOut Unit NullAt) :=
  match l.ctl with
  | .calloc =>
      if c.fails then some { mem := (), loc := l, fate := .fail allocMsg }
      else some { mem := (), loc := { l with ctl := .gate } }
  | .gate =>
      if start_work then some { mem := (), loc := { l with ctl := .head } }
      else some { mem := (), loc := l }
  | .head =>
      if l.regs.i < x.n.toNat / 2 then some { mem := (), loc := { l with ctl := .body .rdtsc } }
      else some { mem := (), loc := { l with ctl := .finalize } }
  | .body b =>
      (nullBody.step w c () l.regs b).map fun o =>
        { mem := o.mem, loc := o.landing l, fate := o.next.fate, ev := o.ev }
  | .finalize =>
      some { mem := (), loc := l, fate := spin_main_finalize x.n.toNat l.regs.ds c.fails }

/-! ## The process

The frame of the other methods with another function for the workers. -/

/-- `spin_pingpong` with METHOD_NULL. -/
def null_pingpong (x : Worker) : Machine (State Unit NullAt) Label Event where
  init := { mem := () }
  step s
    | .main c => if s.alive then (mainStep nullBody c s).map fun t =>
        (t, []) else none
    | .worker w c =>
        if s.alive ∧ (s.thr w).status = .running then
          (spin_null_main x w c s.start_work (s.thr w).loc).map
            fun o => (s.apply w o, o.ev)
        else none

end Osjitter.Pingpong
