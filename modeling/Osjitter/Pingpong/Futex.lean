/-
Osjitter.Pingpong.Futex — `futex_lock`, `futex_unlock` and `futex_main`.

`futex_lock` is a compare-exchange, and after a failed one FUTEX_WAIT, which
compares with 1 and goes to sleep in one step. A sleeper is in the queue of
its futex until FUTEX_WAKE or a spurious wake-up takes it out. `futex_unlock`
is a compare-exchange and, as a step of its own, FUTEX_WAKE.

Both branches lock the thread's own futex; the sender unlocks the other one,
the receiver its own. The first futex starts unlocked, the second locked.

The weak compare-exchange of the source may fail without a reason, and does so
here where the environment says. FUTEX_WAIT returns with an error when the
value is not 1, which the loop takes as a reason to try again. The timestamp is
an ordinary field beside the futex. Other errors of the system call make the
worker return 0.
-/
import Osjitter.Pingpong.Worker

namespace Osjitter.Pingpong

/-- The branch a lock or unlock belongs to. -/
inductive Role where
  | send
  | recv
  deriving DecidableEq, Repr

/-- The futex that `futex_unlock` is called on. -/
def Role.target (w : Tid) : Role → Tid
  | .send => !w
  | .recv => w

/-! ## Control points

The two calls of a branch have the same steps with different continuations, so
the control points carry the role in which they are called. -/

/-- Control points of the two branches. -/
inductive FutexAt where
  | cas (role : Role)
  | wait (role : Role)
  | asleep (role : Role)
  | pause
  | rdtsc
  | write
  | read
  | rdtscp
  | unlock (role : Role)
  | wake (role : Role)
  deriving DecidableEq, Repr

/-- Where a branch goes on once it has its lock. -/
def Role.locked : Role → FutexAt
  | .send => .pause
  | .recv => .read

/-! ## Calls

The queue of a futex holds its sleepers. A woken one is out of the queue and has
still to try its compare-exchange again. -/

/-- `g_follicle`, and who sleeps on each futex. -/
structure Follicles where
  futex : Tid → Nat
  tsc : Tid → UInt64
  queue : Tid → List Tid

section steps

variable (w : Tid) (c : Choice) (mem : Follicles) (r : Regs) (role : Role)

/-- `atomic_compare_exchange_weak(f, &zero, 1)`. -/
def futex_cas : Out Follicles FutexAt :=
  if mem.futex w = 0 ∧ c.spurious = false then
    { mem := { mem with futex := Function.update mem.futex w 1 }, regs := r,
      next := .goto role.locked }
  else { mem, regs := r, next := .goto (.wait role) }

/-- FUTEX_WAIT, which returns EAGAIN if the futex is not 1. -/
def futex_wait : Out Follicles FutexAt :=
  if c.fails then failing mem r "futex wait"
  else if mem.futex w = 1 then
    { mem :=
        { mem with queue := Function.update mem.queue w (mem.queue w ++ [w]) },
          regs := r,
      next := .goto (.asleep role) }
  else { mem, regs := r, next := .goto (.cas role) }

/-- The return from FUTEX_WAIT. A sleeper is woken, or returns by itself. -/
def futex_return : Option (Out Follicles FutexAt) :=
  if w ∉ mem.queue w then some { mem, regs := r, next := .goto (.cas role) }
  else
    let mem' :=
      { mem with queue := Function.update mem.queue w ((mem.queue w).erase w) }
    if c.fails then some (failing mem' r "futex wait")
    else if c.spurious
      then some { mem := mem', regs := r, next := .goto (.cas role) }
    else none

/-- `atomic_compare_exchange_strong(f, &one, 0)`; -2 from `futex_unlock`
makes the thread abort. -/
def futex_unlock : Out Follicles FutexAt :=
  if mem.futex (role.target w) = 1 then
    { mem := { mem with futex := Function.update mem.futex (role.target w) 0 }, regs := r,
      next := .goto (.wake role) }
  else { mem, regs := r, next := .abort (toString w.toNat ++ ": unexpectedly unlocked") }

/-- FUTEX_WAKE of one sleeper, at the end of a branch. -/
def futex_wake : Out Follicles FutexAt :=
  if c.fails then failing mem r "futex wake"
  else
    let q := mem.queue (role.target w)
    { mem := { mem with
        queue :=
          Function.update mem.queue (role.target w) (q.eraseIdx (c.pick % q.length)) },
      regs := r, next := .next }

end steps

/-- The branches of `futex_main`. -/
def futex_main (x : Worker) : Body Follicles FutexAt where
  mem0 := { futex := fun _ => 0, tsc := fun _ => 0, queue := fun _ => [] }
  setup i _ mem := .ok { mem with futex := Function.update mem.futex i i.toNat }
  send := .cas .send
  recv := .cas .recv
  step w c mem r
    | .cas role => some (futex_cas w c mem r role)
    | .wait role => some (futex_wait w c mem r role)
    | .asleep role => futex_return w c mem r role
    | .pause => some (pause mem r x .rdtsc)
    | .rdtsc => some (fenced_rdtsc w c mem r .rdtsc .write)
    | .write => some
        { mem := { mem with tsc := Function.update mem.tsc (!w) r.t }, regs := r,
          next := .goto (.unlock .send), ev := [.send w r.t] }
    | .read => some
        { mem, regs := { r with t := mem.tsc w }, next := .goto .rdtscp,
          ev := [.recv w (mem.tsc w)] }
    | .rdtscp => some (fenced_rdtscp w c mem r (.goto (.unlock .recv)))
    | .unlock role => some (futex_unlock w mem r role)
    | .wake role => some (futex_wake w c mem r role)

end Osjitter.Pingpong
