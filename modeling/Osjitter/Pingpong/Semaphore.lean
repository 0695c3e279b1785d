/-
Osjitter.Pingpong.Semaphore — `semaphore_main`.

A semaphore is `none` until `sem_init`. The timestamp is an ordinary field
beside it, so its write and its read are steps of their own.

The sender waits for its own semaphore, writes the timestamp to the stripe of
the other thread and posts there; the receiver waits for its own, reads, and
posts its own again, to be the next sender. `sem_wait` blocks at 0 and may fail,
as may `sem_post`; a worker whose call fails returns 0.

The first semaphore starts with 1, the second with 0.
-/
import Osjitter.Pingpong.Worker

namespace Osjitter.Pingpong

/-- Control points of the two branches. -/
inductive SemAt where
  | sendWait
  | pause
  | rdtsc
  | write
  | sendPost
  | recvWait
  | read
  | rdtscp
  | recvPost
  deriving DecidableEq, Repr

/-- `g_stripe`. -/
structure Stripes where
  sem : Tid → Option Nat
  tsc : Tid → UInt64

/-- `sem_wait(&g_stripe[v].sem)`, which blocks at 0. A semaphore that was
not initialised is none. -/
def sem_wait (c : Choice) (mem : Stripes) (r : Regs) (v : Tid) (b : SemAt) :
    Option (Out Stripes SemAt) :=
  if c.fails then some (failing mem r "sem wait")
  else match mem.sem v with
    | none => some (failing mem r "sem wait")
    | some 0 => none
    | some (k + 1) => some
        { mem := { mem with sem := Function.update mem.sem v (some k) }, regs := r,
          next := .goto b }

/-- `sem_post(&g_stripe[v].sem)`, at the end of a branch. -/
def sem_post (c : Choice) (mem : Stripes) (r : Regs) (v : Tid) :
    Out Stripes SemAt :=
  if c.fails then failing mem r "sem post"
  else match mem.sem v with
    | none => failing mem r "sem post"
    | some k =>
        { mem := { mem with sem := Function.update mem.sem v (some (k + 1)) },
          regs := r, next := .next }

/-- The branches of `semaphore_main`. -/
def semaphore_main (x : Worker) : Body Stripes SemAt where
  mem0 := { sem := fun _ => none, tsc := fun _ => 0 }
  setup i c mem :=
    if c.fails then .error "sem_init"
    else .ok { mem with sem := Function.update mem.sem i (some (!i).toNat) }
  send := .sendWait
  recv := .recvWait
  step w c mem r
    | .sendWait => sem_wait c mem r w .pause
    | .pause => some (pause mem r x .rdtsc)
    | .rdtsc => some (fenced_rdtsc w c mem r .rdtsc .write)
    | .write => some
        { mem := { mem with tsc := Function.update mem.tsc (!w) r.t }, regs := r,
          next := .goto .sendPost, ev := [.send w r.t] }
    | .sendPost => some (sem_post c mem r (!w))
    | .recvWait => sem_wait c mem r w .read
    | .read => some
        { mem, regs := { r with t := mem.tsc w }, next := .goto .rdtscp,
          ev := [.recv w (mem.tsc w)] }
    | .rdtscp => some (fenced_rdtscp w c mem r (.goto .recvPost))
    | .recvPost => some (sem_post c mem r w)

end Osjitter.Pingpong
