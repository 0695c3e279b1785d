/-
Osjitter.Pingpong.CondVar — `cv_main`.

A mutex is its owner, a condition variable the queue of its sleepers.
`pthread_cond_wait` releases the mutex and goes to sleep in one step; a
sleeper is in the queue until a signal or a spurious wake-up takes it out,
and then takes the mutex again. A signal with no sleeper does nothing.

The sender stores its timestamp in the other thread's cell under that cell's
mutex, releases it, and signals; the receiver waits under the mutex of its own
cell for a timestamp above the last one. Each call of the source is a function
here, with its failure as the choice of the environment; a failing thread
returns 0 where it stands and keeps the mutex if it has it.

Fairness of the mutex, priorities and cancellation are left out.
-/
import Osjitter.Pingpong.Worker

namespace Osjitter.Pingpong

/-! ## Control points

The sender goes through four steps with the mutex of the other, the receiver
through a loop around its wait. -/

/-- Control points of the two branches. -/
inductive CvAt where
  | pause
  | rdtsc
  | sendLock
  | write
  | sendUnlock
  | signal
  | recvLock
  | test
  | condWait
  | asleep
  | relock
  | take
  | recvUnlock
  | rdtscp
  deriving DecidableEq, Repr

/-! ## Calls

A call is given its mutex, the message it fails with, and where it goes on. -/

/-- `g_item`. -/
structure Items where
  mutex : Tid → Option Tid
  queue : Tid → List Tid
  tsc : Tid → UInt64

section steps

variable (w : Tid) (c : Choice) (mem : Items) (r : Regs)

/-- `pthread_mutex_lock(&g_item[v].mutex)`, which blocks while it is locked. -/
def pthread_mutex_lock (v : Tid) (msg : String) (b : CvAt) :
    Option (Out Items CvAt) :=
  if c.fails then some (failing mem r msg)
  else match mem.mutex v with
    | some _ => none
    | none => some
        { mem := { mem with mutex := Function.update mem.mutex v (some w) }, regs := r,
          next := .goto b }

/-- `pthread_mutex_unlock(&g_item[v].mutex)`. -/
def pthread_mutex_unlock (v : Tid) (msg : String) (b : CvAt) : Out Items CvAt :=
  if c.fails then failing mem r msg
  else
    { mem := { mem with mutex := Function.update mem.mutex v none }, regs := r,
      next := .goto b }

/-- `pthread_cond_signal(&g_item[v].cond_var)`, at the end of a branch. -/
def pthread_cond_signal (v : Tid) : Out Items CvAt :=
  if c.fails then failing mem r "cond signal: mutex lock"
  else
    let q := mem.queue v
    { mem := { mem with queue := Function.update mem.queue v (q.eraseIdx (c.pick % q.length)) },
      regs := r, next := .next }

/-- `pthread_cond_wait`, up to where it sleeps. -/
def pthread_cond_wait : Out Items CvAt :=
  if c.fails then failing mem r "cond_wait"
  else
    { mem := { mem with
        mutex := Function.update mem.mutex w none
        queue := Function.update mem.queue w (mem.queue w ++ [w]) },
      regs := r, next := .goto .asleep }

/-- The end of the sleep. -/
def pthread_cond_wakeup : Option (Out Items CvAt) :=
  if w ∉ mem.queue w then some { mem, regs := r, next := .goto .relock }
  else if c.spurious then some
    { mem := { mem with queue := Function.update mem.queue w ((mem.queue w).erase w) },
      regs := r, next := .goto .relock }
  else none

/-- The end of `pthread_cond_wait`: the mutex is taken again. -/
def pthread_cond_relock : Option (Out Items CvAt) :=
  match mem.mutex w with
  | some _ => none
  | none => some
      { mem := { mem with mutex := Function.update mem.mutex w (some w) }, regs := r,
        next := .goto .test }

end steps

/-- The branches of `cv_main`. -/
def cv_main (x : Worker) : Body Items CvAt where
  mem0 := { mutex := fun _ => none, queue := fun _ => [], tsc := fun _ => 0 }
  setup _ _ mem := .ok mem
  send := .pause
  recv := .recvLock
  step w c mem r
    | .pause => some (pause mem r x .rdtsc)
    | .rdtsc => some (fenced_rdtsc w c mem r .rdtsc .sendLock)
    | .sendLock => pthread_mutex_lock w c mem r (!w) "sender: mutex lock" .write
    | .write => some
        { mem := { mem with tsc := Function.update mem.tsc (!w) r.t }, regs := r,
          next := .goto .sendUnlock, ev := [.send w r.t] }
    | .sendUnlock =>
        some (pthread_mutex_unlock c mem r (!w) "sender: mutex unlock" .signal)
    | .signal => some (pthread_cond_signal c mem r (!w))
    | .recvLock => pthread_mutex_lock w c mem r w "retrieve: mutex lock" .test
    | .test =>
        if mem.tsc w ≤ r.tsc
          then some { mem, regs := r, next := .goto .condWait }
        else some { mem, regs := r, next := .goto .take }
    | .condWait => some (pthread_cond_wait w c mem r)
    | .asleep => pthread_cond_wakeup w c mem r
    | .relock => pthread_cond_relock w mem r
    | .take => some
        { mem, regs := { r with t := mem.tsc w }, next := .goto .recvUnlock,
          ev := [.recv w (mem.tsc w)] }
    | .recvUnlock =>
        some (pthread_mutex_unlock c mem r w "retrieve: mutex unlock" .rdtscp)
    | .rdtscp => some (fenced_rdtscp w c mem r .next)

end Osjitter.Pingpong
