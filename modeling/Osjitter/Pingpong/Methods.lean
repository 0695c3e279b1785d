/-
Osjitter.Pingpong.Methods — the thread functions by `Method`.

The table of the source has a function for each method; here an entry is a
memory, a type of control points and a `Body` for every `Worker`. Theorems about
all methods quantify over `Method`. `--null` is none of them, as its threads
have no memory in common.
-/
import Osjitter.Pingpong.CondVar
import Osjitter.Pingpong.Futex
import Osjitter.Pingpong.Pipe
import Osjitter.Pingpong.Semaphore
import Osjitter.Pingpong.Spin

namespace Osjitter.Pingpong

/-- `Method`, without METHOD_NULL, whose threads do not communicate. -/
inductive Method where
  | METHOD_SPIN
  | METHOD_SPIN_PAUSE
  | METHOD_SPIN_PAUSE_MORE
  | METHOD_COND_VAR
  | METHOD_PIPE
  | METHOD_FUTEX
  | METHOD_SEMAPHORE
  deriving DecidableEq, Repr

/-- A thread function, with its shared variables and control points. -/
structure ThreadMain where
  Mem : Type
  At : Type
  body : Body Mem At

/-- The thread function that `spin_pingpong` passes to `pthread_create`. -/
def Method.main (x : Worker) : Method → ThreadMain
  | .METHOD_SPIN => ⟨Cells, SpinAt, spin_main x⟩
  | .METHOD_SPIN_PAUSE => ⟨Cells, SpinAt, spin_pause_main x⟩
  | .METHOD_SPIN_PAUSE_MORE => ⟨Cells, SpinAt, spin_pause_more_main x⟩
  | .METHOD_COND_VAR => ⟨Items, CvAt, cv_main x⟩
  | .METHOD_PIPE => ⟨Pipes, PipeAt, pipe_main x⟩
  | .METHOD_FUTEX => ⟨Follicles, FutexAt, futex_main x⟩
  | .METHOD_SEMAPHORE => ⟨Stripes, SemAt, semaphore_main x⟩

end Osjitter.Pingpong
