/-
Osjitter.Pingpong.Pipe — `pipe_main`.

A pipe is a queue of whole messages, since writes of 8 bytes are atomic. It
is `none` until `pipe` creates it. A read blocks while the pipe is empty; a
write never blocks, the pipes hold far more than they ever contain
(`pipe_one_in_flight`).

The sender writes its timestamp to the pipe of the other thread, and the
receiver reads its own. A call that fails, and one that is short, make the
worker return 0 with a message.
-/
import Osjitter.Pingpong.Worker

namespace Osjitter.Pingpong

/-- Control points of the two branches. -/
inductive PipeAt where
  | pause
  | rdtsc
  | write
  | read
  | rdtscp
  deriving DecidableEq, Repr

/-- `g_pipes`. -/
abbrev Pipes := Tid → Option (List UInt64)

/-- A call on a pipe returns -1, or less than the size of a message. -/
def pipeError (c : Choice) (minus short : String) : String :=
  if c.pick = 0 then minus else short

/-- The branches of `pipe_main`. A pipe that was not created is no open
file. -/
def pipe_main (x : Worker) : Body Pipes PipeAt where
  mem0 := fun _ => none
  setup i c mem :=
    if c.fails then .error "pipe" else .ok (Function.update mem i (some []))
  send := .pause
  recv := .read
  step w c mem r
    | .pause => some (pause mem r x .rdtsc)
    | .rdtsc => some (fenced_rdtsc w c mem r .rdtsc .write)
    | .write =>
        if c.fails then
          some (failing mem r
            (pipeError c "pipe write" "written into pipe less than expected"))
        else match mem (!w) with
          | none => some (failing mem r "pipe write")
          | some q => some
              { mem := Function.update mem (!w) (some (q ++ [r.t])), regs := r,
                next := .next, ev := [.send w r.t] }
    | .read =>
        if c.fails then
          some (failing mem r
            (pipeError c "pipe read" "read from pipe less than expected"))
        else match mem w with
          | none => some (failing mem r "pipe read")
          | some [] => none
          | some (v :: q) => some
              { mem := Function.update mem w (some q), regs := { r with t := v },
                next := .goto .rdtscp, ev := [.recv w v] }
    | .rdtscp => some (fenced_rdtscp w c mem r .next)

end Osjitter.Pingpong
