/-
Osjitter.Pingpong.Spin — `spin_main`, `spin_pause_main` and
`spin_pause_more_main`.

The three loops differ in the pauses after a failed test of the cell: none,
one, or `w.p`; so each is `spinBody` with a number. `g_cell` is static, so both
cells start at 0. The sender stores its timestamp in the cell of the other
thread, and a receiver loads its own until the value is above its last one.
-/
import Osjitter.Pingpong.Worker

namespace Osjitter.Pingpong

/-- Control points of the two branches. -/
inductive SpinAt where
  | pause
  | rdtsc
  | store
  | load
  | rdtscp
  deriving DecidableEq, Repr

/-- `g_cell`. -/
abbrev Cells := Tid → UInt64

/-- The branches of a spinning thread function with `p` pauses after each
failed test. -/
def spinBody (p : Nat) (x : Worker) : Body Cells SpinAt where
  mem0 := fun _ => 0
  setup _ _ mem := .ok mem
  send := .pause
  recv := .load
  step w c mem r
    | .pause => some (pause mem r x .rdtsc)
    | .rdtsc => some (fenced_rdtsc w c mem r .rdtsc .store)
    | .store => some
        { mem := Function.update mem (!w) r.t, regs := r, next := .next, ev := [.send w r.t] }
    | .load =>
        if mem w > r.tsc then
          some { mem, regs := { r with t := mem w }, next := .goto .rdtscp, ev := [.recv w (mem w)] }
        else some { mem, regs := r, next := .goto .load, pauses := p }
    | .rdtscp => some (fenced_rdtscp w c mem r .next)

/-- No pause after a failed test. -/
def spin_main : Worker → Body Cells SpinAt := spinBody 0

/-- One pause. -/
def spin_pause_main : Worker → Body Cells SpinAt := spinBody 1

/-- As many pauses as the thread was given. -/
def spin_pause_more_main (x : Worker) : Body Cells SpinAt :=
  spinBody x.p.toNat x

/-- The three spinning thread functions. -/
def spinMains (x : Worker) : List (Body Cells SpinAt) :=
  [spin_main x, spin_pause_main x, spin_pause_more_main x]

end Osjitter.Pingpong
