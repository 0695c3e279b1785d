/-
Osjitter.Ptp.ClockOffset — the four ways in which `ptp-clock-offset.c` reads
the offset of a PTP clock from the system clock.

Two readings of the system clock enclose one of the device; the offset is the
difference of the device and the middle of the two, and the delay the time
between them. `clock_gettime` reads the clocks one after the other, the three
ioctls let the driver do it, for one sample or for several at once.

What the calls return is an argument: the timestamps, and how a call ends. A
signed addition that overflows, and an access behind an array, have no result:
the arithmetic is that of `Lib.Checked`. The number of samples is 5 in the
source; here it is an argument. The TSC around each call is given too, as it is
printed.

A line of the output is a record of its numbers. The headings, the texts around
the numbers and the messages to `stderr` are left out.
-/
import Mathlib
import Osjitter.Lib.Checked
import Osjitter.Util.Clock

namespace Osjitter.Ptp

open Util Checked

/-! ## Timestamps

Seconds and nanoseconds are made one number of 64 bits with a sign, and the
difference between the time scales of the system and the device is added to the
system's. Each sum may overflow, which is undefined in C and no result here. -/

/-- `struct ptp_clock_time` -/
structure PtpClockTime where
  sec : Int64
  nsec : UInt32
  deriving DecidableEq

/-- `struct timespec` -/
structure Timespec where
  tv_sec : Int64
  tv_nsec : Int64
  deriving DecidableEq

/-- The time scale of the device is 37 seconds ahead of the system's. -/
def tai_off_ns : ℤ := 37000000000

/-- The total nanoseconds of a timestamp of the device. -/
def pct2ns (ptc : PtpClockTime) : Option ℤ := do
  let s ← mul ptc.sec.toInt 1000000000
  add s ptc.nsec.toNat

/-- The same for one of the system, in the time scale of the device. -/
def pct2ns_tai (ptc : PtpClockTime) : Option ℤ := do
  let ns ← pct2ns ptc
  add ns tai_off_ns

/-- The total nanoseconds of a `struct timespec`. -/
def ts2ns (ts : Timespec) : Option ℤ := do
  let s ← mul ts.tv_sec.toInt 1000000000
  add s ts.tv_nsec.toInt

/-- The same in the time scale of the device. -/
def ts2ns_tai (ts : Timespec) : Option ℤ := do
  let ns ← ts2ns ts
  add ns tai_off_ns

/-! ## Output

Every method prints the same two numbers for a sample, from a timestamp of the
device between two of the system. Lines are kept as the values that they are
printed from, and a message of `perror` as its text. -/

/-- An offset and the delay of its reading. -/
structure Estimate where
  off : ℤ
  delay : ℤ
  deriving DecidableEq, Repr

/-- The two lines that each loop begins with, of the system's timestamps and
the device's. -/
def estimate (before after device : Option ℤ) : Option Estimate := do
  let s1 ← before
  let s2 ← after
  let p ← device
  let delay ← sub s2 s1
  let sum ← add s1 s2
  let off ← sub (sum.tdiv 2) p
  some { off := off, delay := delay }

/-- A line of the output. That of a single reading has no number. -/
structure Line extends Estimate where
  method : String
  no : Option ℕ
  syscall : Option UInt64
  deriving DecidableEq, Repr

/-- What a function prints, and the text it hands to `perror` before it
returns 1. -/
structure Output where
  lines : List Line
  error : Option String
  deriving DecidableEq, Repr

/-- The return value of the function. -/
def Output.ret (o : Output) : ℤ := if o.error.isSome then 1 else 0

/-- A line in front of those printed later. -/
def Output.cons (line : Line) (o : Output) : Output :=
  { o with lines := line :: o.lines }

/-! ## `clock_gettime`

The first method makes three calls for each sample. A call that fails makes the
function return at once, and the samples that were printed before stay. -/

/-- The results of an iteration's three calls. -/
structure Reading where
  r : Fin 3 → ℤ
  ts : Fin 3 → Timespec

/-- The timestamp of the device is the second of the three. -/
def clock_estimate (x : Reading) : Option Estimate :=
  estimate (ts2ns_tai (x.ts 0)) (ts2ns_tai (x.ts 2)) (ts2ns (x.ts 1))

/-- The iterations from `i`. -/
def clock_loop : ℕ → List Reading → Option Output
  | _, [] => some { lines := [], error := none }
  | i, x :: xs =>
      if x.r 0 = -1 then some { lines := [], error := "clock_gettime CLOCK_REALTIME 1" }
      else if x.r 1 = -1 then some { lines := [], error := "clock_gettime ptp" }
      else if x.r 2 = -1 then some { lines := [], error := "clock_gettime CLOCK_REALTIME 2" }
      else do
        let e ← clock_estimate x
        let rest ← clock_loop (i + 1) xs
        some (rest.cons { e with method := "clock_gettime", no := some (i + 1), syscall := none })

/-- The readings are those of the iterations, in order. -/
def read_clock_offset (xs : List Reading) : Option Output := clock_loop 0 xs

/-! ## `ioctl`

The others make one call for all samples, and convert the time that the call
took to nanoseconds for each line. `PTP_SYS_OFFSET` gets the timestamps of
system and device in turns, so that neighbouring samples share one; the extended
call gets three for each sample, and the precise one a single pair. -/

/-- A call of `ioctl` between two readings of the TSC. -/
structure Ioctl where
  r : ℤ
  b : UInt64
  e : UInt64

/-- The factors that `tsc2ns` uses. -/
structure Tsc where
  mult : UInt32
  shift : UInt32

def tsc2ns (tsc : Tsc) (cyc : UInt64) : UInt64 :=
  mul_u64_u32_shr cyc tsc.mult tsc.shift

/-- What follows a call: the message, or the lines for `sc_delay`. -/
def after_ioctl (tsc : Tsc) (c : Ioctl) (method : String)
    (body : UInt64 → Option (List Line)) : Option Output :=
  if c.r ≠ 0 then some { lines := [], error := method }
  else (body (tsc2ns tsc (c.e - c.b))).map fun ls => { lines := ls, error := none }

/-- `n` iterations, from `i` in steps of 2 and from `k`. -/
def ptp_loop (ts : List PtpClockTime) (sc_delay : UInt64) : ℕ → ℕ → ℕ → Option (List Line)
  | 0, _, _ => some []
  | n + 1, i, k => do
      let t0 ← ts[i]?
      let t1 ← ts[i + 1]?
      let t2 ← ts[i + 2]?
      let e ← estimate (pct2ns_tai t0) (pct2ns_tai t2) (pct2ns t1)
      let rest ← ptp_loop ts sc_delay n (i + 2) (k + 1)
      some ({ e with method := "PTP_SYS_OFFSET", no := some k, syscall := sc_delay } :: rest)

/-- `PTP_SYS_OFFSET`, whose samples are numbered from 1. -/
def read_ptp_offset (tsc : Tsc) (c : Ioctl) (n_samples : ℕ)
    (ts : List PtpClockTime) : Option Output :=
  after_ioctl tsc c "PTP_SYS_OFFSET" fun sc_delay => ptp_loop ts sc_delay n_samples 0 1

/-- `n` iterations, from `i`. -/
def extended_loop (ts : List (Fin 3 → PtpClockTime)) (sc_delay : UInt64) :
    ℕ → ℕ → Option (List Line)
  | 0, _ => some []
  | n + 1, i => do
      let t ← ts[i]?
      let e ← estimate (pct2ns_tai (t 0)) (pct2ns_tai (t 2)) (pct2ns (t 1))
      let rest ← extended_loop ts sc_delay n (i + 1)
      some ({ e with method := "PTP_SYS_OFFSET_EXTENDED", no := some (i + 1),
                     syscall := sc_delay } :: rest)

/-- `PTP_SYS_OFFSET_EXTENDED`, with an entry for each sample. -/
def read_ptp_offset_extended (tsc : Tsc) (c : Ioctl) (n_samples : ℕ)
    (ts : List (Fin 3 → PtpClockTime)) : Option Output :=
  after_ioctl tsc c "PTP_SYS_OFFSET_EXTENDED" fun sc_delay =>
    extended_loop ts sc_delay n_samples 0

/-- `PTP_SYS_OFFSET_PRECISE`, whose one sample has no delay and no number. -/
def read_ptp_offset_precise (tsc : Tsc) (c : Ioctl)
    (device sys_realtime : PtpClockTime) : Option Output :=
  after_ioctl tsc c "PTP_SYS_OFFSET_PRECISE" fun sc_delay => do
    let s ← pct2ns_tai sys_realtime
    let p ← pct2ns device
    let off ← sub s p
    some [{ off := off, delay := 0, method := "PTP_SYS_OFFSET_PRECISE", no := none,
            syscall := sc_delay }]

end Osjitter.Ptp
