/-
Osjitter.Ptp.Main — the program `ptp-clock-offset.c`: which device is asked, and
what is printed about it.

The argument is the path of a device or the name of a network interface. The
name is copied into an array of 16 characters, and how long it is, is not
checked: a longer one has no result.

  §1 `main`, with what the system yields as an argument: what each open, ioctl
     and reading gives. `get_ptp_dev` asks the interface for the number of its
     clock and its driver.
  §2 The tests, each of which may fail on its own. `clock_loop_report` and
     `extended_loop_report` follow a loop to its first failing call; an ioctl
     gives all of its samples or none (`after_ioctl_report`). What a test
     prints for a device is `Device.report` and `System.sfc_report`.
  §3 The output. `Opens` says which path is opened for an argument, `Overruns`
     which name does not fit, and `Served` what comes of either;
     `get_ptp_dev_spec` is the case analysis of the interface.
     `main_prints_iff` is the result: when there is an access outside the
     array, when 0 is returned, and what is printed then.

Left out are the messages, the numbers in the headings, `close`, and the build
with `PCO_READ_PERF`. Timestamps are in the range of `Ptp.ClockOffsetTheorems`,
as every clock is that has not been set to another century.
-/
import Mathlib
import Osjitter.Util.Sources
import Osjitter.Ptp.ClockOffsetTheorems

namespace Osjitter.Ptp

open Util Checked CString

/-! ## §1 The program

The program takes a path or the name of a network interface, of which it asks
the number of the clock. The name is copied to an array of 16 characters without
a test of its length. Each test prints under its heading, whether it works or
not. -/

/-- `struct sfc_ts` -/
structure SfcTs where
  sec : Int64
  nsec : Int32
  deriving DecidableEq

/-- The product is one without sign, so it wraps. -/
def sfcts2ns (ts : SfcTs) : Option ℤ :=
  add (ts.sec.toUInt64 * 1000000000).toInt64.toInt ts.nsec.toInt

/-- What the calls on an open device yield. -/
structure Device where
  clock : Fin 5 → Reading
  offset : Ioctl
  offset_ts : Fin 51 → PtpClockTime
  extended : Ioctl
  extended_ts : Fin 25 → Fin 3 → PtpClockTime
  precise : Ioctl
  device : PtpClockTime
  sys_realtime : PtpClockTime

/-- What the system yields: the frequency of the TSC, the calls on a network
interface, and the devices that can be opened. -/
structure System where
  /-- Arrays before they are written. -/
  buf : List Char
  sources : Sources
  if_fd : ℤ
  ts_info : ℤ
  phc_index : ℤ
  asprintf_fails : Bool
  drvinfo : ℤ
  driver : List Char
  device : List Char → Option Device
  sfc : Ioctl
  sfc_ts : SfcTs

/-- What `read_sfc_offset` prints, if its call succeeds. -/
structure SfcLine where
  off : ℤ
  syscall : UInt64
  deriving DecidableEq

/-- A test with its heading. -/
inductive Section where
  | clock_gettime (o : Output)
  | PTP_SYS_OFFSET (o : Output)
  | PTP_SYS_OFFSET_EXTENDED (o : Output)
  | PTP_SYS_OFFSET_PRECISE (o : Output)
  | SIOCEFX (line : Option SfcLine)
  deriving DecidableEq

/-- `strcpy(ifr.ifr_name, name)`, into an array of `IFNAMSIZ` characters. -/
def strcpy_ifr_name (name : List Char) : Option Unit :=
  if name.length < 16 then some () else none

/-- `%d` -/
def int_decimal (n : ℤ) : List Char :=
  if n < 0 then '-' :: decimal n.natAbs else decimal n.natAbs

/-- The return value, `*dev` and `*is_sfc`. -/
def get_ptp_dev (sys : System) (if_name dev : List Char) (is_sfc : Bool) :
    Option (ℤ × List Char × Bool) := do
  strcpy_ifr_name if_name
  if sys.ts_info = -1 then some (-1, dev, is_sfc)
  else if sys.phc_index = -1 then some (-1, dev, is_sfc)
  else if sys.asprintf_fails then some (-1, dev, is_sfc)
  else
    let dev := "/dev/ptp".toList ++ int_decimal sys.phc_index
    if sys.drvinfo = -1 then some (1, dev, is_sfc)
    else some (0, dev, if sys.driver = "sfc".toList then true else is_sfc)

/-- The test of the driver of Solarflare cards, which prints a single line. -/
def read_sfc_offset (sys : System) (tsc : Tsc) (name : List Char) :
    Option (Option SfcLine) := do
  strcpy_ifr_name name
  if sys.sfc.r ≠ 0 then some none
  else do
    let off ← sfcts2ns sys.sfc_ts
    some (some { off := off, syscall := tsc2ns tsc (sys.sfc.e - sys.sfc.b) })

/-- `main` from `open` on. -/
def run_tests (sys : System) (tsc : Tsc) (if_name dev : List Char)
    (is_sfc : Bool) : Option (ℤ × List Section) :=
  match sys.device dev with
  | none => some (1, [])
  | some d => do
      let clock ← read_clock_offset (List.ofFn d.clock)
      let offset ← read_ptp_offset tsc d.offset 5 (List.ofFn d.offset_ts)
      let extended ← read_ptp_offset_extended tsc d.extended 5 (List.ofFn d.extended_ts)
      let precise ← read_ptp_offset_precise tsc d.precise d.device d.sys_realtime
      let tests := [.clock_gettime clock, .PTP_SYS_OFFSET offset,
        .PTP_SYS_OFFSET_EXTENDED extended, .PTP_SYS_OFFSET_PRECISE precise]
      if is_sfc then do
        let line ← read_sfc_offset sys tsc if_name
        some (0, tests ++ [.SIOCEFX line])
      else some (0, tests)

/-- `clocks_calc_mult_shift(&tsc_mult, &tsc_shift, tsc_khz, 1000000l, 0)` -/
def Tsc.of (tsc_khz : UInt32) : Tsc where
  mult := (clocks_calc_mult_shift tsc_khz 1000000 0).1
  shift := (clocks_calc_mult_shift tsc_khz 1000000 0).2

/-- The return value, and what is printed. -/
def main (argv : List (List Char)) (sys : System) : Option (ℤ × List Section) :=
  match argv with
  | _ :: arg :: _ => do
      let (r, tsc_khz) ← get_tsc_khz sys.buf sys.sources
      if r ≠ 0 then some (1, [])
      else
        let tsc := Tsc.of tsc_khz
        if arg.head? = some '/' then run_tests sys tsc [] arg false
        else if sys.if_fd = -1 then some (1, [])
        else do
          let (r, dev, is_sfc) ← get_ptp_dev sys arg arg false
          if r = -1 then some (1, []) else run_tests sys tsc arg dev is_sfc
  | _ => some (1, [])

/-! ## §2 The tests

What each test prints is put in one definition without its loop, from the
timestamps alone: the samples before a failure for `clock_gettime`, all or none
for the others. These are the `report`s, and each function is equal to its own.
-/

/-- What the literals of `Fin 3` rest on, three calls or timestamps. -/
theorem three_calls : NeZero 3 := ⟨by decide⟩

attribute [local instance] three_calls

/-- The message of the first of the calls that fails. -/
def Reading.failure (x : Reading) : Option String :=
  if x.r 0 = -1 then some "clock_gettime CLOCK_REALTIME 1"
  else if x.r 1 = -1 then some "clock_gettime ptp"
  else if x.r 2 = -1 then some "clock_gettime CLOCK_REALTIME 2"
  else none

/-- The readings before a failure. -/
def clock_report (xs : List Reading) : Output where
  lines := (xs.takeWhile fun x => x.failure = none).mapIdx fun j x =>
    ⟨expected (x.ts 0).total (x.ts 1).total (x.ts 2).total, "clock_gettime",
      some (j + 1), none⟩
  error := xs.findSome? Reading.failure

/-- All samples or none. -/
def ioctl_report (tsc : Tsc) (c : Ioctl) (method : String)
    (no : ℕ → Option ℕ) (n : ℕ) (e : ℕ → Estimate) : Output :=
  if c.r ≠ 0 then { lines := [], error := method }
  else { lines := (List.range n).map fun j =>
           ⟨e j, method, no j, some (tsc2ns tsc (c.e - c.b))⟩,
         error := none }

/-- The estimate of the three timestamps of an entry. -/
def triple (ts : List (Fin 3 → PtpClockTime)) (i : ℕ) : Estimate :=
  (ts[i]?.map fun t => expected (t 0).total (t 1).total (t 2).total).getD ⟨0, 0⟩

/-- The four tests of a device, in the order in which they are run. -/
def Device.report (d : Device) (tsc : Tsc) : List Section :=
  [.clock_gettime (clock_report (List.ofFn d.clock)),
    .PTP_SYS_OFFSET (ioctl_report tsc d.offset "PTP_SYS_OFFSET"
      (fun j => some (1 + j)) 5
      fun j => window (List.ofFn d.offset_ts) (2 * j)),
    .PTP_SYS_OFFSET_EXTENDED (ioctl_report tsc d.extended "PTP_SYS_OFFSET_EXTENDED"
      (fun j => some (j + 1)) 5 fun j => triple (List.ofFn d.extended_ts) j),
    .PTP_SYS_OFFSET_PRECISE
      (ioctl_report tsc d.precise "PTP_SYS_OFFSET_PRECISE" (fun _ => none) 1
      fun _ => ⟨d.sys_realtime.total + tai_off_ns - d.device.total, 0⟩)]

/-- The nanoseconds of a timestamp of the driver, exactly. -/
def SfcTs.total (t : SfcTs) : ℤ := t.sec.toInt * 1000000000 + t.nsec.toInt

/-- What is printed about a card of Solarflare. -/
def System.sfc_report (sys : System) (tsc : Tsc) : Section :=
  .SIOCEFX (if sys.sfc.r ≠ 0 then none
    else some ⟨sys.sfc_ts.total, tsc2ns tsc (sys.sfc.e - sys.sfc.b)⟩)

/-- Timestamps in the range wherever a call succeeds. -/
structure Device.Ok (d : Device) : Prop where
  clock : ∀ i, (d.clock i).failure = none → ∀ l, ((d.clock i).ts l).Ok
  offset : d.offset.r = 0 → ∀ i, (d.offset_ts i).Ok
  extended : d.extended.r = 0 → ∀ i l, (d.extended_ts i l).Ok
  precise : d.precise.r = 0 → d.device.Ok ∧ d.sys_realtime.Ok

/-- A normalised timestamp in the range. -/
def SfcTs.Ok (t : SfcTs) : Prop :=
  0 ≤ t.nsec.toInt ∧ t.nsec.toInt < 1000000000 ∧ InRange t.total

/-- The conversion wraps nowhere for a timestamp in the range. -/
theorem sfcts2ns_eq {t : SfcTs} (h : t.Ok) : sfcts2ns t = some t.total := by
  obtain ⟨hns, hns', hlow, hhigh⟩ := h
  have hprod : (t.sec.toUInt64 * 1000000000).toInt64.toInt =
      (t.sec.toInt * 1000000000).bmod (2 ^ 64) := by
    show (t.sec.toBitVec * 1000000000#64).toInt = _
    rw [BitVec.toInt_mul]
    rfl
  rw [SfcTs.total] at hlow hhigh
  have hexact : (t.sec.toInt * 1000000000).bmod (2 ^ 64) =
      t.sec.toInt * 1000000000 :=
    Int.bmod_eq_of_le (by omega) (by omega)
  rw [sfcts2ns, hprod, hexact]
  exact add_eq_some ⟨by omega, by omega⟩

/-- Without a failure the timestamps count. -/
theorem Reading.ok_of_failure {x : Reading} (h : x.failure = none)
    (hts : ∀ l, (x.ts l).Ok) : x.Ok := by
  have hcalls : x.r 0 ≠ -1 ∧ x.r 1 ≠ -1 ∧ x.r 2 ≠ -1 := by
    unfold Reading.failure at h
    split_ifs at h with h0 h1 h2
    exact ⟨h0, h1, h2⟩
  intro l
  refine ⟨?_, hts l⟩
  fin_cases l
  · exact hcalls.1
  · exact hcalls.2.1
  · exact hcalls.2.2

/-- An iteration with a call that fails is the last. -/
theorem clock_loop_failure {x : Reading} {msg : String}
    (h : x.failure = some msg) (i : ℕ) (xs : List Reading) :
    clock_loop i (x :: xs) = some ⟨[], some msg⟩ := by
  unfold Reading.failure at h
  rw [clock_loop]
  split_ifs at h ⊢ with h0 h1 h2
  · rw [← h]
  · rw [← h]
  · rw [← h]

/-- The estimate of a reading in the range. -/
theorem clock_estimate_eq {x : Reading} (h : x.Ok) :
    clock_estimate x =
      some (expected (x.ts 0).total (x.ts 1).total (x.ts 2).total) := by
  rw [clock_estimate, (ts2ns_eq (h 0).2).2, (ts2ns_eq (h 1).2).1, (ts2ns_eq (h 2).2).2,
    estimate_eq (h 0).2.2.2 (h 1).2.2.2 (h 2).2.2.2]

/-- **`clock_gettime`** is asked until a call fails. -/
theorem clock_loop_report (xs : List Reading)
    (h : ∀ x ∈ xs, x.failure = none → ∀ l, (x.ts l).Ok) (i : ℕ) :
    clock_loop i xs = some ⟨(xs.takeWhile fun x => x.failure = none).mapIdx fun j x =>
      ⟨expected (x.ts 0).total (x.ts 1).total (x.ts 2).total, "clock_gettime",
        some (i + j + 1), none⟩, xs.findSome? Reading.failure⟩ := by
  induction xs generalizing i with
  | nil => rfl
  | cons x xs ih =>
    obtain ⟨hx, hxs⟩ := List.forall_mem_cons.mp h
    cases hfail : x.failure with
    | some msg =>
      rw [clock_loop_failure hfail, List.takeWhile_cons_of_neg (by simp [hfail]),
        List.findSome?_cons, hfail]
      rfl
    | none =>
      have hok := Reading.ok_of_failure hfail (hx hfail)
      have hshift : ∀ j, i + 1 + j + 1 = i + (j + 1) + 1 := by
        intro j
        omega
      rw [List.takeWhile_cons_of_pos (by simp [hfail]), List.findSome?_cons, hfail]
      simp only [clock_loop, if_neg (hok 0).1, if_neg (hok 1).1, if_neg (hok 2).1,
        clock_estimate_eq hok, ih hxs (i + 1), Option.bind_eq_bind,
        Option.bind_some, Output.cons, List.mapIdx_cons, hshift, Nat.add_zero]

/-- **The samples of `PTP_SYS_OFFSET_EXTENDED`**, complete. -/
theorem extended_loop_report {ts : List (Fin 3 → PtpClockTime)}
    (sc_delay : UInt64) (n : ℕ) :
    ∀ i : ℕ, (∀ j, i ≤ j → j < i + n → ∃ t, ts[j]? = some t ∧ ∀ l, (t l).Ok) →
      extended_loop ts sc_delay n i = some ((List.range n).map fun j =>
        ⟨triple ts (i + j), "PTP_SYS_OFFSET_EXTENDED", some (i + j + 1),
          some sc_delay⟩) := by
  induction n with
  | zero =>
    intro i _
    rfl
  | succ n ih =>
    intro i h
    obtain ⟨t, ht, hok⟩ := h i (by omega) (by omega)
    have hrest := ih (i + 1) fun j hj hj' => h j (by omega) (by omega)
    have hfirst : estimate (pct2ns_tai (t 0)) (pct2ns_tai (t 2)) (pct2ns (t 1)) =
        some (triple ts i) := by
      rw [(pct2ns_eq (hok 0)).2, (pct2ns_eq (hok 1)).1, (pct2ns_eq (hok 2)).2,
        estimate_eq (hok 0).2 (hok 1).2 (hok 2).2, triple, ht]
      rfl
    have hshift : ∀ j, i + 1 + j = i + (j + 1) := by
      intro j
      omega
    simp only [extended_loop, ht, hfirst, hrest, Option.bind_eq_bind, Option.bind_some,
      List.range_succ_eq_map, List.map_cons, List.map_map,
      Function.comp_def, hshift, Nat.succ_eq_add_one, Nat.add_zero]

/-- A call and the samples that follow it. -/
theorem after_ioctl_report {tsc : Tsc} {c : Ioctl} {method : String}
    {no : ℕ → Option ℕ} {n : ℕ} {e : ℕ → Estimate}
    {body : UInt64 → Option (List Line)}
    (h : c.r = 0 → body (tsc2ns tsc (c.e - c.b)) = some ((List.range n).map fun j =>
      ⟨e j, method, no j, some (tsc2ns tsc (c.e - c.b))⟩)) :
    after_ioctl tsc c method body =
      some (ioctl_report tsc c method no n e) := by
  unfold ioctl_report
  by_cases hc : c.r = 0
  · rw [after_ioctl_eq hc (h hc), if_neg (not_not.mpr hc)]
  · rw [after_ioctl, if_pos hc, if_pos hc]

section tests

variable {d : Device} (hd : d.Ok) (tsc : Tsc)

include hd

/-- The first test. -/
theorem read_clock_offset_report :
    read_clock_offset (List.ofFn d.clock) =
      some (clock_report (List.ofFn d.clock)) := by
  have hreadings : ∀ x ∈ List.ofFn d.clock, x.failure = none →
      ∀ l, (x.ts l).Ok :=
    (List.forall_mem_ofFn_iff).mpr hd.clock
  rw [read_clock_offset, clock_loop_report _ hreadings, clock_report]
  simp only [Nat.zero_add]

/-- The second test, with five samples. -/
theorem read_ptp_offset_report :
    read_ptp_offset tsc d.offset 5 (List.ofFn d.offset_ts) =
    some (ioctl_report tsc d.offset "PTP_SYS_OFFSET" (fun j => some (1 + j)) 5
      fun j => window (List.ofFn d.offset_ts) (2 * j)) := by
  refine after_ioctl_report fun hc => ?_
  have hfilled : Filled (List.ofFn d.offset_ts) 0 (2 * 5) := by
    intro j _ hj
    have hlen : j < (List.ofFn d.offset_ts).length := by
      rw [List.length_ofFn]
      omega
    refine ⟨_, List.getElem?_eq_getElem hlen, ?_⟩
    rw [List.getElem_ofFn]
    exact hd.offset hc _
  simpa only [Nat.zero_add]
    using ptp_loop_eq _ (tsc2ns tsc (d.offset.e - d.offset.b)) 5 0 1 hfilled

/-- The third test, with five samples. -/
theorem read_ptp_offset_extended_report :
    read_ptp_offset_extended tsc d.extended 5 (List.ofFn d.extended_ts) =
      some (ioctl_report tsc d.extended "PTP_SYS_OFFSET_EXTENDED"
        (fun j => some (j + 1)) 5
        fun j => triple (List.ofFn d.extended_ts) j) := by
  refine after_ioctl_report fun hc => ?_
  have hfilled : ∀ j, 0 ≤ j → j < 0 + 5 →
      ∃ t, (List.ofFn d.extended_ts)[j]? = some t ∧ ∀ l, (t l).Ok := by
    intro j _ hj
    have hlen : j < (List.ofFn d.extended_ts).length := by
      rw [List.length_ofFn]
      omega
    refine ⟨_, List.getElem?_eq_getElem hlen, ?_⟩
    rw [List.getElem_ofFn]
    exact hd.extended hc _
  simpa only [Nat.zero_add] using
    extended_loop_report (tsc2ns tsc (d.extended.e - d.extended.b)) 5 0 hfilled

/-- The fourth test, with its single line. -/
theorem read_ptp_offset_precise_report :
    read_ptp_offset_precise tsc d.precise d.device d.sys_realtime =
      some (ioctl_report tsc d.precise "PTP_SYS_OFFSET_PRECISE" (fun _ => none) 1
        fun _ => ⟨d.sys_realtime.total + tai_off_ns - d.device.total, 0⟩) := by
  refine after_ioctl_report fun hc => ?_
  obtain ⟨hdev, hsys⟩ := hd.precise hc
  have htai : tai_off_ns = 37000000000 := rfl
  obtain ⟨hlowd, hhighd⟩ := hdev.2
  obtain ⟨hlows, hhighs⟩ := hsys.2
  have hoff : sub (d.sys_realtime.total + tai_off_ns) d.device.total =
      some (d.sys_realtime.total + tai_off_ns - d.device.total) :=
    sub_eq_some ⟨by omega, by omega⟩
  simp only [(pct2ns_eq hdev).1, (pct2ns_eq hsys).2, hoff, Option.bind_eq_bind,
    Option.bind_some]
  rfl

end tests

/-! ## §3 The output

`Opens` says which device is tested for an argument, as a relation with a case
for a path and one for an interface, and `Overruns` which names are too long for
their array. `Served` are the three ways in which an argument can end, and
`main_prints_iff` reads the statuses and the output off it. -/

/-- A system whose timestamps are in the range. -/
structure System.Ok (sys : System) : Prop where
  buf : sys.buf.length = 16
  device : ∀ path d, sys.device path = some d → d.Ok
  sfc : sys.sfc.r = 0 → sys.sfc_ts.Ok

/-- What is printed about a device. -/
def System.report (sys : System) (d : Device) (tsc : Tsc) (is_sfc : Bool) :
    List Section :=
  d.report tsc ++ if is_sfc then [sys.sfc_report tsc] else []

/-- The test of the driver, for a name that fits. -/
theorem read_sfc_offset_report {sys : System} (h : sys.Ok) (tsc : Tsc)
    {name : List Char} (hname : name.length < 16) :
    (read_sfc_offset sys tsc name).map Section.SIOCEFX =
      some (sys.sfc_report tsc) := by
  rw [read_sfc_offset, strcpy_ifr_name, if_pos hname, System.sfc_report]
  by_cases hr : sys.sfc.r = 0
  · simp only [hr, ne_eq, not_true_eq_false, if_false, sfcts2ns_eq (h.sfc hr),
      Option.bind_eq_bind, Option.bind_some, Option.map_some]
  · simp only [hr, ne_eq, not_false_eq_true, if_true, Option.bind_eq_bind,
      Option.bind_some, Option.map_some]

/-- The tests that are run on a device. -/
theorem run_tests_eq {sys : System} (h : sys.Ok) (tsc : Tsc)
    {if_name : List Char} (dev : List Char) {is_sfc : Bool}
    (hname : if_name.length < 16) :
    run_tests sys tsc if_name dev is_sfc = some (match sys.device dev with
      | none => (1, [])
      | some d => (0, sys.report d tsc is_sfc)) := by
  unfold run_tests
  cases hdev : sys.device dev with
  | none => rfl
  | some d =>
    have hd := h.device dev d hdev
    have hsfc := read_sfc_offset_report h tsc hname
    simp only [read_clock_offset_report hd, read_ptp_offset_report hd,
      read_ptp_offset_extended_report hd, read_ptp_offset_precise_report hd,
      Option.bind_eq_bind, Option.bind_some]
    cases is_sfc with
    | false => simp [System.report, Device.report]
    | true =>
      obtain ⟨line, hline, hprint⟩ := Option.map_eq_some_iff.mp hsfc
      simp [System.report, Device.report, hline, ← hprint]

/-- Which path is opened for an argument, and whether the interface is tested
too: for the name of an interface it is that of its clock. -/
inductive Opens (sys : System) (arg : List Char) : List Char → Bool → Prop
  | path : arg.head? = some '/' → Opens sys arg arg false
  | interface : arg.head? ≠ some '/' → sys.if_fd ≠ -1 → arg.length < 16 →
    sys.ts_info ≠ -1 →
      sys.phc_index ≠ -1 → sys.asprintf_fails = false →
      Opens sys arg ("/dev/ptp".toList ++ int_decimal sys.phc_index)
        (decide (sys.drvinfo ≠ -1 ∧ sys.driver = "sfc".toList))

/-- An argument opens one path at most. -/
theorem Opens.unique {sys : System} {arg path path' : List Char}
    {is_sfc is_sfc' : Bool} (h : Opens sys arg path is_sfc)
    (h' : Opens sys arg path' is_sfc') : path = path' ∧ is_sfc = is_sfc' := by
  cases h with
  | path hslash => cases h' with
    | path => exact ⟨rfl, rfl⟩
    | interface hname => exact absurd hslash hname
  | interface hname => cases h' with
    | path hslash => exact absurd hslash hname
    | interface => exact ⟨rfl, rfl⟩

/-- A name that is copied and does not fit. -/
structure Overruns (sys : System) (arg : List Char) : Prop where
  name : arg.head? ≠ some '/'
  if_fd : sys.if_fd ≠ -1
  long : 16 ≤ arg.length

/-- What is done for an argument when the frequency is known. -/
def serve (sys : System) (tsc : Tsc) (arg : List Char) :
    Option (ℤ × List Section) :=
  if arg.head? = some '/' then run_tests sys tsc [] arg false
  else if sys.if_fd = -1 then some (1, [])
  else do
    let (r, dev, is_sfc) ← get_ptp_dev sys arg arg false
    if r = -1 then some (1, []) else run_tests sys tsc arg dev is_sfc

/-- With a frequency the argument is looked at. -/
theorem main_of_gives {sys : System} (h : sys.Ok) {tsc_khz : UInt32}
    (hkhz : first sys.sources.answers = .gives tsc_khz) (prog arg : List Char)
    (rest : List (List Char)) :
    main (prog :: arg :: rest) sys = serve sys (Tsc.of tsc_khz) arg := by
  obtain ⟨o, hget, hends⟩ := get_tsc_khz_ends h.buf sys.sources
  rcases hends with ⟨-, hnone⟩ | ⟨hzero, hgives⟩
  · exact absurd hkhz (hnone tsc_khz)
  · obtain rfl : tsc_khz = o.2 := Answer.gives.inj (hkhz.symm.trans hgives)
    simp only [main, hget, hzero, Option.bind_eq_bind, Option.bind_some, ne_eq,
      not_true_eq_false, if_false]
    rfl

/-- Without one `main` returns 1 and prints nothing. -/
theorem main_of_not_gives {sys : System} (h : sys.Ok)
    (hkhz : ∀ tsc_khz, first sys.sources.answers ≠ .gives tsc_khz)
    (prog arg : List Char) (rest : List (List Char)) :
    main (prog :: arg :: rest) sys = some (1, []) := by
  obtain ⟨o, hget, hends⟩ := get_tsc_khz_ends h.buf sys.sources
  rcases hends with ⟨hneg, -⟩ | ⟨-, hgives⟩
  · have hne : o.1 ≠ 0 := Int.ne_of_lt hneg
    simp only [main, hget, Option.bind_eq_bind, Option.bind_some, ne_eq, hne,
      not_false_eq_true, if_true]
  · exact absurd hgives (hkhz o.2)

/-- What becomes of an argument. -/
inductive Served (sys : System) (tsc : Tsc) (arg : List Char) :
    Option (ℤ × List Section) → Prop
  | overruns : Overruns sys arg → Served sys tsc arg none
  | prints {path is_sfc d} : ¬ Overruns sys arg → Opens sys arg path is_sfc →
      sys.device path = some d →
        Served sys tsc arg (some (0, sys.report d tsc is_sfc))
  | fails : ¬ Overruns sys arg → (∀ path is_sfc d, Opens sys arg path is_sfc →
      sys.device path ≠ some d) → Served sys tsc arg (some (1, []))

/-- A path that is found is tested, or cannot be opened. -/
theorem Opens.served {sys : System} (h : sys.Ok) (tsc : Tsc)
    {arg path : List Char} {is_sfc : Bool} (hopens : Opens sys arg path is_sfc)
    (hfits : ¬ Overruns sys arg) {name : List Char} (hname : name.length < 16) :
    Served sys tsc arg (run_tests sys tsc name path is_sfc) := by
  rw [run_tests_eq h tsc path hname]
  cases hdev : sys.device path with
  | some d => exact .prints hfits hopens hdev
  | none =>
    refine .fails hfits fun path' is_sfc' d hopens' => ?_
    rw [← (hopens.unique hopens').1, hdev]
    exact (Option.some_ne_none d).symm

/-- **The clock of an interface** is found, or there is nothing to open. -/
theorem get_ptp_dev_spec {sys : System} {name : List Char}
    (hname : name.head? ≠ some '/') (hfd : sys.if_fd ≠ -1)
    (hfits : name.length < 16) : ∃ r dev is_sfc,
      get_ptp_dev sys name name false = some (r, dev, is_sfc) ∧
        ((r = -1 ∧ ∀ path is_sfc', ¬ Opens sys name path is_sfc') ∨
          (r ≠ -1 ∧ Opens sys name dev is_sfc)) := by
  rw [get_ptp_dev, strcpy_ifr_name, if_pos hfits]
  simp only [Option.bind_eq_bind, Option.bind_some]
  by_cases hinfo : sys.ts_info = -1
  · refine ⟨-1, name, false,
      by rw [if_pos hinfo], .inl ⟨rfl, fun path is_sfc' hopens => ?_⟩⟩
    cases hopens with
    | path hslash => exact hname hslash
    | interface _ _ _ hne => exact hne hinfo
  by_cases hindex : sys.phc_index = -1
  · refine ⟨-1, name, false, by rw [if_neg hinfo, if_pos hindex],
      .inl ⟨rfl, fun path is_sfc' hopens => ?_⟩⟩
    cases hopens with
    | path hslash => exact hname hslash
    | interface _ _ _ _ hne => exact hne hindex
  by_cases hprintf : sys.asprintf_fails = true
  · refine ⟨-1, name, false, by rw [if_neg hinfo, if_neg hindex, if_pos hprintf],
      .inl ⟨rfl, fun path is_sfc' hopens => ?_⟩⟩
    cases hopens with
    | path hslash => exact hname hslash
    | interface _ _ _ _ _ hok => rw [hprintf] at hok; cases hok
  have hopens :=
    Opens.interface hname hfd hfits hinfo hindex (Bool.eq_false_iff.mpr hprintf)
  rw [if_neg hinfo, if_neg hindex, if_neg hprintf]
  by_cases hdrv : sys.drvinfo = -1
  · rw [decide_eq_false (fun h => h.1 hdrv)] at hopens
    exact ⟨_, _, _, by rw [if_pos hdrv], .inr ⟨by decide, hopens⟩⟩
  · refine ⟨0, _, decide (sys.drvinfo ≠ -1 ∧ sys.driver = "sfc".toList), ?_,
      .inr ⟨by decide, hopens⟩⟩
    rw [if_neg hdrv]
    simp [hdrv]

/-- Every argument ends in one of the three ways. -/
theorem serve_served {sys : System} (h : sys.Ok) (tsc : Tsc) (arg : List Char) :
    Served sys tsc arg (serve sys tsc arg) := by
  unfold serve
  by_cases hslash : arg.head? = some '/'
  · rw [if_pos hslash]
    exact (Opens.path hslash).served h tsc
      (fun hover => hover.name hslash) Nat.ofNat_pos
  rw [if_neg hslash]
  by_cases hfd : sys.if_fd = -1
  · rw [if_pos hfd]
    refine .fails (fun hover => hover.if_fd hfd) fun path is_sfc d hopens => ?_
    cases hopens with
    | path hpath => exact absurd hpath hslash
    | interface _ hne => exact absurd hfd hne
  rw [if_neg hfd]
  by_cases hlong : arg.length < 16
  · have hfits : ¬ Overruns sys arg :=
      fun hover => Nat.not_lt.mpr hover.long hlong
    obtain ⟨r, dev, is_sfc, hget, hspec⟩ := get_ptp_dev_spec hslash hfd hlong
    simp only [hget, Option.bind_eq_bind, Option.bind_some]
    rcases hspec with ⟨hr, hnone⟩ | ⟨hr, hopens⟩
    · rw [if_pos hr]
      exact .fails hfits fun path is_sfc' d hopens => absurd hopens (hnone path is_sfc')
    · rw [if_neg hr]
      exact hopens.served h tsc hfits hlong
  · have hover : Overruns sys arg := ⟨hslash, hfd, Nat.not_lt.mp hlong⟩
    rw [get_ptp_dev, strcpy_ifr_name, if_neg hlong]
    exact .overruns hover

/-- A name that is too long opens nothing. -/
theorem Overruns.not_opens {sys : System} {arg path : List Char} {is_sfc : Bool}
    (h : Overruns sys arg) : ¬ Opens sys arg path is_sfc := by
  intro hopens
  cases hopens with
  | path hslash => exact h.name hslash
  | interface _ _ hfits => exact Nat.not_lt.mpr h.long hfits

section served

variable {sys : System} {tsc : Tsc} {arg : List Char}
  {o : Option (ℤ × List Section)} (h : Served sys tsc arg o)

include h

/-- An array is overrun by such a name only. -/
theorem Served.none_iff : o = none ↔ Overruns sys arg := by
  cases h with
  | overruns hover => exact iff_of_true rfl hover
  | prints hfits => exact iff_of_false (Option.some_ne_none _) hfits
  | fails hfits => exact iff_of_false (Option.some_ne_none _) hfits

/-- 0 is returned if there is a device, with what its tests print. -/
theorem Served.zero_iff (sections : List Section) : o = some (0, sections) ↔
    ∃ path is_sfc d, Opens sys arg path is_sfc ∧ sys.device path = some d ∧
      sections = sys.report d tsc is_sfc := by
  cases h with
  | overruns hover =>
    refine iff_of_false (Option.some_ne_none _).symm ?_
    rintro ⟨path, is_sfc, d, hopens, -⟩
    exact hover.not_opens hopens
  | @prints path is_sfc d _ hopens hdev =>
    constructor
    · intro heq
      cases heq
      exact ⟨path, is_sfc, d, hopens, hdev, rfl⟩
    · rintro ⟨path', is_sfc', d', hopens', hdev', rfl⟩
      obtain ⟨rfl, rfl⟩ := hopens.unique hopens'
      obtain rfl : d = d' := Option.some.inj (hdev.symm.trans hdev')
      rfl
  | fails _ hnone =>
    refine iff_of_false (fun heq => ?_) ?_
    · cases heq
    · rintro ⟨path, is_sfc, d, hopens, hdev, -⟩
      exact hnone path is_sfc d hopens hdev

/-- Any other status is 1, without output. -/
theorem Served.otherwise {r : ℤ} {sections : List Section}
    (ho : o = some (r, sections)) : r = 0 ∨ r = 1 ∧ sections = [] := by
  cases h with
  | overruns => cases ho
  | prints =>
    cases ho
    exact .inl rfl
  | fails =>
    cases ho
    exact .inr ⟨rfl, rfl⟩

end served

/-- **What `ptp-clock-offset` prints.** It writes outside an array exactly for the
name of an interface that is too long; it returns 0 exactly if there is a
device, also where every test fails, and prints what each test has found. -/
theorem main_prints_iff (sys : System) (h : sys.Ok) (prog arg : List Char)
    (rest : List (List Char)) :
    (main (prog :: arg :: rest) sys = none ↔
      (∃ tsc_khz, first sys.sources.answers = .gives tsc_khz) ∧
        Overruns sys arg) ∧
    (∀ sections, main (prog :: arg :: rest) sys = some (0, sections) ↔
      ∃ tsc_khz, first sys.sources.answers = .gives tsc_khz ∧ ∃ path is_sfc d,
        Opens sys arg path is_sfc ∧ sys.device path = some d ∧
          sections = sys.report d (Tsc.of tsc_khz) is_sfc) ∧
    ∀ r sections, main (prog :: arg :: rest) sys = some (r, sections) →
      r = 0 ∨ r = 1 ∧ sections = [] := by
  by_cases hkhz : ∃ tsc_khz, first sys.sources.answers = .gives tsc_khz
  · obtain ⟨tsc_khz, hkhz⟩ := hkhz
    have hserved := serve_served h (Tsc.of tsc_khz) arg
    rw [main_of_gives h hkhz]
    refine ⟨?_, fun sections => ?_, fun r sections hr => hserved.otherwise hr⟩
    · rw [hserved.none_iff]
      exact (and_iff_right ⟨tsc_khz, hkhz⟩).symm
    · rw [hserved.zero_iff]
      constructor
      · exact fun hprints => ⟨tsc_khz, hkhz, hprints⟩
      · rintro ⟨khz', hkhz', hprints⟩
        obtain rfl : tsc_khz = khz' := Answer.gives.inj (hkhz.symm.trans hkhz')
        exact hprints
  · rw [main_of_not_gives h (not_exists.mp hkhz)]
    refine ⟨iff_of_false (Option.some_ne_none _) fun hover => hkhz hover.1,
        fun sections =>
      iff_of_false (fun heq => by cases heq) ?_, fun r sections heq => ?_⟩
    · rintro ⟨tsc_khz, hgives, -⟩
      exact hkhz ⟨tsc_khz, hgives⟩
    · cases heq
      exact .inr ⟨rfl, rfl⟩

/-- An interface whose clock is `/dev/ptp0`, where only the first test works. -/
def eth0_device : Device where
  clock _ := ⟨fun _ => 0, fun _ => ⟨1600000000, 10⟩⟩
  offset := ⟨-1, 0, 0⟩
  offset_ts _ := ⟨0, 0⟩
  extended := ⟨-1, 0, 0⟩
  extended_ts _ _ := ⟨0, 0⟩
  precise := ⟨-1, 0, 0⟩
  device := ⟨0, 0⟩
  sys_realtime := ⟨0, 0⟩

/-- The system around it, with a frequency under `/sys`. -/
def eth0 : System where
  buf := List.replicate 16 'x'
  sources := ⟨.contents "2994375\n".toList false, .eof, .eof⟩
  if_fd := 3
  ts_info := 0
  phc_index := 0
  asprintf_fails := false
  drvinfo := -1
  driver := []
  device path := if path = "/dev/ptp0".toList then some eth0_device else none
  sfc := ⟨-1, 0, 0⟩
  sfc_ts := ⟨0, 0⟩

/-- Its timestamps are in the range. -/
theorem eth0_ok : eth0.Ok where
  buf := rfl
  device path d hdev := by
    have hts : (⟨1600000000, 10⟩ : Timespec).Ok :=
      ⟨by decide, by decide, by decide⟩
    simp only [eth0] at hdev
    split at hdev
    · obtain rfl := Option.some.inj hdev
      exact ⟨fun _ _ _ => hts,
        fun hr => absurd hr (by decide), fun hr => absurd hr (by decide),
        fun hr => absurd hr (by decide)⟩
    · cases hdev
  sfc hr := absurd hr (by decide)

/-- Its device can be opened. -/
theorem eth0_opens :
    eth0.device ("/dev/ptp".toList ++ int_decimal eth0.phc_index) =
    some eth0_device := by
  have hpath : "/dev/ptp".toList ++ int_decimal eth0.phc_index =
      "/dev/ptp0".toList := by decide
  rw [hpath]
  simp only [eth0, if_true]

/-- The run for that interface returns 0 and prints the report of its device. -/
theorem main_prints_iff_eth0 :
    main ["ptp-clock-offset".toList, "eth0".toList] eth0 =
    some (0, eth0.report eth0_device (Tsc.of 2994375) false) :=
  ((main_prints_iff eth0 eth0_ok "ptp-clock-offset".toList "eth0".toList []).2.1 _).mpr
    ⟨2994375, by decide, _, _, eth0_device, .interface (by decide) (by decide) (by decide)
      (by decide) (by decide) rfl, eth0_opens, rfl⟩

end Osjitter.Ptp
