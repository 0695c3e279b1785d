/-
Osjitter.Ptp.ClockOffsetTheorems — what the offsets of a PTP clock are worth.

  §1 The conversions of timestamps, which do not overflow in a range that ends
     in the year 2116 (`convert_eq`), also with the offset between TAI and UTC.
  §2 `expected`: what each method computes of a reading of the device between
     two readings of the system clock, in exact integers. `expected_near` says
     how far it is from the true offset: half of the delay, and the rounding.
  §3 The loops. `read_ptp_offset` uses every system timestamp but the first and
     the last in two samples (`ptp_loop_eq`), `read_ptp_offset_extended` has
     three timestamps for each (`extended_loop_eq`), and `clock_gettime` makes
     its own (`clock_loop_eq`). `sum_delays` adds the delays of neighbouring
     samples up to the time that all of them took.
  §4 The methods agree: on the same readings each gives the same estimate, and
     a clock that is off by a constant gives that constant (`ptp_estimates`).

The Solarflare ioctl, whose offset the driver computes, is in `Ptp.Main`.
-/
import Mathlib
import Osjitter.Ptp.ClockOffset

namespace Osjitter.Ptp

open Checked

/-! ## §1 Timestamps

A timestamp is in the range if its total is not negative and far enough below
2^63 for the offset of the time scales and the sum of two of them. No conversion
overflows then, so the model computes exact numbers. -/

/-- The totals of nanoseconds that are considered. -/
def InRange (x : ℤ) : Prop := 0 ≤ x ∧ x ≤ 2 ^ 62 - 2 ^ 40

instance decidableInRange (x : ℤ) : Decidable (InRange x) :=
  inferInstanceAs (Decidable (_ ∧ _))

/-- The nanoseconds of a timestamp, exactly. -/
def PtpClockTime.total (t : PtpClockTime) : ℤ :=
  t.sec.toInt * 1000000000 + t.nsec.toNat

/-- The nanoseconds of a timestamp, exactly. -/
def Timespec.total (t : Timespec) : ℤ :=
  t.tv_sec.toInt * 1000000000 + t.tv_nsec.toInt

/-- A normalised timestamp in the range. -/
def PtpClockTime.Ok (t : PtpClockTime) : Prop :=
  t.nsec.toNat < 1000000000 ∧ InRange t.total

instance decidableOk (t : PtpClockTime) : Decidable t.Ok :=
  inferInstanceAs (Decidable (_ ∧ _))

/-- A normalised timestamp in the range. -/
def Timespec.Ok (t : Timespec) : Prop :=
  0 ≤ t.tv_nsec.toInt ∧ t.tv_nsec.toInt < 1000000000 ∧ InRange t.total

/-- Neither the product nor the sums of a conversion overflow. -/
theorem convert_eq {s ns : ℤ} (hns : 0 ≤ ns) (hns' : ns < 1000000000)
    (h : InRange (s * 1000000000 + ns)) :
    mul s 1000000000 = some (s * 1000000000) ∧
      add (s * 1000000000) ns = some (s * 1000000000 + ns) ∧
      add (s * 1000000000 + ns) tai_off_ns =
        some (s * 1000000000 + ns + tai_off_ns) := by
  obtain ⟨hlow, hhigh⟩ := h
  have htai : tai_off_ns = 37000000000 := rfl
  exact ⟨mul_eq_some ⟨by omega, by omega⟩, add_eq_some ⟨by omega, by omega⟩,
    add_eq_some ⟨by omega, by omega⟩⟩

/-- The two conversions of a timestamp in the range. -/
theorem pct2ns_eq {t : PtpClockTime} (h : t.Ok) :
    pct2ns t = some t.total ∧ pct2ns_tai t = some (t.total + tai_off_ns) := by
  obtain ⟨hmul, hadd, htai⟩ :=
    convert_eq (Int.natCast_nonneg _) (by exact_mod_cast h.1) h.2
  have hns : pct2ns t = some t.total := by
    rw [pct2ns, hmul, Option.bind_eq_bind, Option.bind_some, hadd]
    rfl
  refine ⟨hns, ?_⟩
  rw [pct2ns_tai, hns]
  exact htai

/-- The two conversions of a timestamp in the range. -/
theorem ts2ns_eq {t : Timespec} (h : t.Ok) :
    ts2ns t = some t.total ∧ ts2ns_tai t = some (t.total + tai_off_ns) := by
  obtain ⟨hmul, hadd, htai⟩ := convert_eq h.1 h.2.1 h.2.2
  have hns : ts2ns t = some t.total := by
    rw [ts2ns, hmul, Option.bind_eq_bind, Option.bind_some, hadd]
    rfl
  refine ⟨hns, ?_⟩
  rw [ts2ns_tai, hns]
  exact htai

/-! ## §2 One sample

The offset is that at the middle of the two readings of the system clock. The
device was read at some time between them, so the true offset differs by no more
than half of the delay. -/

/-- The estimate for a reading `p` of the device between `s1` and `s2`. -/
def expected (s1 p s2 : ℤ) : Estimate where
  off := (s1 + s2) / 2 + tai_off_ns - p
  delay := s2 - s1

/-- Nothing overflows in an estimate either. -/
theorem estimate_eq {s1 p s2 : ℤ} (h1 : InRange s1) (hp : InRange p)
    (h2 : InRange s2) :
    estimate (some (s1 + tai_off_ns)) (some (s2 + tai_off_ns)) (some p) =
      some (expected s1 p s2) := by
  obtain ⟨hlow1, hhigh1⟩ := h1
  obtain ⟨hlowp, hhighp⟩ := hp
  obtain ⟨hlow2, hhigh2⟩ := h2
  have htai : tai_off_ns = 37000000000 := rfl
  have hdelay : sub (s2 + tai_off_ns) (s1 + tai_off_ns) = some (s2 - s1) := by
    rw [sub_eq_some ⟨by omega, by omega⟩]
    congr 1
    omega
  have hsum : add (s1 + tai_off_ns) (s2 + tai_off_ns) =
      some (s1 + tai_off_ns + (s2 + tai_off_ns)) :=
        add_eq_some ⟨by omega, by omega⟩
  have hmean := tdiv_two_add (a := s1) (b := s2) (c := tai_off_ns) (by omega)
  have hoff : sub ((s1 + s2) / 2 + tai_off_ns) p =
      some ((s1 + s2) / 2 + tai_off_ns - p) :=
    sub_eq_some ⟨by omega, by omega⟩
  simp only [estimate, Option.bind_eq_bind, Option.bind_some, hdelay, hsum,
    hmean, hoff, expected]

/-- **Within half the delay**, rounded up, of the offset at any time between
the two readings of the system clock. -/
theorem expected_near {s1 p s2 s : ℤ} (h1 : s1 ≤ s) (h2 : s ≤ s2) :
    |(expected s1 p s2).off - (s + tai_off_ns - p)| ≤
      ((expected s1 p s2).delay + 1) / 2 := by
  have hcancel : (expected s1 p s2).off - (s + tai_off_ns - p) =
      (s1 + s2) / 2 - s := by
    simp only [expected]
    ring
  rw [hcancel]
  exact abs_mean_sub_le h1 h2

/-! ## §3 The loops

Each loop is unrolled into the list of its lines, by induction over its
iterations from any start. Then a function that succeeds prints what `expected`
says of the timestamps of each sample. -/

/-- The first `m + 1` timestamps behind `i` are there. -/
def Filled (ts : List PtpClockTime) (i m : ℕ) : Prop :=
  ∀ j, i ≤ j → j ≤ i + m → ∃ t, ts[j]? = some t ∧ t.Ok

/-- The total of an entry. -/
def total_at (ts : List PtpClockTime) (i : ℕ) : ℤ :=
  (ts[i]?.map PtpClockTime.total).getD 0

/-- The total of an entry that is there. -/
theorem total_at_eq {ts : List PtpClockTime} {i : ℕ} {t : PtpClockTime}
    (h : ts[i]? = some t) : total_at ts i = t.total := by
  rw [total_at, h]
  rfl

/-- The estimate of the three timestamps from `i`. -/
def window (ts : List PtpClockTime) (i : ℕ) : Estimate :=
  expected (total_at ts i) (total_at ts (i + 1)) (total_at ts (i + 2))

/-- **The samples of `PTP_SYS_OFFSET`**, by induction on the iterations. -/
theorem ptp_loop_eq (ts : List PtpClockTime) (sc_delay : UInt64) (n : ℕ) :
    ∀ i k : ℕ,
    Filled ts i (2 * n) →
      ptp_loop ts sc_delay n i k = some ((List.range n).map fun j =>
      ⟨window ts (i + 2 * j), "PTP_SYS_OFFSET", some (k + j), some sc_delay⟩) := by
  induction n with
  | zero =>
    intro i k _
    rfl
  | succ n ih =>
    intro i k h
    obtain ⟨t0, ht0, hok0⟩ := h i (by omega) (by omega)
    obtain ⟨t1, ht1, hok1⟩ := h (i + 1) (by omega) (by omega)
    obtain ⟨t2, ht2, hok2⟩ := h (i + 2) (by omega) (by omega)
    have hfirst : estimate (pct2ns_tai t0) (pct2ns_tai t2) (pct2ns t1) =
        some (window ts i) := by
      rw [(pct2ns_eq hok0).2, (pct2ns_eq hok1).1, (pct2ns_eq hok2).2,
        estimate_eq hok0.2 hok1.2 hok2.2, window, total_at_eq ht0,
        total_at_eq ht1, total_at_eq ht2]
    have hfilled : Filled ts (i + 2) (2 * n) := by
      intro j hj hj'
      exact h j (by omega) (by omega)
    have hshift : ∀ j, i + 2 + 2 * j = i + 2 * (j + 1) ∧
        k + 1 + j = k + (j + 1) := by
      intro j
      omega
    simp only [ptp_loop, ht0, ht1, ht2, hfirst, ih _ _ hfilled, Option.bind_eq_bind,
      Option.bind_some, List.range_succ_eq_map, List.map_cons, List.map_map,
      Function.comp_def, hshift, Nat.succ_eq_add_one, Nat.mul_zero,
      Nat.add_zero]

/-- **The samples of `PTP_SYS_OFFSET_EXTENDED`**. -/
theorem extended_loop_eq {ts : List (Fin 3 → PtpClockTime)}
    (sc_delay : UInt64) (n : ℕ) :
    ∀ i : ℕ, (∀ j, i ≤ j → j < i + n → ∃ t, ts[j]? = some t ∧ ∀ l, (t l).Ok) →
      ∃ ls, extended_loop ts sc_delay n i = some ls ∧
        ∀ j < n, ∀ t, ts[i + j]? = some t →
        ls[j]? = some ⟨expected (t 0).total (t 1).total (t 2).total,
          "PTP_SYS_OFFSET_EXTENDED", some (i + j + 1), some sc_delay⟩ := by
  induction n with
  | zero =>
    intro i _
    exact ⟨[], rfl, fun j hj => absurd hj (Nat.not_lt_zero j)⟩
  | succ n ih =>
    intro i h
    obtain ⟨t, ht, hok⟩ := h i (by omega) (by omega)
    obtain ⟨ls, hls, hrest⟩ :=
      ih (i + 1) fun j hj hj' => h j (by omega) (by omega)
    have hfirst : estimate (pct2ns_tai (t 0)) (pct2ns_tai (t 2)) (pct2ns (t 1)) =
        some (expected (t 0).total (t 1).total (t 2).total) := by
      rw [(pct2ns_eq (hok 0)).2, (pct2ns_eq (hok 1)).1, (pct2ns_eq (hok 2)).2,
        estimate_eq (hok 0).2 (hok 1).2 (hok 2).2]
    refine ⟨⟨expected (t 0).total (t 1).total (t 2).total, "PTP_SYS_OFFSET_EXTENDED",
      some (i + 1), some sc_delay⟩ :: ls, ?_, ?_⟩
    · simp only [extended_loop, ht, hfirst, hls, Option.bind_eq_bind, Option.bind_some]
    · intro j hj t' ht'
      cases j with
      | zero =>
        obtain rfl : t = t' := Option.some.inj (ht.symm.trans ht')
        rfl
      | succ j =>
        have hshift : i + (j + 1) = i + 1 + j := by omega
        rw [hshift] at ht' ⊢
        exact hrest j (by omega) t' ht'

/-- An iteration whose calls succeed, with timestamps in the range. -/
def Reading.Ok (x : Reading) : Prop := ∀ l, x.r l ≠ -1 ∧ (x.ts l).Ok

/-- **The samples of `clock_gettime`**. -/
theorem clock_loop_eq (xs : List Reading) : ∀ i : ℕ, (∀ x ∈ xs, x.Ok) →
    clock_loop i xs = some ⟨xs.mapIdx fun j x =>
      ⟨expected (x.ts 0).total (x.ts 1).total (x.ts 2).total, "clock_gettime",
        some (i + j + 1), none⟩, none⟩ := by
  induction xs with
  | nil =>
    intro i _
    rfl
  | cons x xs ih =>
    intro i h
    obtain ⟨hx, hxs⟩ := List.forall_mem_cons.mp h
    have hfirst : clock_estimate x =
        some (expected (x.ts 0).total (x.ts 1).total (x.ts 2).total) := by
      rw [clock_estimate, (ts2ns_eq (hx 0).2).2, (ts2ns_eq (hx 1).2).1,
        (ts2ns_eq (hx 2).2).2,
        estimate_eq (hx 0).2.2.2 (hx 1).2.2.2 (hx 2).2.2.2]
    have hshift : ∀ j, i + 1 + j + 1 = i + (j + 1) + 1 := by
      intro j
      omega
    simp only [clock_loop, if_neg (hx 0).1, if_neg (hx 1).1, if_neg (hx 2).1, hfirst,
      ih (i + 1) hxs, Option.bind_eq_bind, Option.bind_some, Output.cons,
      List.mapIdx_cons, hshift, Nat.add_zero]

/-- A function succeeds, and `e` is what it prints as its sample `i`. -/
def Prints (o : Option Output) (i : ℕ) (e : Estimate) : Prop :=
  ∃ out line, o = some out ∧ out.error = none ∧ out.lines[i]? = some line ∧
    line.toEstimate = e

/-- A line of the output is a sample that was printed. -/
theorem Prints.intro {o : Option Output} {ls : List Line} {i : ℕ} {line : Line}
    (ho : o = some ⟨ls, none⟩) (hline : ls[i]? = some line) :
    Prints o i line.toEstimate :=
  ⟨_, line, ho, rfl, hline, rfl⟩

section calls

variable {tsc : Tsc} {c : Ioctl} (hc : c.r = 0)

include hc

/-- After a call that succeeds the lines are printed. -/
theorem after_ioctl_eq {method : String} {body : UInt64 → Option (List Line)}
    {ls : List Line} (h : body (tsc2ns tsc (c.e - c.b)) = some ls) :
    after_ioctl tsc c method body = some ⟨ls, none⟩ := by
  rw [after_ioctl, if_neg (not_not.mpr hc), h]
  rfl

/-- The lines of `PTP_SYS_OFFSET`, all of them. -/
theorem read_ptp_offset_eq {n : ℕ} {ts : List PtpClockTime}
    (h : Filled ts 0 (2 * n)) :
    read_ptp_offset tsc c n ts = some ⟨(List.range n).map fun j =>
      ⟨window ts (2 * j), "PTP_SYS_OFFSET", some (1 + j),
        some (tsc2ns tsc (c.e - c.b))⟩, none⟩ := by
  refine after_ioctl_eq hc ?_
  simpa only [Nat.zero_add]
    using ptp_loop_eq ts (tsc2ns tsc (c.e - c.b)) n 0 1 h

/-- A sample of the extended call is the estimate of its entry. -/
theorem read_ptp_offset_extended_prints {n i : ℕ}
    {ts : List (Fin 3 → PtpClockTime)}
    (h : ∀ j < n, ∃ t, ts[j]? = some t ∧ ∀ l, (t l).Ok) (hi : i < n)
    {t : Fin 3 → PtpClockTime} (ht : ts[i]? = some t) :
    Prints (read_ptp_offset_extended tsc c n ts) i
      (expected (t 0).total (t 1).total (t 2).total) := by
  obtain ⟨ls, hls, hlines⟩ := extended_loop_eq (tsc2ns tsc (c.e - c.b)) n 0
    fun j _ hj => h j (by omega)
  have hline := hlines i hi t (by rw [Nat.zero_add, ht])
  exact Prints.intro (after_ioctl_eq hc hls) hline

/-- One reading of the system clock has no delay. -/
theorem read_ptp_offset_precise_prints {device realtime : PtpClockTime}
    (hd : device.Ok) (hs : realtime.Ok) :
    Prints (read_ptp_offset_precise tsc c device realtime) 0
      { off := realtime.total + tai_off_ns - device.total, delay := 0 } := by
  have htai : tai_off_ns = 37000000000 := rfl
  obtain ⟨hlowd, hhighd⟩ := hd.2
  obtain ⟨hlows, hhighs⟩ := hs.2
  have hoff : sub (realtime.total + tai_off_ns) device.total =
      some (realtime.total + tai_off_ns - device.total) :=
        sub_eq_some ⟨by omega, by omega⟩
  have hread : read_ptp_offset_precise tsc c device realtime =
      some ⟨[⟨⟨realtime.total + tai_off_ns - device.total, 0⟩,
        "PTP_SYS_OFFSET_PRECISE", none, some (tsc2ns tsc (c.e - c.b))⟩],
        none⟩ := by
    refine after_ioctl_eq hc ?_
    simp only [(pct2ns_eq hd).1, (pct2ns_eq hs).2, hoff, Option.bind_eq_bind,
      Option.bind_some]
  exact Prints.intro hread List.getElem?_cons_zero

end calls

/-- A sample of `clock_gettime` is the estimate of its three readings. -/
theorem read_clock_offset_prints {xs : List Reading} (h : ∀ x ∈ xs, x.Ok)
    {i : ℕ} {x : Reading} (hx : xs[i]? = some x) :
    Prints (read_clock_offset xs) i
      (expected (x.ts 0).total (x.ts 1).total (x.ts 2).total) := by
  have hline :
      (xs.mapIdx fun j x => (⟨expected (x.ts 0).total (x.ts 1).total (x.ts 2).total,
      "clock_gettime", some (0 + j + 1), none⟩ : Line))[i]? =
        some ⟨expected (x.ts 0).total (x.ts 1).total (x.ts 2).total, "clock_gettime",
          some (0 + i + 1), none⟩ := by
    rw [List.getElem?_mapIdx, hx]
    rfl
  exact Prints.intro (clock_loop_eq xs 0 h) hline

/-- The delays of overlapping windows add up. -/
theorem sum_delays (ts : List PtpClockTime) (n : ℕ) :
    ((List.range n).map fun j => (window ts (2 * j)).delay).sum =
      total_at ts (2 * n) - total_at ts 0 := by
  induction n with
  | zero => simp
  | succ n ih =>
    rw [List.range_succ, List.map_append, List.sum_append, ih]
    simp only [List.map_cons, List.map_nil, List.sum_cons, List.sum_nil,
      window, expected]
    ring_nf

/-! ## §4 The methods agree

A sample of one method is compared with what any other prints when it is given
the same three timestamps, at any place among its samples. -/

/-- What the other methods make of the timestamps of a sample, and how near
its offset `e.off` is to that at any time between them. -/
structure Agrees (t0 t1 t2 : PtpClockTime) (e : Estimate) : Prop where
  extended : ∀ (tsc : Tsc) (c : Ioctl) (n i : ℕ)
      (ts : List (Fin 3 → PtpClockTime)), c.r = 0 →
    (∀ j < n, ∃ t, ts[j]? = some t ∧ ∀ l, (t l).Ok) → i < n →
      ts[i]? = some ![t0, t1, t2] →
      Prints (read_ptp_offset_extended tsc c n ts) i e
  clock : ∀ (xs : List Reading) (i : ℕ) (x : Reading), (∀ x ∈ xs, x.Ok) →
    xs[i]? = some x →
    (x.ts 0).total = t0.total → (x.ts 1).total = t1.total →
      (x.ts 2).total = t2.total →
      Prints (read_clock_offset xs) i e
  near : ∀ s, t0.total ≤ s → s ≤ t2.total →
    |e.off - (s + tai_off_ns - t1.total)| ≤ (e.delay + 1) / 2
  precise : ∀ (tsc : Tsc) (c : Ioctl), c.r = 0 → t0.total = t2.total →
    Prints (read_ptp_offset_precise tsc c t1 t0) 0 { off := e.off, delay := 0 }

/-- Without delay the mean is the reading. -/
theorem expected_off_self (s p : ℤ) :
    (expected s p s).off = s + tai_off_ns - p := by
  have hmean : (s + s) / 2 = s := by omega
  rw [expected, hmean]

/-- The estimate of three timestamps is that of every method. -/
theorem agrees_expected {t0 t1 t2 : PtpClockTime} (h0 : t0.Ok) (h1 : t1.Ok) :
    Agrees t0 t1 t2 (expected t0.total t1.total t2.total) where
  extended tsc c n i ts hc hts hi ht := by
    have htriple : expected t0.total t1.total t2.total =
        expected (![t0, t1, t2] 0).total
        (![t0, t1, t2] 1).total (![t0, t1, t2] 2).total := rfl
    rw [htriple]
    exact read_ptp_offset_extended_prints hc hts hi ht
  clock xs i x hxs hx htot0 htot1 htot2 := by
    rw [← htot0, ← htot1, ← htot2]
    exact read_clock_offset_prints hxs hx
  near s hs hs' := expected_near hs hs'
  precise tsc c hc heq := by
    rw [← heq, expected_off_self]
    exact read_ptp_offset_precise_prints hc h1 h0

/-- What `read_ptp_offset` prints of `n` samples: it succeeds without overflow,
each sample agrees with the other methods, and the delays add up. -/
structure Estimates (tsc : Tsc) (c : Ioctl) (n : ℕ) (ts : List PtpClockTime)
    (lines : List Line) : Prop where
  output : read_ptp_offset tsc c n ts = some { lines := lines, error := none }
  length : lines.length = n
  sample : ∀ k < n, ∃ t0 t1 t2 line, ts[2 * k]? = some t0 ∧ ts[2 * k + 1]? = some t1 ∧
    ts[2 * k + 2]? = some t2 ∧ lines[k]? = some line ∧
      Agrees t0 t1 t2 line.toEstimate
  delays : (lines.map fun line => line.delay).sum =
    total_at ts (2 * n) - total_at ts 0

/-- **The estimates of `read_ptp_offset`**, for timestamps in the range. -/
theorem ptp_estimates (tsc : Tsc) (c : Ioctl) (n : ℕ) (ts : List PtpClockTime)
    (hc : c.r = 0) (hts : Filled ts 0 (2 * n)) :
    ∃ lines, Estimates tsc c n ts lines := by
  refine ⟨_, read_ptp_offset_eq hc hts, by simp, ?_, ?_⟩
  · intro k hk
    obtain ⟨t0, ht0, hok0⟩ := hts (2 * k) (by omega) (by omega)
    obtain ⟨t1, ht1, hok1⟩ := hts (2 * k + 1) (by omega) (by omega)
    obtain ⟨t2, ht2, -⟩ := hts (2 * k + 2) (by omega) (by omega)
    refine ⟨t0, t1, t2, ⟨window ts (2 * k), "PTP_SYS_OFFSET", some (1 + k),
      some (tsc2ns tsc (c.e - c.b))⟩, ht0, ht1, ht2, ?_, ?_⟩
    · rw [List.getElem?_map, List.getElem?_range hk]
      rfl
    · have hwindow : window ts (2 * k) =
          expected t0.total t1.total t2.total := by
        rw [window, total_at_eq ht0, total_at_eq ht1, total_at_eq ht2]
      rw [hwindow]
      exact agrees_expected hok0 hok1
  · rw [List.map_map]
    exact sum_delays ts n

/-- Two samples, of a device that is behind by the TAI offset. -/
theorem ptp_estimates_two : ∃ lines, Estimates ⟨1000, 10⟩ ⟨0, 100, 900⟩ 2
    [⟨1600000000, 10⟩, ⟨1600000000, 510⟩, ⟨1600000000, 1011⟩, ⟨1600000000, 999999999⟩,
      ⟨1600000001, 0⟩] lines := by
  have hfilled : Filled [⟨1600000000, 10⟩, ⟨1600000000, 510⟩, ⟨1600000000, 1011⟩,
      ⟨1600000000, 999999999⟩, ⟨1600000001, 0⟩] 0 (2 * 2) := by
    intro j _ hj
    interval_cases j
    all_goals exact ⟨_, rfl, by decide⟩
  exact ptp_estimates _ _ 2 _ rfl hfilled

end Osjitter.Ptp
