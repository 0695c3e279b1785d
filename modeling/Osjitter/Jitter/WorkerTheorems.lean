/-
Osjitter.Jitter.WorkerTheorems — what `worker_main` measures.

  §1 `Tally`: the count, the array and the sum after a list of deltas, and
     `Measured` of a whole measurement, with the minimum. It speaks of the
     deltas the code computes: `Tally.account` is the step, for any reading.
  §2 The gaps between the readings. The loop computes them modulo 2^32, the
     unrolled iteration in full (`deltas`); `Measured.foldl` is the run lemma,
     and `measure_eq` says that a measurement ends once a reading reaches the
     limit and has then accounted for all gaps. `Accounted` is what it should
     be: every gap above the threshold counted and recorded, capped.
     `accounted_iff` says for which gaps it is (`Untruncated`), and `gap_lost`
     is a run in which a gap above 2^32 is not counted.
  §3 The correction by the loop time, whose minimum leaves out the first gap.
     `Corrected` says that no subtraction wraps and the published sum is that
     of the corrected gaps. `minSeen_iff` compares the minimum with the gaps
     that were counted, `corrected_iff_fits` is the correction for any minimum
     that fits them, and `corrected_iff` the result: it is right exactly if
     `MinSeen` holds of the gaps. `first_gap_wraps` is a run in which it does
     not. `thresh_cnt_lt` bounds the counter.

Readings ascend here, as those of a constant TSC do. What holds of any readings
is in `Jitter.Bookkeeping` and `Jitter.Capacity`.
-/
import Mathlib
import Osjitter.Jitter.WorkerMain

namespace Osjitter.Jitter

open Readings

/-! ## §1 The deltas computed

`Tally` ties the local variables to the list of the deltas computed so far,
however they were computed, and is kept by one more. `Measured` adds the least
delta of those since it was forgotten, which are the deltas of the loop. -/

/-- The values above the threshold. -/
def counted (args : Args) (l : List Nat) : List Nat :=
  l.filter (args.tsc_thresh.toNat < ·)

/-- Deltas are counted one by one. -/
theorem counted_append (args : Args) (l l' : List Nat) :
    counted args (l ++ l') = counted args l ++ counted args l' :=
  List.filter_append ..

/-- The local variables after the deltas `dl`. -/
structure Tally (args : Args) (dl : List Nat) (m : Locals) : Prop where
  i : m.i = (counted args dl).length
  length : m.ds.length = args.n
  ds : (m.ds.take m.i).map UInt32.toNat =
    ((counted args dl).take args.n).map (min · (2 ^ 32 - 1))
  total : m.tsc_total_int.toNat = (counted args dl).sum % 2 ^ 64

/-- An entry is the delta, or the greatest number of 32 bits. -/
theorem toNat_saturate (delta : UInt64) :
    (saturate delta).toNat = min delta.toNat (2 ^ 32 - 1) := by
  have hmax : UINT32_MAX.toNat = 2 ^ 32 - 1 := rfl
  unfold saturate
  split
  · next h =>
    rw [UInt64.lt_iff_toNat_lt, hmax] at h
    rw [Nat.min_eq_right (Nat.le_of_lt h)]
    rfl
  · next h =>
    rw [UInt64.lt_iff_toNat_lt, hmax] at h
    rw [Nat.min_eq_left (Nat.le_of_not_lt h), UInt64.toNat_toUInt32]
    exact Nat.mod_eq_of_lt (by omega)

/-- Recording leaves the clock and the minimum alone. -/
theorem record_frame (args : Args) (t delta : UInt64) (m : Locals) :
    (Locals.record args t delta m).tsc = m.tsc ∧
      (Locals.record args t delta m).tsc_delta_min = m.tsc_delta_min := by
  unfold Locals.record
  split
  · split <;> exact ⟨rfl, rfl⟩
  · exact ⟨rfl, rfl⟩

@[simp] theorem account_tsc (args : Args) (t delta : UInt64) (m : Locals) :
    (account args t delta m).tsc = t :=
  (record_frame args t delta { m with tsc := t }).1

/-- The least delta so far. -/
theorem account_delta_min (args : Args) (t delta : UInt64) (m : Locals) :
    (account args t delta m).tsc_delta_min.toNat =
      min m.tsc_delta_min.toNat delta.toNat := by
  have hframe := (record_frame args t delta { m with tsc := t }).2
  simp only [account, hframe]
  split
  · next h => exact (Nat.min_eq_right (Nat.le_of_lt (UInt64.lt_iff_toNat_lt.mp h))).symm
  · next h =>
    exact (Nat.min_eq_left (Nat.le_of_not_lt (mt UInt64.lt_iff_toNat_lt.mpr h))).symm

/-- An entry written at the end of those written so far. -/
theorem take_set_succ {ds : List UInt32} {i : Nat} (h : i < ds.length)
    (v : UInt32) : (ds.set i v).take (i + 1) = ds.take i ++ [v] := by
  rw [List.take_succ_eq_append_getElem (by simpa using h), List.getElem_set_self,
    List.take_set_of_le (Nat.le_refl i)]

/-- The record of one more delta. -/
theorem Tally.record {args : Args} {dl : List Nat} {m : Locals}
    (h : Tally args dl m) (t delta : UInt64) :
    Tally args (dl ++ [delta.toNat]) (Locals.record args t delta m) := by
  have hsum : ∀ a b : Nat,
    (a % 2 ^ 64 + b) % 2 ^ 64 = (a + b) % 2 ^ 64 := by omega
  have hthresh : args.tsc_thresh.toUInt64 < delta ↔
      args.tsc_thresh.toNat < delta.toNat := by
    rw [UInt64.lt_iff_toNat_lt, UInt32.toNat_toUInt64]
  unfold Locals.record
  split
  · next hgt =>
    have hc : counted args (dl ++ [delta.toNat]) =
        counted args dl ++ [delta.toNat] := by
      simp [counted, hthresh.mp hgt]
    have htotal : (m.tsc_total_int + delta).toNat =
        (counted args (dl ++ [delta.toNat])).sum % 2 ^ 64 := by
      rw [hc, UInt64.toNat_add, h.total, hsum, List.sum_append, List.sum_singleton]
    split
    · next hi =>
      have hlen := h.i ▸ hi
      refine ⟨by simp [hc, h.i], by simpa using h.length, ?_, htotal⟩
      have hds := h.ds
      rw [List.take_of_length_le (Nat.le_of_lt hlen)] at hds
      rw [take_set_succ (by rw [h.length]; exact hi), List.map_append, hds, hc,
        List.take_of_length_le (by rw [List.length_append]; exact hlen),
        List.map_append]
      simp [toNat_saturate]
    · next hi =>
      have hle : args.n ≤ m.i := Nat.le_of_not_lt hi
      refine ⟨by simp [hc, h.i], h.length, ?_, htotal⟩
      have hds := h.ds
      rw [List.take_of_length_le (by rw [h.length]; exact hle)] at hds
      rw [List.take_of_length_le
        (by rw [h.length]; exact Nat.le_succ_of_le hle), hds, hc,
        List.take_append_of_le_length (h.i ▸ hle)]
  · next hle =>
    have hc : counted args (dl ++ [delta.toNat]) = counted args dl := by
      simp [counted, mt hthresh.mpr hle]
    exact ⟨by rw [hc]; exact h.i, h.length, by rw [hc]; exact h.ds, by rw [hc]; exact h.total⟩

/-- The accounting of one more delta. -/
theorem Tally.account {args : Args} {dl : List Nat} {m : Locals}
    (h : Tally args dl m) (t delta : UInt64) :
    Tally args (dl ++ [delta.toNat]) (account args t delta m) := by
  have hr : Tally args (dl ++ [delta.toNat])
      (Locals.record args t delta { m with tsc := t }) :=
    Tally.record (m := { m with tsc := t }) ⟨h.i, h.length, h.ds, h.total⟩ t delta
  exact ⟨hr.i, hr.length, hr.ds, hr.total⟩

/-- Before the measurement nothing is counted. -/
theorem Tally.locals (args : Args) (start : UInt64) :
    Tally args [] (args.locals start) := by
  constructor <;> simp [Args.locals, counted]

/-- A measurement with the deltas `dl`, of which `ml` are those of the loop. -/
structure Measured (args : Args) (dl ml : List Nat) (m : Locals) : Prop extends
    Tally args dl m where
  least : m.tsc_delta_min.toNat = ml.foldl min (2 ^ 64 - 1)

/-- Forgetting the least delta keeps the record, and begins a new minimum. -/
theorem Tally.forget {args : Args} {dl : List Nat} {m : Locals}
    (h : Tally args dl m) : Measured args dl [] m.forget :=
  ⟨⟨h.i, h.length, h.ds, h.total⟩, rfl⟩

/-! ## §2 The gaps

The time between readings is a gap, in exact numbers; a delta is what the code
makes of it. The first one is exact and the others are cut to 32 bits, so what
is lost can be said of each gap by itself: above 2^32 its low bits decide
whether it is counted, and which entry is written. -/

/-- A 64-bit difference cut to 32 bits. -/
theorem toNat_delta {a t : UInt64} (h : a ≤ t) :
    (t - a).toUInt32.toUInt64.toNat = (t.toNat - a.toNat) % 2 ^ 32 := by
  rw [UInt32.toNat_toUInt64, UInt64.toNat_toUInt32, UInt64.toNat_sub_of_le _ _ h]

/-- An iteration of the loop. -/
theorem Measured.iteration {args : Args} {dl ml : List Nat} {m : Locals}
    (h : Measured args dl ml m) {t : UInt64} (ht : m.tsc ≤ t) :
    Measured args (dl ++ [(t.toNat - m.tsc.toNat) % 2 ^ 32])
      (ml ++ [(t.toNat - m.tsc.toNat) % 2 ^ 32]) (iteration args t m) := by
  have htally := h.toTally.account t (t - m.tsc).toUInt32.toUInt64
  rw [toNat_delta ht] at htally
  refine ⟨htally, ?_⟩
  rw [Jitter.iteration, account_delta_min, h.least, List.foldl_append, toNat_delta ht]
  rfl

/-- The loop, over ascending readings. -/
theorem Measured.foldl {args : Args} :
    ∀ {ts : List UInt64} {dl ml : List Nat} {m : Locals},
    Measured args dl ml m → (m.tsc :: ts).Pairwise (· ≤ ·) →
      Measured args (dl ++ (gaps m.tsc.toNat (ts.map UInt64.toNat)).map (· % 2 ^ 32))
        (ml ++ (gaps m.tsc.toNat (ts.map UInt64.toNat)).map (· % 2 ^ 32))
        (ts.foldl (fun m t => Jitter.iteration args t m) m)
  | [], dl, ml, m, h, _ => by simpa [gaps] using h
  | t :: ts, dl, ml, m, h, hmono => by
      obtain ⟨hle, hts⟩ := List.pairwise_cons.mp hmono
      have hone := h.iteration (hle t List.mem_cons_self)
      have htsc : (Jitter.iteration args t m).tsc = t := account_tsc ..
      have hrest := hone.foldl (htsc.symm ▸ hts)
      rw [htsc] at hrest
      simpa [gaps] using hrest

/-- The readings that a measurement takes after `start`. -/
def Args.readings (args : Args) (start : UInt64) (ts : List UInt64) :
    List UInt64 :=
  taken (· < start + args.tsc_runtime) start ts

/-- The gaps between them, the first of the unrolled iteration. -/
def Args.gaps (args : Args) (start : UInt64) (ts : List UInt64) : List Nat :=
  Readings.gaps start.toNat ((args.readings start ts).map UInt64.toNat)

/-- The deltas that the code computes for the gaps. -/
def deltas : List Nat → List Nat
  | [] => []
  | g :: gs => g :: gs.map (· % 2 ^ 32)

/-- **The measurement ends**, and has accounted for every gap, the first in
full and the others modulo 2^32. -/
theorem measure_eq {args : Args} {start : UInt64} {ts : List UInt64}
    (hmono : (start :: ts).Pairwise (· ≤ ·))
    (hend : ∃ t ∈ start :: ts, start + args.tsc_runtime ≤ t) :
    ∃ m, measure args start ts = some m ∧
      Measured args (deltas (args.gaps start ts))
        (deltas (args.gaps start ts)).tail m := by
  have hnow : ∀ t (m : Locals), (iteration args t m).tsc = t :=
    fun t m => account_tsc ..
  have hends : ∀ {a : UInt64} {ts : List UInt64},
    (∃ t ∈ a :: ts, start + args.tsc_runtime ≤ t) →
      ∃ t ∈ a :: ts, ¬ t < start + args.tsc_runtime :=
    fun ⟨t, ht, hle⟩ => ⟨t, ht, UInt64.not_lt.mpr hle⟩
  have hstart : (args.locals start).tsc = start := rfl
  have hforget : ∀ m : Locals, m.forget.tsc = m.tsc := fun _ => rfl
  unfold measure
  simp only [hstart]
  split
  · next hlt =>
    cases ts with
    | nil =>
      obtain ⟨t, ht, hle⟩ := hend
      obtain rfl : t = start := by simpa using ht
      exact absurd hlt (UInt64.not_lt.mpr hle)
    | cons t ts =>
      obtain ⟨hle, hts⟩ := List.pairwise_cons.mp hmono
      -- the unrolled iteration, behind which the minimum is reset
      have hfirst := ((Tally.locals args start).account t (t - start)).forget
      have htsc : (unrolled args t (args.locals start)).forget.tsc = t :=
        account_tsc ..
      have hrest : ∃ u ∈ t :: ts, start + args.tsc_runtime ≤ u := by
        obtain ⟨u, hu, hle⟩ := hend
        rcases List.mem_cons.mp hu with rfl | hu
        · exact absurd hlt (UInt64.not_lt.mpr hle)
        · exact ⟨u, hu, hle⟩
      refine ⟨_, loop_eq hnow (htsc.symm ▸ hends hrest), ?_⟩
      have hpre : (t :: taken (· < start + args.tsc_runtime) t ts).Pairwise (· ≤ ·) :=
        hts.sublist ((taken_sublist t ts).cons_cons t)
      have hloop :=
        Measured.foldl (m := (unrolled args t (args.locals start)).forget) hfirst
        (htsc.symm ▸ hpre)
      have hgaps : args.gaps start (t :: ts) = (t.toNat - start.toNat) ::
          Readings.gaps t.toNat
              ((taken (· < start + args.tsc_runtime) t ts).map UInt64.toNat) := by
        simp [Args.gaps, Args.readings, taken, hlt, Readings.gaps]
      rw [htsc] at hloop ⊢
      rw [hgaps]
      simpa [deltas, UInt64.toNat_sub_of_le _ _ (hle t List.mem_cons_self)]
        using hloop
  · next hge =>
    -- no time to run: not even the unrolled iteration is made
    refine ⟨_, loop_eq hnow (s := (args.locals start).forget) (hends hend), ?_⟩
    have hnone : taken (· < start + args.tsc_runtime) start ts = [] := by
      cases ts <;> simp [taken, hge]
    have hgaps : args.gaps start ts = [] := by
      simp [Args.gaps, Args.readings, hnone, Readings.gaps]
    rw [hforget, hstart, hnone, hgaps]
    exact (Tally.locals args start).forget

/-- Every gap above the threshold is counted, and the first `n` of them are
recorded, each as at most UINT32_MAX. -/
structure Accounted (args : Args) (gs : List Nat) (m : Locals) : Prop where
  count : m.i = (counted args gs).length
  recorded : (m.ds.take (min m.i args.n)).map UInt32.toNat =
    ((counted args gs).take args.n).map (min · (2 ^ 32 - 1))

/-- A gap of the loop that does not fit 32 bits is still above the threshold
in its low bits, and these are all ones, unless there is no room for it. -/
def Untruncated (args : Args) (gs : List Nat) : Prop :=
  ∀ pre g post, gs = pre ++ g :: post → pre ≠ [] → 2 ^ 32 ≤ g →
    args.tsc_thresh.toNat < g % 2 ^ 32 ∧
      (g % 2 ^ 32 = 2 ^ 32 - 1 ∨ args.n ≤ (counted args pre).length)

/-- The loop treats a gap right exactly if it fits, or its low bits do as
well. -/
theorem low_bits_iff {thresh n c : Nat} (hthresh : thresh < 2 ^ 32) (g : Nat) :
    (thresh < g → thresh < g % 2 ^ 32 ∧
        (c < n → min (g % 2 ^ 32) (2 ^ 32 - 1) = min g (2 ^ 32 - 1))) ↔
      (2 ^ 32 ≤ g → thresh < g % 2 ^ 32 ∧ (g % 2 ^ 32 = 2 ^ 32 - 1 ∨ n ≤ c)) := by
  omega

/-- The gaps of the loop, with room for `n` more. -/
theorem loop_accounted_iff (args : Args) (gs : List Nat) (n : Nat) :
    ((counted args (gs.map (· % 2 ^ 32))).length = (counted args gs).length ∧
        ((counted args (gs.map (· % 2 ^ 32))).take n).map (min · (2 ^ 32 - 1)) =
          ((counted args gs).take n).map (min · (2 ^ 32 - 1))) ↔
      ∀ pre g post, gs = pre ++ g :: post → 2 ^ 32 ≤ g →
        args.tsc_thresh.toNat < g % 2 ^ 32 ∧
        (g % 2 ^ 32 = 2 ^ 32 - 1 ∨ n ≤ (counted args pre).length) := by
  have hiff := recorded_iff
    (P := fun g => decide (args.tsc_thresh.toNat < g % 2 ^ 32))
    (Q := fun g => decide (args.tsc_thresh.toNat < g))
    (fun g h => by
      have hle := Nat.mod_le g (2 ^ 32)
      simp only [decide_eq_true_eq] at h ⊢
      omega)
    (fun g => min (g % 2 ^ 32) (2 ^ 32 - 1)) (min · (2 ^ 32 - 1)) gs n
  have hmap : counted args (gs.map (· % 2 ^ 32)) =
      (gs.filter fun g => decide (args.tsc_thresh.toNat < g % 2 ^ 32)).map
          (· % 2 ^ 32) :=
    List.filter_map
  rw [hmap, List.length_map, ← List.map_take, List.map_map]
  refine hiff.trans (forall_congr'
      fun pre => forall_congr' fun g => forall_congr' fun post =>
    imp_congr_right fun _ => ?_)
  simpa only [counted, decide_eq_true_eq] using
    low_bits_iff (n := n) (c := (counted args pre).length) args.tsc_thresh.toNat_lt g

/-- The first gap is counted and recorded in full. -/
theorem accounted_deltas_iff (args : Args) (gs : List Nat) :
    ((counted args (deltas gs)).length = (counted args gs).length ∧
        ((counted args (deltas gs)).take args.n).map (min · (2 ^ 32 - 1)) =
          ((counted args gs).take args.n).map (min · (2 ^ 32 - 1))) ↔
            Untruncated args gs := by
  cases gs with
  | nil => simp [deltas, Untruncated]
  | cons g gs =>
    have hloop :=
      loop_accounted_iff args gs (args.n - (counted args [g]).length)
    have hcons : ∀ l, counted args (g :: l) = counted args [g] ++ counted args l :=
      fun l => counted_append args [g] l
    rw [Untruncated, forall_split_cons, deltas, hcons (gs.map _), hcons gs]
    simp only [List.length_append, Nat.add_left_cancel_iff, List.take_append,
      List.map_append, List.append_cancel_left_eq, ne_eq, not_true_eq_false,
      false_imp_iff, true_and, List.cons_ne_nil, not_false_eq_true,
      forall_const, hloop]
    refine forall_congr' fun pre => forall_congr' fun x => forall_congr' fun post =>
      imp_congr_right fun _ => imp_congr_right fun _ => and_congr_right fun _ =>
        or_congr_right ?_
    rw [hcons pre, List.length_append]
    omega

/-- **Which gaps are accounted for.** The measurement ends, and its count and
its array are right exactly when no gap of the loop loses what it needs of its
upper bits. -/
theorem accounted_iff (args : Args) (start : UInt64) (ts : List UInt64)
    (hmono : (start :: ts).Pairwise (· ≤ ·))
    (hend : ∃ t ∈ start :: ts, start + args.tsc_runtime ≤ t) :
    ∃ m, measure args start ts = some m ∧
      (Accounted args (args.gaps start ts) m ↔
        Untruncated args (args.gaps start ts)) := by
  obtain ⟨m, hm, h, -⟩ := measure_eq hmono hend
  refine ⟨m, hm, ?_⟩
  have htake : m.ds.take (min m.i args.n) = m.ds.take m.i := by
    rw [← h.length, ← List.take_take, List.take_length]
  rw [← accounted_deltas_iff, ← h.i, ← h.ds, ← htake]
  exact ⟨fun hacc => ⟨hacc.count, hacc.recorded⟩, fun hacc => ⟨hacc.1, hacc.2⟩⟩

/-- Three readings after the first, with no gap cut. -/
theorem accounted_iff_three :
    ∃ m, measure ⟨100, 1000, 4⟩ 5 [10, 200, 1200] = some m ∧
    Accounted ⟨100, 1000, 4⟩ [5, 190, 1000] m := by
  obtain ⟨m, hm, hiff⟩ :=
    accounted_iff ⟨100, 1000, 4⟩ 5 [10, 200, 1200] (by decide) (by decide)
  have hgaps : Args.gaps ⟨100, 1000, 4⟩ 5 [10, 200, 1200] = [5, 190, 1000] := by
    decide
  rw [hgaps] at hiff
  refine ⟨m, hm, hiff.mpr fun pre g post hsplit _ hg => ?_⟩
  have hmem : g ∈ [5, 190, 1000] :=
    hsplit ▸ List.mem_append_right _ List.mem_cons_self
  simp only [List.mem_cons, List.not_mem_nil, or_false] at hmem
  omega

/-- A gap of 2^32 + 6 in the loop is not counted. -/
theorem gap_lost : ∃ m, measure ⟨100, 1000, 4⟩ 5 [10, 4294967312] = some m ∧
    ¬ Accounted ⟨100, 1000, 4⟩ (Args.gaps ⟨100, 1000, 4⟩ 5 [10, 4294967312]) m := by
  obtain ⟨m, hm, hi⟩ : ∃ m, measure ⟨100, 1000, 4⟩ 5 [10, 4294967312] = some m ∧
      m.i = 0 :=
    Option.map_eq_some_iff.mp (by decide)
  refine ⟨m, hm, fun hacc => ?_⟩
  have hcount := hacc.count
  rw [hi] at hcount
  exact absurd hcount (by decide)

/-! ## §3 The correction

The least delta of the loop is subtracted from every recorded one, and as often
from the sum. That wraps if the first gap is recorded and less than all the
others, because it has no part in the minimum. `MinSeen` excludes just this, and
the case of an array without entries, where only the sum is corrected. -/

/-- The published sum and deltas are right: no subtraction wraps, the sum is
that of the corrected gaps, no longer than the measurement, and that of the
published deltas while there was room for all. -/
structure Corrected (args : Args) (start : UInt64) (ts : List UInt64)
    (m : Locals) (w : Worker) : Prop where
  no_wrap : ∀ d ∈ m.ds.take w.samples, w.tsc_delta_min.toNat ≤ d.toNat
  total : (w.tsc_total_int.toNat : Int) =
    ((counted args (args.gaps start ts)).map
      fun g : Nat => (g : Int) - w.tsc_delta_min.toNat).sum
  range : w.tsc_total_int.toNat ≤
    ((args.readings start ts).getLastD start).toNat - start.toNat
  sum : w.thresh_cnt ≤ args.n →
    w.tsc_total_int.toNat = ((w.deltas.take w.samples).map UInt32.toNat).sum

/-- The minimum is that of a gap of the loop no longer than the first, or the
first was not counted; without an array, some gap of the loop is not above the
mean of those counted. -/
def MinSeen (args : Args) (gs : List Nat) : Prop :=
  ∀ g₁ rest, gs = g₁ :: rest → g₁ ≤ args.tsc_thresh.toNat ∨
    (∃ g ∈ rest, g ≤ g₁) ∨
    args.n = 0 ∧ ∃ g ∈ rest,
    (counted args gs).length * g ≤ (counted args gs).sum

/-- A gap is counted if it is one and above the threshold. -/
theorem mem_counted {args : Args} {l : List Nat} {g : Nat} :
    g ∈ counted args l ↔ g ∈ l ∧ args.tsc_thresh.toNat < g := by
  simp [counted]

/-- The counted gaps are among all of them. -/
theorem sum_counted_le (args : Args) (l : List Nat) :
    (counted args l).sum ≤ l.sum :=
  List.filter_sublist.sum_le_sum fun _ _ => Nat.zero_le _

/-- A lower bound of the elements, as often as there are elements. -/
theorem length_mul_le_sum {k : Nat} {l : List Nat} (h : ∀ x ∈ l, k ≤ x) :
    l.length * k ≤ l.sum := by
  simpa using l.card_nsmul_le_sum k h

/-- The minimum of the loop fits the counted gaps exactly if it was seen. -/
theorem minSeen_iff {args : Args} {gs : List Nat}
    (hfit : ∀ g ∈ gs, g < 2 ^ 32) :
    ((counted args gs).length * gs.tail.foldl min (2 ^ 64 - 1) ≤ (counted args gs).sum ∧
        ∀ g ∈ (counted args gs).take args.n,
          gs.tail.foldl min (2 ^ 64 - 1) ≤ g) ↔
      MinSeen args gs := by
  cases gs with
  | nil => simp [counted, MinSeen]
  | cons g₁ rest =>
    obtain ⟨k, hk⟩ : ∃ k, k = rest.foldl min (2 ^ 64 - 1) := ⟨_, rfl⟩
    have hle : ∀ g ∈ rest, k ≤ g := (le_foldl_min.mp (le_of_eq hk)).2
    have hg₁ := hfit g₁ List.mem_cons_self
    rw [List.tail_cons, ← hk]
    constructor
    · rintro ⟨hsum, htake⟩ g rest' ⟨⟩
      by_contra hno
      simp only [not_or, not_exists, not_and, Nat.not_le] at hno
      obtain ⟨hthresh, hbelow, hzero⟩ := hno
      have hc : counted args (g₁ :: rest) = g₁ :: counted args rest := by
        simp [counted, hthresh]
      -- the first gap is the smallest, but the minimum `k` has forgotten it
      have hlt : g₁ < k := by
        have hsucc : g₁ + 1 ≤ rest.foldl min (2 ^ 64 - 1) :=
          le_foldl_min.mpr ⟨by omega, fun x hx => hbelow x hx⟩
        omega
      cases hn : args.n with
      | succ n =>
        have hmem : g₁ ∈ (counted args (g₁ :: rest)).take args.n := by
          simp [hc, hn]
        exact absurd (htake g₁ hmem) (Nat.not_le.mpr hlt)
      | zero =>
        -- without room for a sample only the total can show it
        rcases foldl_min_mem (l := rest) (a := 2 ^ 64 - 1) with htop | hmem
        · cases rest with
          | nil =>
            simp [counted, hthresh] at hsum
            omega
          | cons x rest =>
            have hx := hle x List.mem_cons_self
            have hfx := hfit x (by simp)
            omega
        · exact absurd hsum (Nat.not_le.mpr (hzero hn k (hk ▸ hmem)))
    · intro hseen
      rcases hseen g₁ rest rfl with hthresh | ⟨g, hg, hle₁⟩ | ⟨hn, g, hg, hmean⟩
      · have hc : counted args (g₁ :: rest) = counted args rest := by
          simp [counted, Nat.not_lt.mpr hthresh]
        have hall : ∀ g ∈ counted args rest, k ≤ g :=
          fun g hg => hle g (mem_counted.mp hg).1
        rw [hc]
        exact ⟨length_mul_le_sum hall, fun g hg => hall g (List.mem_of_mem_take hg)⟩
      · have hall : ∀ x ∈ counted args (g₁ :: rest), k ≤ x := by
          intro x hx
          rcases List.mem_cons.mp (mem_counted.mp hx).1 with rfl | hx
          · exact (hle g hg).trans hle₁
          · exact hle x hx
        exact ⟨length_mul_le_sum hall, fun g hg => hall g (List.mem_of_mem_take hg)⟩
      · refine ⟨(Nat.mul_le_mul_left _ (hle g hg)).trans hmean, ?_⟩
        rw [hn]
        simp

/-- The gaps add up to the time from `start` to the last reading. -/
theorem sum_gaps_eq (args : Args) {start : UInt64} {ts : List UInt64}
    (hmono : (start :: ts).Pairwise (· ≤ ·)) :
    start.toNat + (args.gaps start ts).sum =
      ((args.readings start ts).getLastD start).toNat := by
  have htaken : (start :: args.readings start ts).Pairwise (· ≤ ·) :=
    hmono.sublist ((taken_sublist start ts).cons_cons start)
  have hnat :
      (start.toNat :: (args.readings start ts).map UInt64.toNat).Pairwise (· ≤ ·) :=
    htaken.map UInt64.toNat fun _ _ h => UInt64.le_iff_toNat_le.mp h
  rw [Args.gaps, sum_gaps hnat, List.getLastD_eq_getLast?, List.getLast?_map,
    List.getLastD_eq_getLast?]
  cases (args.readings start ts).getLast? <;> rfl

/-- Gaps that fit 32 bits are the deltas computed. -/
theorem deltas_of_fit {gs : List Nat} (hfit : ∀ g ∈ gs, g < 2 ^ 32) :
    deltas gs = gs := by
  cases gs with
  | nil => rfl
  | cons g gs =>
    have hmap : gs.map (· % 2 ^ 32) = gs :=
      (List.map_congr_left
        fun x hx => Nat.mod_eq_of_lt (hfit x (List.mem_cons_of_mem _ hx))).trans
        (List.map_id _)
    rw [deltas, hmap]

section correction

variable {args : Args} {gs : List Nat} (start : UInt64) {m : Locals}

/-- The gaps counted add up to at least their number. -/
theorem Tally.i_le_sum (h : Tally args gs m) : m.i ≤ (counted args gs).sum := by
  rw [h.i]
  have hone := length_mul_le_sum (k := 1) (l := counted args gs) fun x hx =>
    Nat.succ_le_of_lt (Nat.zero_lt_of_lt (mem_counted.mp hx).2)
  omega

/-- The published sum, where the loop time of every counted gap fits. -/
theorem Tally.total_int (h : Tally args gs m)
    (hsum : (counted args gs).sum < 2 ^ 64)
    (hfits : (counted args gs).length * m.tsc_delta_min.toNat ≤ (counted args gs).sum) :
    (publish args start m).tsc_total_int.toNat =
      (counted args gs).sum - (counted args gs).length * m.tsc_delta_min.toNat := by
  have hi : (UInt64.ofNat m.i).toNat = (counted args gs).length := by
    rw [UInt64.toNat_ofNat', Nat.mod_eq_of_lt (h.i_le_sum.trans_lt hsum), h.i]
  have hmul : (m.tsc_delta_min * UInt64.ofNat m.i).toNat =
      (counted args gs).length * m.tsc_delta_min.toNat := by
    rw [UInt64.toNat_mul, hi, Nat.mul_comm, Nat.mod_eq_of_lt (hfits.trans_lt hsum)]
  have htotal : m.tsc_total_int.toNat = (counted args gs).sum := by
    rw [h.total, Nat.mod_eq_of_lt hsum]
  rw [publish, UInt64.toNat_sub_of_le, hmul, htotal]
  rw [UInt64.le_iff_toNat_le, hmul, htotal]
  exact hfits

/-- As many entries are published as were written. -/
theorem publish_samples : (publish args start m).samples = min m.i args.n := by
  simp only [publish]
  split <;> omega

/-- The entries that are corrected are the first gaps counted. -/
theorem Tally.recorded (h : Tally args gs m) (hfit : ∀ g ∈ gs, g < 2 ^ 32) :
    (m.ds.take (publish args start m).samples).map UInt32.toNat =
      (counted args gs).take args.n := by
  have htake : m.ds.take (min m.i args.n) = m.ds.take m.i := by
    rw [← h.length, ← List.take_take, List.take_length]
  rw [publish_samples, htake, h.ds]
  refine (List.map_congr_left fun g hg => ?_).trans (List.map_id _)
  have hlt := hfit g (mem_counted.mp (List.mem_of_mem_take hg)).1
  exact Nat.min_eq_left (by omega)

/-- The corrected entries, sorted. -/
theorem Tally.deltas_perm (h : Tally args gs m) :
    ((publish args start m).deltas.take (publish args start m).samples).Perm
      ((m.ds.take (publish args start m).samples).map (correct m.tsc_delta_min)) := by
  have hlen : (((m.ds.take (publish args start m).samples).map
      (correct m.tsc_delta_min)).insertionSort (· ≤ ·)).length =
        (publish args start m).samples := by
    simp [publish_samples, h.length]
  have happend : (publish args start m).deltas =
      ((m.ds.take (publish args start m).samples).map
        (correct m.tsc_delta_min)).insertionSort (· ≤ ·) ++
          m.ds.drop (publish args start m).samples := rfl
  rw [happend, List.take_left' hlen]
  exact List.perm_insertionSort _ _

/-- The correction is exact where it does not wrap. -/
theorem toNat_correct {k : UInt64} {d : UInt32} (h : k.toNat ≤ d.toNat) :
    (correct k d).toNat = d.toNat - k.toNat := by
  have hle : k ≤ d.toUInt64 := by
    rw [UInt64.le_iff_toNat_le, UInt32.toNat_toUInt64]
    exact h
  have hd := d.toNat_lt
  rw [correct, UInt64.toNat_toUInt32, UInt64.toNat_sub_of_le _ _ hle,
    UInt32.toNat_toUInt64]
  exact Nat.mod_eq_of_lt (by omega)

/-- Subtracting a value from every element, in the integers. -/
theorem sum_map_sub (k : Nat) : ∀ l : List Nat,
    (l.map fun g : Nat => (g : Int) - k).sum =
      (l.sum : Int) - (l.length * k : Nat)
  | [] => by simp
  | g :: l => by
      rw [List.map_cons, List.sum_cons, sum_map_sub k l, List.sum_cons,
        List.length_cons, Nat.succ_mul]
      omega

/-- And in the naturals, where it is none larger. -/
theorem sum_map_correct {k : UInt64} :
    ∀ {l : List UInt32}, (∀ d ∈ l, k.toNat ≤ d.toNat) →
    ((l.map (correct k)).map UInt32.toNat).sum + l.length * k.toNat =
      (l.map UInt32.toNat).sum
  | [], _ => by simp
  | d :: l, h => by
      have ih := sum_map_correct fun x hx => h x (List.mem_cons_of_mem _ hx)
      have hd := h d List.mem_cons_self
      rw [List.map_cons, List.map_cons, List.sum_cons, List.map_cons, List.sum_cons,
        List.length_cons, Nat.succ_mul, toNat_correct hd]
      omega

end correction

/-- The deltas computed add up to no more than the gaps. -/
theorem sum_deltas_le (gs : List Nat) : (deltas gs).sum ≤ gs.sum := by
  cases gs with
  | nil => exact Nat.le_refl 0
  | cons g gs =>
    have hmap : (gs.map (· % 2 ^ 32)).sum ≤ (gs.map id).sum :=
      List.sum_le_sum fun x _ => Nat.mod_le x (2 ^ 32)
    rw [List.map_id] at hmap
    simpa [deltas] using hmap

/-- `i` never wraps. -/
theorem thresh_cnt_lt {args : Args} {start : UInt64} {ts : List UInt64}
    {m : Locals} (hmono : (start :: ts).Pairwise (· ≤ ·))
    (hend : ∃ t ∈ start :: ts, start + args.tsc_runtime ≤ t)
    (hm : measure args start ts = some m) : m.i < 2 ^ 64 := by
  obtain ⟨m', hm', h, -⟩ := measure_eq hmono hend
  obtain rfl : m' = m := Option.some.inj (hm'.symm.trans hm)
  have hi := h.i_le_sum
  have hcounted := sum_counted_le args (deltas (args.gaps start ts))
  have hdeltas := sum_deltas_le (args.gaps start ts)
  have hgaps := sum_gaps_eq args hmono
  have hlt := ((args.readings start ts).getLastD start).toNat_lt
  omega

/-- The correction is right exactly when the loop time fits every entry and
the counted gaps together. -/
theorem corrected_iff_fits {args : Args} {start : UInt64} {ts : List UInt64}
    {m : Locals} (hmono : (start :: ts).Pairwise (· ≤ ·))
    (h : Tally args (args.gaps start ts) m)
    (hfit : ∀ g ∈ args.gaps start ts, g < 2 ^ 32) :
    Corrected args start ts m (publish args start m) ↔
      (counted args (args.gaps start ts)).length * m.tsc_delta_min.toNat ≤
          (counted args (args.gaps start ts)).sum ∧
        ∀ g ∈ (counted args (args.gaps start ts)).take args.n,
          m.tsc_delta_min.toNat ≤ g := by
  have hlast := sum_gaps_eq args hmono
  have hle := sum_counted_le args (args.gaps start ts)
  have hlt := ((args.readings start ts).getLastD start).toNat_lt
  have hrec := h.recorded start hfit
  have hmem : (∀ d ∈ m.ds.take (publish args start m).samples,
      m.tsc_delta_min.toNat ≤ d.toNat) ↔
        ∀ g ∈ (counted args (args.gaps start ts)).take args.n,
        m.tsc_delta_min.toNat ≤ g := by
    rw [← hrec]
    exact List.forall_mem_map.symm
  constructor
  · intro hc
    refine ⟨?_, hmem.mp hc.no_wrap⟩
    have htotal := hc.total
    rw [sum_map_sub] at htotal
    have hk : (publish args start m).tsc_delta_min.toNat =
        m.tsc_delta_min.toNat := rfl
    rw [hk] at htotal
    omega
  · rintro ⟨hsum, htake⟩
    have htotal := h.total_int start (by omega) hsum
    refine ⟨hmem.mpr htake, ?_, by rw [htotal]; omega, fun hroom => ?_⟩
    · rw [sum_map_sub, htotal]
      exact Int.ofNat_sub hsum
    -- with room for all of them, what is published is the counted gaps, sorted
    · have hroom' : (counted args (args.gaps start ts)).length ≤ args.n :=
        h.i ▸ hroom
      have hadd := sum_map_correct (hmem.mpr htake)
      have hlen : (m.ds.take (publish args start m).samples).length =
          (counted args (args.gaps start ts)).length := by
        have hcongr := congrArg List.length hrec
        rwa [List.length_map, List.take_of_length_le hroom'] at hcongr
      rw [hrec, hlen, List.take_of_length_le hroom'] at hadd
      rw [htotal, ((h.deltas_perm start).map UInt32.toNat).sum_eq]
      omega

/-- **When the correction is right.** For gaps below 2^32 the measurement
ends, and what is published is right exactly when the minimum, which leaves
out the first gap, fits that gap too. -/
theorem corrected_iff (args : Args) (start : UInt64) (ts : List UInt64)
    (hmono : (start :: ts).Pairwise (· ≤ ·))
    (hend : ∃ t ∈ start :: ts, start + args.tsc_runtime ≤ t)
    (hfit : ∀ g ∈ args.gaps start ts, g < 2 ^ 32) :
    ∃ m, measure args start ts = some m ∧
      (Corrected args start ts m (publish args start m) ↔
        MinSeen args (args.gaps start ts)) := by
  obtain ⟨m, hm, h, hleast⟩ := measure_eq hmono hend
  rw [deltas_of_fit hfit] at h hleast
  refine ⟨m, hm, (corrected_iff_fits hmono h hfit).trans ?_⟩
  rw [hleast]
  exact minSeen_iff hfit

/-- The same three readings, whose corrected values are right. -/
theorem corrected_iff_three :
    ∃ m, measure ⟨100, 1000, 4⟩ 5 [10, 200, 1200] = some m ∧
    Corrected ⟨100, 1000, 4⟩ 5 [10, 200, 1200] m (publish ⟨100, 1000, 4⟩ 5 m) := by
  obtain ⟨m, hm, hiff⟩ :=
    corrected_iff ⟨100, 1000, 4⟩ 5 [10, 200, 1200] (by decide) (by decide)
    (by decide)
  refine ⟨m, hm, hiff.mpr ?_⟩
  have hgaps : Args.gaps ⟨100, 1000, 4⟩ 5 [10, 200, 1200] = [5, 190, 1000] := by
    decide
  rw [hgaps]
  rintro g₁ rest ⟨⟩
  exact .inl (by decide)

/-- A first gap of 200 is recorded, the only other is 300: the entry wraps. -/
theorem first_gap_wraps : ∃ m, measure ⟨100, 400, 4⟩ 0 [200, 500] = some m ∧
    ¬ Corrected ⟨100, 400, 4⟩ 0 [200, 500] m (publish ⟨100, 400, 4⟩ 0 m) := by
  obtain ⟨m, hm, hds, hmin⟩ : ∃ m, measure ⟨100, 400, 4⟩ 0 [200, 500] = some m ∧
      200 ∈ m.ds.take (publish ⟨100, 400, 4⟩ 0 m).samples ∧
          m.tsc_delta_min = 300 := by
    refine ⟨_, rfl, ?_⟩
    decide
  refine ⟨m, hm, fun hc => ?_⟩
  have hle := hc.no_wrap 200 hds
  have hk : (publish ⟨100, 400, 4⟩ 0 m).tsc_delta_min = 300 := hmin
  rw [hk] at hle
  exact absurd hle (by decide)

end Osjitter.Jitter
