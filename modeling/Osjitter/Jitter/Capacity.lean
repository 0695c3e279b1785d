/-
Osjitter.Jitter.Capacity — for how many interruptions `osjitter` has room.

  §1 The capacity that `parse_args` computes from the runtime: 105000 entries a
     second, but as a product of 32 bits (`parse_args_samples`). No option sets
     it.
  §2 A measurement records everything exactly when its interruptions are no
     more than that. They are counted as the code does, by the deltas that it
     computes, so any readings will do: `iterations` are those that the readings
     make, `AtHead.iterations_eq` says that a run makes no others, and
     `AtHead.readings_eq` that at its end they are all that are taken.
     `AtHead.tally` and `AtHead.no_overflow` hold at every loop head. It follows
     when everything is recorded (`recorded_all_iff`), and with the parser in
     front of it `capacity_iff`: the promise of 105000 interruptions a second is
     kept unless their number lies between the product of 32 bits and the exact
     one.
  §3 Readings at a fixed distance (`ticks`), for a measurement of 40905 s in
     which it does: `long_run_overflows`. For ascending readings the deltas are
     the gaps of `Jitter.WorkerTheorems` (`computed_iterations`), and those of
     `ticks` are all the same.

The number of readings is that of a list; the counter of the source would wrap
after 2^64 of them.
-/
import Mathlib
import Osjitter.Jitter.Bookkeeping
import Osjitter.Jitter.Selection

namespace Osjitter.Jitter

open Readings

/-! ## §1 The capacity

The capacity of the array is set behind the loop over the options, from the
runtime in seconds. No option changes it otherwise, so it is a function of the
runtime alone. -/

/-- No option sets the capacity. -/
theorem parse_option_samples {opt : String} {set v} {args args' : GlobalArgs}
    (hopt : parse_option opt = some set) (h : set v args = .ok args') :
    args'.samples = args.samples := by
  simp only [parse_option] at hopt
  split_ifs at hopt
  case pos =>
    cases hopt
    cases hsel : select_cpus v args.cpu_set with
    | error e => simp [hsel, Except.map] at h
    | ok set₁ =>
      simp only [hsel, Except.map, Except.ok.injEq] at h
      rw [← h]
  all_goals
    cases hopt
    cases h
    rfl

/-- No option sets the capacity. -/
theorem parse_options_samples :
    ∀ {argv : List String} {args args' : GlobalArgs},
    parse_options argv args = .ok args' → args'.samples = args.samples
  | [], args, args', h => by
      cases h
      rfl
  | [opt], args, args', h => by
      simp only [parse_options] at h
      split at h
      · cases h
      · split at h <;> cases h
  | opt :: v :: rest, args, args', h => by
      simp only [parse_options] at h
      split at h
      · next set hset =>
        split at h
        · next args₁ hargs =>
          rw [parse_options_samples h, parse_option_samples hset hargs]
        · cases h
      · split at h <;> cases h

/-- **The capacity**: 105000 entries a second, modulo 2^32. -/
theorem parse_args_samples {argv : List String} {args : GlobalArgs}
    (h : parse_args argv = .ok args) :
    args.samples.toNat = 105000 * args.runtime_s.toNat % 2 ^ 32 := by
  unfold parse_args at h
  cases hparse : parse_options argv .zero with
  | error e =>
    rw [hparse] at h
    cases h
  | ok args₀ =>
    rw [hparse] at h
    obtain rfl := Except.ok.inj h
    have hzero : args₀.samples = 0 := parse_options_samples hparse
    have hsamples : args₀.defaults.samples =
        (args₀.defaults.runtime_s * 105000).toUInt64 := by
      simp only [GlobalArgs.defaults]
      split_ifs <;> rfl
    rw [hsamples, UInt32.toNat_toUInt64, UInt32.toNat_mul, Nat.mul_comm]
    rfl

/-! ## §2 Room for every interruption

The interruptions of a run are counted by the deltas that the code computes of
the readings it takes, in 64 bits for the first and in 32 for the others. The
array has room for all of them exactly if there are no more than it has entries,
and then the mark of the overflow stays zero. -/

/-- The iterations of the loop after the reading `a`. -/
def iterations_from (a : UInt64) : List UInt64 → List Iteration
  | [] => []
  | t :: ts => ⟨t, (t - a).toUInt32.toUInt64⟩ :: iterations_from t ts

/-- The iterations that the readings taken after `start` end, the first of
them unrolled. -/
def iterations (start : UInt64) : List UInt64 → List Iteration
  | [] => []
  | t :: ts => ⟨t, t - start⟩ :: iterations_from t ts

/-- The number of interruptions counted in the readings, by the deltas that
the code computes. -/
def interruptions (args : Args) (start : UInt64) (ts : List UInt64) : Nat :=
  (hits args (iterations start (args.readings start ts))).length

/-- One more reading is one more iteration. -/
theorem iterations_from_append (t : UInt64) : ∀ (a : UInt64) (ts : List UInt64),
    iterations_from a (ts ++ [t]) =
      iterations_from a ts ++
        [⟨t, (t - (a :: ts).getLast (List.cons_ne_nil _ _)).toUInt32.toUInt64⟩]
  | _, [] => rfl
  | a, u :: ts => by
      simp only [List.cons_append, iterations_from, iterations_from_append t u ts,
        List.getLast_cons_cons]

/-- The same behind the first iteration. -/
theorem iterations_append (start t : UInt64) {ts : List UInt64}
    (hne : ts ≠ []) :
    iterations start (ts ++ [t]) =
      iterations start ts ++
        [⟨t, (t - (start :: ts).getLast
          (List.cons_ne_nil _ _)).toUInt32.toUInt64⟩] := by
  cases ts with
  | nil => exact absurd rfl hne
  | cons u ts =>
    simp only [List.cons_append, iterations, iterations_from_append,
      List.getLast_cons_cons]

section heads

variable {args : Args} {start : UInt64} {head : Head} {h : List Iteration}
    {m : Locals}

/-- Where the loop goes on, it was entered by the unrolled iteration. -/
theorem AtHead.ne_nil (hat : AtHead args start .loop h m)
    (hlt : m.tsc < start + args.tsc_runtime) : h ≠ [] := by
  cases hat with
  | skipped hat hge => exact absurd hlt hge
  | unrolled t hat hlt => simp
  | again t hat hlt => simp

/-- The readings determine the iterations. -/
theorem AtHead.iterations_eq (hat : AtHead args start head h m) :
    h = iterations start (readings h) := by
  induction hat with
  | start => rfl
  | skipped hat hge ih => exact ih
  | unrolled t hat hlt ih =>
    obtain ⟨rfl, rfl⟩ := hat.at_unrolled
    rfl
  | again t hat hlt ih =>
    have hne : readings _ ≠ [] := mt List.map_eq_nil_iff.mp (hat.ne_nil hlt)
    rw [readings_append, iterations_append start t hne, ← ih, hat.tsc]

/-- The iterations so far have taken their readings, whatever is to come. -/
theorem AtHead.taken_eq (hat : AtHead args start head h m)
    (rest : List UInt64) :
    taken (· < start + args.tsc_runtime) start (readings h ++ rest) =
      readings h ++ taken (· < start + args.tsc_runtime) m.tsc rest := by
  induction hat generalizing rest with
  | start => rfl
  | skipped hat hge ih => exact ih rest
  | unrolled t hat hlt ih =>
    rw [readings_append, List.append_assoc, List.singleton_append, ih, taken,
      if_pos hlt]
    simp [Locals.forget, Jitter.unrolled]
  | again t hat hlt ih =>
    rw [readings_append, List.append_assoc, List.singleton_append, ih, taken,
      if_pos hlt]
    simp [Jitter.iteration]

/-- Where the loop ends, they are all the readings that are taken. -/
theorem AtHead.readings_eq (hat : AtHead args start head h m)
    (hge : ¬ m.tsc < start + args.tsc_runtime) {ts : List UInt64}
    (hpre : readings h <+: ts) : args.readings start ts = readings h := by
  obtain ⟨rest, rfl⟩ := hpre
  have hnone : taken (· < start + args.tsc_runtime) m.tsc rest = [] := by
    cases rest with
    | nil => rfl
    | cons t rest => rw [taken, if_neg hge]
  rw [Args.readings, hat.taken_eq, hnone, List.append_nil]

/-- The tally at every loop head, for any readings. -/
theorem AtHead.tally (hat : AtHead args start head h m) :
    Tally args (computed h) m := by
  induction hat with
  | start => exact Tally.locals args start
  | skipped hat hge ih => exact ih.forget.toTally
  | unrolled t hat hlt ih =>
    rw [computed_append]
    exact (ih.account t _).forget.toTally
  | again t hat hlt ih =>
    rw [computed_append]
    exact ih.account t _

/-- The accounting of one reading marks an overflow only without room. -/
theorem account_no_overflow {t delta : UInt64}
    (hm : m.i ≤ args.n → m.tsc_overflow = 0)
    (hi : (account args t delta m).i ≤ args.n) :
    (account args t delta m).tsc_overflow = 0 := by
  rw [(account_i ..).1] at hi
  rw [account_overflow]
  split
  · next hover =>
    rw [if_pos hover.1] at hi
    have hle := hover.2.1
    omega
  · split at hi
    · exact hm (Nat.le_of_succ_le hi)
    · exact hm hi

/-- No overflow is marked while there is room. -/
theorem AtHead.no_overflow (hat : AtHead args start head h m) :
    m.i ≤ args.n → m.tsc_overflow = 0 := by
  induction hat with
  | start => exact fun _ => rfl
  | skipped hat hge ih => exact ih
  | unrolled t hat hlt ih => exact account_no_overflow ih
  | again t hat hlt ih => exact account_no_overflow ih

end heads

/-- A measurement counts the interruptions, and records them all exactly when
there is room. -/
theorem recorded_all_iff {args : Args} {start : UInt64} {ts : List UInt64}
    {m : Locals} (hm : measure args start ts = some m) :
    m.i = interruptions args start ts ∧
      ((publish args start m).samples = (publish args start m).thresh_cnt ∧
          (publish args start m).tsc_overflow = 0 ↔
            interruptions args start ts ≤ args.n) := by
  obtain ⟨h, hat, hge, hpre⟩ := measure_eq_some_iff.mp hm
  have hi : m.i = interruptions args start ts := by
    rw [interruptions, hat.readings_eq hge hpre, ← hat.iterations_eq, hat.tally.i_eq]
  have hcnt : (publish args start m).thresh_cnt = m.i := rfl
  refine ⟨hi, ?_⟩
  rw [publish_samples, hcnt, ← hi]
  constructor
  · rintro ⟨hmin, -⟩
    omega
  · intro hle
    exact ⟨Nat.min_eq_left hle, hat.no_overflow hle⟩

/-- Between ascending readings the loop computes the gaps modulo 2^32. -/
theorem computed_iterations_from : ∀ {a : UInt64} {ts : List UInt64},
    (a :: ts).Pairwise (· ≤ ·) →
      computed (iterations_from a ts) =
        (Readings.gaps a.toNat (ts.map UInt64.toNat)).map (· % 2 ^ 32)
  | _, [], _ => rfl
  | a, t :: ts, hmono => by
      obtain ⟨hle, hts⟩ := List.pairwise_cons.mp hmono
      have ih := computed_iterations_from hts
      rw [computed] at ih
      rw [iterations_from, computed, List.map_cons, ih,
        toNat_delta (hle t List.mem_cons_self)]
      rfl

/-- The deltas that the code computes for ascending readings. -/
theorem computed_iterations {args : Args} {start : UInt64} {ts : List UInt64}
    (hmono : (start :: ts).Pairwise (· ≤ ·)) :
    computed (iterations start (args.readings start ts)) =
      deltas (args.gaps start ts) := by
  have htaken : (start :: args.readings start ts).Pairwise (· ≤ ·) :=
    hmono.sublist ((taken_sublist start ts).cons_cons start)
  rw [Args.gaps]
  cases hts : args.readings start ts with
  | nil => rfl
  | cons t rest =>
    rw [hts] at htaken
    obtain ⟨hle, hrest⟩ := List.pairwise_cons.mp htaken
    have hloop := computed_iterations_from hrest
    rw [computed] at hloop
    rw [iterations, computed, List.map_cons, hloop,
      UInt64.toNat_sub_of_le _ _ (hle t List.mem_cons_self)]
    rfl

/-- Readings that reach the limit end the measurement. -/
theorem exists_worker (args : Args) {start : UInt64} {ts : List UInt64}
    (hmono : (start :: ts).Pairwise (· ≤ ·))
    (hend : ∃ t ∈ start :: ts, start + args.tsc_runtime ≤ t) :
    ∃ w, worker_main args start ts = some w := by
  obtain ⟨m, hm, -⟩ := measure_eq hmono hend
  exact ⟨publish args start m, by rw [worker_main, hm, Option.map_some]⟩

/-- **Whether there is room for 105000 interruptions a second**: not if their
number is above the 32-bit product, but within the exact one. -/
theorem capacity_iff (argv : List String) (args params : GlobalArgs)
    (host : Host) (calls : Calls) (hparse : parse_args argv = .ok args)
    (hparams : set_params host calls args = some params) (start : UInt64)
    (ts : List UInt64) (w : Worker)
    (hw : worker_main params.toArgs start ts = some w) :
    (w.thresh_cnt ≤ 105000 * args.runtime_s.toNat →
        w.samples = w.thresh_cnt ∧ w.tsc_overflow = 0) ↔
      ¬ (105000 * args.runtime_s.toNat % 2 ^ 32 < interruptions params.toArgs start ts ∧
        interruptions params.toArgs start ts ≤
          105000 * args.runtime_s.toNat) := by
  obtain ⟨m, hm, rfl⟩ := Option.map_eq_some_iff.mp hw
  have hn : params.toArgs.n = 105000 * args.runtime_s.toNat % 2 ^ 32 := by
    rw [Args.n, (set_params_eq hparams).2.2.1, parse_args_samples hparse]
  obtain ⟨hi, hall⟩ := recorded_all_iff hm
  have hcnt : (publish params.toArgs start m).thresh_cnt =
      interruptions params.toArgs start ts := hi
  rw [hall, hn, hcnt, not_and', Nat.not_lt]

/-! ## §3 Readings at a fixed distance

A clock that is read at a fixed distance gives as many interruptions as one
likes, and a runtime can be chosen whose capacity is less: the product of the
two is cut to 32 bits. -/

/-- `n` readings after `a`, at distance `g`. -/
def ticks (g : Nat) : Nat → Nat → List UInt64
  | _, 0 => []
  | a, n + 1 => UInt64.ofNat (a + g) :: ticks g (a + g) n

section ticks

variable {g : Nat}

/-- The readings ascend as long as the last one fits. -/
theorem pairwise_ticks {a n : Nat} (h : a + g * n < 2 ^ 64) :
    (UInt64.ofNat a :: ticks g a n).Pairwise (· ≤ ·) := by
  induction n generalizing a with
  | zero => simp [ticks]
  | succ n ih =>
    have hsum : a + g * (n + 1) = (a + g) + g * n := by ring
    have hrest := ih (a := a + g) (by omega)
    have hle : UInt64.ofNat a ≤ UInt64.ofNat (a + g) := by
      rw [UInt64.le_iff_toNat_le, UInt64.toNat_ofNat', UInt64.toNat_ofNat',
        Nat.mod_eq_of_lt (by omega), Nat.mod_eq_of_lt (by omega)]
      omega
    refine List.pairwise_cons.mpr ⟨fun t ht => ?_, hrest⟩
    rcases List.mem_cons.mp ht with rfl | ht
    · exact hle
    · exact UInt64.le_trans hle ((List.pairwise_cons.mp hrest).1 t ht)

/-- All gaps are the distance. -/
theorem gaps_ticks {a n : Nat} (h : a + g * n < 2 ^ 64) :
    Readings.gaps a ((ticks g a n).map UInt64.toNat) = List.replicate n g := by
  induction n generalizing a with
  | zero => rfl
  | succ n ih =>
    have hsum : a + g * (n + 1) = (a + g) + g * n := by ring
    have hval : (UInt64.ofNat (a + g)).toNat = a + g := by
      rw [UInt64.toNat_ofNat', Nat.mod_eq_of_lt (by omega)]
    rw [ticks, List.map_cons, hval, Readings.gaps, ih (by omega),
      Nat.add_sub_cancel_left, List.replicate_succ]

/-- All are taken if the last but one is before the limit. -/
theorem taken_ticks {a n limit : Nat} (hlimit : limit < 2 ^ 64)
    (h : a + g * n < limit + g) :
    taken (· < UInt64.ofNat limit) (UInt64.ofNat a) (ticks g a n) =
      ticks g a n := by
  induction n generalizing a with
  | zero => rfl
  | succ n ih =>
    have hsum : a + g * (n + 1) = (a + g) + g * n := by ring
    have hlt : UInt64.ofNat a < UInt64.ofNat limit := by
      rw [UInt64.lt_iff_toNat_lt, UInt64.toNat_ofNat', UInt64.toNat_ofNat',
        Nat.mod_eq_of_lt (by omega), Nat.mod_eq_of_lt hlimit]
      omega
    rw [ticks, taken, if_pos hlt, ih (by omega)]

/-- The last of the readings. -/
theorem mem_ticks (a n : Nat) :
    UInt64.ofNat (a + g * n) ∈ UInt64.ofNat a :: ticks g a n := by
  induction n generalizing a with
  | zero => simp
  | succ n ih =>
    have hsum : a + g * (n + 1) = (a + g) + g * n := by ring
    rw [hsum, ticks]
    exact List.mem_cons_of_mem _ (ih (a + g))

/-- Every one is an interruption. -/
theorem interruptions_ticks {args : Args} {n limit : Nat} (hg : g < 2 ^ 32)
    (hthresh : args.tsc_thresh.toNat < g) (hlimit : limit < 2 ^ 64)
    (hrun : 1 + args.tsc_runtime = UInt64.ofNat limit)
    (h : 1 + g * n < limit + g) (hfit : 1 + g * n < 2 ^ 64) :
    interruptions args 1 (ticks g 1 n) = n := by
  have htaken := taken_ticks hlimit h
  have hgaps : args.gaps 1 (ticks g 1 n) = List.replicate n g := by
    rw [Args.gaps, Args.readings, hrun]
    have hone : (1 : UInt64) = UInt64.ofNat 1 := rfl
    rw [hone, htaken]
    exact gaps_ticks hfit
  have hfits : ∀ x ∈ List.replicate n g, x < 2 ^ 32 := fun x hx => by
    rw [List.eq_of_mem_replicate hx]
    exact hg
  have hmono : ((1 : UInt64) :: ticks g 1 n).Pairwise (· ≤ ·) :=
    pairwise_ticks hfit
  have hcomputed : computed (hits args (iterations 1 (args.readings 1 (ticks g 1 n)))) =
      List.replicate n g := by
    rw [computed_hits, computed_iterations hmono, hgaps, deltas_of_fit hfits,
      counted, List.filter_replicate_of_pos (by simpa using hthresh)]
  have hlen := congrArg List.length hcomputed
  rw [computed, List.length_map, List.length_replicate] at hlen
  exact hlen

end ticks

/-- A TSC of 3 GHz and the default threshold of 100 ns, for 40905 s. -/
theorem long_run_params : ∃ args params,
    parse_args ["--khz", "3000000", "-t", "40905"] = .ok args ∧
      args.runtime_s = 40905 ∧
      set_params ⟨4, fun _ => true⟩ Calls.quiet args = some params ∧
      params.tsc_thresh = 300 ∧ params.tsc_runtime = 122715000000000 :=
  ⟨_, _, rfl, rfl, rfl, by decide +kernel, by decide +kernel⟩

/-- In 40905 s there is room for 57704 interruptions, not for 57705. -/
theorem long_run_overflows : ∃ (args params : GlobalArgs) (w : Worker),
    parse_args ["--khz", "3000000", "-t", "40905"] = .ok args ∧
    set_params ⟨4, fun _ => true⟩ Calls.quiet args = some params ∧
    worker_main params.toArgs 1 (ticks 2126600000 1 57705) = some w ∧
    w.thresh_cnt ≤ 105000 * args.runtime_s.toNat ∧
    ¬ (w.samples = w.thresh_cnt ∧ w.tsc_overflow = 0) := by
  obtain ⟨args, params, hparse, hsec, hparams, hthresh, hruntime⟩ :=
    long_run_params
  have hmono : (1 :: ticks 2126600000 1 57705).Pairwise (· ≤ ·) :=
    pairwise_ticks (by norm_num)
  have hlimit : 1 + params.toArgs.tsc_runtime =
      UInt64.ofNat 122715000000001 := by
    rw [hruntime]
    rfl
  have hcount : interruptions params.toArgs 1 (ticks 2126600000 1 57705) = 57705 :=
    interruptions_ticks (by norm_num) (by rw [hthresh]; decide)
      (by norm_num) hlimit (by norm_num)
      (by norm_num)
  obtain ⟨w, hw⟩ := exists_worker params.toArgs hmono
    ⟨_, mem_ticks 1 57705, by rw [hlimit]; decide⟩
  obtain ⟨m, hm, rfl⟩ := Option.map_eq_some_iff.mp hw
  obtain ⟨hi, hall⟩ := recorded_all_iff hm
  have hn : params.toArgs.n = 57704 := by
    rw [Args.n, (set_params_eq hparams).2.2.1, parse_args_samples hparse, hsec]
    rfl
  refine ⟨args, params, _, hparse, hparams, hw, ?_, ?_⟩
  · have hcnt : (publish params.toArgs 1 m).thresh_cnt = 57705 :=
      hi.trans hcount
    rw [hcnt, hsec]
    decide
  · rw [hall, hcount, hn]
    decide

/-- A measurement with those arguments, of three readings. -/
theorem capacity_iff_three : ∃ (args params : GlobalArgs) (w : Worker),
    parse_args ["--khz", "3000000", "-t", "40905"] = .ok args ∧
    worker_main params.toArgs 1 [10, 200, 122715000000001] = some w ∧
    ((w.thresh_cnt ≤ 105000 * args.runtime_s.toNat →
        w.samples = w.thresh_cnt ∧ w.tsc_overflow = 0) ↔
      ¬ (105000 * args.runtime_s.toNat % 2 ^ 32 <
          interruptions params.toArgs 1 [10, 200, 122715000000001] ∧
        interruptions params.toArgs 1 [10, 200, 122715000000001] ≤
          105000 * args.runtime_s.toNat)) := by
  obtain ⟨args, params, hparse, -, hparams, -, hruntime⟩ := long_run_params
  have hmono : (1 :: [10, 200, 122715000000001]).Pairwise (· ≤ · : UInt64 →
      UInt64 → Prop) := by
    decide
  obtain ⟨w, hw⟩ := exists_worker params.toArgs hmono
    ⟨122715000000001, by decide, by rw [hruntime]; decide⟩
  exact ⟨args, params, w, hparse, hw,
    capacity_iff _ args params _ _ hparse hparams 1 _ w hw⟩

end Osjitter.Jitter
