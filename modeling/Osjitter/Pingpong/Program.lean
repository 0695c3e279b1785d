/-
Osjitter.Pingpong.Program — `main` of `pingpong.c`, from the command line to the
output.

  §1 The model: the arguments and the frequency give the parameters
     (`params`), a run of the threads gives the results (`Measures`), and the
     results are printed (`GlobalArgs.output`). `main_returns` is all of it: a
     status, with what was printed, after the threads have shown a history.
  §2 What a run that returns 0 has measured, for every method: a relay of an
     even number of messages, or with `--null` all readings (`Complete`), of
     which each thread has the deltas. `measures_iff` has both directions.
  §3 `main_output_iff`: the outputs with which `main` returns 0. Each is of a
     complete measurement, and every complete measurement has one. `Reports`
     says what is in it: a JSON document that reads back as the converted
     deltas, or a table whose rows agree with them, one for each thread.

The frequency is that of `Util.TscKhz`, whose sources are given, and so are the
arrays that `realloc` yields; they may have any contents, but room for the
deltas. A failing write to `stdout` is left out.
-/
import Osjitter.Pingpong.Json
import Osjitter.Pingpong.NullTheorems
import Osjitter.Pingpong.ParseArgsTheorems
import Osjitter.Util.TscKhz

namespace Osjitter.Pingpong

open Machines Relay Util

/-! ## §1 The program

A run of the program reads the arguments, asks for the frequency, runs the
threads and prints. Each part has its own model; here they are put in order,
with a return where one of them fails. -/

/-- The fields of `Args` that `spin_pingpong` hands to the workers. -/
def GlobalArgs.worker (args : GlobalArgs) : Worker := ⟨args.n, args.k, args.p⟩

/-- `main` up to the call of `spin_pingpong`, or its exit status. A result of
none is an access outside an array. -/
def params (argv : List String) (buf : List Char) (sources : Sources) :
    Option (Except Int GlobalArgs) :=
  match parse_args argv with
  | .error (.exit status _) => some (.error status)
  | .error (.fail _) => some (.error 1)
  | .ok args =>
      match ask (fun _ => get_tsc_khz buf sources) args.tsc_khz with
      | none => none
      | some (r, khz) =>
          if r < 0 then some (.error 1)
          else
            let factors := clocks_calc_mult_shift khz 1000000 0
            some (.ok { args with tsc_khz := khz, mult := factors.1, shift := factors.2 })

/-- `spin_pingpong` stands behind its joins: it has returned 1 (none), or both
workers have their results. -/
def State.Yields {Mem At : Type} (s : State Mem At) :
    Option (Tid → Result) → Prop
  | none => s.main = .exited 1
  | some ws =>
      s.main = .exited 0 ∧
        ∀ w, (s.thr w).status = .returned (ws w).raw_ds (ws w).ds

/-- The threads of `spin_pingpong` can show `h` and yield `r`, whatever calls
fail. -/
def Measures (args : GlobalArgs) (h : List Event)
    (r : Option (Tid → Result)) : Prop :=
  match args.method with
  | some m =>
    ∃ s, Run (spin_pingpong (m.main args.worker).body args.worker) Any h s ∧
      s.Yields r
  | none => ∃ s, Run (null_pingpong args.worker) Any h s ∧ s.Yields r

/-- What is written to `stdout`, apart from the help. -/
inductive Output where
  | nothing
  | json (text : List Char)
  | table (rows : List Row)

/-- `if (args->json) …`. The return values are not looked at; none is a failed
assertion. -/
def GlobalArgs.output (args : GlobalArgs) (ys : Nat → Option (List UInt32))
    (ws : Nat → Result) : Option Output :=
  if args.json then some (.json (print_json args.toArgs ws))
  else
    let printed := pp_results args.toArgs ws ys
    printed.ret.map fun _ => .table printed.rows

/-- The results in the order of `ws`. -/
def indexed (ws : Tid → Result) (i : Nat) : Result := ws (i = 1)

/-- `main` can return `code` with the output `out` after its threads have shown
`h`. -/
def main_returns (argv : List String) (buf : List Char) (sources : Sources)
    (ys : Nat → Option (List UInt32)) (h : List Event) (code : Int)
    (out : Output) : Prop :=
  match params argv buf sources with
  | none => False
  | some (.error status) => h = [] ∧ code = status ∧ out = .nothing
  | some (.ok args) =>
      Measures args h none ∧ code = 1 ∧ out = .nothing ∨
        ∃ ws, Measures args h (some ws) ∧ code = 0 ∧
          args.output ys (indexed ws) = some out

/-! ## §2 The measurement

The history of a run that returns 0 and the arrays that its threads return
determine each other, for the methods that relay and for `--null`. -/

/-- The threads have done all their work: a complete relay, or all readings. -/
def Complete (args : GlobalArgs) (h : List Event) : Prop :=
  match args.method with
  | some _ => args.n.toNat % 2 = 0 ∧
      ∃ last, Accepts args.n.toNat 1 h ⟨args.n.toNat, last, .ready⟩
  | none => ∀ w, ∃ ps, ps.length = args.n.toNat / 2 ∧ own w h = readings w 0 ps

/-- The deltas of a thread, as measured and sorted. -/
def result (h : List Event) (w : Tid) : Result :=
  ⟨deltas w h, qsort_u32 (deltas w h)⟩

/-- A thread's deltas are those of its own events. -/
theorem deltas_own (w : Tid) (h : List Event) :
    deltas w (own w h) = deltas w h := by
  induction h with
  | nil => rfl
  | cons e h ih =>
    have hsplit : deltas w (e :: h) = deltas w [e] ++ deltas w h :=
      deltas_append w [e] h
    rw [hsplit, ← ih]
    by_cases he : party e = w
    · have hown : own w (e :: h) = e :: own w h := by simp [own, he]
      rw [hown]
      exact deltas_append w [e] (own w h)
    · have hown : own w (e :: h) = own w h := by simp [own, he]
      have hnone : deltas w [e] = [] := by
        cases e with
        | leg v k t now =>
          have hv : v ≠ w := he
          simp [deltas, legs, Relay.Event.leg?, hv]
        | clock | send | recv => rfl
      rw [hown, hnone, List.nil_append]

/-- The deltas of pairs of readings are their differences. -/
theorem deltas_readings (w : Tid) (ps : List (UInt64 × UInt64)) (j : Nat) :
    deltas w (readings w j ps) = ps.map reading := by
  induction ps generalizing j with
  | nil => rfl
  | cons p ps ih =>
    have hone : deltas w [.clock w p.1, .leg w j p.1 p.2] = [reading p] := by
      have hlegs : legs [.clock w p.1, .leg w j p.1 p.2] = [⟨w, j, p.1, p.2⟩] :=
        rfl
      simp only [deltas, hlegs, List.filter_cons, decide_true, if_true, List.filter_nil]
      rfl
    have hsplit :=
      deltas_append w [.clock w p.1, .leg w j p.1 p.2] (readings w (j + 1) ps)
    rw [hone, ih] at hsplit
    exact hsplit

/-- **What a successful run has measured**, and that every complete measurement
is one. -/
theorem measures_iff (args : GlobalArgs) (h : List Event) (ws : Tid → Result) :
    Measures args h (some ws) ↔ Complete args h ∧ ws = result h := by
  unfold Measures Complete
  cases hm : args.method with
  | some m =>
    constructor
    · rintro ⟨s, hs, hexit, hret⟩
      have hsuccess := (m.protocol args.worker).success hs hexit
      refine ⟨⟨hsuccess.even, hsuccess.complete⟩, funext fun w => ?_⟩
      obtain ⟨ds, hds, hfin, -⟩ := hsuccess.results w
      have hw := hret w
      rw [hds, Status.returned.injEq] at hw
      have hsorted : ds = qsort_u32 (deltas w h) := hfin.eq.2.1
      rw [hsorted] at hw
      exact (congrArg₂ Result.mk hw.1 hw.2).symm
    · rintro ⟨⟨heven, last, ha⟩, rfl⟩
      -- a run of the method that shows `h`, in which no call fails
      obtain ⟨s, hs, hexit⟩ :=
        (m.replay args.worker).exits (m.protocol args.worker) heven ha
      refine ⟨s, hs.mono fun _ _ _ => trivial, hexit, fun w => ?_⟩
      obtain ⟨ds, hds, hfin, -⟩ :=
        ((m.protocol args.worker).success hs hexit).results w
      have hsorted : ds = qsort_u32 (deltas w h) := hfin.eq.2.1
      rw [hds, hsorted]
      rfl
  | none =>
    have hdeltas : ∀ {w ps}, own w h = readings w 0 ps →
        deltas w h = ps.map reading := by
      intro w ps hown
      rw [← deltas_own, hown, deltas_readings]
    constructor
    · rintro ⟨s, hs, hexit, hret⟩
      have hsuccess := null_success hs hexit
      refine ⟨fun w => ?_, funext fun w => ?_⟩
      · obtain ⟨ps, ds, hlen, hown, -⟩ := hsuccess w
        exact ⟨ps, hlen, hown⟩
      · obtain ⟨ps, ds, -, hown, hds, hfin⟩ := hsuccess w
        have hw := hret w
        rw [hds, Status.returned.injEq] at hw
        have hsorted : ds = qsort_u32 (ps.map reading) := hfin.eq.2.1
        rw [hsorted, ← hdeltas hown] at hw
        exact (congrArg₂ Result.mk hw.1 hw.2).symm
    · rintro ⟨hall, rfl⟩
      choose ps hlen hown using hall
      obtain ⟨s, hs, haw⟩ :=
        NullAwaits.shows (x := args.worker) h ps (fun _ => none)
        (fun w => by simpa [progress] using hown w) (fun w => (hlen w).le)
      obtain ⟨u, hu, hexit⟩ := haw.exits hlen
      have hrun := hs.trans hu
      rw [List.append_nil] at hrun
      refine ⟨u, hrun.mono fun _ _ _ => trivial, hexit, fun w => ?_⟩
      obtain ⟨qs, ds, -, hqs, hds, hfin⟩ := null_success hrun hexit w
      have hsorted : ds = qsort_u32 (qs.map reading) := hfin.eq.2.1
      rw [hds, hsorted, result, hdeltas hqs]

/-- Each thread has measured `n / 2` deltas. -/
theorem Complete.length {args : GlobalArgs} {h : List Event}
    (hc : Complete args h) (w : Tid) :
    (deltas w h).length = args.n.toNat / 2 := by
  have hmeasures := (measures_iff args h (result h)).mpr ⟨hc, rfl⟩
  unfold Measures at hmeasures
  cases hm : args.method with
  | some m =>
    rw [hm] at hmeasures
    obtain ⟨s, hs, hexit, -⟩ := hmeasures
    obtain ⟨ds, -, -, hlen⟩ :=
      ((m.protocol args.worker).success hs hexit).results w
    exact hlen
  | none =>
    rw [Complete, hm] at hc
    obtain ⟨ps, hlen, hown⟩ := hc w
    rw [← deltas_own, hown, deltas_readings, List.length_map, hlen]

/-- The arrays of a complete measurement are those of `spin_main_finalize`. -/
theorem Complete.finalized {args : GlobalArgs} {h : List Event}
    (hc : Complete args h) (w : Tid) :
    Finalized args.n (deltas w h) (result h w) := by
  have hlen : (deltas w h).length ≤ args.n.toNat / 2 := (hc.length w).le
  simp [Finalized, spin_main_finalize, hlen, result, qsort_u32_eq]

/-! ## §3 The output

What is printed is a function of the history and of the scratch arrays, so the
outputs are described without the machine. -/

/-- The numbers that the program shows of a thread, in the order measured. -/
def shown_ns (args : GlobalArgs) (h : List Event) (w : Tid) : List UInt64 :=
  (deltas w h).map (to_ns args.mult args.shift)

/-- An output of the measurement `h`: a JSON document of the two lists, or the
rows of the threads. -/
structure Reports (args : GlobalArgs) (ys : Nat → Option (List UInt32))
    (h : List Event) (out : Output) : Prop where
  json : args.json = true → ∃ text, out = .json text ∧ Json.parse text =
    some (.arr [numbers (shown_ns args h false), numbers (shown_ns args h true)])
  table : args.json = false → ∃ rows, out = .table rows ∧
    (∀ r ∈ rows, r.thread < 2 ∧ Agrees args.toArgs (indexed (result h) r.thread) r) ∧
    (2 ≤ args.n.toNat → (∀ i < 2, (ys i).isSome = true) → rows.map Row.thread = [0, 1])

variable {argv : List String} {buf : List Char} {sources : Sources}
  {ys : Nat → Option (List UInt32)} {args : GlobalArgs}

/-- A return of 0 is that of a complete measurement with its output. -/
theorem main_returns_zero_iff (hp : params argv buf sources = some (.ok args))
    (h : List Event) (out : Output) : main_returns argv buf sources ys h 0 out ↔
      Complete args h ∧ args.output ys (indexed (result h)) = some out := by
  unfold main_returns
  rw [hp]
  constructor
  · rintro (⟨-, hcode, -⟩ | ⟨ws, hmeasures, -, hout⟩)
    · cases hcode
    · obtain ⟨hc, rfl⟩ := (measures_iff args h ws).mp hmeasures
      exact ⟨hc, hout⟩
  · rintro ⟨hc, hout⟩
    exact .inr ⟨result h, (measures_iff args h _).mpr ⟨hc, rfl⟩, rfl, hout⟩

/-- The table of a complete measurement, whatever `realloc` returns. -/
theorem Complete.table {h : List Event} (hc : Complete args h)
    (hys : ∀ i y, ys i = some y → args.n.toNat / 2 ≤ y.length) :
    let printed := pp_results args.toArgs (indexed (result h)) ys
    printed.ret ≠ none ∧
      (2 ≤ args.n.toNat → (∀ i < 2, (ys i).isSome = true) →
        printed.rows.map Row.thread = [0, 1]) := by
  have hsize : ∀ i, (indexed (result h) i).ds_size = args.n.toNat / 2 := by
    intro i
    rw [indexed, (hc.finalized _).ds_size, hc.length]
  have hturn : ∀ i, (ys i).isSome = true →
      if (indexed (result h) i).ds_size = 0 then
        row_turn args.toArgs (indexed (result h)) ys i = .skip
      else ∃ r, row_turn args.toArgs (indexed (result h)) ys i = .row r ∧
          r.thread = i := by
    intro i hi
    obtain ⟨y, hy⟩ := Option.isSome_iff_exists.mp hi
    exact row_turn_ok args.toArgs (hc.finalized (i = 1)) ⟨y, hy,
      by rw [hsize]; exact hys i y hy⟩
  constructor
  · refine ret_ne_none fun i _ habort => ?_
    cases hi : ys i with
    | none => simp [row_turn, hi] at habort
    | some y =>
      have hok := hturn i (by simp [hi])
      rw [habort] at hok
      split at hok
      · cases hok
      · obtain ⟨r, hr, -⟩ := hok
        cases hr
  · intro hn hall
    have hrow : ∀ i < 2,
      ∃ r, row_turn args.toArgs (indexed (result h)) ys i = .row r ∧
        r.thread = i := by
      intro i hi
      have hok := hturn i (hall i hi)
      rwa [if_neg (by rw [hsize]; omega)] at hok
    obtain ⟨r₀, h₀, ht₀⟩ := hrow 0 (by omega)
    obtain ⟨r₁, h₁, ht₁⟩ := hrow 1 (by omega)
    simp [pp_results, print_rows, h₀, h₁, ht₀, ht₁]

/-- **From the command line to the output.** With parameters `args`, whatever
calls fail, `main` returns 0 only after a complete measurement, and prints what
was measured: the JSON document reads back as the converted deltas of both
threads in order, the rows of the table agree with them. And it can return 0 with
the output of every complete measurement. -/
theorem main_output_iff (hp : params argv buf sources = some (.ok args))
    (hys : ∀ i y, ys i = some y → args.n.toNat / 2 ≤ y.length)
    (h : List Event) :
    (∀ out, main_returns argv buf sources ys h 0 out →
      Complete args h ∧ (∀ w, (shown_ns args h w).length = args.n.toNat / 2) ∧
        Reports args ys h out) ∧
      (Complete args h → ∃ out, main_returns argv buf sources ys h 0 out) := by
  refine ⟨fun out hout => ?_, fun hc => ?_⟩
  · obtain ⟨hc, hout⟩ := (main_returns_zero_iff hp h out).mp hout
    refine ⟨hc, fun w => by rw [shown_ns, List.length_map, hc.length], fun hjson => ?_,
      fun htable => ?_⟩
    · rw [GlobalArgs.output, if_pos hjson] at hout
      refine ⟨_, (Option.some.inj hout).symm, ?_⟩
      rw [print_json_eq_document, parse_document]
      rfl
    · rw [GlobalArgs.output, if_neg (by simp [htable])] at hout
      obtain ⟨code, -, rfl⟩ := Option.map_eq_some_iff.mp hout
      refine ⟨_, rfl, fun r hr => ?_, (hc.table hys).2⟩
      obtain ⟨hthread, mad, hrow⟩ := row_of_mem hr
      exact ⟨hthread, row_agrees (hc.finalized _) hrow⟩
  · by_cases hjson : args.json = true
    · refine ⟨.json (print_json args.toArgs (indexed (result h))),
        (main_returns_zero_iff hp h _).mpr ⟨hc, ?_⟩⟩
      rw [GlobalArgs.output, if_pos hjson]
    · obtain ⟨code, hcode⟩ := Option.ne_none_iff_exists'.mp (hc.table hys).1
      refine ⟨.table (pp_results args.toArgs (indexed (result h)) ys).rows,
        (main_returns_zero_iff hp h _).mpr ⟨hc, ?_⟩⟩
      simp only [GlobalArgs.output, if_neg hjson, hcode, Option.map_some]

/-- The readings of a run with `--null -n 2`: one pair for each thread. -/
def nullHistory : List Event :=
  readings false 0 [(0x100000005, 0x100000064)] ++ readings true 0 [(7, 9)]

/-- Its table has a row for each thread. -/
theorem main_output_null : ∃ rows,
    main_returns ["--null", "-n", "2", "--khz", "1000000"] [] ⟨.noent, .eof, .eof⟩
      (fun _ => some [0]) nullHistory 0 (.table rows) ∧ rows.map Row.thread = [0, 1] := by
  have hargs : parse_args ["--null", "-n", "2", "--khz", "1000000"] = .ok { GlobalArgs.zero with
      n := 2, k := 1000, method := none, tsc_khz := 1000000 } := by decide
  have hp : params ["--null", "-n", "2", "--khz", "1000000"] [] ⟨.noent, .eof, .eof⟩ =
      some (.ok { GlobalArgs.zero with
        n := 2, k := 1000, method := none, tsc_khz := 1000000
        mult := (clocks_calc_mult_shift 1000000 1000000 0).1
        shift := (clocks_calc_mult_shift 1000000 1000000 0).2 }) := by
    simp [params, hargs, ask]
  obtain ⟨hshown, hreturns⟩ :=
    @main_output_iff _ _ _ (fun _ => some [0]) _ hp (by simp) nullHistory
  obtain ⟨out, hout⟩ := hreturns (by
    intro w
    cases w
    · exact ⟨[(0x100000005, 0x100000064)], rfl, rfl⟩
    · exact ⟨[(7, 9)], rfl, rfl⟩)
  obtain ⟨rows, rfl, -, hrows⟩ := (hshown out hout).2.2.table rfl
  exact ⟨rows, hout, hrows (by simp) (by simp)⟩

end Osjitter.Pingpong
