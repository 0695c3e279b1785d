/-
Osjitter.Jitter.Program — what `osjitter` prints is what `worker_main`
computes, in every interleaving.

  §1 `Recorded`: a thread where it stands, by the readings of the TSC that it
     has taken (`taken_by`). It is at a loop head of `Jitter.Bookkeeping`, and
     its stores end in what the function `worker_main` of `WorkerMain` makes of
     the readings. `Recorded.step` is the step lemma: the thread alone moves it.
  §2 The rows of a run. `Faithful` joins the handshake to `Recorded` for all
     threads, and holds of every run (`faithful_of_run`). So a row is printed of
     a thread that has returned, and what it reads is the result of
     `worker_main` (`worker_of_run`, `row_of_run`). With the array sorted
     (`worker_main_sorted`), the columns of a row ascend exactly where no sum
     wraps (`row_ascend_of_run`).

Here the per-function results about the measurement become results about the
program. Which rows there are is in `Jitter.Report`.
-/
import Mathlib
import Osjitter.Jitter.Bookkeeping
import Osjitter.Jitter.HandshakeTheorems

namespace Osjitter.Jitter

open Machines Util

/-! ## §1 Readings

The history of a run shows every reading with the thread that has taken it. What
a thread has computed at any point of its code is a function of its own readings
(`Recorded`), although the steps of the others come in between. -/

/-- The reading that an event shows, if it is one of the thread of `cpu`. -/
def Event.reading (cpu : Nat) : Event → Option UInt64
  | .tsc k t => if k = cpu then some t else none
  | _ => none

/-- The readings that the thread of `cpu` has taken. -/
def taken_by (cpu : Nat) (h : List Event) : List UInt64 :=
  h.filterMap (Event.reading cpu)

@[simp] theorem taken_by_nil (cpu : Nat) : taken_by cpu [] = [] := rfl

@[simp] theorem taken_by_append (cpu : Nat) (h es : List Event) :
    taken_by cpu (h ++ es) = taken_by cpu h ++ taken_by cpu es :=
  List.filterMap_append

/-- Events of other threads show no reading of this one. -/
theorem taken_by_eq_nil {cpu : Nat} {es : List Event}
    (h : ∀ e ∈ es, e.thread ≠ some cpu) : taken_by cpu es = [] := by
  rw [taken_by, List.filterMap_eq_nil_iff]
  intro e he
  have hthread := h e he
  cases e with
  | tsc k t =>
    have hk : k ≠ cpu := by
      rintro rfl
      exact hthread rfl
    simp [Event.reading, hk]
  | _ => rfl

/-- What a thread has made of the readings `ts`. -/
def Recorded (args : Args) (ts : List UInt64) (w : Worker) : WorkerCtl → Prop
  | .absent => ts = []
  | .calloc => ts = []
  | .start_work => ts = []
  | .start => ts = []
  | .unrolled start m =>
      ∃ h, ts = start :: readings h ∧ AtHead args start .unrolled h m
  | .loop start m => ∃ h, ts = start :: readings h ∧ AtHead args start .loop h m
  | .quit_thread start m =>
      ∃ us, ts = start :: us ∧ measure args start us = some m
  | .store todo =>
      ∃ start us, ts = start :: us ∧
        worker_main args start us = some (todo.foldl Store.apply w)
  | .ret nonnull => nonnull = true →
      ∃ start us, ts = start :: us ∧ worker_main args start us = some w
  | .done nonnull => nonnull = true →
      ∃ start us, ts = start :: us ∧ worker_main args start us = some w

/-- **A step of a thread** records its reading. -/
theorem Recorded.step {args : Args} {cpu : Nat} {start_work quit_thread : Bool}
    {w w' : Worker} {c : Choice} {ctl ctl' : WorkerCtl} {es : List Event}
    {ts : List UInt64} (hrec : Recorded args ts w ctl)
    (h : worker_main_step args cpu start_work quit_thread w c ctl =
      some (ctl', w', es)) :
    Recorded args (ts ++ taken_by cpu es) w' ctl' := by
  cases ctl with
  | absent => cases h
  | calloc =>
    simp only [worker_main_step] at h
    split at h
    · cases h
      intro hfalse
      cases hfalse
    · cases h
      simpa [Recorded] using hrec
  | start_work =>
    cases h
    cases start_work <;> simpa [Recorded] using hrec
  | start =>
    cases h
    subst hrec
    exact ⟨[], by simp [taken_by, Event.reading, readings], .start⟩
  | unrolled start m =>
    obtain ⟨is, rfl, hat⟩ := hrec
    simp only [worker_main_step] at h
    split at h
    · next hlt =>
      cases h
      exact ⟨_, by simp [taken_by, Event.reading], hat.unrolled c.tsc hlt⟩
    · next hge =>
      cases h
      exact ⟨is, by simp, hat.skipped hge⟩
  | loop start m =>
    obtain ⟨is, rfl, hat⟩ := hrec
    simp only [worker_main_step] at h
    split at h
    · next hlt =>
      cases h
      exact ⟨_, by simp [taken_by, Event.reading], hat.again c.tsc hlt⟩
    · next hge =>
      cases h
      exact ⟨readings is,
        by simp, measure_eq_some_iff.mpr ⟨is, hat, hge, List.prefix_rfl⟩⟩
  | quit_thread start m =>
    cases h
    cases quit_thread with
    | false => simpa [Recorded] using hrec
    -- the stores leave what `publish` computes at once
    | true =>
      obtain ⟨us, rfl, hm⟩ := hrec
      exact ⟨start, us, by simp, by rw [foldl_stores, worker_main, hm, Option.map_some]⟩
  | store todo =>
    obtain ⟨start, us, rfl, hm⟩ := hrec
    cases todo with
    | nil =>
      cases h
      exact fun _ => ⟨start, us, by simp, hm⟩
    | cons f todo =>
      cases h
      exact ⟨start, us, by simp [taken_by, Event.reading], hm⟩
  | ret nonnull =>
    cases h
    have hnone : taken_by cpu [.returned cpu nonnull] = [] := rfl
    rw [hnone, List.append_nil]
    exact hrec
  | done nonnull => cases h

/-! ## §2 Rows

`Faithful` puts the invariant of the handshake together with what has been
recorded and printed, and holds in every state of every run. A row is printed
from the fields of a `Worker` that is not stored to any more, so it is the row
of the readings. -/

/-- The invariant of the program, with what it has recorded and printed. -/
structure Faithful (args : GlobalArgs) (h : List Event) (s : State) : Prop where
  inv : Inv args h s
  legal : Legal (Allowed args) h
  recorded : ∀ cpu,
    Recorded args.toArgs (taken_by cpu h) (s.ws cpu).toWorker (s.workers cpu)
  rows : RowsOf args s h

section program

variable {args : GlobalArgs} {h es : List Event} {s t : State} {cpu : Nat}
    {c : Choice}

/-- The stage of a thread that is done determines where it stands. -/
theorem done_of_stage {b : Bool} (h : s.stage cpu = .done b) :
    s.workers cpu = .done b := by
  unfold State.stage at h
  cases hctl : s.workers cpu <;> simp_all [WorkerCtl.stage]

/-- A thread whose row is printed is done. -/
theorem Faithful.done_of_row (hf : Faithful args h s) {r : Row}
    (hrow : .row cpu r ∈ h) : s.workers cpu = .done true :=
  done_of_stage (((hf.inv.threads cpu).returned true).mp
    (printing_of_row hf.legal hrow).2)

/-- Nothing is recorded before the first step. -/
theorem faithful_init (args : GlobalArgs) :
    Faithful args [] (osjitter args).init where
  inv := inv_init args
  legal := trivial
  recorded _ := rfl
  rows := nofun

/-- A step of a thread keeps it. -/
theorem Faithful.worker (hf : Faithful args h s)
    (hstep : s.worker_step args cpu c = some (t, es)) :
    Faithful args (h ++ es) t := by
  obtain ⟨hinv, hlegal⟩ := hf.inv.worker hstep
  have hthread := (worker_step_stages hstep).moves.thread
  obtain ⟨ctl, w, hmain, rfl⟩ := worker_step_eq hstep
  refine ⟨hinv, hf.legal.append (by simpa using hlegal),
    fun k => ?_, fun k r hrow => ?_⟩
  · by_cases hk : k = cpu
    · subst hk
      simpa using (hf.recorded k).step hmain
    · have hnone : taken_by k es = [] := by
        refine taken_by_eq_nil fun e he heq => hk ?_
        rw [hthread e he] at heq
        exact (Option.some.inj heq).symm
      simpa [hnone, Function.update_of_ne hk] using hf.recorded k
  · have hbefore : .row k r ∈ h := by
      rcases List.mem_append.mp hrow with hmem | hmem
      · exact hmem
      · cases hthread _ hmem
    -- the thread of a printed row does not step any more
    have hk : k ≠ cpu := by
      rintro rfl
      rw [hf.done_of_row hbefore] at hmain
      cases hmain
    simpa [Function.update_of_ne hk] using hf.rows k r hbefore

/-- A step of `main` keeps it. -/
theorem Faithful.main (hf : Faithful args h s)
    (hstep : s.main_step args c = some (t, es)) :
    Faithful args (h ++ es) t := by
  obtain ⟨hinv, hlegal, hsilent, hfields, hthreads, hrows⟩ :=
    hf.inv.main_step t es hstep
  refine ⟨hinv, hf.legal.append (by simpa using hlegal),
    fun k => ?_, fun k r hrow => ?_⟩
  · have hnone : taken_by k es = [] := by
      rw [taken_by, List.filterMap_eq_nil_iff]
      intro e he
      cases e with
      | tsc k' u => exact absurd rfl (hsilent _ he k' u)
      | _ => rfl
    have hrec := hf.recorded k
    rw [taken_by_append, hnone, List.append_nil, hfields k]
    rcases hthreads k with heq | ⟨habsent, hcalloc⟩
    · rwa [heq]
    · rw [habsent] at hrec
      rw [hcalloc]
      exact hrec
  · rw [hfields k]
    rcases List.mem_append.mp hrow with hmem | hmem
    · exact hf.rows k r hmem
    · exact hrows k r hmem

end program

/-- It holds in every run, whatever calls fail. -/
theorem faithful_of_run {args : GlobalArgs} {ok : State → Label → Prop}
    {h : List Event} {s : State} (hrun : Run (osjitter args) ok h s) :
    Faithful args h s := by
  refine Steps.history_invariant ?_ hrun (faithful_init args)
  intro h s a t es hf _ hstep
  cases a with
  | main c => exact hf.main hstep
  | worker cpu c => exact hf.worker hstep

/-- **What a thread returns** is the `Worker` that `worker_main` computes from
the readings it has taken, in every interleaving. -/
theorem worker_of_run {args : GlobalArgs} {ok : State → Label → Prop}
    {h : List Event} {s : State} (hrun : Run (osjitter args) ok h s) {cpu : Nat}
    (hret : .returned cpu true ∈ h) :
    ∃ start ts, taken_by cpu h = start :: ts ∧
      worker_main args.toArgs start ts = some (s.ws cpu).toWorker := by
  have hf := faithful_of_run hrun
  have hrec := hf.recorded cpu
  rw [done_of_stage (((hf.inv.threads cpu).returned true).mp hret)] at hrec
  exact hrec rfl

/-- **What is printed** is the row of that `Worker`. -/
theorem row_of_run {args : GlobalArgs} {ok : State → Label → Prop}
    {h : List Event} {s : State} (hrun : Run (osjitter args) ok h s)
    {cpu : Nat} {r : Row} (hrow : .row cpu r ∈ h) :
    ∃ start ts w invol_switch ys, taken_by cpu h = start :: ts ∧
      worker_main args.toArgs start ts = some w ∧
        row args cpu w invol_switch ys = some r := by
  have hf := faithful_of_run hrun
  obtain ⟨start, ts, htaken, hw⟩ :=
    worker_of_run hrun (printing_of_row hf.legal hrow).2
  obtain ⟨invol_switch, ys, hr⟩ := hf.rows cpu r hrow
  exact ⟨start, ts, _, invol_switch, ys, htaken, hw, hr⟩

/-- The array keeps its length. -/
theorem AtHead.length {args : Args} {start : UInt64} {head : Head}
    {is : List Iteration} {m : Locals} (hat : AtHead args start head is m) :
    m.ds.length = args.n := by
  have haccount : ∀ (t delta : UInt64) (m : Locals),
      (account args t delta m).ds.length = m.ds.length := by
    intro t delta m
    rw [account_ds]
    cases m.slot args delta <;> simp
  induction hat with
  | start => simp [Args.locals]
  | skipped hat hge ih => exact ih
  | unrolled t hat hlt ih => exact (haccount ..).trans ih
  | again t hat hlt ih => exact (haccount ..).trans ih

/-- What `worker_main` returns is sorted, and inside its array. -/
theorem worker_main_sorted {args : Args} {start : UInt64} {ts : List UInt64}
    {w : Worker} (h : worker_main args start ts = some w) :
    w.Sorted ∧ w.samples ≤ args.n := by
  obtain ⟨m, hm, rfl⟩ := Option.map_eq_some_iff.mp h
  obtain ⟨is, hat, -⟩ := measure_eq_some_iff.mp hm
  refine ⟨publish_sorted hat.length start, ?_⟩
  simp only [publish]
  split <;> omega

/-- **The printed percentiles** ascend in every run, up to the mean that
wraps. -/
theorem row_ascend_of_run {args : GlobalArgs} {ok : State → Label → Prop}
    {h : List Event} {s : State} (hrun : Run (osjitter args) ok h s)
    (hfit : args.samples.toNat * 999 < 2 ^ 64) {cpu : Nat} {r : Row}
    (hrow : .row cpu r ∈ h) :
    ∃ start ts w, taken_by cpu h = start :: ts ∧
      worker_main args.toArgs start ts = some w ∧
      (Ascend r.toPercentiles r.max_ns ↔
        KeepsRow (Scale.scaled · args.mult.toNat args.shift.toNat) w.recorded) := by
  obtain ⟨start, ts, w, invol_switch, ys, htaken, hw, hr⟩ :=
    row_of_run hrun hrow
  obtain ⟨hsorted, hle⟩ := worker_main_sorted hw
  have hfit' : w.samples * 999 < 2 ^ 64 :=
    (Nat.mul_le_mul_right 999 hle).trans_lt hfit
  exact ⟨start, ts, w, htaken, hw, row_ascend_iff hsorted hfit' hr⟩

end Osjitter.Jitter
