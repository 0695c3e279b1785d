/-
Osjitter.Jitter.Report — the tables that `osjitter` can print.

  §1 `Reporting`: where `main` stands, what it has printed and read. A run that
     returns 0 has printed one row for each selected CPU, in ascending order,
     each of the readings of its own thread (`RowFor`) and of a counter that was
     found. There is one lemma for each loop of `main`, and `reporting_of_run`
     is the run lemma.
  §2 `Solo`: what one thread can do while the others stand still. `NoFail` are
     the steps without a failing call, and `Prints` a run of such steps with its
     rows. `Alone.measures` takes a thread through a measurement, and
     `Alone.publishes` through its stores to its return.
  §3 The run in which every thread takes the readings it is given and no call
     fails: all of them one after the other (`all_alone`), and the loops of
     `main` between (`prints_create_workers` to `prints_pp_results`).
  §4 The tables. A `Script` is what a thread is to read, and `run_of_scripts`
     the run that follows it; `run_of_table` finds scripts for rows.
     `table_iff`: the tables of §1 are all that can be printed, and each of them
     is, without a failing call.

How the rows look as a text is in `Jitter.TableText`.
-/
import Mathlib
import Osjitter.Jitter.Program

namespace Osjitter.Jitter

open Machines Util

/-! ## §1 What a run has printed

The rows of a history are its table. `RowFor` is what a row has to be, of the
readings of the thread and the text of its file, and `Reporting` the invariant:
the table consists of rows for the selected CPUs that `pp_results` has passed,
in their order. It stops short of some only if the program has failed. -/

/-- Those of `cpus` that a loop of `main` does not pass over. -/
def GlobalArgs.chosen (args : GlobalArgs) (cpus : List Nat) : List Nat :=
  cpus.filter fun cpu => CPU_ISSET cpu args.cpu_set

/-- The CPUs that have a thread, in the order of the loops. -/
def GlobalArgs.selected (args : GlobalArgs) : List Nat :=
  args.chosen args.all_cpus

/-- A CPU is chosen if it is in the set. -/
theorem chosen_cons (args : GlobalArgs) (cpu : Nat) (cpus : List Nat) :
    args.chosen (cpu :: cpus) =
      if CPU_ISSET cpu args.cpu_set then cpu :: args.chosen cpus
        else args.chosen cpus :=
  List.filter_cons

/-- The same, as the handshake has it. -/
theorem mem_selected {args : GlobalArgs} {cpu : Nat} :
    cpu ∈ args.selected ↔ Selected args cpu := List.mem_filter

/-- The row that an event shows. -/
def Event.printed : Event → Option (Nat × Row)
  | .row cpu r => some (cpu, r)
  | _ => none

/-- The rows printed, each with its CPU. -/
def table (h : List Event) : List (Nat × Row) := h.filterMap Event.printed

@[simp] theorem table_nil : table [] = [] := rfl

@[simp] theorem table_append (h es : List Event) :
    table (h ++ es) = table h ++ table es :=
  List.filterMap_append

/-- A row is in the table if it was printed. -/
theorem mem_table {h : List Event} {cpu : Nat} {r : Row} :
    (cpu, r) ∈ table h ↔ .row cpu r ∈ h := by
  rw [table, List.mem_filterMap]
  constructor
  · rintro ⟨e, he, hprinted⟩
    cases e with
    | row k r' =>
      cases hprinted
      exact he
    | _ => cases hprinted
  · exact fun h => ⟨_, h, rfl⟩

/-- A worker prints nothing. -/
theorem table_eq_nil {es : List Event} (h : ∀ e ∈ es, e.thread ≠ none) :
    table es = [] := by
  rw [table, List.filterMap_eq_nil_iff]
  intro e he
  have hthread := h e he
  cases e with
  | row => exact absurd rfl hthread
  | _ => rfl

/-- A row of the readings `ts`, with the counter of some file. -/
def RowFor (args : GlobalArgs) (cpu : Nat) (ts : List UInt64)
    (r : Row) : Prop :=
  ∃ start us w text n ys, ts = start :: us ∧
    worker_main args.toArgs start us = some w ∧
    counter text = some n ∧ row args cpu w (UInt64.ofInt n) ys = some r

/-- The counter of a CPU is that of a file. -/
def Switches (s : State) (cpu : Nat) : Prop :=
  ∃ text n, counter text = some n ∧ (s.ws cpu).invol_switch = UInt64.ofInt n

/-- What `main` has read and printed where it stands. -/
def Printing (args : GlobalArgs) (h : List Event) (s : State) : Prop :=
  match s.main with
  | .create_workers _ => table h = []
  | .start_work => table h = []
  | .nanosleep => table h = []
  | .read_proc_sched cpus => table h = [] ∧ Passed args cpus (Switches s)
  | .quit_thread => table h = [] ∧ ∀ cpu, Selected args cpu → Switches s cpu
  | .join_workers _ _ =>
    table h = [] ∧ ∀ cpu, Selected args cpu → Switches s cpu
  | .pp_results cpus =>
      (∀ cpu, Selected args cpu → Switches s cpu) ∧
        (table h).map Prod.fst ++ args.chosen cpus = args.selected
  | .ret code => code = 0 → (table h).map Prod.fst = args.selected
  | .abort => True

/-- Where `main` returns 1, nothing is said of its table. -/
theorem printing_failed {args : GlobalArgs} {h : List Event} {s : State}
    (hs : s.main = .ret 1) : Printing args h s := by
  simp [Printing, hs]

/-- The invariant of a run, with its table. -/
structure Reporting (args : GlobalArgs) (h : List Event)
    (s : State) : Prop where
  faithful : Faithful args h s
  printing : Printing args h s
  rows : ∀ p ∈ table h, RowFor args p.1 (taken_by p.1 h) p.2

/-- Where `read_proc_sched` returns 0, it has found a counter. -/
theorem invol_switch_read_proc_sched {file : SchedFile} {w w' : SchedWorker}
    (h : read_proc_sched file w = some (0, w')) :
    ∃ text n, counter text = some n ∧ w'.invol_switch = UInt64.ofInt n := by
  cases file with
  | open_fails => cases h
  | read_fails => cases h
  | contents text close_fails =>
    rw [read_proc_sched_contents] at h
    cases hn : counter text with
    | none =>
      rw [hn] at h
      cases h
    | some n =>
      rw [hn] at h
      obtain ⟨-, rfl⟩ := Prod.mk.inj (Option.some.inj h)
      exact ⟨text, n, hn, rfl⟩

section reporting

variable {args : GlobalArgs} {h es : List Event} {s t : State} {cpu : Nat}
    {c : Choice}

/-- Before the first step nothing is printed. -/
theorem reporting_init (args : GlobalArgs) :
    Reporting args [] (osjitter args).init where
  faithful := faithful_init args
  printing := rfl
  rows := nofun

/-- `main` and the counters are left alone by the steps of the threads. -/
theorem Printing.frame (hp : Printing args h s) (hmain : t.main = s.main)
    (hws : ∀ k, (t.ws k).invol_switch = (s.ws k).invol_switch)
    (htable : table es = []) : Printing args (h ++ es) t := by
  have hkeep : ∀ k, Switches s k → Switches t k := by
    rintro k ⟨text, n, hn, hk⟩
    exact ⟨text, n, hn, (hws k).trans hk⟩
  unfold Printing at hp ⊢
  rw [hmain, table_append, htable, List.append_nil]
  split at hp
  · exact hp
  · exact hp
  · exact hp
  · exact ⟨hp.1, hp.2.mono hkeep⟩
  · exact ⟨hp.1, fun k hk => hkeep k (hp.2 k hk)⟩
  · exact ⟨hp.1, fun k hk => hkeep k (hp.2 k hk)⟩
  · exact ⟨fun k hk => hkeep k (hp.1 k hk), hp.2⟩
  · exact hp
  · trivial

/-- A step of a worker keeps it. -/
theorem Reporting.worker (hr : Reporting args h s)
    (hstep : s.worker_step args cpu c = some (t, es)) :
    Reporting args (h ++ es) t := by
  have hthread := (worker_step_stages hstep).moves.thread
  have htable : table es = [] := table_eq_nil fun e he hnone => by
    rw [hthread e he] at hnone
    cases hnone
  have hfaithful := hr.faithful.worker hstep
  obtain ⟨ctl, w, hmain, rfl⟩ := worker_step_eq hstep
  refine ⟨hfaithful, hr.printing.frame rfl (fun k => ?_) htable, fun p hp => ?_⟩
  · by_cases hk : k = cpu
    · subst hk
      simp
    · simp [Function.update_of_ne hk]
  · rw [table_append, htable, List.append_nil] at hp
    -- the thread of a printed row is done
    have hne : p.1 ≠ cpu := by
      rintro rfl
      rw [hr.faithful.done_of_row (mem_table.mp hp)] at hmain
      cases hmain
    have hnone : taken_by p.1 es = [] := by
      refine taken_by_eq_nil fun e he heq => hne ?_
      rw [hthread e he] at heq
      exact (Option.some.inj heq).symm
    rw [taken_by_append, hnone, List.append_nil]
    exact hr.rows p hp

/-- A row that `main` prints. -/
theorem Reporting.row_of_turn (hr : Reporting args h s)
    {cpus : List Nat} {r : Row} (hs : s.main = .pp_results (cpu :: cpus))
    (hturn : row_turn args (fun k => (s.ws k).toWorker) (fun k => (s.ws k).invol_switch)
      (fun _ => c.ys) cpu = .row r) :
    CPU_ISSET cpu args.cpu_set = true ∧ RowFor args cpu (taken_by cpu h) r := by
  have hset : CPU_ISSET cpu args.cpu_set = true := by
    by_contra hset
    simp [row_turn, hset] at hturn
  have hmain := hr.faithful.inv.main
  have hprinting := hr.printing
  simp only [MainOk, hs] at hmain
  simp only [Printing, hs] at hprinting
  have hsel := hmain.2.selected hset
  obtain ⟨text, n, hn, hswitch⟩ := hprinting.1 cpu hsel
  obtain ⟨ys, hrow⟩ := Jitter.row_of_turn hturn
  have hrec := hr.faithful.recorded cpu
  rw [done_of_stage (hr.faithful.inv.printing hmain.1 cpu hsel)] at hrec
  obtain ⟨start, us, htaken, hw⟩ := hrec rfl
  rw [hswitch] at hrow
  exact ⟨hset, start, us, _, text, n, ys, htaken, hw, hn, hrow⟩

/-- A step of `main` that prints nothing. -/
theorem Reporting.of_main (hr : Reporting args h s)
    (hstep : s.main_step args c = some (t, es)) (htable : table es = [])
    (hprinting : Printing args h t) : Reporting args (h ++ es) t := by
  have hsilent := (hr.faithful.inv.main_step t es hstep).overheard.silent
  refine ⟨hr.faithful.main hstep, ?_, fun p hp => ?_⟩
  · unfold Printing at hprinting ⊢
    rw [table_append, htable, List.append_nil]
    exact hprinting
  · have hnone : taken_by p.1 es = [] := by
      rw [taken_by, List.filterMap_eq_nil_iff]
      intro e he
      cases e with
      | tsc k u => exact absurd rfl (hsilent _ he k u)
      | _ => rfl
    rw [table_append, htable, List.append_nil] at hp
    rw [taken_by_append, hnone, List.append_nil]
    exact hr.rows p hp

/-- No row is printed while threads are created. -/
theorem Reporting.create_workers_step (hr : Reporting args h s)
    {cpus : List Nat} (hs : s.main = .create_workers cpus)
    (hstep : s.main_step args c = some (t, es)) :
    Reporting args (h ++ es) t := by
  have hprinting := hr.printing
  simp only [Printing, hs] at hprinting
  have hret := hr.of_main hstep
  cases cpus with
  | nil =>
    simp only [State.main_step, hs] at hstep
    cases hstep
    exact hret rfl hprinting
  | cons cpu cpus =>
    simp only [State.main_step, hs] at hstep
    split at hstep
    · split at hstep
      · cases hstep
        exact hret rfl (printing_failed rfl)
      · cases hstep
        exact hret rfl (printing_failed rfl)
      · cases hstep
        exact hret rfl hprinting
    · cases hstep
      exact hret rfl hprinting

/-- A step at a file keeps what the file says for the row. -/
theorem Reporting.read_proc_sched_step (hr : Reporting args h s)
    {cpus : List Nat} (hs : s.main = .read_proc_sched cpus)
    (hstep : s.main_step args c = some (t, es)) :
    Reporting args (h ++ es) t := by
  obtain ⟨htable, hpassed⟩ : table h = [] ∧ Passed args cpus (Switches s) := by
    simpa only [Printing, hs] using hr.printing
  have hret := hr.of_main hstep
  cases cpus with
  | nil =>
    simp only [State.main_step, hs] at hstep
    cases hstep
    exact hret rfl ⟨htable, hpassed.leave⟩
  | cons cpu cpus =>
    simp only [State.main_step, hs] at hstep
    split at hstep
    · obtain ⟨⟨r, w⟩, hread, heq⟩ := Option.map_eq_some_iff.mp hstep
      obtain ⟨rfl, rfl⟩ := Prod.mk.inj heq
      refine hret rfl ?_
      by_cases hr0 : r = 0
      · obtain ⟨text, n, hn, hw⟩ := invol_switch_read_proc_sched (hr0 ▸ hread)
        have hself : Switches { s.goto (.read_proc_sched cpus) with
            ws := Function.update s.ws cpu w } cpu :=
              ⟨text, n, hn, by simpa using hw⟩
        simp only [State.goto, hr0, if_true]
        refine ⟨htable, (hpassed.mono fun k hk => ?_).next fun _ => hself⟩
        by_cases hkc : k = cpu
        · rw [hkc]
          exact hself
        · simpa [Switches, Function.update_of_ne hkc] using hk
      · exact printing_failed (if_neg hr0)
    · next hset =>
      cases hstep
      exact hret rfl ⟨htable, hpassed.next fun h => absurd h hset⟩

/-- No row is printed while threads are joined. -/
theorem Reporting.join_workers_step (hr : Reporting args h s) {cpus : List Nat}
    {error_in_thread : Bool} (hs : s.main = .join_workers cpus error_in_thread)
    (hstep : s.main_step args c = some (t, es)) :
    Reporting args (h ++ es) t := by
  obtain ⟨htable, hall⟩ : table h = [] ∧ ∀ cpu, Selected args cpu →
      Switches s cpu := by
    simpa only [Printing, hs] using hr.printing
  have hret := hr.of_main hstep
  cases cpus with
  | nil =>
    simp only [State.main_step, hs] at hstep
    split at hstep
    · cases hstep
      exact hret rfl (printing_failed rfl)
    · cases hstep
      exact hret rfl ⟨hall, by rw [htable]; rfl⟩
  | cons cpu cpus =>
    simp only [State.main_step, hs] at hstep
    split at hstep
    · split at hstep
      · cases hstep
        exact hret rfl (printing_failed rfl)
      · split at hstep
        · cases hstep
          exact hret rfl ⟨htable, hall⟩
        · cases hstep
    · cases hstep
      exact hret rfl ⟨htable, hall⟩

/-- A row is printed, left out, or the program ends. -/
theorem Reporting.pp_results_step (hr : Reporting args h s) {cpus : List Nat}
    (hs : s.main = .pp_results cpus)
    (hstep : s.main_step args c = some (t, es)) :
    Reporting args (h ++ es) t := by
  obtain ⟨hall, hrows⟩ : (∀ cpu, Selected args cpu → Switches s cpu) ∧
      (table h).map Prod.fst ++ args.chosen cpus = args.selected := by
    simpa only [Printing, hs] using hr.printing
  have hret := hr.of_main hstep
  have hfaithful := hr.faithful.main hstep
  cases cpus with
  | nil =>
    simp only [State.main_step, hs] at hstep
    cases hstep
    exact hret rfl fun _ => by simpa [GlobalArgs.chosen] using hrows
  | cons cpu cpus =>
    simp only [State.main_step, hs] at hstep
    split at hstep
    · next r hturn =>
      obtain ⟨hset, hrow⟩ := hr.row_of_turn hs hturn
      cases hstep
      have htable : table [.fields cpu, .row cpu r] = [(cpu, r)] := rfl
      have hnone : ∀ k, taken_by k [.fields cpu, .row cpu r] = [] :=
        fun _ => rfl
      refine ⟨hfaithful, ⟨hall, ?_⟩, fun p hp => ?_⟩
      · rw [chosen_cons, if_pos hset] at hrows
        simpa [htable] using hrows
      · rw [taken_by_append, hnone, List.append_nil]
        rw [table_append, htable, List.mem_append, List.mem_singleton] at hp
        rcases hp with hp | rfl
        · exact hr.rows p hp
        · exact hrow
    · next hturn =>
      have hset : ¬ CPU_ISSET cpu args.cpu_set = true := by
        intro hset
        simp only [row_turn, if_pos hset] at hturn
        split at hturn
        · cases hturn
        · split at hturn <;> cases hturn
      cases hstep
      exact hret rfl ⟨hall, by rwa [chosen_cons, if_neg hset] at hrows⟩
    · cases hstep
      exact hret rfl (printing_failed rfl)
    · cases hstep
      exact hret rfl trivial

/-- A step of `main` keeps it. -/
theorem Reporting.main (hr : Reporting args h s)
    (hstep : s.main_step args c = some (t, es)) :
    Reporting args (h ++ es) t := by
  have hprinting := hr.printing
  have hret := hr.of_main hstep
  cases hs : s.main with
  | create_workers cpus => exact hr.create_workers_step hs hstep
  | start_work =>
    simp only [Printing, hs] at hprinting
    simp only [State.main_step, hs] at hstep
    cases hstep
    exact hret rfl hprinting
  | nanosleep =>
    simp only [Printing, hs] at hprinting
    simp only [State.main_step, hs] at hstep
    split at hstep
    · cases hstep
      exact hret rfl (printing_failed rfl)
    · cases hstep
      exact hret rfl ⟨hprinting, Passed.enter args _⟩
  | read_proc_sched cpus => exact hr.read_proc_sched_step hs hstep
  | quit_thread =>
    simp only [Printing, hs] at hprinting
    simp only [State.main_step, hs] at hstep
    cases hstep
    exact hret rfl hprinting
  | join_workers cpus error_in_thread => exact hr.join_workers_step hs hstep
  | pp_results cpus => exact hr.pp_results_step hs hstep
  | ret code =>
    simp only [State.main_step, hs] at hstep
    cases hstep
  | abort =>
    simp only [State.main_step, hs] at hstep
    cases hstep

end reporting

/-- The invariant holds in every run, whatever calls fail. -/
theorem reporting_of_run {args : GlobalArgs} {ok : State → Label → Prop}
    {h : List Event} {s : State} (hrun : Run (osjitter args) ok h s) :
    Reporting args h s := by
  refine Steps.history_invariant ?_ hrun (reporting_init args)
  intro h s a t es hr _ hstep
  cases a with
  | main c => exact hr.main hstep
  | worker cpu c => exact hr.worker hstep

/-! ## §2 A thread alone

For the other direction a run is built that prints a given table. It lets one
thread work alone from its start to where it waits, and then the next. `Alone`
is such a part of the run, with what it leaves alone; it shows the readings that
are asked for, since a reading is part of the step. -/

/-- No call of the step fails, and `/proc/…/sched` holds a counter. -/
def NoFail (s : State) : Label → Prop
  | .worker _ c => c.fails = false
  | .main c =>
      match s.main with
      | .create_workers _ => c.create = .ok
      | .read_proc_sched _ =>
        ∃ text, c.file = .contents text false ∧ counter text ≠ none
      | .pp_results (cpu :: _) =>
        ∃ ys, c.ys = some ys ∧ (s.ws cpu).samples ≤ ys.length
      | _ => c.fails = false

/-- A run without failures that prints the rows `rs`. -/
def Prints (args : GlobalArgs) (s : State) (rs : List (Nat × Row))
    (t : State) : Prop :=
  ∃ es, Steps (osjitter args) NoFail s es t ∧ table es = rs

section prints

variable {args : GlobalArgs} {s t u : State} {rs rs' : List (Nat × Row)}

/-- Nothing is printed by no steps. -/
theorem Prints.refl : Prints args s [] s := ⟨[], .refl, rfl⟩

/-- What is printed by steps after steps. -/
theorem Prints.trans (hst : Prints args s rs t) (htu : Prints args t rs' u) :
    Prints args s (rs ++ rs') u := by
  obtain ⟨es, hes, rfl⟩ := hst
  obtain ⟨fs, hfs, rfl⟩ := htu
  exact ⟨_, hes.trans hfs, table_append es fs⟩

/-- A step of `main` prints the rows that it shows. -/
theorem Prints.main {c : Choice} {es : List Event} (hok : NoFail s (.main c))
    (hstep : s.main_step args c = some (t, es)) : Prints args s (table es) t :=
  ⟨es, .single hok hstep, rfl⟩

/-- A step of `main` that shows none. -/
theorem Prints.quiet {c : Choice} {es : List Event} (hok : NoFail s (.main c))
    (hstep : s.main_step args c = some (t, es)) (hes : table es = []) :
    Prints args s [] t :=
  ⟨es, .single hok hstep, hes⟩

end prints

/-- Where the thread stands at the head of a loop. -/
def Head.ctl (start : UInt64) (m : Locals) : Head → WorkerCtl
  | .unrolled => .unrolled start m
  | .loop => .loop start m

/-- The thread of `cpu` alone goes from `s` to `t`. There it stands at `ctl` and
has stored `w`. -/
structure Solo (args : GlobalArgs) (cpu : Nat) (s : State) (ctl : WorkerCtl)
    (w : Worker) (t : State) : Prop where
  prints : Prints args s [] t
  ctl : t.workers cpu = ctl
  fields : t.ws cpu = { s.ws cpu with toWorker := w }
  main : t.main = s.main
  start_work : t.start_work = s.start_work
  quit_thread : t.quit_thread = s.quit_thread
  others : ∀ k, k ≠ cpu → t.workers k = s.workers k ∧ t.ws k = s.ws k

/-- The thread of `cpu` can go to `ctl` alone. -/
def Alone (args : GlobalArgs) (cpu : Nat) (s : State) (ctl : WorkerCtl)
    (w : Worker) : Prop :=
  ∃ t, Solo args cpu s ctl w t

section alone

variable {args : GlobalArgs} {cpu : Nat} {s : State} {ctl : WorkerCtl}
    {w : Worker}

/-- The thread has made no step. -/
theorem Alone.refl (hctl : s.workers cpu = ctl) :
    Alone args cpu s ctl (s.ws cpu).toWorker :=
  ⟨s, .refl, hctl, rfl, rfl, rfl, rfl, fun _ _ => ⟨rfl, rfl⟩⟩

/-- The thread makes one step more. -/
theorem Alone.step (h : Alone args cpu s ctl w) {c : Choice}
    (hc : c.fails = false) {ctl' : WorkerCtl} {w' : Worker} {es : List Event}
    (hstep : worker_main_step args.toArgs cpu s.start_work s.quit_thread w c ctl =
      some (ctl', w', es)) : Alone args cpu s ctl' w' := by
  obtain ⟨t, ht⟩ := h
  have hthread := (worker_main_step_moves hstep).thread
  have htable : table es = [] := table_eq_nil fun e he hnone => by
    rw [hthread e he] at hnone
    cases hnone
  have hmain : t.worker_step args cpu c = some ({ t with
      workers := Function.update t.workers cpu ctl'
      ws := Function.update t.ws cpu { t.ws cpu with toWorker := w' } },
          es) := by
    have hw : (t.ws cpu).toWorker = w := by rw [ht.fields]
    simp only [State.worker_step, ht.start_work, ht.quit_thread, ht.ctl, hw,
      hstep, Option.map_some]
  have hok : NoFail t (.worker cpu c) := hc
  have hprints : Prints args t [] _ := ⟨es, .single hok hmain, htable⟩
  refine ⟨_, ht.prints.trans hprints, ?_, ?_, ht.main, ht.start_work,
    ht.quit_thread, ?_⟩
  · simp
  · simp [ht.fields]
  · intro k hk
    simpa [Function.update_of_ne hk] using ht.others k hk

/-- Up to the measurement. -/
theorem Alone.started (h : Alone args cpu s .calloc w)
    (hstart : s.start_work = true) (start : UInt64) :
    Alone args cpu s (.unrolled start (args.toArgs.locals start)) w := by
  have hcalloc : Alone args cpu s .start_work w := h.step (c := {}) rfl rfl
  have hspin : Alone args cpu s .start w := hcalloc.step (c := {}) rfl (by
    rw [worker_main_step, hstart]
    rfl)
  exact hspin.step (c := { tsc := start }) rfl rfl

/-- To every loop head. -/
theorem Alone.to_head {start : UInt64} {head : Head} {is : List Iteration}
    {m : Locals} (hat : AtHead args.toArgs start head is m)
    (h : Alone args cpu s (.unrolled start (args.toArgs.locals start)) w) :
    Alone args cpu s (head.ctl start m) w := by
  induction hat with
  | start => exact h
  | skipped hat hge ih =>
    exact ih.step (c := {}) rfl (by
      simp only [Head.ctl, worker_main_step, if_neg hge]
      rfl)
  | unrolled t hat hlt ih =>
    exact ih.step (c := { tsc := t }) rfl (by
      simp only [Head.ctl, worker_main_step, if_pos hlt]
      rfl)
  | again t hat hlt ih =>
    exact ih.step (c := { tsc := t }) rfl (by
      simp only [Head.ctl, worker_main_step, if_pos hlt]
      rfl)

/-- **A thread measures** what its readings give. -/
theorem Alone.measures (h : Alone args cpu s .calloc w)
    (hstart : s.start_work = true) {start : UInt64} {us : List UInt64}
    {m : Locals} (hm : measure args.toArgs start us = some m) :
    Alone args cpu s (.quit_thread start m) w := by
  obtain ⟨is, hat, hge, -⟩ := measure_eq_some_iff.mp hm
  exact ((h.started hstart start).to_head hat).step (c := {}) rfl (by
    simp only [Head.ctl, worker_main_step, if_neg hge]
    rfl)

/-- The thread makes the stores that are left, one after the other. -/
theorem Alone.stored {todo : List Store}
    (h : Alone args cpu s (.store todo) w) :
    Alone args cpu s (.store []) (todo.foldl Store.apply w) := by
  induction todo generalizing w with
  | nil => exact h
  | cons f todo ih => exact ih (h.step (c := {}) rfl rfl)

/-- **A thread publishes** its measurement. -/
theorem Alone.publishes {start : UInt64} {m : Locals}
    (h : Alone args cpu s (.quit_thread start m) w)
    (hquit : s.quit_thread = true) :
    Alone args cpu s (.done true) (publish args.toArgs start m) := by
  have hstores : Alone args cpu s (.store (stores args.toArgs start m)) w :=
    h.step (c := {}) rfl (by
      rw [worker_main_step, hquit]
      rfl)
  have hstored := hstores.stored
  rw [foldl_stores] at hstored
  have hret : Alone args cpu s (.ret true) (publish args.toArgs start m) :=
    hstored.step (c := {}) rfl rfl
  exact hret.step (c := {}) rfl rfl

end alone

/-! ## §3 All threads, one after the other

Between the parts of the threads stand those of `main`: each of its loops is run
to the end, by induction on the CPUs to come, and says what the state is behind
it. -/

/-- What some threads do while `main` stands still. -/
structure Meanwhile (args : GlobalArgs) (cpus : List Nat)
    (s t : State) : Prop where
  prints : Prints args s [] t
  main : t.main = s.main
  start_work : t.start_work = s.start_work
  quit_thread : t.quit_thread = s.quit_thread
  others : ∀ k, k ∉ cpus → t.workers k = s.workers k ∧ t.ws k = s.ws k

/-- **Threads that can go somewhere alone can all go there.** -/
theorem all_alone (args : GlobalArgs) (ctl : Nat → WorkerCtl) (w : Nat → Worker)
    {cpus : List Nat} (hnodup : cpus.Nodup) {s : State}
    (h : ∀ cpu ∈ cpus, ∀ t, t.start_work = s.start_work →
      t.quit_thread = s.quit_thread → t.workers cpu = s.workers cpu →
      t.ws cpu = s.ws cpu → Alone args cpu t (ctl cpu) (w cpu)) :
    ∃ t, Meanwhile args cpus s t ∧
      ∀ cpu ∈ cpus, t.workers cpu = ctl cpu ∧
        t.ws cpu = { s.ws cpu with toWorker := w cpu } := by
  induction cpus generalizing s with
  | nil => exact ⟨s, ⟨.refl, rfl, rfl, rfl, fun _ _ => ⟨rfl, rfl⟩⟩, nofun⟩
  | cons cpu cpus ih =>
    obtain ⟨hnot, hnodup⟩ := List.nodup_cons.mp hnodup
    obtain ⟨t, ht⟩ := h cpu List.mem_cons_self s rfl rfl rfl rfl
    have hne : ∀ k ∈ cpus, k ≠ cpu := fun k hk heq => hnot (heq ▸ hk)
    obtain ⟨u, hu, hall⟩ := ih hnodup (s := t) fun k hk v hstart hquit hctl hws => by
      obtain ⟨hctl', hws'⟩ := ht.others k (hne k hk)
      exact h k (List.mem_cons_of_mem _ hk) v (hstart.trans ht.start_work)
        (hquit.trans ht.quit_thread) (hctl.trans hctl') (hws.trans hws')
    refine ⟨u, ⟨ht.prints.trans hu.prints, hu.main.trans ht.main,
      hu.start_work.trans ht.start_work,
      hu.quit_thread.trans ht.quit_thread, ?_⟩, ?_⟩
    · intro k hk
      obtain ⟨hkc, hks⟩ := not_or.mp (mt List.mem_cons.mpr hk)
      obtain ⟨hctl, hws⟩ := hu.others k hks
      obtain ⟨hctl', hws'⟩ := ht.others k hkc
      exact ⟨hctl.trans hctl', hws.trans hws'⟩
    · intro k hk
      rcases List.mem_cons.mp hk with rfl | hk
      · obtain ⟨hctl, hws⟩ := hu.others k hnot
        exact ⟨hctl.trans ht.ctl, hws.trans ht.fields⟩
      · obtain ⟨hctl, hws⟩ := hall k hk
        rw [(ht.others k (hne k hk)).2] at hws
        exact ⟨hctl, hws⟩

section main

variable (args : GlobalArgs)

/-- All threads are created. -/
theorem prints_create_workers {cpus : List Nat} {s : State}
    (hs : s.main = .create_workers cpus) : ∃ t, Prints args s [] t ∧
      t.main = .create_workers [] ∧ t.start_work = s.start_work ∧
      t.quit_thread = s.quit_thread ∧ t.ws = s.ws ∧
      ∀ k, t.workers k = if k ∈ args.chosen cpus then .calloc
        else s.workers k := by
  induction cpus generalizing s with
  | nil => exact ⟨s, .refl, hs, rfl, rfl, rfl, fun k => rfl⟩
  | cons cpu cpus ih =>
    have hok : NoFail s (.main {}) := by simp [NoFail, hs]
    rw [chosen_cons]
    by_cases hset : CPU_ISSET cpu args.cpu_set = true
    · have hstep : s.main_step args {} =
          some ({ s.goto (.create_workers cpus) with
          workers := Function.update s.workers cpu .calloc },
              [.created cpu]) := by
        simp only [State.main_step, hs, if_pos hset]
      obtain ⟨t, ht, hmain, hstart, hquit, hws, hworkers⟩ := ih (s := { s.goto _ with
        workers := Function.update s.workers cpu .calloc }) rfl
      refine ⟨t, (Prints.main hok hstep).trans ht, hmain, hstart, hquit, hws,
        fun k => ?_⟩
      rw [hworkers, if_pos hset]
      by_cases hk : k = cpu
      · simp [hk]
      · simp [hk]
    · have hstep : s.main_step args {} =
          some (s.goto (.create_workers cpus), []) := by
        simp only [State.main_step, hs, if_neg hset]
      obtain ⟨t, ht, hrest⟩ := ih (s := s.goto (.create_workers cpus)) rfl
      rw [if_neg hset]
      exact ⟨t, (Prints.main hok hstep).trans ht, hrest⟩

/-- The first flag is stored, and the sleep is over. -/
theorem prints_start_work {s : State} (hs : s.main = .create_workers []) :
    Prints args s []
      { s with main := .read_proc_sched args.all_cpus, start_work := true } := by
  have hok : NoFail s (.main {}) := by simp [NoFail, hs]
  have hstep : s.main_step args {} = some (s.goto .start_work, []) := by
    simp only [State.main_step, hs]
  have hstart : Prints args (s.goto .start_work) []
      { s.goto .nanosleep with start_work := true } :=
          .quiet (c := {}) rfl rfl rfl
  have hsleep : Prints args { s.goto .nanosleep with start_work := true } []
      { s with main := .read_proc_sched args.all_cpus, start_work := true } :=
    .quiet (c := {}) rfl rfl rfl
  exact (Prints.quiet hok hstep rfl).trans (hstart.trans hsleep)

/-- The second flag is stored. -/
theorem prints_quit_thread {s : State} (hs : s.main = .read_proc_sched []) :
    Prints args s []
      { s with main := .join_workers args.all_cpus false, quit_thread := true } := by
  have hcounter : counter (sched_line 0 0 7) ≠ none := by decide
  have hok : NoFail s (.main { file := .contents (sched_line 0 0 7) false }) := by
    simpa [NoFail, hs] using hcounter
  have hstep : s.main_step args { file := .contents (sched_line 0 0 7) false } =
      some (s.goto .quit_thread, []) := by
    simp only [State.main_step, hs]
  have hquit : Prints args (s.goto .quit_thread) []
      { s with main := .join_workers args.all_cpus false, quit_thread := true } :=
    .quiet (c := {}) rfl rfl rfl
  exact (Prints.quiet hok hstep rfl).trans hquit

/-- All threads were joined without an error. -/
theorem prints_pp_results_enter {s : State}
    (hs : s.main = .join_workers [] false) :
    Prints args s [] (s.goto (.pp_results args.all_cpus)) := by
  have hok : NoFail s (.main {}) := by simp [NoFail, hs]
  have hstep : s.main_step args {} =
      some (s.goto (.pp_results args.all_cpus), [.pp_results]) := by
    simp [State.main_step, hs]
  exact .quiet hok hstep rfl

/-- The table is complete. -/
theorem prints_ret {s : State} (hs : s.main = .pp_results []) :
    Prints args s [] (s.goto (.ret 0)) := by
  have hok : NoFail s (.main {}) := by simp [NoFail, hs]
  have hstep : s.main_step args {} = some (s.goto (.ret 0), []) := by
    simp only [State.main_step, hs]
  exact .quiet hok hstep rfl

/-- Every file is read, and has its number. -/
theorem prints_read_proc_sched {text : Nat → List Char} {n : Nat → Int}
    (hn : ∀ k, counter (text k) = some (n k)) {cpus : List Nat} {s : State}
    (hs : s.main = .read_proc_sched cpus) : ∃ t, Prints args s [] t ∧
      t.main = .read_proc_sched [] ∧ t.start_work = s.start_work ∧
      t.quit_thread = s.quit_thread ∧ t.workers = s.workers ∧
      ∀ k, t.ws k = if k ∈ args.chosen cpus then
        { s.ws k with invol_switch := UInt64.ofInt (n k) } else s.ws k := by
  induction cpus generalizing s with
  | nil => exact ⟨s, .refl, hs, rfl, rfl, rfl, fun k => rfl⟩
  | cons cpu cpus ih =>
    have hok : NoFail s (.main { file := .contents (text cpu) false }) := by
      simp [NoFail, hs, hn]
    rw [chosen_cons]
    by_cases hset : CPU_ISSET cpu args.cpu_set = true
    · have hstep : s.main_step args { file := .contents (text cpu) false } =
          some ({ s.goto (.read_proc_sched cpus) with
            ws := Function.update s.ws cpu
              { s.ws cpu with invol_switch := UInt64.ofInt (n cpu) } },
                [.sched cpu]) := by
        simp only [State.main_step, hs, if_pos hset, read_proc_sched_contents,
          hn, Option.map_some]
        rfl
      obtain ⟨t, ht, hmain, hstart, hquit, hworkers, hws⟩ := ih (s := { s.goto _ with
        ws := Function.update s.ws cpu
          { s.ws cpu with invol_switch := UInt64.ofInt (n cpu) } }) rfl
      refine ⟨t, (Prints.main hok hstep).trans ht, hmain, hstart, hquit,
        hworkers, fun k => ?_⟩
      rw [hws, if_pos hset]
      by_cases hk : k = cpu
      · simp [hk]
      · simp [hk]
    · have hstep : s.main_step args { file := .contents (text cpu) false } =
          some (s.goto (.read_proc_sched cpus), []) := by
        simp only [State.main_step, hs, if_neg hset]
      obtain ⟨t, ht, hrest⟩ := ih (s := s.goto (.read_proc_sched cpus)) rfl
      rw [if_neg hset]
      exact ⟨t, (Prints.main hok hstep).trans ht, hrest⟩

/-- Threads that are done are joined. -/
theorem prints_join_workers {cpus : List Nat} {s : State}
    (hs : s.main = .join_workers cpus false)
    (hdone : ∀ k ∈ args.chosen cpus, s.workers k = .done true) :
    Prints args s [] (s.goto (.join_workers [] false)) := by
  induction cpus generalizing s with
  | nil =>
    have hstay : s.goto (.join_workers [] false) = s := by rw [← hs]; rfl
    rw [hstay]
    exact .refl
  | cons cpu cpus ih =>
    have hok : NoFail s (.main {}) := by simp [NoFail, hs]
    rw [chosen_cons] at hdone
    have hstep : s.main_step args {} =
        some (s.goto (.join_workers cpus false), []) := by
      by_cases hset : CPU_ISSET cpu args.cpu_set = true
      · have hcpu : s.workers cpu = .done true := hdone cpu (by simp [hset])
        simp [State.main_step, hs, hset, hcpu]
      · simp only [State.main_step, hs, if_neg hset]
    refine (Prints.main hok hstep).trans (ih rfl fun k hk => hdone k ?_)
    split
    · exact List.mem_cons_of_mem _ hk
    · exact hk

/-- The rows are printed, of threads that are done. -/
theorem prints_pp_results {r : Nat → Row} {ys : Nat → List UInt32}
    {cpus : List Nat} {s : State} (hs : s.main = .pp_results cpus)
    (hrow : ∀ k ∈ args.chosen cpus, (s.ws k).samples ≤ (ys k).length ∧
      row args k (s.ws k).toWorker (s.ws k).invol_switch (ys k) = some (r k)) :
    Prints args s ((args.chosen cpus).map fun k => (k, r k))
      (s.goto (.pp_results [])) := by
  induction cpus generalizing s with
  | nil =>
    have hstay : s.goto (.pp_results []) = s := by rw [← hs]; rfl
    rw [hstay]
    exact .refl
  | cons cpu cpus ih =>
    rw [chosen_cons] at hrow ⊢
    by_cases hset : CPU_ISSET cpu args.cpu_set = true
    · rw [if_pos hset] at hrow ⊢
      obtain ⟨hlen, hcpu⟩ := hrow cpu List.mem_cons_self
      have hok : NoFail s (.main { ys := some (ys cpu) }) := by
        simpa [NoFail, hs] using hlen
      have hstep : s.main_step args { ys := some (ys cpu) } =
          some (s.goto (.pp_results cpus), [.fields cpu, .row cpu (r cpu)]) := by
        simp only [State.main_step, hs, row_turn, if_pos hset, hcpu]
      have hrest := ih (s := s.goto (.pp_results cpus)) rfl fun k hk =>
        hrow k (List.mem_cons_of_mem _ hk)
      exact (Prints.main hok hstep).trans hrest
    · rw [if_neg hset] at hrow ⊢
      have hok : NoFail s
          (.main { ys := some (List.replicate (s.ws cpu).samples 0) }) := by
        simp [NoFail, hs]
      have hstep :
          s.main_step args { ys := some (List.replicate (s.ws cpu).samples 0) } =
          some (s.goto (.pp_results cpus), []) := by
        simp only [State.main_step, hs, row_turn, if_neg hset]
      exact (Prints.main hok hstep).trans (ih (s := s.goto (.pp_results cpus)) rfl hrow)

end main

/-! ## §4 The tables

`Script` is what has to happen for a table: the readings of every thread, the
text of every file and the arrays of every row. `Script.Makes` says that the
rows come from it. Each table of rows that there can be has a script, and a
script has its run. -/

deriving instance Inhabited for Percentiles, Row

/-- `mad_u32` has a result only if its second array is long enough. -/
theorem length_of_fill {median : UInt32} {x y z : List UInt32}
    (h : fill_deviations median x y = some z) : x.length ≤ y.length := by
  induction x generalizing y z with
  | nil => exact Nat.zero_le _
  | cons u x ih =>
    cases y with
    | nil => cases h
    | cons v y =>
      obtain ⟨z', hz, -⟩ := Option.map_eq_some_iff.mp h
      exact Nat.succ_le_succ (ih hz)

/-- The array of a printed row has room for the samples. -/
theorem samples_le_of_row {args : GlobalArgs} {cpu : Nat} {w : Worker}
    {invol_switch : UInt64} {ys : List UInt32} {r : Row} (hw : w.Sorted)
    (h : row args cpu w invol_switch ys = some r) : w.samples ≤ ys.length := by
  have hlen : w.recorded.length = w.samples := by
    simp [Worker.recorded, hw.room]
  simp only [row, Option.bind_eq_bind, Option.bind_eq_some_iff] at h
  obtain ⟨mad, hmad, -⟩ := h
  rw [← hlen]
  simp only [mad_u32] at hmad
  split at hmad
  · omega
  · simp only [Option.bind_eq_bind, Option.bind_eq_some_iff] at hmad
    obtain ⟨median, -, y, hy, -⟩ := hmad
    exact length_of_fill hy

/-- What the run of a table needs of a CPU: readings, a file and an array. -/
structure Script where
  start : UInt64
  us : List UInt64
  m : Locals
  text : List Char
  n : Int
  ys : List UInt32
  r : Row

/-- The script of a CPU makes its row. -/
structure Script.Makes (args : GlobalArgs) (cpu : Nat) (x : Script) : Prop where
  measure : measure args.toArgs x.start x.us = some x.m
  room : (publish args.toArgs x.start x.m).samples ≤ x.ys.length
  row : row args cpu (publish args.toArgs x.start x.m) (UInt64.ofInt x.n) x.ys =
    some x.r

/-- **The run of a table**: every thread in turn, then `main`. -/
theorem run_of_scripts {args : GlobalArgs} (x : Nat → Script)
    (hcounter : ∀ k, counter (x k).text = some (x k).n)
    (hmakes : ∀ k ∈ args.selected, (x k).Makes args k) :
    ∃ h s, Run (osjitter args) NoFail h s ∧ s.main = .ret 0 ∧
      table h = args.selected.map fun k => (k, (x k).r) := by
  have hnodup : args.selected.Nodup := List.nodup_range.filter _
  obtain ⟨s₁, h₁, hmain₁, -, -, -, hworkers₁⟩ :=
    prints_create_workers args (s := (osjitter args).init) rfl
  have h₂ := prints_start_work args hmain₁
  set s₂ : State :=
    { s₁ with main := .read_proc_sched args.all_cpus, start_work := true }
        with hs₂
  -- one worker after the other measures; the order does not show
  obtain ⟨s₃, h₃, hall₃⟩ := all_alone args
    (fun k => .quit_thread (x k).start (x k).m)
      (fun k => (s₂.ws k).toWorker) hnodup (s := s₂)
    fun k hk t hstart _ hctl hws => by
      have hcalloc : t.workers k = .calloc := by
        rw [hctl, hs₂, hworkers₁]
        exact if_pos hk
      have halone : Alone args k t .calloc (t.ws k).toWorker := .refl hcalloc
      rw [hws] at halone
      exact halone.measures hstart (hmakes k hk).measure
  obtain ⟨s₄, h₄, hmain₄, -, -, hworkers₄, hws₄⟩ :=
    prints_read_proc_sched args hcounter h₃.main
  have h₅ := prints_quit_thread args hmain₄
  set s₅ : State :=
    { s₄ with main := .join_workers args.all_cpus false, quit_thread := true }
    with hs₅
  -- they publish in the same order
  obtain ⟨s₆, h₆, hall₆⟩ := all_alone args (fun _ => .done true)
    (fun k => publish args.toArgs (x k).start (x k).m) hnodup (s := s₅)
    fun k hk t _ hquit hctl _ => by
      have hmeasured : t.workers k = .quit_thread (x k).start (x k).m := by
        rw [hctl, hs₅, hworkers₄, (hall₃ k hk).1]
      exact (Alone.refl hmeasured).publishes hquit
  have h₇ := prints_join_workers args h₆.main fun k hk => (hall₆ k hk).1
  have h₈ :=
    prints_pp_results_enter args (s := s₆.goto (.join_workers [] false)) rfl
  have hrows : ∀ k ∈ args.selected, (s₆.ws k).samples ≤ (x k).ys.length ∧
      row args k (s₆.ws k).toWorker (s₆.ws k).invol_switch (x k).ys =
          some (x k).r := by
    intro k hk
    have hws : s₆.ws k = { toWorker := publish args.toArgs (x k).start (x k).m
                           invol_switch := UInt64.ofInt (x k).n } := by
      have hchosen : k ∈ args.chosen args.all_cpus := hk
      simp only [(hall₆ k hk).2, hs₅, hws₄, if_pos hchosen]
    rw [hws]
    exact ⟨(hmakes k hk).room, (hmakes k hk).row⟩
  have h₉ :=
    prints_pp_results args (s := s₆.goto (.pp_results args.all_cpus)) rfl hrows
  have hret := prints_ret args (s := s₆.goto (.pp_results [])) rfl
  obtain ⟨h, hsteps, htable⟩ :=
    h₁.trans (h₂.trans (h₃.prints.trans (h₄.trans (h₅.trans
    (h₆.prints.trans (h₇.trans (h₈.trans (h₉.trans hret))))))))
  exact ⟨h, _, hsteps, rfl, by simpa [GlobalArgs.selected] using htable⟩

/-- **The run of a table**, given by its rows. -/
theorem run_of_table {args : GlobalArgs} {rs : List (Nat × Row)}
    (hkeys : rs.map Prod.fst = args.selected)
    (hrows : ∀ p ∈ rs, ∃ ts, RowFor args p.1 ts p.2) :
    ∃ h s, Run (osjitter args) NoFail h s ∧ s.main = .ret 0 ∧ table h = rs := by
  have hseven : counter (sched_line 0 0 7) = some 7 := by decide
  have hscript : ∀ k, ∃ x : Script, counter x.text = some x.n ∧
      (k ∈ args.selected → x.Makes args k ∧ (k, x.r) ∈ rs) := by
    intro k
    by_cases hk : k ∈ args.selected
    · rw [← hkeys] at hk
      obtain ⟨⟨k', r⟩, hp, rfl⟩ := List.mem_map.mp hk
      obtain ⟨ts, start, us, w, text, n, ys, -, hw, hn, hrow⟩ := hrows _ hp
      have hroom := samples_le_of_row (worker_main_sorted hw).1 hrow
      obtain ⟨m, hm, rfl⟩ := Option.map_eq_some_iff.mp hw
      exact ⟨⟨start, us, m, text, n, ys, r⟩, hn, fun _ => ⟨⟨hm, hroom, hrow⟩, hp⟩⟩
    · exact ⟨⟨0, [], args.toArgs.locals 0, sched_line 0 0 7, 7, [], default⟩,
        hseven, fun h => absurd h hk⟩
  choose x hcounter hmakes using hscript
  obtain ⟨h, s, hrun, hret, htable⟩ :=
    run_of_scripts x hcounter fun k hk => (hmakes k hk).1
  refine ⟨h, s, hrun, hret, htable.trans ?_⟩
  -- the keys of a table are its CPUs, each once
  have hnodup : (rs.map Prod.fst).Nodup := hkeys ▸ List.nodup_range.filter _
  have hmap : (rs.map Prod.fst).map (fun k => (k, (x k).r)) = rs.map id := by
    rw [List.map_map]
    refine List.map_congr_left fun p hp => ?_
    have hmem := (hmakes p.1 (hkeys ▸ List.mem_map_of_mem hp)).2
    exact List.inj_on_of_nodup_map hnodup hmem hp rfl
  rw [← hkeys, hmap, List.map_id]

/-- **The tables of `osjitter`.** A run that returns 0 has printed one row for
each selected CPU, in ascending order, each computed from the readings that the
thread of that CPU has taken and from a counter that was read. And every such
table is printed by a run in which no call fails. -/
theorem table_iff (args : GlobalArgs) :
    (∀ h s, Run (osjitter args) (fun _ _ => True) h s → s.main = .ret 0 →
      (table h).map Prod.fst = args.selected ∧
        ∀ p ∈ table h, RowFor args p.1 (taken_by p.1 h) p.2) ∧
    ∀ rs, rs.map Prod.fst = args.selected →
      (∀ p ∈ rs, ∃ ts, RowFor args p.1 ts p.2) →
      ∃ h s, Run (osjitter args) NoFail h s ∧ s.main = .ret 0 ∧
        table h = rs := by
  constructor
  · intro h s hrun hret
    have hreporting := reporting_of_run hrun
    have hprinting := hreporting.printing
    simp only [Printing, hret] at hprinting
    exact ⟨hprinting trivial, hreporting.rows⟩
  · exact fun rs hkeys hrows => run_of_table hkeys hrows

end Osjitter.Jitter
