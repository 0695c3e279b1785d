/-
Osjitter.Jitter.HandshakeTheorems — in every interleaving the handshake keeps
the threads in order.

  §1 The stores of a worker make `publish` (`foldl_stores`): it writes the
     fields one by one, and the corrections of the array entry by entry.
  §2 `Stage` is what the handshake sees of a worker, and `Moves` the steps it
     can take there: every step of `worker_main` is one
     (`worker_main_step_moves`), whatever it measures.
  §3 `ThreadOk`: what the history and the flags tell of a thread. Its events
     say how far it has come; it measures only behind `start_work` and stores
     only behind `quit_thread`. `ThreadOk.move` is the step lemma,
     `ThreadOk.frame` the one for the steps of others.
  §4 `MainOk`: what the loops of `main` have seen where it stands: `Passed` says
     which CPUs a loop has left behind, `AllCreated` and `AllDone` what holds of
     all of them. `Overheard` is what the steps of `main` leave to the threads.
     `Inv` is the invariant of the program.
  §5 `Allowed`: when each event may be shown, given those before it. Every
     history is legal (`legal_of_run`), by one lemma for the steps of a thread
     (`Inv.worker`) and one for each loop of `main` (`Inv.main_step`).
     `handshake` reads the five properties off: no reading before all threads
     are there, no counter of a thread that is not, no row before all have
     returned, no store behind a row, and no table where a thread had no memory.

The property is one of order. That a run goes on is in `Jitter.Termination`, and
what is printed in `Jitter.Program` and `Jitter.Report`.
-/
import Mathlib
import Osjitter.Jitter.Handshake

namespace Osjitter.Jitter

open Machines Util

/-! ## §1 Stores

The stores behind the loops, made one after the other, leave a `Worker` that is
the one `publish` computes at once. The entries are corrected one by one, each
with the minimum that was stored before. -/

/-- A turn of the loop that corrects the recorded deltas. -/
theorem modify_map_take {α : Type} (f : α → α) (xs : List α) (k : Nat) :
    ((xs.take k).map f ++ xs.drop k).modify k f =
      (xs.take (k + 1)).map f ++ xs.drop (k + 1) := by
  induction xs generalizing k with
  | nil => simp
  | cons x xs ih =>
    cases k with
    | zero => simp
    | succ k => simpa using ih k

/-- The first entries are corrected, the others are left. -/
theorem foldl_correct (w : Worker) (k : Nat) :
    ((List.range k).map Store.correct).foldl Store.apply w =
      { w with deltas := (w.deltas.take k).map (correct w.tsc_delta_min) ++ w.deltas.drop k } := by
  induction k with
  | zero => simp
  | succ k ih =>
    rw [List.range_succ, List.map_append, List.foldl_append, ih]
    simp only [List.map_cons, List.map_nil, List.foldl_cons, List.foldl_nil, Store.apply,
      modify_map_take]

/-- **The stores make `publish`**, whatever the fields held. -/
theorem foldl_stores (args : Args) (start : UInt64) (m : Locals) (w : Worker) :
    (stores args start m).foldl Store.apply w = publish args start m := by
  have hcut : ∀ (k : Nat) (f : UInt32 → UInt32),
      ((m.ds.take k).map f ++ m.ds.drop k).take k = (m.ds.take k).map f ∧
        ((m.ds.take k).map f ++ m.ds.drop k).drop k = m.ds.drop k := by
    intro k f
    rcases Nat.le_total k m.ds.length with hk | hk
    · have hlen : ((m.ds.take k).map f).length = k := by simp [hk]
      exact ⟨List.take_left' hlen, List.drop_left' hlen⟩
    · have hnil : m.ds.drop k = [] := List.drop_eq_nil_of_le hk
      simp [hnil, hk]
  simp only [stores, List.foldl_append, List.foldl_cons, List.foldl_nil, Store.apply,
    foldl_correct, hcut, publish]

/-! ## §2 Stages

What the proofs need of a worker is less than where it stands: whether it is
waiting for its start, measuring, storing, or done. `Moves` lists what a step
can do to that, with the events it shows, and `worker_main_step_moves` that
there is no other step. -/

/-- What the handshake sees of a worker: until it has passed `start_work` it
is fresh, and until it has passed `quit_thread` it measures. -/
inductive Stage where
  | absent
  | fresh
  | measuring
  | storing
  | ret (nonnull : Bool)
  | done (nonnull : Bool)
  deriving DecidableEq, Repr

/-- The stage of every place in `worker_main`. -/
def WorkerCtl.stage : WorkerCtl → Stage
  | .absent => .absent
  | .calloc => .fresh
  | .start_work => .fresh
  | .start => .measuring
  | .unrolled _ _ => .measuring
  | .loop _ _ => .measuring
  | .quit_thread _ _ => .measuring
  | .store _ => .storing
  | .ret nonnull => .ret nonnull
  | .done nonnull => .done nonnull

/-- The steps of a worker. -/
inductive Moves (start_work quit_thread : Bool) (cpu : Nat) :
    Stage → Stage → List Event → Prop
  | idle (st : Stage) (h : st ≠ .absent) :
  Moves start_work quit_thread cpu st st []
  | calloc_fails : Moves start_work quit_thread cpu .fresh (.ret false)
    [.calloc_fails cpu]
  | start (h : start_work = true) :
    Moves start_work quit_thread cpu .fresh .measuring []
  | tsc (t : UInt64) : Moves start_work quit_thread cpu .measuring .measuring
    [.tsc cpu t]
  | quit (h : quit_thread = true) :
    Moves start_work quit_thread cpu .measuring .storing []
  | store : Moves start_work quit_thread cpu .storing .storing [.store cpu]
  | finish : Moves start_work quit_thread cpu .storing (.ret true) []
  | ret (b : Bool) : Moves start_work quit_thread cpu (.ret b) (.done b)
    [.returned cpu b]

/-- **Every step of `worker_main` is a move.** -/
theorem worker_main_step_moves {args : Args} {cpu : Nat}
    {start_work quit_thread : Bool} {w w' : Worker} {c : Choice}
    {ctl ctl' : WorkerCtl} {es : List Event}
    (h : worker_main_step args cpu start_work quit_thread w c ctl =
      some (ctl', w', es)) :
    Moves start_work quit_thread cpu ctl.stage ctl'.stage es := by
  cases ctl with
  | absent => cases h
  | calloc =>
    simp only [worker_main_step] at h
    split at h
    · cases h
      exact .calloc_fails
    · cases h
      exact .idle .fresh nofun
  | start_work =>
    cases h
    split
    · next hstart => exact .start hstart
    · exact .idle .fresh nofun
  | start =>
    cases h
    exact .tsc _
  | unrolled start m =>
    simp only [worker_main_step] at h
    split at h
    · cases h
      exact .tsc _
    · cases h
      exact .idle .measuring nofun
  | loop start m =>
    simp only [worker_main_step] at h
    split at h
    · cases h
      exact .tsc _
    · cases h
      exact .idle .measuring nofun
  | quit_thread start m =>
    cases h
    split
    · next hquit => exact .quit hquit
    · exact .idle .measuring nofun
  | store todo =>
    cases todo with
    | nil =>
      cases h
      exact .finish
    | cons f todo =>
      cases h
      exact .store
  | ret nonnull =>
    cases h
    exact .ret nonnull
  | done nonnull => cases h

/-- A thread is neither created nor removed by its own step. -/
theorem Moves.absent_iff {start_work quit_thread : Bool} {cpu : Nat}
    {st st' : Stage} {es : List Event}
    (h : Moves start_work quit_thread cpu st st' es) :
    st = .absent ↔ st' = .absent := by
  cases h <;> simp

/-- A thread that is done makes no step. -/
theorem Moves.of_done {start_work quit_thread : Bool} {cpu : Nat}
    {st st' : Stage} {b : Bool} {es : List Event}
    (h : Moves start_work quit_thread cpu st st' es) (hdone : st = .done b) :
    st' = .done b := by
  subst hdone
  cases h
  rfl

/-! ## §3 Threads

`ThreadOk` is the invariant of one thread: which events of it may be in the
history, by its stage and the flags. It is kept by the moves of the thread
(`ThreadOk.move`), and by all that others do (`ThreadOk.frame`). -/

/-- The CPU whose thread shows an event, or is created by it. -/
def Event.thread : Event → Option Nat
  | .created cpu => some cpu
  | .calloc_fails cpu => some cpu
  | .tsc cpu _ => some cpu
  | .store cpu => some cpu
  | .returned cpu _ => some cpu
  | .sched _ => none
  | .pp_results => none
  | .fields _ => none
  | .row _ _ => none

/-- Stages behind `start_work`, and behind `quit_thread`. -/
def Stage.Started (st : Stage) : Prop :=
  st = .measuring ∨ st = .storing ∨ st = .ret true ∨ st = .done true

/-- Past the wait for the second flag. -/
def Stage.Stopped (st : Stage) : Prop :=
  st = .storing ∨ st = .ret true ∨ st = .done true

/-- What the history and the flags tell of a thread. -/
structure ThreadOk (h : List Event) (start_work quit_thread : Bool) (cpu : Nat)
    (st : Stage) : Prop where
  created : .created cpu ∈ h ↔ st ≠ .absent
  fails : .calloc_fails cpu ∈ h ↔ st = .ret false ∨ st = .done false
  returned : ∀ b, .returned cpu b ∈ h ↔ st = .done b
  started : st.Started → start_work = true
  stopped : st.Stopped → quit_thread = true

/-- A thread shows events of its own. -/
theorem Moves.thread {start_work quit_thread : Bool} {cpu : Nat}
    {st st' : Stage} {es : List Event}
    (h : Moves start_work quit_thread cpu st st' es) :
    ∀ e ∈ es, e.thread = some cpu := by
  cases h <;> simp [Event.thread]

/-- A thread moves. -/
theorem ThreadOk.move {h es : List Event} {start_work quit_thread : Bool}
    {cpu : Nat} {st st' : Stage}
    (hok : ThreadOk h start_work quit_thread cpu st)
    (hmove : Moves start_work quit_thread cpu st st' es) :
    ThreadOk (h ++ es) start_work quit_thread cpu st' := by
  obtain ⟨hcreated, hfails, hreturned, hstarted, hstopped⟩ := hok
  cases hmove with
  | idle => simpa using ⟨hcreated, hfails, hreturned, hstarted, hstopped⟩
  | calloc_fails =>
    constructor <;> simp_all [Stage.Started, Stage.Stopped]
  | start hstart =>
    constructor <;> simp_all [Stage.Started, Stage.Stopped]
  | tsc t =>
    constructor <;> simp_all [Stage.Started, Stage.Stopped]
  | quit hquit =>
    constructor <;> simp_all [Stage.Started, Stage.Stopped]
  | store =>
    constructor <;> simp_all [Stage.Started, Stage.Stopped]
  | finish =>
    constructor <;> simp_all [Stage.Started, Stage.Stopped]
  | ret b =>
    constructor <;> simp_all [Stage.Started, Stage.Stopped]

/-- Another thread is not concerned. -/
theorem ThreadOk.frame {h es : List Event}
    {start_work quit_thread start_work' quit_thread' : Bool} {cpu : Nat}
    {st : Stage} (hok : ThreadOk h start_work quit_thread cpu st)
    (hes : ∀ e ∈ es, e.thread ≠ some cpu)
    (hstart : start_work = true → start_work' = true)
    (hquit : quit_thread = true → quit_thread' = true) :
    ThreadOk (h ++ es) start_work' quit_thread' cpu st := by
  have hmem : ∀ {e : Event}, e.thread = some cpu → (e ∈ h ++ es ↔ e ∈ h) := by
    intro e he
    rw [List.mem_append, or_iff_left]
    intro hmem
    exact hes e hmem he
  constructor
  · rw [hmem rfl, hok.created]
  · rw [hmem rfl, hok.fails]
  · intro b
    rw [hmem rfl, hok.returned]
  · exact fun hst => hstart (hok.started hst)
  · exact fun hst => hquit (hok.stopped hst)

/-- A thread is created. -/
theorem ThreadOk.create {h : List Event} {start_work quit_thread : Bool}
    {cpu : Nat} (hok : ThreadOk h start_work quit_thread cpu .absent) :
    ThreadOk (h ++ [Event.created cpu]) start_work quit_thread cpu .fresh := by
  obtain ⟨hcreated, hfails, hreturned, hstarted, hstopped⟩ := hok
  constructor <;> simp_all [Stage.Started, Stage.Stopped]

/-! ## §4 The main thread

A loop of `main` over the CPUs keeps a property of those it has passed
(`Passed`), and at its end it holds of all that are selected. What `main` knows
where it stands is `MainOk`, and `Inv` puts it together with the threads. -/

/-- The CPUs that a thread is started on. -/
def Selected (args : GlobalArgs) (cpu : Nat) : Prop :=
  cpu ∈ args.all_cpus ∧ CPU_ISSET cpu args.cpu_set = true

/-- A loop over the CPUs has `cpus` to come, and `P` holds of the selected ones
that it has passed. -/
def Passed (args : GlobalArgs) (cpus : List Nat) (P : Nat → Prop) : Prop :=
  ∃ before, args.all_cpus = before ++ cpus ∧
    ∀ cpu ∈ before, CPU_ISSET cpu args.cpu_set = true → P cpu

section passed

variable {args : GlobalArgs} {cpus : List Nat} {cpu : Nat} {P Q : Nat → Prop}

/-- In front of its loop it has passed none. -/
theorem Passed.enter (args : GlobalArgs) (P : Nat → Prop) :
    Passed args args.all_cpus P :=
  ⟨[], rfl, nofun⟩

/-- A CPU is passed once the property holds of it. -/
theorem Passed.next (h : Passed args (cpu :: cpus) P)
    (hcpu : CPU_ISSET cpu args.cpu_set = true → P cpu) :
    Passed args cpus P := by
  obtain ⟨before, hall, hbefore⟩ := h
  refine ⟨before ++ [cpu], by simp [hall], ?_⟩
  intro k hk hset
  rcases List.mem_append.mp hk with hk | hk
  · exact hbefore k hk hset
  · obtain rfl := List.mem_singleton.mp hk
    exact hcpu hset

/-- Behind the loop the property holds of every selected CPU. -/
theorem Passed.leave (h : Passed args [] P) :
    ∀ cpu, Selected args cpu → P cpu := by
  obtain ⟨before, hall, hbefore⟩ := h
  rintro cpu ⟨hmem, hset⟩
  exact hbefore cpu (by simpa [hall] using hmem) hset

/-- A weaker property of the same CPUs. -/
theorem Passed.mono (h : Passed args cpus P) (hPQ : ∀ cpu, P cpu → Q cpu) :
    Passed args cpus Q := by
  obtain ⟨before, hall, hbefore⟩ := h
  exact ⟨before, hall, fun k hk hset => hPQ k (hbefore k hk hset)⟩

/-- A CPU that is to come and in the set is selected. -/
theorem Passed.selected (h : Passed args (cpu :: cpus) P)
    (hset : CPU_ISSET cpu args.cpu_set = true) : Selected args cpu := by
  obtain ⟨before, hall, -⟩ := h
  exact ⟨by simp [hall], hset⟩

/-- No CPU comes twice. -/
theorem Passed.notMem (h : Passed args (cpu :: cpus) P) : cpu ∉ cpus := by
  obtain ⟨before, hall, -⟩ := h
  have hnodup : (before ++ cpu :: cpus).Nodup := hall ▸ List.nodup_range
  exact (List.nodup_cons.mp (List.nodup_append.mp hnodup).2.1).1

end passed

/-- The stage of the thread of a CPU. -/
def State.stage (s : State) (cpu : Nat) : Stage := (s.workers cpu).stage

/-- Every selected CPU has its thread. -/
def AllCreated (args : GlobalArgs) (s : State) : Prop :=
  ∀ cpu, Selected args cpu → s.stage cpu ≠ .absent

/-- Every thread has returned its `Worker`. -/
def AllDone (args : GlobalArgs) (s : State) : Prop :=
  ∀ cpu, Selected args cpu → s.stage cpu = .done true

/-- What holds where `main` stands. -/
def MainOk (args : GlobalArgs) (h : List Event) (s : State) : Prop :=
  match s.main with
  | .create_workers cpus =>
      s.quit_thread = false ∧
        Passed args cpus (fun cpu => s.stage cpu ≠ .absent) ∧
        ∀ cpu ∈ cpus, s.stage cpu = .absent
  | .start_work => s.quit_thread = false ∧ AllCreated args s
  | .nanosleep => s.quit_thread = false ∧ AllCreated args s
  | .read_proc_sched cpus =>
      s.quit_thread = false ∧ AllCreated args s ∧
        Passed args cpus (fun _ => True)
  | .quit_thread => s.quit_thread = false ∧ AllCreated args s
  | .join_workers cpus error_in_thread =>
      error_in_thread = false →
        Passed args cpus (fun cpu => s.stage cpu = .done true)
  | .pp_results cpus => .pp_results ∈ h ∧ Passed args cpus (fun _ => True)
  | .ret _ => True
  | .abort => True

/-- The invariant of the program. -/
structure Inv (args : GlobalArgs) (h : List Event) (s : State) : Prop where
  threads : ∀ cpu, ThreadOk h s.start_work s.quit_thread cpu (s.stage cpu)
  created : s.start_work = true → AllCreated args s
  printing : .pp_results ∈ h → AllDone args s
  main : MainOk args h s

/-- The invariant holds before the first step. -/
theorem inv_init (args : GlobalArgs) : Inv args [] (osjitter args).init := by
  constructor
  · intro cpu
    constructor <;> simp [osjitter, State.stage, WorkerCtl.stage, Stage.Started,
      Stage.Stopped]
  · simp [osjitter]
  · simp
  · exact ⟨rfl, Passed.enter _ _, fun _ _ => rfl⟩

/-- What `main` knows survives the steps of others. -/
theorem MainOk.mono {args : GlobalArgs} {h h' : List Event} {s t : State}
    (hok : MainOk args h s) (hmain : t.main = s.main)
    (hquit : t.quit_thread = s.quit_thread)
    (habsent : ∀ cpu, s.stage cpu = .absent ↔ t.stage cpu = .absent)
    (hdone : ∀ cpu, s.stage cpu = .done true → t.stage cpu = .done true)
    (hh : h ⊆ h') : MainOk args h' t := by
  have hcreated : AllCreated args s → AllCreated args t :=
    fun hall cpu hcpu habs => hall cpu hcpu ((habsent cpu).mpr habs)
  unfold MainOk at hok ⊢
  rw [hmain, hquit]
  split at hok
  · obtain ⟨hq, hpassed, hto_come⟩ := hok
    exact ⟨hq, hpassed.mono fun cpu hcpu habs => hcpu ((habsent cpu).mpr habs),
      fun cpu hcpu => (habsent cpu).mp (hto_come cpu hcpu)⟩
  · exact ⟨hok.1, hcreated hok.2⟩
  · exact ⟨hok.1, hcreated hok.2⟩
  · exact ⟨hok.1, hcreated hok.2.1, hok.2.2⟩
  · exact ⟨hok.1, hcreated hok.2⟩
  · exact fun herr => (hok herr).mono hdone
  · exact ⟨hh hok.1, hok.2⟩
  · trivial
  · trivial

/-- The rows of some events are those of the workers of `s`. -/
def RowsOf (args : GlobalArgs) (s : State) (es : List Event) : Prop :=
  ∀ cpu r, .row cpu r ∈ es →
    ∃ invol_switch ys, row args cpu (s.ws cpu).toWorker invol_switch ys = some r

/-- What a step of `main` leaves to the threads: it takes no reading, changes
no field that they store, and moves none of them but creates some. -/
structure Overheard (args : GlobalArgs) (s t : State)
    (es : List Event) : Prop where
  silent : ∀ e ∈ es, ∀ cpu t, e ≠ .tsc cpu t
  fields : ∀ cpu, (t.ws cpu).toWorker = (s.ws cpu).toWorker
  threads : ∀ cpu, t.workers cpu = s.workers cpu ∨
    s.workers cpu = .absent ∧ t.workers cpu = .calloc
  rows : RowsOf args s es

section overheard

variable {args : GlobalArgs} {es : List Event} {s t : State}

/-- A step that leaves threads and fields alone. -/
theorem Overheard.of_eq (hws : t.ws = s.ws) (hworkers : t.workers = s.workers)
    (hes : ∀ e ∈ es, e.thread = none) (hrows : RowsOf args s es) :
    Overheard args s t es where
  silent e he cpu t := by
    rintro rfl
    cases hes _ he
  fields cpu := by rw [hws]
  threads cpu := .inl (by rw [hworkers])
  rows := hrows

/-- A step to another place. -/
theorem Overheard.goto {ctl : MainCtl}
    (heq : some (s.goto ctl, []) = some (t, es)) : Overheard args s t es := by
  cases heq
  exact .of_eq rfl rfl nofun nofun

/-- A step that creates a thread. -/
theorem Overheard.create {cpu : Nat} {ctl : MainCtl}
    (habsent : s.workers cpu = .absent) :
    Overheard args s { s.goto ctl
      with workers := Function.update s.workers cpu .calloc }
      [.created cpu] where
  silent := by simp
  fields _ := rfl
  threads k := by
    by_cases hk : k = cpu
    · subst hk
      exact .inr ⟨habsent, by simp⟩
    · exact .inl (by simp [Function.update_of_ne hk])
  rows := by simp [RowsOf]

/-- A step that reads a file of the kernel into a field of its own. -/
theorem Overheard.sched {cpu : Nat} {ctl : MainCtl} {w : SchedWorker}
    (hw : w.toWorker = (s.ws cpu).toWorker) :
    Overheard args s { s.goto ctl
      with ws := Function.update s.ws cpu w } [.sched cpu] where
  silent := by simp
  fields k := by
    by_cases hk : k = cpu
    · subst hk
      simpa using hw
    · simp [Function.update_of_ne hk]
  threads _ := .inl rfl
  rows := by simp [RowsOf]

/-- A thread that is absent stands nowhere. -/
theorem absent_of_stage {cpu : Nat} (h : s.stage cpu = .absent) :
    s.workers cpu = .absent := by
  unfold State.stage at h
  cases hctl : s.workers cpu <;> simp_all [WorkerCtl.stage]

end overheard

/-! ## §5 Histories

`Allowed` says of each event which others are in front of it, in every run. Each
step is shown to keep the invariant and to show allowed events only, first for a
worker, then for `main` at each place in its code. The parts of the handshake
are read off legal histories, without the machine. -/

/-- When an event may be shown, after the events `h`. -/
def Allowed (args : GlobalArgs) (h : List Event) : Event → Prop
  | .created cpu => Selected args cpu
  | .calloc_fails cpu => .created cpu ∈ h ∧ ∀ b, .returned cpu b ∉ h
  | .tsc _ _ => ∀ k, Selected args k → .created k ∈ h
  | .store cpu => ∀ b, .returned cpu b ∉ h
  | .returned cpu b => b = true → .calloc_fails cpu ∉ h
  | .sched cpu =>
      .created cpu ∈ h ∧ ∀ b, .returned cpu b ∈ h → .calloc_fails cpu ∈ h
  | .pp_results => ∀ k, Selected args k → .returned k true ∈ h
  | .fields cpu => .pp_results ∈ h ∧ .returned cpu true ∈ h
  | .row cpu _ => .fields cpu ∈ h

/-- What a thread shows is allowed. -/
theorem Moves.legal {args : GlobalArgs} {h es : List Event}
    {start_work quit_thread : Bool} {cpu : Nat} {st st' : Stage}
    (hmove : Moves start_work quit_thread cpu st st' es)
    (hok : ThreadOk h start_work quit_thread cpu st)
    (hall : start_work = true → ∀ k, Selected args k → .created k ∈ h) :
    LegalAfter (Allowed args) h es := by
  cases hmove with
  | idle => trivial
  | calloc_fails =>
    refine ⟨⟨hok.created.mpr nofun, fun b hb => ?_⟩, trivial⟩
    cases (hok.returned b).mp hb
  | start => trivial
  | tsc t => exact ⟨hall (hok.started (.inl rfl)), trivial⟩
  | quit => trivial
  | store =>
    refine ⟨fun b hb => ?_, trivial⟩
    cases (hok.returned b).mp hb
  | finish => trivial
  | ret b =>
    refine ⟨?_, trivial⟩
    rintro rfl hfails
    rcases hok.fails.mp hfails with hst | hst
    · cases hst
    · cases hst

/-- A step of a worker, with what it changes in the state. -/
theorem worker_step_eq {args : GlobalArgs} {es : List Event} {s t : State}
    {cpu : Nat} {c : Choice} (hstep : s.worker_step args cpu c = some (t, es)) :
    ∃ ctl w, worker_main_step args.toArgs cpu s.start_work s.quit_thread
      (s.ws cpu).toWorker c
        (s.workers cpu) = some (ctl, w, es) ∧
      t = { s with
        workers := Function.update s.workers cpu ctl
        ws := Function.update s.ws cpu { s.ws cpu with toWorker := w } } := by
  obtain ⟨⟨ctl, w, es'⟩, hmain, heq⟩ := Option.map_eq_some_iff.mp hstep
  obtain ⟨rfl, rfl⟩ := Prod.mk.inj heq
  exact ⟨ctl, w, hmain, rfl⟩

/-- What a step of a worker does to the stages: its own moves. -/
structure WorkerStepped (s t : State) (cpu : Nat) (es : List Event) : Prop where
  main : t.main = s.main
  start_work : t.start_work = s.start_work
  quit_thread : t.quit_thread = s.quit_thread
  moves : Moves s.start_work s.quit_thread cpu (s.stage cpu) (t.stage cpu) es
  other : ∀ k, k ≠ cpu → t.stage k = s.stage k

/-- It moves the stage of its own thread. -/
theorem worker_step_stages {args : GlobalArgs} {es : List Event} {s t : State}
    {cpu : Nat} {c : Choice} (hstep : s.worker_step args cpu c = some (t, es)) :
    WorkerStepped s t cpu es := by
  obtain ⟨ctl, w, hmain, rfl⟩ := worker_step_eq hstep
  refine ⟨rfl, rfl, rfl, ?_, fun k hk => ?_⟩
  · simpa [State.stage] using worker_main_step_moves hmain
  · simp [State.stage, Function.update_of_ne hk]

/-- No other thread is created by it. -/
theorem WorkerStepped.absent_iff {es : List Event} {s t : State} {cpu : Nat}
    (h : WorkerStepped s t cpu es) (k : Nat) :
    s.stage k = .absent ↔ t.stage k = .absent := by
  by_cases hk : k = cpu
  · subst hk
    exact h.moves.absent_iff
  · rw [h.other k hk]

/-- Threads that are done stay done. -/
theorem WorkerStepped.of_done {es : List Event} {s t : State} {cpu : Nat}
    (h : WorkerStepped s t cpu es) {k : Nat} {b : Bool}
    (hst : s.stage k = .done b) : t.stage k = .done b := by
  by_cases hk : k = cpu
  · subst hk
    exact h.moves.of_done hst
  · rwa [h.other k hk]

/-- **A step of a worker** keeps the invariant. -/
theorem Inv.worker {args : GlobalArgs} {h es : List Event} {s t : State}
    {cpu : Nat} {c : Choice} (hinv : Inv args h s)
    (hstep : s.worker_step args cpu c = some (t, es)) :
    Inv args (h ++ es) t ∧ LegalAfter (Allowed args) h es := by
  have hst := worker_step_stages hstep
  have hthread := hst.moves.thread
  refine ⟨⟨?_, ?_, ?_, ?_⟩, ?_⟩
  · intro k
    rw [hst.start_work, hst.quit_thread]
    by_cases hk : k = cpu
    · subst hk
      exact (hinv.threads k).move hst.moves
    · rw [hst.other k hk]
      refine (hinv.threads k).frame (fun e he heq => hk ?_) id id
      rw [hthread e he] at heq
      exact (Option.some.inj heq).symm
  · intro hstart k hk habs
    rw [hst.start_work] at hstart
    exact hinv.created hstart k hk ((hst.absent_iff k).mpr habs)
  · intro hprinting k hk
    have hbefore : .pp_results ∈ h := by
      rcases List.mem_append.mp hprinting with hmem | hmem
      · exact hmem
      · cases hthread _ hmem
    exact hst.of_done (hinv.printing hbefore k hk)
  · exact hinv.main.mono hst.main hst.quit_thread hst.absent_iff (fun k => hst.of_done)
      (List.subset_append_left _ _)
  · exact hst.moves.legal (hinv.threads cpu) fun hstart k hk =>
      (hinv.threads k).created.mpr (hinv.created hstart k hk)

/-- A step of `main` that creates no thread. -/
theorem Inv.of_main {args : GlobalArgs} {h es : List Event} {s t : State}
    (hinv : Inv args h s) (hworkers : t.workers = s.workers)
    (hes : ∀ e ∈ es, e.thread = none)
    (hstart : t.start_work = true → s.start_work = true ∨ AllCreated args s)
    (hkeep : s.start_work = true → t.start_work = true)
    (hquit : s.quit_thread = true → t.quit_thread = true)
    (hprinting : .pp_results ∈ es → AllDone args s)
    (hmain : MainOk args (h ++ es) t) : Inv args (h ++ es) t := by
  have hstage : ∀ k, t.stage k = s.stage k := by
    intro k
    rw [State.stage, State.stage, hworkers]
  constructor
  · intro k
    rw [hstage k]
    refine (hinv.threads k).frame (fun e he heq => ?_) hkeep hquit
    rw [hes e he] at heq
    cases heq
  · intro ht k hk
    rw [hstage k]
    rcases hstart ht with hs | hall
    · exact hinv.created hs k hk
    · exact hall k hk
  · intro hmem k hk
    rw [hstage k]
    rcases List.mem_append.mp hmem with hmem | hmem
    · exact hinv.printing hmem k hk
    · exact hprinting hmem k hk
  · exact hmain

/-- A step of `main` to another place in its code. -/
theorem Inv.goto {args : GlobalArgs} {h : List Event} {s : State}
    {ctl : MainCtl} (hinv : Inv args h s) (hmain : MainOk args h (s.goto ctl)) :
    Inv args h (s.goto ctl) := by
  have hgoto : MainOk args (h ++ []) (s.goto ctl) →
      Inv args (h ++ []) (s.goto ctl) :=
    hinv.of_main rfl nofun .inl id id nofun
  rw [List.append_nil] at hgoto
  exact hgoto hmain

/-- The step that creates the thread of a CPU. -/
theorem Inv.create {args : GlobalArgs} {h : List Event} {s : State} {cpu : Nat}
    {ctl : MainCtl} (hinv : Inv args h s) (habsent : s.stage cpu = .absent)
    (hcpu : Selected args cpu) (hmain : MainOk args (h ++ [Event.created cpu])
      { s.goto ctl with workers := Function.update s.workers cpu .calloc }) :
    Inv args (h ++ [Event.created cpu])
      { s.goto ctl with workers := Function.update s.workers cpu .calloc } := by
  let t : State :=
    { s.goto ctl with workers := Function.update s.workers cpu .calloc }
  have hself : t.stage cpu = .fresh := by simp [t, State.stage, WorkerCtl.stage]
  have hother : ∀ k, k ≠ cpu → t.stage k = s.stage k := by
    intro k hk
    simp [t, State.stage, Function.update_of_ne hk]
  constructor
  · intro k
    show ThreadOk (h ++ [Event.created cpu]) s.start_work s.quit_thread k (t.stage k)
    by_cases hk : k = cpu
    · subst hk
      rw [hself]
      have hok := hinv.threads k
      rw [habsent] at hok
      exact hok.create
    · rw [hother k hk]
      refine (hinv.threads k).frame (fun e he heq => hk ?_) id id
      obtain rfl := List.mem_singleton.mp he
      exact (Option.some.inj heq).symm
  · intro hstart
    exact absurd habsent (hinv.created hstart cpu hcpu)
  · intro hprinting
    have hbefore : .pp_results ∈ h := by simpa using hprinting
    have hdone := hinv.printing hbefore cpu hcpu
    rw [habsent] at hdone
    cases hdone
  · exact hmain

section main_step

variable {args : GlobalArgs} {h es : List Event} {s t : State} {c : Choice}

/-- What a step of `main` comes to. -/
structure Stepped (args : GlobalArgs) (h : List Event) (s t : State)
    (es : List Event) : Prop where
  inv : Inv args (h ++ es) t
  legal : LegalAfter (Allowed args) h es
  overheard : Overheard args s t es

/-- Every step of `main` from this state comes to that. -/
def MainStep (args : GlobalArgs) (h : List Event) (s : State)
    (c : Choice) : Prop :=
  ∀ t es, s.main_step args c = some (t, es) → Stepped args h s t es

/-- A step to another place, where `main` knows what it has to. -/
theorem Inv.step_to (hinv : Inv args h s) {ctl : MainCtl}
    (heq : some (s.goto ctl, []) = some (t, es))
    (hmain : MainOk args h (s.goto ctl)) : Stepped args h s t es := by
  refine ⟨?_, ?_, .goto heq⟩
  all_goals cases heq
  · rw [List.append_nil]
    exact hinv.goto hmain
  · trivial

/-- The step at the creation of a thread, which may fail in two ways. -/
theorem Inv.create_workers_step (hinv : Inv args h s) {cpu : Nat}
    {cpus : List Nat} (hs : s.main = .create_workers (cpu :: cpus)) :
    MainStep args h s c := by
  intro t es hstep
  have hmain := hinv.main
  simp only [MainOk, hs] at hmain
  obtain ⟨hquit, hpassed, habsent⟩ := hmain
  simp only [State.main_step, hs] at hstep
  split at hstep
  · next hset =>
    have hcpu := hpassed.selected hset
    have hnone := habsent cpu List.mem_cons_self
    split at hstep
    · exact hinv.step_to hstep trivial
    · cases hstep
      exact ⟨hinv.create hnone hcpu trivial, ⟨hcpu, trivial⟩,
        .create (absent_of_stage hnone)⟩
    · cases hstep
      refine ⟨hinv.create hnone hcpu ?_, ⟨hcpu, trivial⟩,
        .create (absent_of_stage hnone)⟩
      -- the thread just created is the only one whose stage changes
      refine ⟨hquit, (hpassed.mono fun k hk => ?_).next fun _ => ?_, fun k hk => ?_⟩
      · by_cases hkc : k = cpu
        · simp [hkc, State.stage, WorkerCtl.stage]
        · simpa [State.stage, Function.update_of_ne hkc] using hk
      · simp [State.stage, WorkerCtl.stage]
      · have hkc : k ≠ cpu := by
          rintro rfl
          exact hpassed.notMem hk
        simpa [State.stage, Function.update_of_ne hkc] using
          habsent k (List.mem_cons_of_mem _ hk)
  · next hset =>
    refine hinv.step_to hstep ?_
    exact ⟨hquit, hpassed.next fun h => absurd h hset,
      fun k hk => habsent k (List.mem_cons_of_mem _ hk)⟩

/-- Before `quit_thread` is stored no thread has returned its `Worker`. -/
theorem Inv.failed_of_returned (hinv : Inv args h s)
    (hquit : s.quit_thread = false) {cpu : Nat} {b : Bool}
    (hret : .returned cpu b ∈ h) : .calloc_fails cpu ∈ h := by
  have hthread := hinv.threads cpu
  have hdone := (hthread.returned b).mp hret
  cases b with
  | false => exact hthread.fails.mpr (.inr hdone)
  | true =>
    have htrue := hthread.stopped (.inr (.inr hdone))
    rw [hquit] at htrue
    cases htrue

/-- The step at the file of a thread, which ends `main` if it fails. -/
theorem Inv.read_proc_sched_step (hinv : Inv args h s) {cpu : Nat}
    {cpus : List Nat} (hs : s.main = .read_proc_sched (cpu :: cpus)) :
    MainStep args h s c := by
  intro t es hstep
  have hmain := hinv.main
  simp only [MainOk, hs] at hmain
  obtain ⟨hquit, hall, hpassed⟩ := hmain
  simp only [State.main_step, hs] at hstep
  split at hstep
  · next hset =>
    obtain ⟨⟨r, w⟩, hread, heq⟩ := Option.map_eq_some_iff.mp hstep
    obtain ⟨rfl, rfl⟩ := Prod.mk.inj heq
    refine ⟨hinv.of_main rfl (by simp [Event.thread]) .inl id id (by simp) ?_,
      ⟨⟨?_, ?_⟩, trivial⟩, .sched (toWorker_read_proc_sched hread)⟩
    · by_cases hr : r = 0
      · simp only [State.goto, hr, if_true]
        exact ⟨hquit, hall, hpassed.next fun _ => trivial⟩
      · simp only [State.goto, hr, if_false]
        trivial
    · exact (hinv.threads cpu).created.mpr (hall cpu (hpassed.selected hset))
    · exact fun b hret => hinv.failed_of_returned hquit hret
  · exact hinv.step_to hstep ⟨hquit, hall, hpassed.next fun _ => trivial⟩

/-- The step at a join, which waits for the thread to be done. -/
theorem Inv.join_workers_step (hinv : Inv args h s) {cpus : List Nat}
    {error_in_thread : Bool}
    (hs : s.main = .join_workers cpus error_in_thread) :
    MainStep args h s c := by
  intro t es hstep
  have hmain := hinv.main
  simp only [MainOk, hs] at hmain
  cases cpus with
  | nil =>
    simp only [State.main_step, hs] at hstep
    split at hstep
    · exact hinv.step_to hstep trivial
    · next herr =>
      have hdone : AllDone args s := (hmain (by simpa using herr)).leave
      cases hstep
      refine ⟨hinv.of_main rfl (by simp [Event.thread]) .inl id id (fun _ => hdone) ?_,
        ⟨?_, trivial⟩, .of_eq rfl rfl (by simp [Event.thread]) (by simp [RowsOf])⟩
      · exact ⟨by simp, Passed.enter args _⟩
      · exact fun k hk => ((hinv.threads k).returned true).mpr (hdone k hk)
  | cons cpu cpus =>
    simp only [State.main_step, hs] at hstep
    split at hstep
    · split at hstep
      · exact hinv.step_to hstep trivial
      · split at hstep
        · next nonnull hworker =>
          refine hinv.step_to hstep fun herr => ?_
          obtain ⟨herr, hnonnull⟩ := Bool.or_eq_false_iff.mp herr
          refine (hmain herr).next fun _ => ?_
          simp only [State.stage, hworker, WorkerCtl.stage]
          simpa using hnonnull
        · cases hstep
    · next hset =>
      exact hinv.step_to hstep fun herr => (hmain herr).next fun h => absurd h hset

/-- The step at a row, which reads the fields of a thread that is done. -/
theorem Inv.pp_results_step (hinv : Inv args h s) {cpu : Nat} {cpus : List Nat}
    (hs : s.main = .pp_results (cpu :: cpus)) : MainStep args h s c := by
  intro t es hstep
  have hmain := hinv.main
  simp only [MainOk, hs] at hmain
  obtain ⟨hprinting, hpassed⟩ := hmain
  have hnext : Passed args cpus (fun _ => True) := hpassed.next fun _ => trivial
  -- only the turn of a selected CPU reads fields
  have hfields : row_turn args (fun k => (s.ws k).toWorker)
      (fun k => (s.ws k).invol_switch)
      (fun _ => c.ys) cpu ≠ .skip → Allowed args h (.fields cpu) := by
    intro hturn
    have hset : CPU_ISSET cpu args.cpu_set = true := by
      by_contra hset
      simp [row_turn, hset] at hturn
    have hdone := hinv.printing hprinting cpu (hpassed.selected hset)
    exact ⟨hprinting, ((hinv.threads cpu).returned true).mpr hdone⟩
  simp only [State.main_step, hs] at hstep
  split at hstep
  · next r hturn =>
    cases hstep
    refine ⟨hinv.of_main rfl (by simp [Event.thread]) .inl id id (by simp) ?_,
      ⟨?_, ?_, trivial⟩, .of_eq rfl rfl (by simp [Event.thread]) ?_⟩
    · exact ⟨List.mem_append_left _ hprinting, hnext⟩
    · exact hfields (by simp [hturn])
    · show Event.fields cpu ∈ h ++ [Event.fields cpu]
      simp
    · intro k r' hrow
      obtain ⟨rfl, rfl⟩ : k = cpu ∧ r' = r := by simpa using hrow
      exact ⟨_, row_of_turn hturn⟩
  · exact hinv.step_to hstep ⟨hprinting, hnext⟩
  · next hturn =>
    cases hstep
    exact ⟨hinv.of_main rfl (by simp [Event.thread]) .inl id id (by simp) trivial,
      ⟨hfields (by simp [hturn]), trivial⟩,
      .of_eq rfl rfl (by simp [Event.thread]) (by simp [RowsOf])⟩
  · next hturn =>
    cases hstep
    exact ⟨hinv.of_main rfl (by simp [Event.thread]) .inl id id (by simp) trivial,
      ⟨hfields (by simp [hturn]), trivial⟩,
      .of_eq rfl rfl (by simp [Event.thread]) (by simp [RowsOf])⟩

/-- **A step of `main`** keeps the invariant. -/
theorem Inv.main_step (hinv : Inv args h s) : MainStep args h s c := by
  have hmain := hinv.main
  cases hs : s.main with
  | create_workers cpus =>
    cases cpus with
    | nil =>
      intro t es hstep
      simp only [MainOk, hs] at hmain
      simp only [State.main_step, hs] at hstep
      exact hinv.step_to hstep ⟨hmain.1, hmain.2.1.leave⟩
    | cons cpu cpus => exact hinv.create_workers_step hs
  | start_work =>
    intro t es hstep
    simp only [MainOk, hs] at hmain
    simp only [State.main_step, hs] at hstep
    cases hstep
    exact ⟨hinv.of_main rfl nofun (fun _ => .inr hmain.2)
      (fun _ => rfl) id nofun hmain, trivial, .of_eq rfl rfl nofun nofun⟩
  | nanosleep =>
    intro t es hstep
    simp only [MainOk, hs] at hmain
    simp only [State.main_step, hs] at hstep
    split at hstep
    · exact hinv.step_to hstep trivial
    · exact hinv.step_to hstep ⟨hmain.1, hmain.2, Passed.enter args _⟩
  | read_proc_sched cpus =>
    cases cpus with
    | nil =>
      intro t es hstep
      simp only [MainOk, hs] at hmain
      simp only [State.main_step, hs] at hstep
      exact hinv.step_to hstep ⟨hmain.1, hmain.2.1⟩
    | cons cpu cpus => exact hinv.read_proc_sched_step hs
  | quit_thread =>
    intro t es hstep
    simp only [State.main_step, hs] at hstep
    cases hstep
    exact ⟨hinv.of_main rfl nofun .inl id (fun _ => rfl) nofun
      fun _ => Passed.enter args _, trivial, .of_eq rfl rfl nofun nofun⟩
  | join_workers cpus error_in_thread => exact hinv.join_workers_step hs
  | pp_results cpus =>
    cases cpus with
    | nil =>
      intro t es hstep
      simp only [State.main_step, hs] at hstep
      exact hinv.step_to hstep trivial
    | cons cpu cpus => exact hinv.pp_results_step hs
  | ret code =>
    intro t es hstep
    simp only [State.main_step, hs] at hstep
    cases hstep
  | abort =>
    intro t es hstep
    simp only [State.main_step, hs] at hstep
    cases hstep

end main_step

/-- **Every history is legal**, in every interleaving. -/
theorem legal_of_run {args : GlobalArgs} {ok : State → Label → Prop}
    {h : List Event} {s : State} (hrun : Run (osjitter args) ok h s) :
    Legal (Allowed args) h := by
  refine (Steps.legal (I := Inv args) ?_ hrun (inv_init args)).2
  intro h s a t es hinv _ hstep
  cases a with
  | main c =>
    have hstepped := hinv.main_step t es hstep
    exact ⟨hstepped.inv, hstepped.legal⟩
  | worker cpu c => exact hinv.worker hstep

section legal

variable {args : GlobalArgs} {h : List Event}

/-- Threads are created for selected CPUs. -/
theorem selected_of_created (hlegal : Legal (Allowed args) h) {cpu : Nat}
    (hcreated : .created cpu ∈ h) : Selected args cpu := by
  obtain ⟨h₁, h₂, rfl, -, hallowed⟩ := hlegal.of_mem hcreated
  exact hallowed

/-- Only a thread that was created can fail to allocate. -/
theorem created_of_fails (hlegal : Legal (Allowed args) h) {cpu : Nat}
    (hfails : .calloc_fails cpu ∈ h) : .created cpu ∈ h := by
  obtain ⟨h₁, h₂, rfl, -, hallowed⟩ := hlegal.of_mem hfails
  exact List.mem_append_left _ hallowed.1

/-- A thread that fails to allocate does not return its `Worker`, neither
before nor after. -/
theorem not_returned_of_fails (hlegal : Legal (Allowed args) h) {cpu : Nat}
    (hfails : .calloc_fails cpu ∈ h) : .returned cpu true ∉ h := by
  intro hret
  obtain ⟨h₁, h₂, rfl, -, hallowed⟩ := hlegal.of_mem hret
  have hbefore : .calloc_fails cpu ∉ h₁ := hallowed rfl
  have hafter : .calloc_fails cpu ∈ h₂ := by simpa [hbefore] using hfails
  obtain ⟨h₃, h₄, rfl⟩ := List.mem_iff_append.mp hafter
  rw [← List.cons_append, ← List.append_assoc] at hlegal
  have hnone : ∀ b, .returned cpu b ∉ h₁ ++ Event.returned cpu true :: h₃ :=
    (hlegal.split : Allowed args _ (.calloc_fails cpu)).2
  exact hnone true (by simp)

/-- Nothing is stored to fields once they are read. -/
theorem no_store_of_fields {h₁ h₂ : List Event} {cpu : Nat}
    (hlegal : Legal (Allowed args) (h₁ ++ Event.fields cpu :: h₂)) :
    .store cpu ∉ h₂ := by
  intro hstore
  have hret : .returned cpu true ∈ h₁ :=
    (hlegal.split : Allowed args h₁ (.fields cpu)).2
  obtain ⟨h₃, h₄, rfl⟩ := List.mem_iff_append.mp hstore
  rw [← List.cons_append, ← List.append_assoc] at hlegal
  have hnone : ∀ b, .returned cpu b ∉ h₁ ++ Event.fields cpu :: h₃ :=
    (hlegal.split : Allowed args _ (.store cpu))
  exact hnone true (List.mem_append_left _ hret)

/-- Rows are printed by `pp_results` alone, and of threads that returned their
`Worker`. -/
theorem printing_of_row (hlegal : Legal (Allowed args) h) {cpu : Nat} {r : Row}
    (hrow : .row cpu r ∈ h) : .pp_results ∈ h ∧ .returned cpu true ∈ h := by
  obtain ⟨h₁, h₂, rfl, hlegal₁, hallowed⟩ := hlegal.of_mem hrow
  have hfields : .fields cpu ∈ h₁ := hallowed
  obtain ⟨h₃, h₄, rfl, -, hprinting, hret⟩ := hlegal₁.of_mem hfields
  simp [hprinting, hret]

end legal

/-- **The handshake of `osjitter.c`.** In every run: no reading of the TSC
before all threads are created; no `/proc/…/sched` after its thread returned,
unless an allocation failed; results only when every thread has returned its
`Worker`, each behind the last store to its fields; and none if an allocation
fails. -/
theorem handshake {args : GlobalArgs} {h : List Event} {s : State}
    (hrun : Run (osjitter args) (fun _ _ => True) h s) :
    (∀ h₁ h₂ cpu t, h = h₁ ++ Event.tsc cpu t :: h₂ →
      ∀ k, Selected args k → .created k ∈ h₁) ∧
    ((∀ k, .calloc_fails k ∉ h) → ∀ h₁ h₂ cpu, h = h₁ ++ Event.sched cpu :: h₂ →
      .created cpu ∈ h₁ ∧ ∀ b, .returned cpu b ∉ h₁) ∧
    (∀ h₁ h₂, h = h₁ ++ Event.pp_results :: h₂ →
      ∀ k, .created k ∈ h → .returned k true ∈ h₁) ∧
    (∀ h₁ h₂ cpu, h = h₁ ++ Event.fields cpu :: h₂ →
      .pp_results ∈ h₁ ∧ .returned cpu true ∈ h₁ ∧ .store cpu ∉ h₂) ∧
    ∀ k, .calloc_fails k ∈ h → .pp_results ∉ h ∧ ∀ cpu r, .row cpu r ∉ h := by
  have hlegal := legal_of_run hrun
  refine ⟨?_, ?_, ?_, ?_, ?_⟩
  · rintro h₁ h₂ cpu t rfl
    exact (hlegal.split : Allowed args h₁ (.tsc cpu t))
  · rintro hnone h₁ h₂ cpu rfl
    obtain ⟨hcreated, hret⟩ := (hlegal.split : Allowed args h₁ (.sched cpu))
    exact ⟨hcreated, fun b hb => hnone cpu (List.mem_append_left _ (hret b hb))⟩
  · rintro h₁ h₂ rfl k hcreated
    exact (hlegal.split : Allowed args h₁ .pp_results) k
      (selected_of_created hlegal hcreated)
  · rintro h₁ h₂ cpu rfl
    obtain ⟨hprinting, hret⟩ := (hlegal.split : Allowed args h₁ (.fields cpu))
    exact ⟨hprinting, hret, no_store_of_fields hlegal⟩
  · intro k hfails
    have hnot : .pp_results ∉ h := by
      intro hprinting
      have hsel := selected_of_created hlegal (created_of_fails hlegal hfails)
      have hret : .returned k true ∈ h := by
        obtain ⟨h₁, h₂, rfl, -, hallowed⟩ := hlegal.of_mem hprinting
        exact List.mem_append_left _ (hallowed k hsel)
      exact not_returned_of_fails hlegal hfails hret
    exact ⟨hnot, fun cpu r hrow => hnot (printing_of_row hlegal hrow).1⟩

/-- Two CPUs, both selected. -/
def two_cpus : GlobalArgs :=
  { GlobalArgs.zero with cpus := 2, cpu_set := {0, 1} }

/-- Both threads are created, measure, are seen in `/proc`, and return. -/
def orderly : List Label :=
  List.flatten
    [[.main {}, .main {}, .worker 1 {}, .main {}, .main {}],
      List.replicate 2 (.worker 0 {}),
      [.worker 0 { tsc := 5 }, .worker 0 {}, .worker 0 {}, .worker 1 {}],
      [.worker 1 { tsc := 7 }, .worker 1 {}, .worker 1 {}, .main {}],
      [.main { file := .contents (sched_line 0 0 7) false }],
      [.main { file := .contents (sched_line 0 0 8) false }, .main {}, .main {}],
      List.replicate 11 (.worker 0 {}), List.replicate 11 (.worker 1 {}),
      List.replicate 3 (.main {})]

/-- What that run shows. -/
def orderlyEvents : List Event :=
  List.flatten
    [[.created 0, .created 1, .tsc 0 5, .tsc 1 7, .sched 0, .sched 1],
      List.replicate 8 (.store 0), [.returned 0 true],
      List.replicate 8 (.store 1), [.returned 1 true, .pp_results]]

/-- A run that reaches the results: nothing failed in it. -/
theorem handshake_two :
    ∃ s, Run (osjitter two_cpus) (fun _ _ => True) orderlyEvents s ∧
      ∀ k, .calloc_fails k ∉ orderlyEvents := by
  obtain ⟨s, hrun⟩ : ∃ s,
      Run (osjitter two_cpus) (fun _ _ => True) orderlyEvents s :=
    Machine.run_of_exec orderly (by decide +kernel)
  refine ⟨s, hrun, fun k hfails => ?_⟩
  exact ((handshake hrun).2.2.2.2 k hfails).1 (by decide)

end Osjitter.Jitter
