/-
Osjitter.Jitter.Termination — `osjitter` comes to its end under every scheduler.

  §1 The rank of a thread: what it has to do before it returns. A step decreases
     it, or the thread waits for a flag and nothing has changed
     (`worker_main_step_rank`). The loop that measures ends because every
     reading is above the one before (`Ascending`), so that the cycles up to
     the limit bound its iterations, whatever the readings are.
  §2 The rank of the program: the loops of `main`, and the threads that are
     still to be created. `ranked` makes it one of `Lib.Ranking`, and
     `le_budget` bounds the steps of a run that are not spent waiting.
  §3 `OnTrack`: a run in which no call fails has always a step to take, until
     `main` returns 0. Where `main` waits for a thread in a join, the thread has
     a step (`exists_worker_step`), as both flags are set then. A row can be
     computed, since the arrays are sorted and short enough (`exists_row`).

`comes_to_end` has both halves. No fairness is assumed: a scheduler that lets a
thread spin on a flag for ever is excluded by nothing, but such steps are not
counted. Calls that block for ever are left out.
-/
import Mathlib
import Osjitter.Lib.Ranking
import Osjitter.Jitter.Report

namespace Osjitter.Jitter

open Machines Util

/-! ## §1 Threads

A thread has come closer to its end if its rank is less. In the loop that
measures it is the time to the limit, which every reading shortens, with the
stores to come; behind the loop it is the stores that are left. Waiting for a
flag leaves the rank as it is. -/

/-- A reading of the loop is above the one before. -/
def WorkerCtl.Ascends (args : Args) (c : Choice) : WorkerCtl → Prop
  | .unrolled t m => m.tsc < t + args.tsc_runtime → m.tsc < c.tsc
  | .loop t m => m.tsc < t + args.tsc_runtime → m.tsc < c.tsc
  | _ => True

/-- The clock of every core goes up. -/
def Ascending (args : GlobalArgs) (s : State) : Label → Prop
  | .main _ => True
  | .worker cpu c => (s.workers cpu).Ascends args.toArgs c

/-- A bound of the steps of a thread. -/
def Args.budget (args : Args) : Nat := args.tsc_runtime.toNat + args.n + 16

/-- What a thread has to do, in steps. -/
def WorkerCtl.rank (args : Args) : WorkerCtl → Nat
  | .absent => args.budget
  | .calloc => args.budget
  | .start_work => args.tsc_runtime.toNat + args.n + 15
  | .start => args.tsc_runtime.toNat + args.n + 14
  | .unrolled t m => (t + args.tsc_runtime).toNat - m.tsc.toNat + args.n + 13
  | .loop t m => (t + args.tsc_runtime).toNat - m.tsc.toNat + args.n + 12
  | .quit_thread _ _ => args.n + 11
  | .store todo => todo.length + 2
  | .ret _ => 1
  | .done _ => 0

/-- The limit is at most the runtime away, also where it has wrapped. -/
theorem limit_sub_le (start runtime : UInt64) :
    (start + runtime).toNat - start.toNat ≤ runtime.toNat := by
  have hsum := UInt64.toNat_add start runtime
  have hmod := Nat.mod_le (start.toNat + runtime.toNat) (2 ^ 64)
  omega

/-- There are as many stores as entries, and eight. -/
theorem length_stores_le (args : Args) (start : UInt64) (m : Locals) :
    (stores args start m).length ≤ args.n + 8 := by
  simp only [stores, List.length_append, List.length_cons, List.length_nil,
    List.length_map, List.length_range]
  split <;> omega

/-- A later reading leaves less time to the limit. -/
theorem tsc_lt_rank {limit tsc t : UInt64} (hlt : tsc < limit)
    (hasc : tsc < t) : limit.toNat - t.toNat + 1 ≤ limit.toNat - tsc.toNat := by
  rw [UInt64.lt_iff_toNat_lt] at hlt hasc
  omega

section worker

variable {args : GlobalArgs} {cpu : Nat} {start_work quit_thread : Bool}
  {w w' : Worker} {c : Choice} {ctl ctl' : WorkerCtl} {es : List Event}

/-- **A step of a thread** brings it on, unless it waits. -/
theorem worker_main_step_rank
    (h : worker_main_step args.toArgs cpu start_work quit_thread w c ctl =
      some (ctl', w', es))
    (hasc : ctl.Ascends args.toArgs c) :
    ctl' = ctl ∧ w' = w ∨ ctl'.rank args.toArgs < ctl.rank args.toArgs := by
  cases ctl with
  | absent => cases h
  | calloc =>
    simp only [worker_main_step] at h
    split at h
    all_goals
      cases h
      right
      simp only [WorkerCtl.rank, Args.budget]
      omega
  | start_work =>
    cases h
    cases start_work with
    -- still waiting
    | false => exact .inl ⟨rfl, rfl⟩
    | true =>
      right
      simp [WorkerCtl.rank]
  | start =>
    cases h
    right
    -- the limit may have wrapped, which leaves less to wait for
    have hlimit := limit_sub_le c.tsc args.tsc_runtime
    simp only [WorkerCtl.rank, Args.locals]
    omega
  | unrolled start m =>
    simp only [worker_main_step] at h
    split at h
    · next hlt =>
      cases h
      right
      have hdrop := tsc_lt_rank hlt (hasc hlt)
      simp only [WorkerCtl.rank, Locals.forget, Jitter.unrolled, account_tsc]
      omega
    · cases h
      right
      simp only [WorkerCtl.rank, Locals.forget]
      omega
  | loop start m =>
    simp only [worker_main_step] at h
    split at h
    · next hlt =>
      cases h
      right
      have hdrop := tsc_lt_rank hlt (hasc hlt)
      simp only [WorkerCtl.rank, iteration, account_tsc]
      omega
    · cases h
      right
      simp only [WorkerCtl.rank]
      omega
  | quit_thread start m =>
    cases h
    cases quit_thread with
    | false => exact .inl ⟨rfl, rfl⟩
    | true =>
      right
      have hlen := length_stores_le args.toArgs start m
      simp only [if_true, WorkerCtl.rank]
      omega
  | store todo =>
    cases todo with
    | nil =>
      cases h
      right
      simp [WorkerCtl.rank]
    | cons f todo =>
      cases h
      right
      simp [WorkerCtl.rank]
  | ret nonnull =>
    cases h
    right
    simp [WorkerCtl.rank]
  | done nonnull => cases h

end worker

/-! ## §2 The program

The rank of the program adds up that of `main` and those of all threads it may
have. A thread that is absent has the rank of one that was just created, so the
sum does not grow where `main` creates it. -/

/-- What `main` has to do, in steps, with `n` CPUs. -/
def MainCtl.rank (n : Nat) : MainCtl → Nat
  | .create_workers cpus => cpus.length + 3 * n + 8
  | .start_work => 3 * n + 7
  | .nanosleep => 3 * n + 6
  | .read_proc_sched cpus => cpus.length + 2 * n + 5
  | .quit_thread => 2 * n + 4
  | .join_workers cpus _ => cpus.length + n + 3
  | .pp_results cpus => cpus.length + 2
  | .ret _ => 0
  | .abort => 0

/-- What is left for all of them. -/
def State.rank (args : GlobalArgs) (s : State) : Nat :=
  s.main.rank args.cpus.toNat +
    (args.selected.map fun cpu => (s.workers cpu).rank args.toArgs).sum

/-- A bound of the steps of all. -/
def GlobalArgs.budget (args : GlobalArgs) : Nat :=
  4 * args.cpus.toNat + 8 + args.selected.length * args.toArgs.budget

section program

variable {args : GlobalArgs} {h es : List Event} {s t : State} {cpu : Nat}
    {c : Choice}

/-- Every step of `main` brings it closer to its end. -/
theorem main_step_rank (hstep : s.main_step args c = some (t, es)) :
    t.main.rank args.cpus.toNat < s.main.rank args.cpus.toNat := by
  have hall : args.all_cpus.length = args.cpus.toNat := List.length_range
  cases hs : s.main with
  | create_workers cpus =>
    cases cpus with
    | nil =>
      simp only [State.main_step, hs] at hstep
      cases hstep
      simp [State.goto, MainCtl.rank]
    | cons cpu cpus =>
      simp only [State.main_step, hs] at hstep
      split at hstep
      · split at hstep <;> cases hstep <;> simp [State.goto, MainCtl.rank]
      · cases hstep
        simp [State.goto, MainCtl.rank]
  | start_work =>
    simp only [State.main_step, hs] at hstep
    cases hstep
    simp [State.goto, MainCtl.rank]
  | nanosleep =>
    simp only [State.main_step, hs] at hstep
    split at hstep
    · cases hstep
      simp [State.goto, MainCtl.rank]
    · cases hstep
      simp only [State.goto, MainCtl.rank]
      omega
  | read_proc_sched cpus =>
    cases cpus with
    | nil =>
      simp only [State.main_step, hs] at hstep
      cases hstep
      simp [State.goto, MainCtl.rank]
    | cons cpu cpus =>
      simp only [State.main_step, hs] at hstep
      split at hstep
      -- a failure goes to the joins early, which have a lower rank
      · obtain ⟨⟨r, w⟩, -, heq⟩ := Option.map_eq_some_iff.mp hstep
        cases heq
        by_cases hr : r = 0 <;> simp [State.goto, MainCtl.rank, hr]
      · cases hstep
        simp [State.goto, MainCtl.rank]
  | quit_thread =>
    simp only [State.main_step, hs] at hstep
    cases hstep
    simp only [State.goto, MainCtl.rank]
    omega
  | join_workers cpus error_in_thread =>
    cases cpus with
    | nil =>
      simp only [State.main_step, hs] at hstep
      split at hstep
      · cases hstep
        simp [State.goto, MainCtl.rank]
      · cases hstep
        simp [State.goto, MainCtl.rank, hall]
    | cons cpu cpus =>
      simp only [State.main_step, hs] at hstep
      split at hstep
      · split at hstep
        · cases hstep
          simp [State.goto, MainCtl.rank]
        · split at hstep
          · cases hstep
            simp [State.goto, MainCtl.rank]
          · cases hstep
      · cases hstep
        simp [State.goto, MainCtl.rank]
  | pp_results cpus =>
    cases cpus with
    | nil =>
      simp only [State.main_step, hs] at hstep
      cases hstep
      simp [State.goto, MainCtl.rank]
    | cons cpu cpus =>
      simp only [State.main_step, hs] at hstep
      split at hstep <;> cases hstep <;> simp [State.goto, MainCtl.rank]
  | ret code =>
    simp only [State.main_step, hs] at hstep
    cases hstep
  | abort =>
    simp only [State.main_step, hs] at hstep
    cases hstep

/-- Only the threads of selected CPUs exist. -/
theorem mem_selected_of_run (hrun : Run (osjitter args) (fun _ _ => True) h s)
    (hctl : s.workers cpu ≠ .absent) : cpu ∈ args.selected := by
  have hstage : s.stage cpu ≠ .absent := fun habs => hctl (absent_of_stage habs)
  have hcreated := ((faithful_of_run hrun).inv.threads cpu).created.mpr hstage
  exact mem_selected.mpr (selected_of_created (legal_of_run hrun) hcreated)

/-- A step of a thread that does not wait. -/
theorem worker_step_rank (hrun : Run (osjitter args) (fun _ _ => True) h s)
    (hasc : Ascending args s (.worker cpu c))
    (hstep : s.worker_step args cpu c = some (t, es)) :
    t = s ∨ t.rank args < s.rank args := by
  obtain ⟨ctl, w, hmain, rfl⟩ := worker_step_eq hstep
  rcases worker_main_step_rank hmain hasc with ⟨hctl, hw⟩ | hlt
  · left
    rw [hctl, hw, Function.update_eq_self, Function.update_eq_self]
  · right
    have hmem : cpu ∈ args.selected := by
      refine mem_selected_of_run hrun fun habs => ?_
      rw [habs] at hmain
      cases hmain
    refine Nat.add_lt_add_left (List.sum_lt_sum _ _ (fun k _ => ?_) ⟨cpu, hmem, ?_⟩) _
    · by_cases hk : k = cpu
      · subst hk
        simpa using hlt.le
      · simp [Function.update_of_ne hk]
    · simpa using hlt

/-- **The rank of the program.** -/
theorem ranked (args : GlobalArgs) :
    Ranked (osjitter args) (Ascending args) (· = ·)
    (fun s => ∃ h, Run (osjitter args) (fun _ _ => True) h s) (State.rank args) where
  keep := by
    rintro s a t es ⟨h, hrun⟩ - hstep
    exact ⟨h ++ es, hrun.tail trivial hstep⟩
  idle := by
    rintro s a t es - - - rfl
    exact le_rfl
  drop := by
    rintro s a t es ⟨h, hrun⟩ hasc hstep hne
    cases a with
    | main c =>
      have hthreads :=
        ((faithful_of_run hrun).inv.main_step t es hstep).overheard.threads
      refine Nat.add_lt_add_of_lt_of_le (main_step_rank hstep)
        (List.sum_le_sum fun k _ => ?_)
      rcases hthreads k with heq | ⟨habsent, hcalloc⟩
      · rw [heq]
      · rw [habsent, hcalloc]
        exact le_rfl
    | worker cpu c => exact (worker_step_rank hrun hasc hstep).resolve_left hne

/-- The rank of the first state is the budget. -/
theorem rank_init (args : GlobalArgs) :
    (osjitter args).init.rank args = args.budget := by
  have hall : args.all_cpus.length = args.cpus.toNat := List.length_range
  simp only [State.rank, osjitter, MainCtl.rank, hall, WorkerCtl.rank, List.map_const',
    List.sum_replicate, smul_eq_mul, GlobalArgs.budget]
  omega

end program

/-! ## §3 The end

`OnTrack` says that nothing has failed so far, and `Ahead` that a step can be
made which changes the state. While `main` has not returned, one of them or a
thread is ahead. -/

/-- A run without failures: no thread has failed, the flags are set where `main`
has passed them, and it has not returned early. -/
structure OnTrack (s : State) : Prop where
  threads : ∀ cpu, s.workers cpu ≠ .ret false ∧ s.workers cpu ≠ .done false
  main : match s.main with
    | .create_workers _ => True
    | .start_work => True
    | .nanosleep => s.start_work = true
    | .read_proc_sched _ => s.start_work = true
    | .quit_thread => s.start_work = true
    | .join_workers _ error_in_thread =>
        error_in_thread = false ∧ s.start_work = true ∧ s.quit_thread = true
    | .pp_results _ => True
    | .ret code => code = 0
    | .abort => False

section end_of_run

variable {args : GlobalArgs} {h es : List Event} {s t : State} {cpu : Nat}
    {c : Choice}

/-- A thread without a failing call does not return null. -/
theorem worker_main_step_succeeds {start_work quit_thread : Bool}
    {w w' : Worker} {ctl ctl' : WorkerCtl}
    (h : worker_main_step args.toArgs cpu start_work quit_thread w c ctl =
      some (ctl', w', es))
    (hc : c.fails = false) (hctl : ctl ≠ .ret false) :
    ctl' ≠ .ret false ∧ ctl' ≠ .done false := by
  cases ctl with
  | absent => cases h
  | calloc =>
    simp only [worker_main_step, hc] at h
    cases h
    simp
  | start_work =>
    cases h
    cases start_work <;> simp
  | start =>
    cases h
    simp
  | unrolled start m =>
    simp only [worker_main_step] at h
    split at h <;> cases h <;> simp
  | loop start m =>
    simp only [worker_main_step] at h
    split at h <;> cases h <;> simp
  | quit_thread start m =>
    cases h
    cases quit_thread <;> simp
  | store todo =>
    cases todo <;> cases h <;> simp
  | ret nonnull =>
    cases h
    cases nonnull with
    | false => exact absurd rfl hctl
    | true => simp
  | done nonnull => cases h

/-- A step of a thread leaves everything on track. -/
theorem OnTrack.worker (ht : OnTrack s) (hok : NoFail s (.worker cpu c))
    (hstep : s.worker_step args cpu c = some (t, es)) : OnTrack t := by
  obtain ⟨ctl, w, hmain, rfl⟩ := worker_step_eq hstep
  refine ⟨fun k => ?_, ht.main⟩
  by_cases hk : k = cpu
  · subst hk
    simpa using worker_main_step_succeeds hmain hok (ht.threads k).1
  · simpa [Function.update_of_ne hk] using ht.threads k

/-- The recorded deltas of a thread that is done fit a row. -/
theorem exists_row {w : Worker} (hw : w.Sorted)
    (hfit : w.samples * 999 < 2 ^ 64) (invol_switch : UInt64) {ys : List UInt32}
    (hys : w.samples ≤ ys.length) :
    ∃ r, row args cpu w invol_switch ys = some r := by
  have hlen : w.recorded.length = w.samples := by
    simp [Worker.recorded, hw.room]
  obtain ⟨mad, hmad⟩ := exists_mad_u32 hw.sorted (by omega) (hlen.trans_le hys)
  obtain ⟨p, hp⟩ : ∃ p,
      percentiles args.mult args.shift w.recorded = some p := by
    by_cases hnil : w.recorded = []
    · exact ⟨_, by rw [hnil]; rfl⟩
    · obtain ⟨p, hp, -⟩ :=
        percentiles_eq hw.sorted hnil (hlen ▸ hfit) args.mult args.shift
      exact ⟨p, hp⟩
  obtain ⟨max, hmax⟩ : ∃ max, w.longest = some max := by
    unfold Worker.longest
    split
    · exact ⟨0, rfl⟩
    · have hroom := hw.room
      exact ⟨_, List.getElem?_eq_getElem (by omega)⟩
  simp only [row, hmad, hp, hmax, Option.bind_eq_bind, Option.bind_some]
  exact ⟨_, rfl⟩

/-- The turn of a CPU prints its row, or there is none. -/
theorem row_turn_ok (hfaithful : Faithful args h s)
    (hfit : args.samples.toNat * 999 < 2 ^ 64) {cpus : List Nat}
    (hs : s.main = .pp_results (cpu :: cpus)) {ys : List UInt32}
    (hys : (s.ws cpu).samples ≤ ys.length) :
    let turn := row_turn args (fun k => (s.ws k).toWorker)
      (fun k => (s.ws k).invol_switch) (fun _ => some ys) cpu
    turn = .skip ∨ ∃ r, turn = .row r := by
  by_cases hset : CPU_ISSET cpu args.cpu_set = true
  · right
    have hmain := hfaithful.inv.main
    simp only [MainOk, hs] at hmain
    have hrec := hfaithful.recorded cpu
    rw [done_of_stage (hfaithful.inv.printing hmain.1 cpu
      (hmain.2.selected hset))] at hrec
    obtain ⟨start, us, -, hw⟩ := hrec rfl
    obtain ⟨hsorted, hle⟩ := worker_main_sorted hw
    have hfit' : (s.ws cpu).samples * 999 < 2 ^ 64 :=
      (Nat.mul_le_mul_right 999 hle).trans_lt hfit
    obtain ⟨r, hrow⟩ : ∃ r,
        row args cpu (s.ws cpu).toWorker (s.ws cpu).invol_switch ys = some r :=
      exists_row hsorted hfit' _ hys
    exact ⟨r, by simp only [row_turn, if_pos hset, hrow]⟩
  · left
    simp only [row_turn, if_neg hset]

/-- A step of `main` does too, as its rows can be computed. -/
theorem OnTrack.main_step (ht : OnTrack s) (hfaithful : Faithful args h s)
    (hfit : args.samples.toNat * 999 < 2 ^ 64) (hok : NoFail s (.main c))
    (hstep : s.main_step args c = some (t, es)) : OnTrack t := by
  have hthreads := ht.threads
  have hmain := ht.main
  cases hs : s.main with
  | create_workers cpus =>
    cases cpus with
    | nil =>
      simp only [State.main_step, hs] at hstep
      cases hstep
      exact ⟨hthreads, trivial⟩
    | cons cpu cpus =>
      simp only [NoFail, hs] at hok
      simp only [State.main_step, hs, hok] at hstep
      split at hstep
      · cases hstep
        refine ⟨fun k => ?_, trivial⟩
        by_cases hk : k = cpu
        · simp [hk]
        · simpa [Function.update_of_ne hk] using hthreads k
      · cases hstep
        exact ⟨hthreads, trivial⟩
  | start_work =>
    simp only [State.main_step, hs] at hstep
    cases hstep
    exact ⟨hthreads, rfl⟩
  | nanosleep =>
    simp only [NoFail, hs] at hok
    simp only [hs] at hmain
    simp only [State.main_step, hs, hok] at hstep
    cases hstep
    exact ⟨hthreads, hmain⟩
  | read_proc_sched cpus =>
    simp only [hs] at hmain
    cases cpus with
    | nil =>
      simp only [State.main_step, hs] at hstep
      cases hstep
      exact ⟨hthreads, hmain⟩
    | cons cpu cpus =>
      simp only [NoFail, hs] at hok
      -- a file with a counter, as otherwise `main` fails here
      obtain ⟨text, hfile, hcounter⟩ := hok
      obtain ⟨n, hn⟩ := Option.ne_none_iff_exists'.mp hcounter
      simp only [State.main_step, hs, hfile, read_proc_sched_contents, hn,
        Option.map_some] at hstep
      split at hstep
      · cases hstep
        exact ⟨hthreads, hmain⟩
      · cases hstep
        exact ⟨hthreads, hmain⟩
  | quit_thread =>
    simp only [hs] at hmain
    simp only [State.main_step, hs] at hstep
    cases hstep
    exact ⟨hthreads, rfl, hmain, rfl⟩
  | join_workers cpus error_in_thread =>
    simp only [NoFail, hs] at hok
    obtain ⟨rfl, hflags⟩ : error_in_thread = false ∧ s.start_work = true ∧
        s.quit_thread = true := by simpa only [hs] using hmain
    cases cpus with
    | nil =>
      simp only [State.main_step, hs] at hstep
      cases hstep
      exact ⟨hthreads, trivial⟩
    | cons cpu cpus =>
      simp only [State.main_step, hs, hok] at hstep
      split at hstep
      · split at hstep
        · next heq => cases heq
        · split at hstep
          · next nonnull hctl =>
            cases hstep
            cases nonnull with
            -- a thread that returns null has failed before
            | false => exact absurd hctl (hthreads cpu).2
            | true => exact ⟨hthreads, rfl, hflags⟩
          · cases hstep
      · cases hstep
        exact ⟨hthreads, rfl, hflags⟩
  | pp_results cpus =>
    cases cpus with
    | nil =>
      simp only [State.main_step, hs] at hstep
      cases hstep
      exact ⟨hthreads, rfl⟩
    | cons cpu cpus =>
      simp only [NoFail, hs] at hok
      obtain ⟨ys, hys, hlen⟩ := hok
      -- no assertion fails: the array of the row is sorted
      have hturn := row_turn_ok hfaithful hfit hs hlen
      simp only [State.main_step, hs, hys] at hstep
      rcases hturn with hturn | ⟨r, hturn⟩
      · simp only [hturn] at hstep
        cases hstep
        exact ⟨hthreads, trivial⟩
      · simp only [hturn] at hstep
        cases hstep
        exact ⟨hthreads, trivial⟩
  | ret code =>
    simp only [State.main_step, hs] at hstep
    cases hstep
  | abort =>
    simp only [State.main_step, hs] at hstep
    cases hstep

/-- A run in which no call fails and every clock goes up. -/
def Fair (args : GlobalArgs) (s : State) (a : Label) : Prop :=
  NoFail s a ∧ Ascending args s a

/-- There is a step to another state. -/
def Ahead (args : GlobalArgs) (s : State) : Prop :=
  ∃ a t es, Fair args s a ∧ (osjitter args).step s a = some (t, es) ∧ t ≠ s

/-- A step of `main` always changes the state. -/
theorem Ahead.main (hok : NoFail s (.main c))
    (hstep : s.main_step args c = some (t, es)) : Ahead args s := by
  refine ⟨.main c, t, es, ⟨hok, trivial⟩, hstep, ?_⟩
  rintro rfl
  exact lt_irrefl _ (main_step_rank hstep)

/-- **A thread that has not returned** can go on once the flags are set. -/
theorem exists_worker_step (args : GlobalArgs) (cpu : Nat) {ctl : WorkerCtl}
    (habsent : ctl ≠ .absent) (hdone : ∀ b, ctl ≠ .done b) (w : Worker) :
    ∃ c ctl' w' es, c.fails = false ∧ ctl.Ascends args.toArgs c ∧
      worker_main_step args.toArgs cpu true true w c ctl = some (ctl', w', es) ∧
        ctl' ≠ ctl := by
  cases ctl with
  | absent => exact absurd rfl habsent
  | calloc => exact ⟨{}, _, _, _, rfl, trivial, rfl, by simp⟩
  | start_work => exact ⟨{}, _, _, _, rfl, trivial, rfl, by simp⟩
  | start => exact ⟨{}, _, _, _, rfl, trivial, rfl, by simp⟩
  | unrolled start m =>
    -- the limit itself is a reading above the clock
    by_cases hlt : m.tsc < start + args.tsc_runtime
    · have hstep : worker_main_step args.toArgs cpu true true w
          { tsc := start + args.tsc_runtime }
          (.unrolled start m) = some
            (.loop start (unrolled args.toArgs (start + args.tsc_runtime) m).forget, w,
              [.tsc cpu (start + args.tsc_runtime)]) := by
        rw [worker_main_step, if_pos hlt]
      exact ⟨_, _, _, _, rfl, fun _ => hlt, hstep, by simp⟩
    · have hstep : worker_main_step args.toArgs cpu true true w {} (.unrolled start m) =
          some (.loop start m.forget, w, []) := by
        rw [worker_main_step, if_neg hlt]
      exact ⟨_, _, _, _, rfl, fun h => absurd h hlt, hstep, by simp⟩
  | loop start m =>
    by_cases hlt : m.tsc < start + args.tsc_runtime
    · have hstep : worker_main_step args.toArgs cpu true true w
          { tsc := start + args.tsc_runtime }
          (.loop start m) = some
            (.loop start (iteration args.toArgs (start + args.tsc_runtime) m), w,
              [.tsc cpu (start + args.tsc_runtime)]) := by
        rw [worker_main_step, if_pos hlt]
      refine ⟨_, _, _, _, rfl, fun _ => hlt, hstep, fun heq => ?_⟩
      have htsc := congrArg Locals.tsc (WorkerCtl.loop.inj heq).2
      rw [iteration, account_tsc] at htsc
      rw [htsc] at hlt
      exact UInt64.lt_irrefl _ hlt
    · have hstep : worker_main_step args.toArgs cpu true true w {} (.loop start m) =
          some (.quit_thread start m, w, []) := by
        rw [worker_main_step, if_neg hlt]
      exact ⟨_, _, _, _, rfl, fun h => absurd h hlt, hstep, by simp⟩
  | quit_thread start m => exact ⟨{}, _, _, _, rfl, trivial, rfl, by simp⟩
  | store todo =>
    cases todo with
    | nil => exact ⟨{}, _, _, _, rfl, trivial, rfl, by simp⟩
    | cons f todo => exact ⟨{}, _, _, _, rfl, trivial, rfl, by simp⟩
  | ret b => exact ⟨{}, _, _, _, rfl, trivial, rfl, by simp⟩
  | done b => exact absurd rfl (hdone b)

/-- A thread that both flags have reached has a step. -/
theorem ahead_of_worker (hstart : s.start_work = true)
    (hquit : s.quit_thread = true) (habsent : s.workers cpu ≠ .absent)
    (hdone : ∀ b, s.workers cpu ≠ .done b) : Ahead args s := by
  obtain ⟨c, ctl, w, es, hc, hasc, hstep, hne⟩ :=
    exists_worker_step args cpu habsent hdone (s.ws cpu).toWorker
  have hworker : s.worker_step args cpu c = some ({ s with
      workers := Function.update s.workers cpu ctl
      ws := Function.update s.ws cpu { s.ws cpu with toWorker := w } },
          es) := by
    simp only [State.worker_step, hstart, hquit, hstep, Option.map_some]
  refine ⟨.worker cpu c, _, es, ⟨hc, hasc⟩, hworker, fun heq => hne ?_⟩
  have hctl := congrFun (congrArg State.workers heq) cpu
  simpa using hctl

/-- **A run without failures can go on** until `main` returns 0. -/
theorem OnTrack.ahead (ht : OnTrack s) (hfaithful : Faithful args h s) :
    s.main = .ret 0 ∨ Ahead args s := by
  have hmain := ht.main
  -- a file for the steps that read one
  have hcounter : counter (sched_line 0 0 7) = some 7 := by decide
  cases hs : s.main with
  | create_workers cpus =>
    right
    have hok : NoFail s (.main {}) := by simp [NoFail, hs]
    cases cpus with
    | nil => exact .main hok (by simp only [State.main_step, hs]; rfl)
    | cons cpu cpus =>
      by_cases hset : CPU_ISSET cpu args.cpu_set = true
      · exact .main hok (by simp only [State.main_step, hs, if_pos hset]; rfl)
      · exact .main hok (by simp only [State.main_step, hs, if_neg hset]; rfl)
  | start_work =>
    right
    have hok : NoFail s (.main {}) := by simp [NoFail, hs]
    exact .main hok (by simp only [State.main_step, hs]; rfl)
  | nanosleep =>
    right
    have hok : NoFail s (.main {}) := by simp [NoFail, hs]
    exact .main hok (by simp only [State.main_step, hs]; rfl)
  | read_proc_sched cpus =>
    right
    have hok : NoFail s (.main { file := .contents (sched_line 0 0 7) false }) := by
      simp [NoFail, hs, hcounter]
    cases cpus with
    | nil => exact .main hok (by simp only [State.main_step, hs]; rfl)
    | cons cpu cpus =>
      by_cases hset : CPU_ISSET cpu args.cpu_set = true
      · exact .main hok (by
          simp only [State.main_step, hs, if_pos hset,
            read_proc_sched_contents, hcounter]
          rfl)
      · exact .main hok (by simp only [State.main_step, hs, if_neg hset]; rfl)
  | quit_thread =>
    right
    have hok : NoFail s (.main {}) := by simp [NoFail, hs]
    exact .main hok (by simp only [State.main_step, hs]; rfl)
  | join_workers cpus error_in_thread =>
    right
    have hok : NoFail s (.main {}) := by simp [NoFail, hs]
    simp only [hs] at hmain
    obtain ⟨rfl, hstart, hquit⟩ := hmain
    cases cpus with
    | nil => exact .main hok (by simp only [State.main_step, hs]; rfl)
    | cons cpu cpus =>
      by_cases hset : CPU_ISSET cpu args.cpu_set = true
      · -- either the thread is done, or it is its turn
        by_cases hdone : ∃ b, s.workers cpu = .done b
        · obtain ⟨b, hb⟩ := hdone
          exact .main hok (by simp only [State.main_step, hs, if_pos hset, hb]; rfl)
        · have hmainok := hfaithful.inv.main
          simp only [MainOk, hs] at hmainok
          have hsel := (hmainok trivial).selected hset
          have habsent : s.workers cpu ≠ .absent := fun habs =>
            hfaithful.inv.created hstart cpu hsel (by rw [State.stage, habs]; rfl)
          exact ahead_of_worker hstart hquit habsent (not_exists.mp hdone)
      · exact .main hok (by simp only [State.main_step, hs, if_neg hset]; rfl)
  | pp_results cpus =>
    right
    cases cpus with
    | nil =>
      have hok : NoFail s (.main {}) := by simp [NoFail, hs]
      exact .main hok (by simp only [State.main_step, hs]; rfl)
    | cons cpu cpus =>
      have hok : NoFail s
          (.main { ys := some (List.replicate (s.ws cpu).samples 0) }) := by
        simp [NoFail, hs]
      cases hturn : row_turn args (fun k => (s.ws k).toWorker)
        (fun k => (s.ws k).invol_switch)
        (fun _ => some (List.replicate (s.ws cpu).samples 0)) cpu
      -- whatever the turn does, it is a step
      all_goals exact .main hok (by simp only [State.main_step, hs, hturn]; rfl)
  | ret code =>
    left
    simp only [hs] at hmain
    rw [hmain]
  | abort =>
    simp only [hs] at hmain

/-- Without failures there is a step ahead until `main` has returned 0. -/
theorem ahead_of_run (hfit : args.samples.toNat * 999 < 2 ^ 64)
    (hrun : Run (osjitter args) (Fair args) h s) :
    s.main = .ret 0 ∨ Ahead args s := by
  have htrack : Faithful args h s ∧ OnTrack s := by
    refine Steps.history_invariant
      (I := fun h s => Faithful args h s ∧ OnTrack s) ?_ hrun
      ⟨faithful_init args, fun _ => ⟨nofun, nofun⟩, trivial⟩
    rintro h s a t es ⟨hfaithful, ht⟩ ⟨hok, -⟩ hstep
    cases a with
    | main c =>
      exact ⟨hfaithful.main hstep, ht.main_step hfaithful hfit hok hstep⟩
    | worker cpu c => exact ⟨hfaithful.worker hstep, ht.worker hok hstep⟩
  exact htrack.2.ahead htrack.1

/-- The steps that are not spent waiting use up the budget. -/
theorem le_budget {k : Nat}
    (hcounted : Counted (osjitter args) (Ascending args) (· = ·)
      (osjitter args).init k s) :
    k ≤ args.budget := by
  have hle := ((ranked args).count_le hcounted ⟨[], .refl⟩).2
  rw [rank_init] at hle
  omega

end end_of_run

/-- **`osjitter` comes to its end** under every scheduler. As long as every clock
goes up, the steps that are not spent waiting are bounded by the number of CPUs
and, for each thread, by the runtime and the capacity. In a run in which no call
fails there is such a step until `main` has returned 0. -/
theorem comes_to_end (args : GlobalArgs)
    (hfit : args.samples.toNat * 999 < 2 ^ 64) :
    (∀ k s, Counted (osjitter args) (Ascending args) (· = ·) (osjitter args).init k s →
      k ≤ args.budget) ∧
    ∀ h s, Run (osjitter args) (Fair args) h s → s.main = .ret 0 ∨
      Ahead args s :=
  ⟨fun _ _ hcounted => le_budget hcounted, fun _ _ hrun => ahead_of_run hfit hrun⟩

/-- Two CPUs that measure for a thousand cycles, with room for ten samples. -/
def short_run : GlobalArgs :=
  { two_cpus with tsc_runtime := 1000, samples := 10 }

/-- A run of two threads, with its bound in numbers. -/
theorem comes_to_end_two :
    (∀ k s, Counted (osjitter short_run) (Ascending short_run) (· = ·)
        (osjitter short_run).init k s →
      k ≤ 2068) ∧
    ∀ h s, Run (osjitter short_run) (Fair short_run) h s → s.main = .ret 0 ∨
      Ahead short_run s :=
  comes_to_end short_run (by decide)

end Osjitter.Jitter
