/-
Osjitter.Pingpong.Progress — joining the workers, and why nobody waits for
a worker that is gone.

  §1 `Waits`: a worker can go on only if somebody else does. `Stuck`: the
     process can run on, with every call succeeding, and nothing will
     change any more. A sender that rereads the clock is not stuck, and
     neither is a worker with pauses ahead (`pauses_end`).
  §2 `Books`: what the main thread knows of the workers it has joined.
  §3 `Owes`: a worker still has a message to send, or holds something that
     its peer needs. A method proves (`Live`) that a waiting worker is
     either in its receive loop with no message in flight to it, or waits
     for a peer that holds something. So a worker only waits for one that
     owes (`Live.waits_owes`), and the two never wait for each other
     (`Live.not_both`).
  §4 `Live.not_stuck`, for every state in which a worker that failed owes
     nothing (`Excused`), and so for every run without failures
     (`Live.no_fail_not_stuck`). `Live.not_all_waiting` is the form in which the
     methods state it: not all unfinished workers wait.

Nothing is said here of how long a run is: that something can happen is one half
of termination, and `Pingpong.Ranking` is the other.
-/
import Osjitter.Pingpong.Protocol

namespace Osjitter.Pingpong

open Machines Relay

variable {Mem At : Type}

/-! ## §1 Waiting

A process that has not ended can be in trouble in two ways: no step can be made,
or each that can be made leads to the same state. `Stuck` says that both are for
ever, so it speaks of one state and the steps from it, and needs no notion of
fairness. -/

/-- Steps in which no call fails and nothing happens spuriously. -/
def Calm (_ : State Mem At) (a : Label) : Prop := a.choice.Quiet

/-- At `b`, worker `w` cannot step, or steps without effect. -/
def Waits (B : Body Mem At) (w : Tid) (mem : Mem) (r : Regs) (b : At) : Prop :=
  ∀ c, Choice.Quiet c → ∀ o, B.step w c mem r b = some o →
    o.next = .goto b ∧ o.mem = mem ∧ o.regs = r ∧ o.ev = []

/-- Worker `w` waits in one of its branches. -/
def State.Waiting (B : Body Mem At) (s : State Mem At) (w : Tid) : Prop :=
  ∃ b, (s.loc w).ctl = .body b ∧ Waits B w s.mem (s.loc w).regs b

/-- Worker `w` has still to return. An abort ends both workers. -/
def State.Unfinished (s : State Mem At) (w : Tid) : Prop :=
  s.aborted = false ∧ (s.thr w).status.stopped = false

/-- A process that goes on has not died. -/
theorem State.alive_aborted {s : State Mem At} (h : s.alive = true) :
    s.aborted = false := by
  unfold State.alive at h
  simp only [Bool.and_eq_true, Bool.not_eq_true'] at h
  exact h.1

/-- A process that has neither died nor returned goes on. -/
theorem State.alive_of_main {s : State Mem At} (hab : s.aborted = false)
    (hne : ∀ code, s.main ≠ .exited code) : s.alive = true := by
  unfold State.alive
  cases hm : s.main with
  | exited code => exact absurd hm (hne code)
  | _ => simp [hab]

/-- Nothing but pending pauses and messages differs. -/
structure State.Same (t s : State Mem At) : Prop where
  main : t.main = s.main
  start_work : t.start_work = s.start_work
  aborted : t.aborted = s.aborted
  mem : t.mem = s.mem
  loc : t.loc = s.loc
  status : ∀ w, (t.thr w).status = (s.thr w).status

/-- Nothing will change any more, although every call succeeds. -/
def Stuck (B : Body Mem At) (x : Worker) (s : State Mem At) : Prop :=
  ∀ h t, Steps (spin_pingpong B x) Calm s h t → h = [] ∧ t.Same s

/-- Outside its branches a worker that has passed the gate can step. -/
theorem workerStep_frame {B : Body Mem At} {x : Worker} {w : Tid} (mem : Mem)
    {l : Local At} (hl : ∀ b, l.ctl ≠ .body b) :
    ∃ o, workerStep B x w {} true mem 0 l = some o ∧
      (o.loc.ctl ≠ l.ctl ∨ o.fate ≠ .run) := by
  cases hctl : l.ctl with
  | calloc | gate => simp [workerStep, hctl]
  | head =>
    by_cases hi : l.regs.i < x.n.toNat
    · by_cases hw : l.regs.i % 2 = w.toNat <;> simp [workerStep, hctl, hi, hw]
    · simp [workerStep, hctl, hi]
  | body b => exact absurd hctl (hl b)
  | finalize =>
    refine ⟨_, by simp [workerStep, hctl]; rfl, .inr ?_⟩
    unfold spin_main_finalize
    split <;> simp

section steps

variable {B : Body Mem At} {x : Worker} {s : State Mem At} {w : Tid}

/-- A step of the main thread that moves it. -/
theorem not_stuck_of_main {t : State Mem At} (ha : s.alive = true)
    (hstep : mainStep B {} s = some t) (hne : t.main ≠ s.main) :
    ¬ Stuck B x s := by
  intro hst
  have hone : (spin_pingpong B x).step s (.main {}) = some (t, []) := by
    simp [spin_pingpong, ha, hstep]
  have hcalm : Calm s (.main {}) := ⟨rfl, rfl⟩
  exact hne (hst [] t (Steps.single hcalm hone)).2.main

omit x w in
/-- Until it joins, the main thread can step. -/
theorem mainStep_early (hm : ∀ i, s.main ≠ .join i ∧ s.main ≠ .report ∧
      ∀ code, s.main ≠ .exited code) :
    ∃ t, mainStep B {} s = some t ∧ t.main ≠ s.main := by
  cases hs : s.main with
  | setup i =>
    cases hb : B.setup i {} s.mem <;> simp [mainStep, hs, hb, State.giveUp]
  | create i => cases i <;> simp [mainStep, hs]
  | start => simp [mainStep, hs]
  | join i => exact absurd hs (hm i).1
  | report => exact absurd hs (hm true).2.1
  | exited code => exact absurd hs ((hm true).2.2 code)

/-- Pending pauses end. -/
theorem pauses_end (ha : s.alive = true) (hr : (s.thr w).status = .running) :
    ∃ t, Steps (spin_pingpong B x) Calm s [] t ∧ t.Same s ∧ t.alive = true ∧
      (t.thr w).pauses = 0 := by
  generalize hk : (s.thr w).pauses = k
  induction k generalizing s with
  | zero => exact ⟨s, .refl, ⟨rfl, rfl, rfl, rfl, rfl, fun _ => rfl⟩, ha, hk⟩
  | succ k ih =>
    obtain ⟨u, hu⟩ : ∃ u : State Mem At, u = { s with
        thr :=
          Function.update s.thr w ⟨.running, (s.thr w).loc, k⟩ } := ⟨_, rfl⟩
    have hone : (spin_pingpong B x).step s (.worker w {}) = some (u, []) := by
      simp [spin_pingpong, ha, hr, workerStep, hk, State.apply, hu]
    have hsame : u.Same s := by
      refine ⟨by rw [hu], by rw [hu], by rw [hu], by rw [hu], ?_, ?_⟩
      · funext v
        by_cases hv : v = w
        · subst hv; simp [hu, State.loc]
        · simp [hu, State.loc, Function.update_of_ne hv]
      · intro v
        by_cases hv : v = w
        · subst hv; simp [hu, hr]
        · simp [hu, Function.update_of_ne hv]
    have hua : u.alive = true := by simpa [hu, State.alive] using ha
    have hur : (u.thr w).status = .running := by simp [hu]
    obtain ⟨t, ht, hst, hta, htk⟩ := ih hua hur (by simp [hu])
    have hfirst : Steps (spin_pingpong B x) Calm s [] u :=
      Steps.single (show Calm s (.worker w {}) from ⟨rfl, rfl⟩) hone
    exact ⟨t, hfirst.trans ht, ⟨hst.main.trans hsame.main,
      hst.start_work.trans hsame.start_work, hst.aborted.trans hsame.aborted,
      hst.mem.trans hsame.mem, hst.loc.trans hsame.loc,
      fun v => (hst.status v).trans (hsame.status v)⟩, hta, htk⟩

/-- A step that a worker would make without its pauses is made behind them. -/
theorem step_after_pauses {c : Choice} {o : WorkerOut Mem At}
    (ha : s.alive = true) (hr : (s.thr w).status = .running)
    (ho : workerStep B x w c s.start_work s.mem 0 (s.loc w) = some o) :
    ∃ t, Steps (spin_pingpong B x) Calm s [] t ∧ t.Same s ∧ t.alive = true ∧
      (spin_pingpong B x).step t (.worker w c) = some (t.apply w o, o.ev) := by
  obtain ⟨t, ht, hsame, hta, hk⟩ := pauses_end (B := B) (x := x) ha hr
  have hloc : (t.thr w).loc = s.loc w := congrFun hsame.loc w
  refine ⟨t, ht, hsame, hta, ?_⟩
  simp only [spin_pingpong, hta, hsame.status w, hr, and_self, if_true,
    hsame.start_work, hsame.mem, hk, hloc, ho, Option.map_some]

/-- In a stuck state every quiet step of a running worker is without
effect. -/
theorem Stuck.worker {c : Choice} {o : WorkerOut Mem At} (hst : Stuck B x s)
    (ha : s.alive = true) (hr : (s.thr w).status = .running) (hc : c.Quiet)
    (hstep : workerStep B x w c s.start_work s.mem 0 (s.loc w) = some o) :
    o.ev = [] ∧ o.mem = s.mem ∧ o.loc = s.loc w ∧ o.fate = .run := by
  obtain ⟨t, ht, -, -, hone⟩ := step_after_pauses ha hr hstep
  have hcalm : Calm t (.worker w c) := hc
  obtain ⟨hev, hend⟩ := hst _ _ (ht.trans (Steps.single hcalm hone))
  refine ⟨by simpa using hev, by simpa using hend.mem, ?_, ?_⟩
  · have hfin := congrFun hend.loc w
    rwa [State.apply_loc, Function.update_self] at hfin
  · have hstatus := hend.status w
    have habort := hend.aborted
    rw [hr] at hstatus
    have halive := State.alive_aborted ha
    cases hf : o.fate with
    | run => rfl
    | fail msg => simp [State.apply, hf] at hstatus
    | ret raw_ds ds => simp [State.apply, hf] at hstatus
    | abort msg => simp [State.apply, hf, halive] at habort

/-- In a stuck state a running worker that has passed the gate waits. -/
theorem Stuck.waiting (hst : Stuck B x s) (ha : s.alive = true)
    (hr : (s.thr w).status = .running) (hsw : s.start_work = true) :
    s.Waiting B w := by
  by_cases hbody : ∃ b, (s.loc w).ctl = .body b
  · obtain ⟨b, hb⟩ := hbody
    refine ⟨b, hb, fun c hc o ho => ?_⟩
    obtain ⟨hev, hmem, hloc, hfate⟩ := hst.worker ha hr hc
      (o := { mem := o.mem, loc := o.landing (s.loc w), pauses := o.pauses,
              fate := o.next.fate, ev := o.ev }) (by simp [workerStep, hb, ho])
    cases hn : o.next with
    | goto b' =>
      have hland : (⟨.body b', o.regs⟩ : Local At) = s.loc w := by
        simpa [Out.landing, hn] using hloc
      rw [← hland] at hb
      exact ⟨by simpa using hb, hmem, congrArg Local.regs hland, hev⟩
    | next =>
      have hland := congrArg Local.ctl hloc
      simp [Out.landing, hn, hb] at hland
    | fail msg | abort msg => simp [hn, Next.fate] at hfate
  · obtain ⟨o, ho, hmoves⟩ := workerStep_frame (B := B) (x := x) (w := w) s.mem
      (not_exists.mp hbody)
    obtain ⟨-, -, hloc, hfate⟩ := hst.worker ha hr ⟨rfl, rfl⟩ (hsw ▸ ho)
    exact (hmoves.elim (fun h => h (by rw [hloc])) (fun h => h hfate)).elim

end steps

/-! ## §2 Joining

The main thread waits for one worker, then for the other. It knows of a worker
that it has joined whether it failed, and that is all that its later steps
depend on. -/

/-- The main thread has joined worker `w`, if its own calls succeed. -/
def Main.joined : Main → Tid → Prop
  | .join true, false | .report, _ | .exited _, _ => True
  | _, _ => False

/-- The main thread has created worker `w`. -/
def Main.created : Main → Tid → Prop
  | .setup true, false | .create true, false => True
  | .start, _ | .join _, _ | .report, _ | .exited _, _ => True
  | _, _ => False

/-- What the main thread knows of the workers. -/
structure Books (s : State Mem At) : Prop where
  created : ∀ w, s.main.created w → (s.thr w).status ≠ .absent
  started : s.start_work = true → s.main.started
  joined : ∀ w, s.main.joined w → (s.thr w).status.stopped = true
  noted : ∀ w, s.main.joined w → (s.thr w).status = .failed →
    s.error_in_thread = true
  error : s.error_in_thread = true →
    ∃ w, s.main.joined w ∧ (s.thr w).status = .failed
  exit : ∀ code, s.main = .exited code → s.aborted = false ∧
    if s.error_in_thread then code = 1 ∧ errorMsg ∈ s.stderr else code = 0

/-- Nobody has been joined. -/
theorem Books.init {B : Body Mem At} {x : Worker} :
    Books (spin_pingpong B x).init := by
  constructor <;> simp [spin_pingpong, Main.created, Main.joined]

/-- The steps of the main thread keep the books, if its calls succeed. -/
theorem Books.main {B : Body Mem At}
    (hsetup : ∀ {i c mem msg}, B.setup i c mem = .error msg → c.fails = true)
    {c : Choice} {s t : State Mem At} (h : Books s) (ha : s.aborted = false)
    (hc : c.fails = false) (hstep : MainCase B c s t) : Books t := by
  obtain ⟨hcreated, hstarted, hjoined, hnoted, herror, hexit⟩ := h
  cases hstep with
  | @setup i mem hm hs =>
    have hnone : ∀ w, ¬ s.main.joined w := by simp [hm, Main.joined]
    refine ⟨fun w hw => hcreated w ?_, fun hsw => ?_, by simp [Main.joined],
      by simp [Main.joined], fun he => ?_, by simp⟩
    · cases i <;> cases w <;> simp_all [Main.created]
    · exact absurd (hstarted hsw) (by simp [hm, Main.started])
    · obtain ⟨w, hw, -⟩ := herror he
      exact absurd hw (hnone w)
  | setupFails _ hs => rw [hsetup hs] at hc; cases hc
  | @create i hm _ =>
    have hnone : ∀ w, ¬ s.main.joined w := by simp [hm, Main.joined]
    refine ⟨fun w hw => ?_, fun hsw => ?_, by cases i <;> simp [Main.joined],
      by cases i <;> simp [Main.joined], fun he => ?_, by cases i <;> simp⟩
    · by_cases hwi : w = i
      · subst hwi; simp
      · have hwas : s.main.created w := by
          rw [hm]
          cases i <;> cases w <;> simp [Main.created] at hwi hw ⊢
        have hold := hcreated w hwas
        simpa [Function.update_of_ne hwi] using hold
    · exact absurd (hstarted hsw) (by simp [hm, Main.started])
    · obtain ⟨w, hw, -⟩ := herror he
      exact absurd hw (hnone w)
  | start hm =>
    refine ⟨fun w _ => hcreated w (by simp [hm, Main.created]), fun _ => trivial,
      by simp [Main.joined], by simp [Main.joined], fun he => ?_, by simp⟩
    obtain ⟨w, hw, -⟩ := herror he
    simp [hm, Main.joined] at hw
  | @join i hm _ hs =>
    -- the second join knows what the first has seen
    have hfirst : i = true → (s.thr false).status.stopped = true ∧
        ((s.thr false).status = .failed → s.error_in_thread = true) := by
      rintro rfl
      exact ⟨hjoined false (by simp [hm, Main.joined]),
        hnoted false (by simp [hm, Main.joined])⟩
    refine ⟨fun w _ => hcreated w (by simp [hm, Main.created]),
      fun _ => ?_, fun w hw => ?_,
      fun w hw hf => ?_, fun he => ?_, by cases i <;> simp⟩
    · cases i <;> trivial
    · cases i <;> cases w <;> simp_all [Main.joined]
    · cases i <;> cases w <;> simp_all [Main.joined]
    · rw [Bool.or_eq_true, beq_iff_eq] at he
      rcases he with he | he
      · obtain ⟨w, hw, hf⟩ := herror he
        refine ⟨w, ?_, hf⟩
        cases i <;> cases w <;> simp_all [Main.joined]
      · exact ⟨i, by cases i <;> trivial, he⟩
  | report hm =>
    have hall : ∀ w, s.main.joined w := by simp [hm, Main.joined]
    have hc : ∀ w, s.main.created w := by simp [hm, Main.created]
    split
    · next he =>
      exact ⟨fun w _ => hcreated w (hc w),
        fun _ => trivial, fun w _ => hjoined w (hall w),
        fun w _ => hnoted w (hall w),
        fun _ => (herror he).imp fun w hw => ⟨trivial, hw.2⟩,
        by simp [State.giveUp, ha, he]⟩
    · next he =>
      exact ⟨fun w _ => hcreated w (hc w),
        fun _ => trivial, fun w _ => hjoined w (hall w),
        fun w _ => hnoted w (hall w), fun h => absurd h he, by simp [ha, he]⟩
  | fails hf => rw [hf] at hc; cases hc

/-- The steps of the workers keep the books. -/
theorem Books.worker {s : State Mem At} {w : Tid} {o : WorkerOut Mem At}
    (h : Books s) (ha : s.alive = true) (hr : (s.thr w).status = .running) :
    Books (s.apply w o) := by
  obtain ⟨hcreated, hstarted, hjoined, hnoted, herror, hexit⟩ := h
  have hother : ∀ {v}, v ≠ w →
      ((s.apply w o).thr v).status = (s.thr v).status := by
    intro v hv
    unfold State.apply
    cases o.fate <;> simp [Function.update_of_ne hv]
  have hself : ((s.apply w o).thr w).status ≠ .absent := by
    unfold State.apply
    cases o.fate <;> simp
  have hne : ∀ {v}, s.main.joined v → v ≠ w := by
    rintro v hv rfl
    have hs := hjoined _ hv
    rw [hr] at hs
    cases hs
  constructor
  · intro v hv
    by_cases hvw : v = w
    · exact hvw ▸ hself
    · rw [hother hvw]
      exact hcreated v (by simpa using hv)
  · simpa using hstarted
  · intro v hv
    rw [State.apply_main] at hv
    rw [hother (hne hv)]
    exact hjoined v hv
  · intro v hv hf
    rw [State.apply_main] at hv
    rw [hother (hne hv)] at hf
    simpa using hnoted v hv hf
  · intro he
    obtain ⟨v, hv, hf⟩ := herror (by simpa using he)
    exact ⟨v, by simpa using hv, by rwa [hother (hne hv)]⟩
  · intro code hm
    rw [State.apply_main] at hm
    simp [State.alive, hm] at ha

/-- The books are kept in every run in which the main thread's calls
succeed. -/
theorem Protocol.books {B : Body Mem At} (P : Protocol B) {x : Worker}
    {ok : State Mem At → Label → Prop}
    (hok : ∀ {s c}, ok s (.main c) → c.fails = false) {h : List Event}
    {s : State Mem At} (hrun : Run (spin_pingpong B x) ok h s) : Books s := by
  refine Steps.invariant (I := Books) ?_ hrun Books.init
  intro s l t es hb hl hstep
  obtain ⟨ha, ⟨c, rfl, hm, -⟩ | ⟨w, c, o, rfl, hr, ho, rfl, -⟩⟩ :=
    step_cases hstep
  · exact hb.main P.setup (State.alive_aborted ha) (hok hl) (mainStep_cases hm)
  · exact hb.worker ha hr

/-! ## §3 What a worker owes

What a worker owes is read off its own variables: it is in a sending turn, or in
front of one, or it holds the thing that its peer waits for. A method has to
prove no more than that a worker that waits is waiting for this. -/

/-- The number of messages a worker has stored or taken. -/
def pos (ph : At → Phase) (l : Local At) : Nat := (l.view ph).sig.pos

/-- The next message that worker `w` sends after the first `p`. -/
def due (w : Tid) (p : Nat) : Nat := if turn p = w then p else p + 1

/-- Worker `w` still has a message to send, or holds something that its
peer needs. -/
def Owes (ph : At → Phase) (hold : Mem → Tid → At → Prop) (n : Nat)
    (mem : Mem) (w : Tid) (l : Local At) : Prop :=
  due w (pos ph l) < n ∨ ∃ b, l.ctl = .body b ∧ hold mem w b

/-- What a method proves about waiting. `hold mem w b` says that worker `w`
at `b` has something that its peer needs to take the message in flight, or
to store the next one. A waiting worker is in its receive loop with no
message in flight to it, or its peer holds something; and a worker that
holds something can go on. -/
structure Live {B : Body Mem At} (P : Protocol B) where
  hold : Mem → Tid → At → Prop
  blocked : ∀ {n mem loc a w b}, Good P.ph n loc a → P.Inv mem loc a →
    (loc w).ctl = .body b → Waits B w mem (loc w).regs b →
    (P.ph b = .waiting ∧ ∀ v, a.stage = .flight v → w = turn a.m) ∨
      ∃ b', (loc (!w)).ctl = .body b' ∧ hold mem (!w) b'
  moves : ∀ {n mem loc a w b}, Good P.ph n loc a → P.Inv mem loc a →
    (loc w).ctl = .body b → hold mem w b → ¬ Waits B w mem (loc w).regs b

/-- A worker in its receive loop with no message in flight to it waits for
a message that its peer owes. -/
theorem Good.waiting_due {ph : At → Phase} {n : Nat} {loc : Tid → Local At}
    {a : Relay.State UInt64} {w : Tid} {b : At} (h : Good ph n loc a)
    (hb : (loc w).ctl = .body b) (hph : ph b = .waiting)
    (hflight : ∀ v, a.stage = .flight v → w = turn a.m) :
    due (!w) (pos ph (loc (!w))) < n := by
  have hlt : (loc w).regs.i < n := by
    have hok := h.ok w
    simp only [Local.view, hb, Ctl.stand] at hok
    exact hok.1
  have hwhere := h.where hb
  obtain ⟨hS, hpos, -⟩ := h.linked
  have hpos' : pos ph (loc (!turn a.m)) = a.m + (isTaken a.stage).toNat := hpos
  have hS' : pos ph (loc (turn a.m)) = a.m + (isSent a.stage).toNat :=
    congrArg Sig.pos hS
  rw [hph] at hwhere
  rcases hwhere with ⟨rfl, hi, ht⟩ | ⟨rfl, hi, hs⟩
  · have hunsent : isSent a.stage = false := by
      cases hst : a.stage with
      | flight v => exact absurd (hflight v hst) (by simp)
      | ready | armed v => rfl
      | taken v => simp [hst, isTaken] at ht
    rw [Bool.not_not, hS', hunsent]
    simpa [due, hi] using hi ▸ hlt
  · rw [hpos', due]
    cases isTaken a.stage <;> simp <;> omega

/-- **A worker only waits for one that owes.** -/
theorem Live.waits_owes {B : Body Mem At} {P : Protocol B} (L : Live P)
    {n : Nat} {mem : Mem} {loc : Tid → Local At} {a : Relay.State UInt64}
    {w : Tid} {b : At} (h : Good P.ph n loc a) (hinv : P.Inv mem loc a)
    (hb : (loc w).ctl = .body b) (hw : Waits B w mem (loc w).regs b) :
    Owes P.ph L.hold n mem (!w) (loc (!w)) := by
  rcases L.blocked h hinv hb hw with ⟨hph, hflight⟩ | hhold
  · exact .inl (h.waiting_due hb hph hflight)
  · exact .inr hhold

/-- **The workers never wait for each other.** -/
theorem Live.not_both {B : Body Mem At} {P : Protocol B} (L : Live P) {n : Nat}
    {mem : Mem} {loc : Tid → Local At} {a : Relay.State UInt64} {w : Tid}
    {b b' : At} (h : Good P.ph n loc a) (hinv : P.Inv mem loc a)
    (hb : (loc w).ctl = .body b) (hb' : (loc (!w)).ctl = .body b')
    (hw : Waits B w mem (loc w).regs b) :
    ¬ Waits B (!w) mem (loc (!w)).regs b' := by
  intro hw'
  rcases L.blocked h hinv hb hw with ⟨hph, hflight⟩ | ⟨k, hk, hhold⟩
  · rcases L.blocked h hinv hb' hw' with ⟨hph', hflight'⟩ | ⟨k, hk, hhold⟩
    · have h1 := h.where hb
      have h2 := h.where hb'
      rw [hph] at h1
      rw [hph'] at h2
      obtain ⟨m, last, stage⟩ := a
      cases stage <;> simp_all [Where, isSent, isTaken]
    · rw [Bool.not_not] at hk hhold
      exact L.moves h hinv hk hhold (by rw [hk] at hb; cases hb; exact hw)
  · exact L.moves h hinv hk hhold (by rw [hk] at hb'; cases hb'; exact hw')

/-! ## §4 Nobody is stuck

Of two workers that both wait each would owe the other, and the relay excludes
it: it is somebody's turn. A worker that has ended owes nothing if it ended
well, and `Excused` is that for one that failed. -/

/-- A worker that failed owes nothing that its peer could still want. -/
def Excused (ph : At → Phase) (hold : Mem → Tid → At → Prop) (n : Nat)
    (s : State Mem At) : Prop :=
  ∀ w, (s.thr w).status = .failed →
    (s.thr (!w)).status.stopped = true ∨ ¬ Owes ph hold n s.mem w (s.loc w)

/-- A worker that has returned went through `spin_main_finalize`. -/
def Settled (s : State Mem At) : Prop :=
  ∀ w raw_ds ds, (s.thr w).status = .returned raw_ds ds →
    (s.loc w).ctl = .finalize

/-- A worker that has returned is at the end of its loop. -/
theorem Settled.worker {s : State Mem At} {B : Body Mem At} {n : Nat} {w : Tid}
    {c : Choice} {o : WorkerOut Mem At} (h : Settled s)
    (hstep : WorkerCase B n w c s.start_work s.mem (s.loc w) o) :
    Settled (s.apply w o) := by
  intro v raw_ds ds hv
  rw [State.apply_loc]
  by_cases hvw : v = w
  · subst hvw
    rw [Function.update_self]
    cases hstep with
    | still hm hl he hfate =>
      rw [hl]
      rcases hfate with hf | ⟨-, msg, hf⟩ | ⟨hc, -⟩
      · simp [State.apply, hf] at hv
      · simp [State.apply, hf] at hv
      · exact hc
    | frame hm hl he hf => simp [State.apply, hf] at hv
    | @body b bo _ _ _ _ _ hf =>
      cases hn : bo.next <;> simp [State.apply, hf, hn, Next.fate] at hv
  · rw [Function.update_of_ne hvw]
    refine h v raw_ds ds ?_
    unfold State.apply at hv
    cases hf : o.fate <;> simpa [hf, Function.update_of_ne hvw] using hv

/-- The main thread leaves the workers as they are, or creates one. -/
theorem MainCase.thread {B : Body Mem At} {c : Choice}
    {s t : State Mem At} (w : Tid) (h : MainCase B c s t) :
    t.thr w = s.thr w ∨ t.thr w = { status := .running } := by
  cases h with
  | @create i =>
    by_cases hw : w = i
    · subst hw
      exact .inr (by simp)
    · exact .inl (by simp [Function.update_of_ne hw])
  | report => split <;> exact .inl rfl
  | _ => exact .inl rfl

/-- A worker that has returned did so before. -/
theorem MainCase.returned {B : Body Mem At} {c : Choice} {s t : State Mem At}
    {w : Tid} {raw_ds ds : List UInt32} (h : MainCase B c s t)
    (hw : (t.thr w).status = .returned raw_ds ds) : t.thr w = s.thr w := by
  rcases h.thread w with ht | ht
  · exact ht
  · rw [ht] at hw
    cases hw

/-- In every run. -/
theorem settled {B : Body Mem At} {x : Worker}
    {ok : State Mem At → Label → Prop} {h : List Event} {s : State Mem At}
    (hrun : Run (spin_pingpong B x) ok h s) : Settled s := by
  refine Steps.invariant (I := Settled) ?_ hrun (by intro w raw_ds ds h; cases h)
  intro s l t es hs _ hstep
  obtain ⟨-, ⟨c, -, hm, -⟩ | ⟨w, c, o, -, -, ho, rfl, -⟩⟩ := step_cases hstep
  · intro w raw_ds ds hw
    have ht := (mainStep_cases hm).returned hw
    rw [ht] at hw
    rw [State.loc, ht]
    exact hs w raw_ds ds hw
  · exact hs.worker (workerStep_cases ho)

/-- A worker that has returned owes nothing. -/
theorem Good.not_owes {ph : At → Phase} {hold : Mem → Tid → At → Prop} {n : Nat}
    {mem : Mem} {loc : Tid → Local At} {a : Relay.State UInt64} {w : Tid}
    (h : Good ph n loc a) (hw : (loc w).ctl = .finalize) :
    ¬ Owes ph hold n mem w (loc w) := by
  have hok := h.ok w
  simp only [Local.view, hw, Ctl.stand] at hok
  rintro (hlt | ⟨b, hb, -⟩)
  · have hp : pos ph (loc w) = n := by
      simpa [pos, Local.view, hw, Ctl.stand, View.sig] using hok.1
    rw [hp, due] at hlt
    split at hlt <;> omega
  · rw [hw] at hb
    cases hb

/-- Workers that have left their loops have no message in flight. -/
theorem Good.finished {ph : At → Phase} {n : Nat} {loc : Tid → Local At}
    {a : Relay.State UInt64} (h : Good ph n loc a)
    (hf : ∀ w, (loc w).ctl = .finalize) : a.stage.pending = [] := by
  have hpos : ∀ w, pos ph (loc w) = n := by
    intro w
    have hok := h.ok w
    simp only [Local.view, hf w, Ctl.stand] at hok
    simpa [pos, Local.view, hf w, Ctl.stand, View.sig] using hok.1
  have hS : pos ph (loc (turn a.m)) = a.m + (isSent a.stage).toNat :=
    congrArg Sig.pos h.linked.sender
  have hR : pos ph (loc (!turn a.m)) = a.m + (isTaken a.stage).toNat :=
    h.linked.pos
  rw [hpos] at hS hR
  cases hs : a.stage with
  | flight v =>
    simp only [hs, isSent, isTaken, Bool.toNat_true, Bool.toNat_false] at hS hR
    omega
  | _ => rfl

/-- **Nobody is stuck.** While a worker is unfinished something can happen,
provided a worker that failed owed nothing. -/
theorem Live.not_stuck {B : Body Mem At} {P : Protocol B} (L : Live P)
    {x : Worker} {s : State Mem At} {a : Relay.State UInt64}
    (hH : P.Holds x.n.toNat s a) (hb : Books s) (hset : Settled s)
    (hex : Excused P.ph L.hold x.n.toNat s) (hu : ∃ w, s.Unfinished w) :
    ¬ Stuck B x s := by
  obtain ⟨u, hab, hus⟩ := hu
  have halive := State.alive_of_main hab
  cases hm : s.main with
  | setup | create | start =>
    obtain ⟨t, ht, hne⟩ := mainStep_early (B := B) (s := s) (by simp [hm])
    exact not_stuck_of_main (halive (by simp [hm])) ht hne
  | join i =>
    have ha := halive (by simp [hm])
    by_cases hi : (s.thr i).status.stopped = true
    · exact not_stuck_of_main (t := { s with
          error_in_thread := s.error_in_thread || (s.thr i).status == .failed
          main := if i then .report else .join true })
        ha (by simp [mainStep, hm, hi]) (by cases i <;> simp [hm])
    intro hst
    have hsw : s.start_work = true := by
      cases hsw : s.start_work with
      | true => rfl
      | false =>
        have hprep := (hH.before hsw).2.2
        rw [hm] at hprep
        exact hprep.elim
    have hinv := (hH.after hsw).1
    have hcreated : ∀ w, (s.thr w).status ≠ .absent :=
      fun w => hb.created w (by simp [hm, Main.created])
    have hrun : (s.thr i).status = .running := by
      cases hsi : (s.thr i).status with
      | running => rfl
      | absent => exact absurd hsi (hcreated i)
      | returned | failed => simp [hsi, Status.stopped] at hi
    -- the worker that is joined waits for its peer, whatever has become of that
    obtain ⟨b, hctl, hw⟩ := hst.waiting ha hrun hsw
    have howes := L.waits_owes hH.good hinv hctl hw
    cases hpeer : (s.thr (!i)).status with
    | absent => exact hcreated _ hpeer
    | running =>
      obtain ⟨b', hctl', hw'⟩ := hst.waiting ha hpeer hsw
      exact L.not_both hH.good hinv hctl hctl' hw hw'
    | returned raw_ds ds => exact hH.good.not_owes (hset _ _ _ hpeer) howes
    | failed =>
      rcases hex _ hpeer with hs | hno
      · rw [Bool.not_not] at hs
        exact hi hs
      · exact hno howes
  | report | exited code =>
    have hs := hb.joined u (by simp [hm, Main.joined])
    rw [hus] at hs
    cases hs

/-- A worker's step fails only when a call does. -/
theorem Protocol.Holds.fails {B : Body Mem At} {P : Protocol B}
    {n : Nat} {w : Tid} {c : Choice} {s : State Mem At} {a : Relay.State UInt64}
    {o : WorkerOut Mem At} {msg : String} (h : P.Holds n s a)
    (hstep : WorkerCase B n w c s.start_work s.mem (s.loc w) o)
    (hf : o.fate = .fail msg) : c.fails = true := by
  cases hstep with
  | still _ _ _ hfate =>
    rcases hfate with hr | ⟨hc, -⟩ | ⟨-, hfin⟩
    · rw [hr] at hf; cases hf
    · exact hc
    · rw [hfin] at hf
      unfold spin_main_finalize at hf
      split at hf
      · split at hf
        · assumption
        · cases hf
      · cases hf
  | frame _ _ _ hr => rw [hr] at hf; cases hf
  | @body b bo hc hb _ _ _ hfate =>
    rw [hfate] at hf
    refine (P.sound h.good (h.after (h.passed hc)).1 hc hb).2 msg ?_
    cases hn : bo.next <;> simp [hn, Next.fate] at hf
    exact hf ▸ rfl

/-- **Somebody does not wait.** While no worker has failed, the unfinished
workers are not all waiting. -/
theorem Live.not_all_waiting {B : Body Mem At} {P : Protocol B} (L : Live P)
    {x : Worker} {ok : State Mem At → Label → Prop} {h : List Event}
    {s : State Mem At} (hrun : Run (spin_pingpong B x) ok h s)
    (hf : ∀ w, (s.thr w).status ≠ .failed) (hu : ∃ w, s.Unfinished w) :
    ¬ ∀ w, s.Unfinished w → s.Waiting B w := by
  intro hall
  obtain ⟨a, -, hH⟩ := P.refines hrun
  obtain ⟨w, hw⟩ := hu
  obtain ⟨b, hctl, hwaits⟩ := hall w hw
  have hinv := (hH.after (hH.passed hctl)).1
  have howes := L.waits_owes hH.good hinv hctl hwaits
  cases hpeer : (s.thr (!w)).status with
  | absent | running =>
    obtain ⟨b', hctl', hwaits'⟩ := hall (!w) ⟨hw.1, by rw [hpeer]; rfl⟩
    exact L.not_both hH.good hinv hctl hctl' hwaits hwaits'
  | returned raw_ds ds =>
    exact hH.good.not_owes (settled hrun _ _ _ hpeer) howes
  | failed => exact hf _ hpeer

/-- In a run without failing calls no worker fails. -/
theorem Protocol.no_failure {B : Body Mem At} (P : Protocol B) {x : Worker}
    {h : List Event} {s : State Mem At}
    (hrun : Run (spin_pingpong B x) NoFail h s) :
    ∀ w, (s.thr w).status ≠ .failed := by
  refine P.invariant (I := fun s => ∀ w, (s.thr w).status ≠ .failed) ?_ hrun
    (by intro w h; cases h)
  intro s l t es a b ha _ hI hok hstep w
  obtain ⟨-, ⟨c, -, hm, -⟩ | ⟨v, c, o, rfl, -, ho, rfl, -⟩⟩ := step_cases hstep
  · rcases (mainStep_cases hm).thread w with ht | ht
    · rw [ht]
      exact hI w
    · rw [ht]
      simp
  · by_cases hw : w = v
    · subst hw
      cases hf : o.fate with
      | fail msg =>
        have hc := ha.fails (workerStep_cases ho) hf
        exact absurd hc (by simpa [NoFail, Label.choice] using hok)
      | _ => simp [State.apply, hf]
    · have hI' := hI w
      unfold State.apply
      cases o.fate <;> simpa [Function.update_of_ne hw] using hI'

/-- **No run without failing calls is ever stuck.** -/
theorem Live.no_fail_not_stuck {B : Body Mem At} {P : Protocol B} (L : Live P)
    {x : Worker} {h : List Event} {s : State Mem At}
    (hrun : Run (spin_pingpong B x) NoFail h s) (hu : ∃ w, s.Unfinished w) :
    ¬ Stuck B x s := by
  obtain ⟨a, -, hH⟩ := P.refines hrun
  have hbooks := P.books (fun {s c} (hok : NoFail s (.main c)) => hok) hrun
  exact L.not_stuck hH hbooks (settled hrun)
    (fun w hw => absurd hw (P.no_failure hrun w)) hu

/-- In a run without failing calls a worker in a branch is running. -/
theorem Protocol.running {B : Body Mem At} (P : Protocol B) {x : Worker}
    {h : List Event} {s : State Mem At}
    (hrun : Run (spin_pingpong B x) NoFail h s) {w : Tid} {b : At}
    (hb : (s.loc w).ctl = .body b) : (s.thr w).status = .running := by
  obtain ⟨a, -, hH⟩ := P.refines hrun
  have hbooks := P.books (fun {s c} (hok : NoFail s (.main c)) => hok) hrun
  cases hs : (s.thr w).status with
  | running => rfl
  | failed => exact absurd hs (P.no_failure hrun w)
  | returned raw_ds ds =>
    rw [settled hrun w raw_ds ds hs] at hb
    cases hb
  | absent =>
    refine absurd hs (hbooks.created w ?_)
    have hstarted := hbooks.started (hH.passed hb)
    cases hm : s.main <;> simp [hm, Main.started, Main.created] at hstarted ⊢

end Osjitter.Pingpong
