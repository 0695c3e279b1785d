/-
Osjitter.Pingpong.Ranking — what is left for the process to do.

`Progress` shows that something can always happen. Here it is shown that what
happens comes to an end: while no call fails, nothing is spurious and each
reading of a sender's clock is above the last timestamp (`Timely`), every step
that is not spent waiting brings the process closer to its end.

  §1 What a method says of its branches (`Ranking`): a rank that each step
     lowers, taken together with the rank of the other worker, whose way a
     wake-up makes longer. `Ranking.state` adds up what is left for the three threads:
     the iterations to come, the rank in the branch, and the pauses.
  §2 It never grows, and shrinks with every step that changes something
     (`Ranking.ranked`): `Ranking.main` for the main thread, and for a worker
     the frame around the branches (`Ranking.frame`), the branches
     (`Ranking.body`) and both (`Ranking.worker`).
  §3 While the process has not ended there is such a step (`Live.goes`), as long
     as timestamps are left above the last one.

A step that only waits changes nothing that the process could tell apart
(`State.Same`); a scheduler may take any number of them.
-/
import Osjitter.Lib.Ranking
import Osjitter.Pingpong.Failure

namespace Osjitter.Pingpong

open Machines Relay

variable {Mem At : Type}

/-! ## §1 Ranks

The rank of a worker in its branch may look at the memory, since a lock that is
taken is a longer way than one that is free. So a step of one worker can raise
the rank of the other, and must lower its own by more. -/

/-- A clock reading is above the last timestamp that the worker knows. -/
def Above (s : State Mem At) : Event → Prop
  | .clock w v => (s.loc w).regs.tsc < v
  | _ => True

instance (s : State Mem At) (e : Event) : Decidable (Above s e) :=
  match e with
  | .clock w v => inferInstanceAs (Decidable ((s.loc w).regs.tsc < v))
  | .send _ _ | .recv _ _ | .leg _ _ _ _ => inferInstanceAs (Decidable True)

/-- What a step shows. -/
def shows (B : Body Mem At) (x : Worker) (s : State Mem At) (a : Label) :
    List Event :=
  ((spin_pingpong B x).step s a).elim [] Prod.snd

/-- No call fails, nothing happens spuriously, and the clock goes on. -/
def Timely (B : Body Mem At) (x : Worker) (s : State Mem At)
    (a : Label) : Prop :=
  a.choice.Quiet ∧ ∀ e ∈ shows B x s a, Above s e

instance (B : Body Mem At) (x : Worker) (s : State Mem At) (a : Label) :
    Decidable (Timely B x s a) := inferInstanceAs (Decidable (_ ∧ _))

/-- What a worker at `l` has left of its branch. -/
def Ctl.rank (rank : At → Nat) : Ctl At → Nat
  | .body b => rank b
  | _ => 0

/-- What it has left of it after a step. -/
def Next.rank (rank : At → Nat) : Next At → Nat
  | .goto b => rank b
  | _ => 0

/-- How a method gets through its branches. A step on the spot apart, each step
takes the ranks of both workers down. The clock is read at `rdtsc` only. -/
structure Ranking {B : Body Mem At} (P : Protocol B) where
  bound : Nat
  rank : Tid → Mem → At → Nat
  le : ∀ w mem b, rank w mem b ≤ bound
  rdtsc : At
  store : At
  clock : ∀ {w c mem r},
    B.step w c mem r rdtsc = some (fenced_rdtsc w c mem r rdtsc store)
  only : ∀ {w c mem r b o v t}, B.step w c mem r b = some o →
    .clock v t ∈ o.ev → b = rdtsc
  drop : ∀ {n c mem loc a w b o}, Good P.ph n loc a → P.Inv mem loc a →
    (loc w).ctl = .body b → c.Quiet → B.step w c mem (loc w).regs b = some o →
    (∀ v t, .clock v t ∈ o.ev → (loc w).regs.tsc < t) →
    (o.next = .goto b ∧ o.mem = mem ∧ o.regs = (loc w).regs ∧ o.ev = []) ∨
      o.next.rank (rank w o.mem) + (loc (!w)).ctl.rank (rank (!w) o.mem) <
        rank w mem b + (loc (!w)).ctl.rank (rank (!w) mem)

section rank

variable {B : Body Mem At} {P : Protocol B} (R : Ranking P)

/-- What is left for a worker besides its present branch. -/
def Local.base (bound n : Nat) (l : Local At) : Nat :=
  match l.ctl with
  | .calloc => 4 + (n - l.regs.i) * (bound + 1)
  | .gate => 3 + (n - l.regs.i) * (bound + 1)
  | .head => 2 + (n - l.regs.i) * (bound + 1)
  | .body _ => 2 + (n - (l.regs.i + 1)) * (bound + 1)
  | .finalize => 1

/-- What is left for the main thread. -/
def Main.rank : Main → Nat
  | .setup false => 8
  | .create false => 7
  | .setup true => 6
  | .create true => 5
  | .start => 4
  | .join false => 3
  | .join true => 2
  | .report => 1
  | .exited _ => 0

/-- A worker that is to be created or runs. -/
def Ranking.thread (n : Nat) (s : State Mem At) (w : Tid) : Nat :=
  match (s.thr w).status with
  | .absent => 4 + n * (R.bound + 1)
  | .running => (s.loc w).base R.bound n + (s.loc w).ctl.rank (R.rank w s.mem)
  | .returned _ _ | .failed => 0

/-- What is left for the process. -/
def Ranking.state (n : Nat) (s : State Mem At) : Nat :=
  if s.aborted then 0 else s.main.rank + R.thread n s false + R.thread n s true

/-- What is left at the beginning. -/
theorem Ranking.state_init (x : Worker) :
    R.state x.n.toNat (spin_pingpong B x).init =
      16 + 2 * (x.n.toNat * (R.bound + 1)) := by
  simp only [Ranking.state, Ranking.thread, spin_pingpong, Main.rank,
    Bool.false_eq_true, if_false]
  omega

/-- The rank does not see pending pauses. -/
theorem Ranking.state_same {n : Nat} {s t : State Mem At} (h : t.Same s) :
    R.state n t = R.state n s := by
  have hthread : ∀ w, R.thread n t w = R.thread n s w := by
    intro w
    simp only [Ranking.thread, h.status w, h.loc, h.mem]
  simp only [Ranking.state, h.aborted, h.main, hthread]

/-- What is left for a worker depends on where it stands, and in a branch on the
memory. -/
theorem Ranking.thread_congr {n : Nat} {s t : State Mem At} {w : Tid}
    (hstatus : (t.thr w).status = (s.thr w).status) (hloc : t.loc w = s.loc w)
    (hmem : t.mem = s.mem ∨ ∀ b, (s.loc w).ctl ≠ .body b) :
    R.thread n t w = R.thread n s w := by
  unfold Ranking.thread
  rw [hstatus, hloc]
  rcases hmem with hm | hb
  · rw [hm]
  · cases hc : (s.loc w).ctl with
    | body b => exact absurd hc (hb b)
    | _ => rfl

/-- What is left for the process, with either worker first. -/
theorem Ranking.state_eq {n : Nat} {s : State Mem At} (h : s.aborted = false)
    (w : Tid) :
    R.state n s = s.main.rank + (R.thread n s w + R.thread n s (!w)) := by
  cases w <;> simp only [Ranking.state, h, Bool.false_eq_true, if_false, Bool.not_false,
    Bool.not_true] <;> omega

/-- A step that moves the main thread on, and leaves the workers what they had
left. -/
theorem Ranking.main_lt {n : Nat} {s t : State Mem At} (hs : s.aborted = false)
    (ht : t.aborted = false) (hthread : ∀ w, R.thread n t w = R.thread n s w)
    (hmain : t.main.rank < s.main.rank) : R.state n t < R.state n s := by
  rw [R.state_eq hs false, R.state_eq ht false, hthread, hthread]
  omega

/-! ## §2 Steps

One lemma for each kind of step. The frame lowers the number of iterations to
come when it goes back to its head, which is worth more than any branch
(`Ranking.bound`). -/

/-- Before the gate opens nobody is in a branch. -/
theorem Fresh.not_body {l : Local At} (h : Fresh l) (b : At) :
    l.ctl ≠ .body b := by
  obtain ⟨hc | hc, -⟩ := h <;> simp [hc]

/-- Workers are created in their order. -/
theorem uncreated {x : Worker} {ok : State Mem At → Label → Prop}
    {h : List Event} {s : State Mem At}
    (hrun : Run (spin_pingpong B x) ok h s) : Uncreated s := by
  refine Steps.invariant (I := Uncreated) ?_ hrun (fun _ _ => rfl)
  intro s l t es hs _ hstep
  obtain ⟨-, ⟨c, -, hm, -⟩ | ⟨w, c, o, -, hr, -, rfl, -⟩⟩ := step_cases hstep
  · exact hs.main (mainStep_cases hm)
  · exact hs.worker hr

/-- Each step of the main thread brings it closer to its end. -/
theorem Ranking.main {n : Nat} {s t : State Mem At} {a : Relay.State UInt64}
    {c : Choice} (hH : P.Holds n s a) (hu : Uncreated s)
    (hab : s.aborted = false) (hc : c.fails = false)
    (hstep : MainCase B c s t) : R.state n t < R.state n s := by
  have hbefore : ¬ s.main.started → ∀ w b, (s.loc w).ctl ≠ .body b := by
    intro hm w b
    cases hsw : s.start_work with
    | false => exact ((hH.before hsw).2.1 w).not_body b
    | true => exact absurd (hH.after hsw).2 hm
  cases hstep with
  | @setup i mem hm hs =>
    refine R.main_lt hab hab (fun w => R.thread_congr rfl rfl (.inr fun b => ?_)) ?_
    · exact hbefore (by simp [hm, Main.started]) w b
    · cases i <;> simp [hm, Main.rank]
  | setupFails _ hs =>
    rw [P.setup hs] at hc
    cases hc
  | @create i hm =>
    have habsent := hu i (by cases i <;> simp [hm, Main.created])
    refine R.main_lt hab hab (fun w => ?_) (by cases i <;> simp [hm, Main.rank])
    -- a worker that is created has everything before it
    by_cases hw : w = i
    · subst hw
      simp [Ranking.thread, habsent, State.loc, Local.base, Ctl.rank]
    · exact R.thread_congr (by simp [Function.update_of_ne hw])
        (by simp [State.loc, Function.update_of_ne hw]) (.inl rfl)
  | start hm =>
    exact R.main_lt hab hab (fun w => R.thread_congr rfl rfl (.inl rfl))
      (by simp [hm, Main.rank])
  | @join i hm =>
    exact R.main_lt hab hab (fun w => R.thread_congr rfl rfl (.inl rfl))
      (by cases i <;> simp [hm, Main.rank])
  | report hm =>
    split
    · exact R.main_lt hab hab (fun w => R.thread_congr rfl rfl (.inl rfl))
        (by simp [State.giveUp, hm, Main.rank])
    · exact R.main_lt hab hab (fun w => R.thread_congr rfl rfl (.inl rfl))
        (by simp [hm, Main.rank])
  | fails hf =>
    rw [hf] at hc
    cases hc

/-- A branch does not count its iterations. -/
theorem BodyMove.i_eq {w : Tid} {p : Phase} {r r' : Regs} {af : After}
    {ev : List Event} (h : BodyMove w r p r' af ev) : r'.i = r.i := by
  cases h <;> rfl

section worker

variable {n : Nat} {s : State Mem At} {w : Tid} {c : Choice}
    {o : WorkerOut Mem At}

omit R in
/-- A step on the spot. -/
theorem apply_same (hr : (s.thr w).status = .running) (hm : o.mem = s.mem)
    (hl : o.loc = s.loc w) (hf : o.fate = .run) : (s.apply w o).Same s := by
  refine ⟨by simp, by simp, by simp [State.apply, hf], by simpa using hm, ?_, fun v => ?_⟩
  · rw [State.apply_loc, hl, Function.update_eq_self]
  · by_cases hv : v = w
    · subst hv
      simp [State.apply, hf, hr]
    · exact State.apply_status s hv o

/-- What a worker has left that goes on. -/
theorem Ranking.thread_run (hf : o.fate = .run) :
    R.thread n (s.apply w o) w =
      o.loc.base R.bound n + o.loc.ctl.rank (R.rank w o.mem) := by
  have hstatus : ((s.apply w o).thr w).status = .running := by
    simp [State.apply, hf]
  have hloc : (s.apply w o).loc w = o.loc := by
    rw [State.apply_loc, Function.update_self]
  simp only [Ranking.thread, hstatus, hloc, State.apply_mem]

/-- And what the other has left, whose rank may see the memory. -/
theorem Ranking.thread_other
    (hrun : ∀ b, (s.loc (!w)).ctl = .body b → (s.thr (!w)).status = .running) :
    R.thread n (s.apply w o) (!w) + (s.loc (!w)).ctl.rank (R.rank (!w) s.mem) =
      R.thread n s (!w) + (s.loc (!w)).ctl.rank (R.rank (!w) o.mem) := by
  have hstatus : ((s.apply w o).thr (!w)).status = (s.thr (!w)).status :=
    State.apply_status s (by simp) o
  have hloc : (s.apply w o).loc (!w) = s.loc (!w) := by
    rw [State.apply_loc, Function.update_of_ne (by simp)]
  cases hc : (s.loc (!w)).ctl with
  | body b =>
    have hr := hrun b hc
    simp only [Ranking.thread, hstatus, hloc, hr, hc, State.apply_mem, Ctl.rank]
    omega
  | calloc | gate | head | finalize =>
    rw [R.thread_congr hstatus hloc (.inr fun b => by simp [hc])]
    rfl

/-- A step in the frame leaves less of it. -/
theorem Ranking.frame {k : Ctl At} {sw : Bool}
    (hstep : FrameStep B n w sw (s.loc w) k) (mem : Mem) :
    (⟨k, (s.loc w).regs⟩ : Local At).base R.bound n + k.rank (R.rank w mem) <
      (s.loc w).base R.bound n + (s.loc w).ctl.rank (R.rank w mem) := by
  have henter : ∀ b, (s.loc w).regs.i < n →
      2 + (n - ((s.loc w).regs.i + 1)) * (R.bound + 1) + R.rank w mem b <
        2 + (n - (s.loc w).regs.i) * (R.bound + 1) := by
    intro b hi
    have hle := R.le w mem b
    have hsplit : n - (s.loc w).regs.i = n - ((s.loc w).regs.i + 1) + 1 := by
      omega
    rw [hsplit, Nat.add_mul]
    omega
  cases hstep with
  | gate hc => simp [Local.base, hc, Ctl.rank]
  | head hc => simp [Local.base, hc, Ctl.rank]
  | send hc hi => simpa [Local.base, hc, Ctl.rank] using henter B.send hi
  | recv hc hi => simpa [Local.base, hc, Ctl.rank] using henter B.recv hi
  | finalize hc =>
    simp only [Local.base, hc, Ctl.rank]
    omega

/-- A step in a branch that takes the ranks of both workers down brings the
process closer to its end. -/
theorem Ranking.body {a : Relay.State UInt64} {b : At} {bo : Out Mem At}
    (hH : P.Holds n s a) (hab : s.aborted = false)
    (hr : (s.thr w).status = .running)
    (hrun : ∀ b, (s.loc (!w)).ctl = .body b → (s.thr (!w)).status = .running)
    (hc : c.Quiet) (hb : (s.loc w).ctl = .body b)
    (ho : B.step w c s.mem (s.loc w).regs b = some bo) (hm : o.mem = bo.mem)
    (hl : o.loc = bo.landing (s.loc w)) (hf : o.fate = bo.next.fate)
    (hlt : bo.next.rank (R.rank w bo.mem) + (s.loc (!w)).ctl.rank (R.rank (!w) bo.mem) <
      R.rank w s.mem b + (s.loc (!w)).ctl.rank (R.rank (!w) s.mem)) :
    R.state n (s.apply w o) < R.state n s := by
  have hi := (P.lawful.step ho).i_eq
  have hsound := P.sound hH.good (hH.after (hH.passed hb)).1 hb ho
  have hself : R.thread n s w = (s.loc w).base R.bound n + R.rank w s.mem b := by
    simp only [Ranking.thread, hr, hb, Ctl.rank]
  have hbase : (s.loc w).base R.bound n =
      2 + (n - ((s.loc w).regs.i + 1)) * (R.bound + 1) := by
    simp only [Local.base, hb]
  have hnew : o.fate = .run ∧
      o.loc.base R.bound n + o.loc.ctl.rank (R.rank w o.mem) =
      (s.loc w).base R.bound n + bo.next.rank (R.rank w bo.mem) := by
    rw [hf, hl, hm, hbase]
    cases hn : bo.next with
    | goto b' =>
      exact ⟨rfl, by simp [Out.landing, hn, Local.base, hi, Next.rank, Ctl.rank]⟩
    | next =>
      exact ⟨rfl, by simp [Out.landing, hn, Local.base, hi, Next.rank, Ctl.rank]⟩
    | fail msg =>
      have hfail := hsound.2 msg hn
      rw [hc.1] at hfail
      cases hfail
    | abort msg => exact absurd hn (hsound.1 msg)
  obtain ⟨hfr, hloc⟩ := hnew
  have hthread := R.thread_run (n := n) (s := s) (w := w) hfr
  have hother := R.thread_other (n := n) (o := o) hrun
  have hab' : (s.apply w o).aborted = false := by
    simpa [State.apply, hfr] using hab
  rw [hm] at hother
  rw [R.state_eq hab w, R.state_eq hab' w, State.apply_main]
  omega

/-- **A step of a worker** is on the spot, or brings the process closer to its
end. -/
theorem Ranking.worker {a : Relay.State UInt64} (hH : P.Holds n s a)
    (hab : s.aborted = false) (hr : (s.thr w).status = .running)
    (hrun : ∀ b, (s.loc (!w)).ctl = .body b → (s.thr (!w)).status = .running)
    (hc : c.Quiet) (htime : ∀ v t, .clock v t ∈ o.ev → (s.loc w).regs.tsc < t)
    (hstep : WorkerCase B n w c s.start_work s.mem (s.loc w) o) :
    (s.apply w o).Same s ∨ R.state n (s.apply w o) < R.state n s := by
  have hself : R.thread n s w =
      (s.loc w).base R.bound n + (s.loc w).ctl.rank (R.rank w s.mem) := by
    simp only [Ranking.thread, hr]
  have hother := R.thread_other (n := n) (o := o) hrun
  have hgoes : o.fate = .run → (s.apply w o).aborted = false := by
    intro hf
    simpa [State.apply, hf] using hab
  cases hstep with
  | still hm hl he hfate =>
    rcases hfate with hf | ⟨hfail, -⟩ | ⟨hfin, hf⟩
    · exact .inl (apply_same hr hm hl hf)
    · rw [hc.1] at hfail
      cases hfail
    · right
      have hpos : 0 < R.thread n s w := by simp [hself, Local.base, hfin]
      rw [R.state_eq hab w]
      rw [hm] at hother
      unfold spin_main_finalize at hf
      split at hf
      · simp only [hc.1, Bool.false_eq_true, if_false] at hf
        have hzero : R.thread n (s.apply w o) w = 0 := by
          simp [Ranking.thread, State.apply, hf]
        rw [R.state_eq (by simpa [State.apply, hf] using hab) w, hzero,
          State.apply_main]
        omega
      · have habort : (s.apply w o).aborted = true := by simp [State.apply, hf]
        simp only [Ranking.state, habort, if_true]
        omega
  | @frame k hm hl he hf hk =>
    right
    have hlt := R.frame hk s.mem
    have hnew : R.thread n (s.apply w o) w =
        (⟨k, (s.loc w).regs⟩ : Local At).base R.bound n + k.rank (R.rank w s.mem) := by
      rw [R.thread_run hf, hm, hl]
    rw [hm] at hother
    rw [R.state_eq hab w, R.state_eq (hgoes hf) w, State.apply_main]
    omega
  | @body b bo hb ho hm hl he hf =>
    have hinv := (hH.after (hH.passed hb)).1
    rw [he] at htime
    rcases R.drop hH.good hinv hb hc ho htime with ⟨hn, hmem, hregs, -⟩ | hlt
    · refine .inl (apply_same hr (hm.trans hmem) ?_ (by rw [hf, hn]; rfl))
      simp only [hl, Out.landing, hn, hregs, ← hb]
    · exact .inr (R.body hH hab hr hrun hc hb ho hm hl hf hlt)

end worker

/-- A worker reads its own clock. -/
theorem BodyMove.clock_self {w v : Tid} {p : Phase} {r r' : Regs} {af : After}
    {ev : List Event} {t : UInt64} (h : BodyMove w r p r' af ev)
    (ht : Relay.Event.clock v t ∈ ev) : v = w := by
  cases h <;> simp_all

/-- The same for the frame. -/
theorem StandMove.clock_self {n : Nat} {w v : Tid} {st st' : Stand}
    {r r' : Regs} {ev : List Event} {t : UInt64}
    (h : StandMove n w st r st' r' ev) (ht : Relay.Event.clock v t ∈ ev) :
    v = w := by
  cases h with
  | stay | enter | toSend | toRecv | leave => simp at ht
  | body hb | ended hb => exact hb.clock_self ht

/-- A timely run is one without failing calls. -/
theorem Timely.run {x : Worker} {h : List Event} {s : State Mem At}
    (hrun : Run (spin_pingpong B x) (Timely B x) h s) :
    Run (spin_pingpong B x) NoFail h s :=
  hrun.mono fun _ _ hok => hok.1.1

/-- **What is left for the process never grows**, and shrinks with every step
that changes something. -/
theorem Ranking.ranked (x : Worker) :
    Ranked (spin_pingpong B x) (Timely B x) State.Same
    (fun s => ∃ h, Run (spin_pingpong B x) (Timely B x) h s) (R.state x.n.toNat) where
  keep := by
    rintro s a t es ⟨h, hrun⟩ hok hstep
    exact ⟨_, hrun.tail hok hstep⟩
  idle := by
    intro s a t es _ _ _ hsame
    exact le_of_eq (R.state_same hsame)
  drop := by
    rintro s a t es ⟨h, hrun⟩ hok hstep hne
    obtain ⟨b, -, hH⟩ := P.refines hrun
    obtain ⟨ha, ⟨c, rfl, hm, -⟩ | ⟨w, c, o, rfl, hr, ho, rfl, rfl⟩⟩ :=
      step_cases hstep
    · exact R.main hH (uncreated hrun) (State.alive_aborted ha) hok.1.1
        (mainStep_cases hm)
    · have hcase := workerStep_cases ho
      have htime : ∀ v t, .clock v t ∈ o.ev → (s.loc w).regs.tsc < t := by
        intro v t ht
        obtain rfl := (hcase.move P.lawful).clock_self ht
        exact hok.2 _ (by simpa [shows, hstep] using ht)
      rcases R.worker hH (State.alive_aborted ha) hr
        (fun b => P.running (Timely.run hrun)) hok.1
        htime hcase with hsame | hlt
      · exact absurd hsame hne
      · exact hlt

/-! ## §3 Something is left to do

To be stuck is to have no step that changes anything, and `Progress` excludes
that. The step it gives may be one with a late timestamp or a spurious failure;
a quiet one with a clock that goes on is found beside it. -/

/-- A quiet step with timestamps above the last ones. -/
theorem Timely.of_step {x : Worker} {s t : State Mem At} {a : Label}
    {es : List Event} (hq : a.choice.Quiet)
    (hstep : (spin_pingpong B x).step s a = some (t, es))
    (habove : ∀ e ∈ es, Above s e) : Timely B x s a := by
  refine ⟨hq, ?_⟩
  simpa [shows, hstep] using habove

/-- Steps that show nothing are timely. -/
theorem Timely.silent {x : Worker} {s t : State Mem At}
    (h : Steps (spin_pingpong B x) Calm s [] t) :
    Steps (spin_pingpong B x) (Timely B x) s [] t := by
  generalize hes : ([] : List Event) = es at h
  induction h with
  | refl => exact .refl
  | @tail h t a u es _ hok hstep ih =>
    obtain ⟨rfl, rfl⟩ := List.append_eq_nil_iff.mp hes.symm
    exact (ih rfl).tail (Timely.of_step hok hstep (by simp)) hstep

/-- The process takes a timely step that changes something, after pauses. -/
def Goes (B : Body Mem At) (x : Worker) (s : State Mem At) : Prop :=
  ∃ t, Steps (spin_pingpong B x) (Timely B x) s [] t ∧ t.Same s ∧
    ∃ a u es, Timely B x t a ∧ (spin_pingpong B x).step t a = some (u, es) ∧
      ¬ u.Same t

/-- Every state is the same as itself. -/
theorem State.Same.refl (s : State Mem At) : s.Same s :=
  ⟨rfl, rfl, rfl, rfl, rfl, fun _ => rfl⟩

/-- States are the same in either direction. -/
theorem State.Same.symm {s t : State Mem At} (h : t.Same s) : s.Same t :=
  ⟨h.main.symm, h.start_work.symm, h.aborted.symm, h.mem.symm, h.loc.symm,
    fun w => (h.status w).symm⟩

/-- States that are the same as one are the same. -/
theorem State.Same.trans {s t u : State Mem At} (h : u.Same t) (h' : t.Same s) :
    u.Same s :=
  ⟨h.main.trans h'.main, h.start_work.trans h'.start_work, h.aborted.trans h'.aborted,
    h.mem.trans h'.mem, h.loc.trans h'.loc,
    fun w => (h.status w).trans (h'.status w)⟩

/-- A step of a worker does the same to both. -/
theorem State.Same.apply {s t : State Mem At} (h : t.Same s) (w : Tid)
    (o : WorkerOut Mem At) : (t.apply w o).Same (s.apply w o) := by
  refine ⟨by simp [h.main], by simp [h.start_work], ?_, by simp, ?_, fun v => ?_⟩
  · cases hf : o.fate <;> simp [State.apply, hf, h.aborted]
  · rw [State.apply_loc, State.apply_loc, h.loc]
  · by_cases hv : v = w
    · subst hv
      cases hf : o.fate <;> simp [State.apply, hf]
    · rw [State.apply_status t hv, State.apply_status s hv, h.status]

/-- A step of the main thread. -/
theorem Goes.main {x : Worker} {s t : State Mem At} (ha : s.alive = true)
    (hstep : mainStep B {} s = some t) (hne : t.main ≠ s.main) :
    Goes B x s := by
  have hone : (spin_pingpong B x).step s (.main {}) = some (t, []) := by
    simp [spin_pingpong, ha, hstep]
  exact ⟨s, .refl, .refl s, .main {}, t, [],
    Timely.of_step ⟨rfl, rfl⟩ hone (by simp), hone,
    fun h => hne h.main⟩

/-- A step of a worker. -/
theorem Goes.worker {x : Worker} {s : State Mem At} {w : Tid} {c : Choice}
    {o : WorkerOut Mem At} (ha : s.alive = true)
    (hr : (s.thr w).status = .running) (hc : c.Quiet)
    (habove : ∀ e ∈ o.ev, Above s e)
    (hstep : workerStep B x w c s.start_work s.mem 0 (s.loc w) = some o)
    (hne : ¬ (s.apply w o).Same s) : Goes B x s := by
  obtain ⟨t, ht, hsame, -, hone⟩ := step_after_pauses (x := x) ha hr hstep
  have htimely : Timely B x t (.worker w c) := by
    refine Timely.of_step hc hone fun e he => ?_
    have hs := habove e he
    cases e with
    | clock v u => simpa [Above, hsame.loc] using hs
    | send | recv | leg => trivial
  refine ⟨t, Timely.silent ht, hsame, _, _, _, htimely, hone, fun hstill => hne ?_⟩
  exact (hsame.apply w o).symm.trans (hstill.trans hsame)

/-- A step that moves a worker or ends it. -/
theorem not_same_of_moves {s : State Mem At} {w : Tid} {o : WorkerOut Mem At}
    (ha : s.alive = true) (hr : (s.thr w).status = .running)
    (hmoves : o.loc.ctl ≠ (s.loc w).ctl ∨ o.fate ≠ .run) :
    ¬ (s.apply w o).Same s := by
  intro hsame
  rcases hmoves with hctl | hfate
  · have hloc := congrFun hsame.loc w
    rw [State.apply_loc, Function.update_self] at hloc
    exact hctl (by rw [hloc])
  · have hstatus := hsame.status w
    have habort := hsame.aborted
    rw [hr] at hstatus
    rw [State.alive_aborted ha] at habort
    cases hf : o.fate with
    | run => exact hfate hf
    | fail msg | ret raw_ds ds => simp [State.apply, hf] at hstatus
    | abort msg => simp [State.apply, hf] at habort

include R in
/-- A worker that has passed the gate and does not wait. -/
theorem Ranking.goes {x : Worker} {s : State Mem At}
    {a : Relay.State UInt64} {w : Tid} (hH : P.Holds x.n.toNat s a)
    (ha : s.alive = true) (hr : (s.thr w).status = .running)
    (hrun : ∀ b, (s.loc (!w)).ctl = .body b → (s.thr (!w)).status = .running)
    (hsw : s.start_work = true) (hw : ¬ s.Waiting B w)
    (htsc : ∃ t, (s.loc w).regs.tsc < t) : Goes B x s := by
  by_cases hbody : ∃ b, (s.loc w).ctl = .body b
  · obtain ⟨b, hb⟩ := hbody
    have hinv := (hH.after hsw).1
    -- a quiet step that changes something is enough
    have hgo : ∀ {c o}, Choice.Quiet c →
        B.step w c s.mem (s.loc w).regs b = some o →
        (∀ v t, .clock v t ∈ o.ev → (s.loc w).regs.tsc < t) →
        ¬ (o.next = .goto b ∧ o.mem = s.mem ∧ o.regs = (s.loc w).regs ∧ o.ev = []) →
        Goes B x s := by
      intro c o hc ho hclock hmoves
      have hlt := (R.drop hH.good hinv hb hc ho hclock).resolve_left hmoves
      obtain ⟨k, hk⟩ : ∃ k : WorkerOut Mem At, k =
          { mem := o.mem, loc := o.landing (s.loc w), pauses := o.pauses,
            fate := o.next.fate, ev := o.ev } := ⟨_, rfl⟩
      have hone : workerStep B x w c s.start_work s.mem 0 (s.loc w) =
          some k := by
        simp [workerStep, hb, ho, hk]
      refine Goes.worker ha hr hc (fun e he => ?_) hone (fun hsame => ?_)
      · rw [hk] at he
        cases e with
        | clock v t =>
          obtain rfl := (P.lawful.step ho).clock_self he
          exact hclock _ t he
        | send | recv | leg => trivial
      · have hdrop :=
          R.body (o := k) hH (State.alive_aborted ha) hr hrun hc hb ho (by rw [hk])
          (by rw [hk]) (by rw [hk]) hlt
        rw [R.state_same hsame] at hdrop
        exact absurd hdrop (lt_irrefl _)
    by_cases hrd : b = R.rdtsc
    · -- the clock is read again, and shows something later
      obtain ⟨t, ht⟩ := htsc
      subst hrd
      refine hgo (c := { clock := t }) ⟨rfl, rfl⟩ R.clock ?_ ?_
      · intro v u hu
        rw [fenced_rdtsc_ev, List.mem_singleton] at hu
        cases hu
        exact ht
      · rintro ⟨-, -, -, hev⟩
        simp at hev
    -- some quiet step changes something, as the worker does not wait
    · obtain ⟨c, hc, o, ho, hmoves⟩ : ∃ c, Choice.Quiet c ∧ ∃ o,
          B.step w c s.mem (s.loc w).regs b = some o ∧
          ¬ (o.next = .goto b ∧ o.mem = s.mem ∧ o.regs = (s.loc w).regs ∧
              o.ev = []) := by
        by_contra hall
        refine hw ⟨b, hb, fun c hc o ho => ?_⟩
        by_contra hm
        exact hall ⟨c, hc, o, ho, hm⟩
      exact hgo hc ho (fun v t hv => absurd (R.only ho hv) hrd) hmoves
  · obtain ⟨o, ho, hmoves⟩ := workerStep_frame (B := B) (x := x) (w := w) s.mem
      (not_exists.mp hbody)
    have hone : workerStep B x w {} s.start_work s.mem 0 (s.loc w) =
        some o := by
      rw [hsw]
      exact ho
    refine Goes.worker ha hr (c := {}) ⟨rfl, rfl⟩ ?_ hone
      (not_same_of_moves ha hr hmoves)
    have hev : o.ev = [] := by
      cases workerStep_cases ho with
      | still _ _ he => exact he
      | frame _ _ he => exact he
      | body hb => exact absurd ⟨_, hb⟩ hbody
    simp [hev]


include R in
/-- **While the process has not ended something is left to do.** It ends with
code 0, or with the assertion on an odd `n`. -/
theorem Live.goes (L : Live P) {x : Worker} {h : List Event} {s : State Mem At}
    (hrun : Run (spin_pingpong B x) (Timely B x) h s)
    (htsc : ∀ w, ∃ t, (s.loc w).regs.tsc < t) :
    s.main = .exited 0 ∨ s.aborted = true ∧ x.n.toNat % 2 = 1 ∨ Goes B x s := by
  have hno := Timely.run hrun
  obtain ⟨a, -, hH⟩ := P.refines hrun
  have hbooks := P.books (fun {s c} (hok : NoFail s (.main c)) => hok) hno
  have hfailed := P.no_failure hno
  -- nobody fails in a timely run, so nothing is noted
  have herror : s.error_in_thread = false := by
    cases he : s.error_in_thread with
    | false => rfl
    | true =>
      obtain ⟨w, -, hw⟩ := hbooks.error he
      exact absurd hw (hfailed w)
  cases hab : s.aborted with
  | true => exact .inr (.inl ⟨rfl, P.odd_of_aborted hrun hab⟩)
  | false =>
    have halive := State.alive_of_main hab
    cases hm : s.main with
    | exited code =>
      have hcode := (hbooks.exit code hm).2
      rw [herror] at hcode
      exact .inl (by rw [show code = 0 from hcode])
    | setup | create | start =>
      obtain ⟨t, ht, hne⟩ := mainStep_early (B := B) (s := s) (by simp [hm])
      exact .inr (.inr (.main (halive (by simp [hm])) ht hne))
    | report =>
      exact .inr (.inr (.main (t := { s with main := .exited 0 })
        (halive (by simp [hm]))
        (by simp [mainStep, hm, herror]) (by simp [hm])))
    | join i =>
      refine .inr (.inr ?_)
      have ha := halive (by simp [hm])
      by_cases hi : (s.thr i).status.stopped = true
      · exact .main (t := { s with
            error_in_thread := s.error_in_thread || (s.thr i).status == .failed
            main := if i then .report else .join true })
          ha (by simp [mainStep, hm, hi]) (by cases i <;> simp [hm])
      -- somebody who has not returned does not wait
      have hsome := L.not_all_waiting hrun hfailed ⟨i, hab, by simpa using hi⟩
      obtain ⟨w, hw, hgoes⟩ : ∃ w, s.Unfinished w ∧ ¬ s.Waiting B w := by
        by_contra hall
        exact hsome fun w hw => not_not.mp fun hgo => hall ⟨w, hw, hgo⟩
      have hsw : s.start_work = true := by
        cases hsw : s.start_work with
        | true => rfl
        | false =>
          have hprep := (hH.before hsw).2.2
          rw [hm] at hprep
          exact hprep.elim
      have hr : (s.thr w).status = .running := by
        cases hs : (s.thr w).status with
        | running => rfl
        | absent =>
          exact absurd hs (hbooks.created w (by simp [hm, Main.created]))
        | returned | failed =>
          have hstop := hw.2
          rw [hs] at hstop
          cases hstop
      exact R.goes hH ha hr (fun b => P.running hno) hsw hgoes (htsc w)

end rank

end Osjitter.Pingpong
