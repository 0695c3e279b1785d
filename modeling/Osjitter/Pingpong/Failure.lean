/-
Osjitter.Pingpong.Failure — calls of a worker that fail.

A worker whose call fails returns 0 and never steps again. Its peer goes on,
unless it still needs something: a message, the wake-up for one, a mutex or
the token. In `pingpong.c` nothing tells it.

  §1 A worker that failed owing nothing owes nothing later (`Live.Stable`,
     per method): the only thing that could change is that the peer goes to
     sleep where the failed worker was about to wake it.
  §2 `Harmless`: a call of a worker fails only when the worker owes its peer
     nothing, or the peer has returned. It is a condition on the state before
     the step. `Excused` and the order in which the workers are created
     (`Uncreated`) are kept by such steps, so `Live.excused` holds in every
     state that they lead to.
  §3 `error_reported`: in runs of such steps nobody is left waiting, and
     `spin_pingpong` reports the error (`Reported`); only the assertion on an
     odd `n` can end the process otherwise. `spin_orphan` is a run with another
     failure in which thread 1 waits for ever.

`Method.protocol` and `Method.live` gather what the seven methods have proved.
A failure of the main thread's own calls ends the process and leaves nobody; in
`Harmless` runs there is none.
-/
import Osjitter.Pingpong.CondVarTheorems
import Osjitter.Pingpong.FutexTheorems
import Osjitter.Pingpong.Methods
import Osjitter.Pingpong.PipeTheorems
import Osjitter.Pingpong.SemaphoreTheorems
import Osjitter.Pingpong.SpinTheorems

namespace Osjitter.Pingpong

open Machines Relay

variable {Mem At : Type}

/-! ## §1 What is owed does not grow

A worker that has failed stands where it failed, but the memory goes on to
change. Whether it holds something that the other needs could depend on the
memory, and each method shows that it does not begin to. -/

/-- While worker `w` stands still, or fails, steps of the branches do not make
it hold what it did not hold, if it has no message left to send. -/
def Live.Stable {B : Body Mem At} {P : Protocol B} (L : Live P) : Prop :=
  ∀ {n c mem loc a w v b k o}, Good P.ph n loc a → P.Inv mem loc a →
    (loc v).ctl = .body b → B.step v c mem (loc v).regs b = some o →
    (v = w → ∃ msg, o.next = .fail msg) → (loc w).ctl = .body k →
    ¬ due w (pos P.ph (loc w)) < n → L.hold o.mem w k → L.hold mem w k

/-- How far a worker in a branch has come. -/
theorem pos_body {ph : At → Phase} {l : Local At} {k : At}
    (hk : l.ctl = .body k) : pos ph l = l.regs.i + (ph k).handled.toNat := by
  cases hp : ph k <;> simp [pos, Local.view, hk, Ctl.stand, View.sig, hp, Phase.handled]

/-- The peer of a worker that has stored its last message waits for that
message only. -/
theorem Good.last_waiting {ph : At → Phase} {n : Nat} {loc : Tid → Local At}
    {a : Relay.State UInt64} {w : Tid} {k b : At} (h : Good ph n loc a)
    (hk : (loc w).ctl = .body k) (hsent : ph k = .sent)
    (hlast : ¬ due w (pos ph (loc w)) < n) (hb : (loc (!w)).ctl = .body b)
    (hph : ph b = .waiting) : (∃ v, a.stage = .flight v) ∧ w = turn a.m := by
  have hw := h.where hk
  have hv := h.where hb
  have hlt : (loc (!w)).regs.i < n := by
    have hok := h.ok (!w)
    simp only [Local.view, hb, Ctl.stand] at hok
    exact hok.1
  rw [pos_body hk, hsent] at hlast
  rw [hsent] at hw
  rw [hph] at hv
  rcases hw with ⟨rfl, -, hs⟩ | ⟨rfl, hi, -⟩
  · refine ⟨?_, rfl⟩
    rcases hv with ⟨-, -, ht⟩ | ⟨hne, -⟩
    · cases hst : a.stage with
      | flight v => exact ⟨v, rfl⟩
      | ready | armed v => simp [hst, isSent] at hs
      | taken v => simp [hst, isTaken] at ht
    · simp at hne
  · rcases hv with ⟨hne, -⟩ | ⟨-, hi', -⟩
    · simp at hne
    · have hdue : due (!turn a.m) a.m = a.m + 1 := by simp [due]
      simp only [Phase.handled, Bool.toNat_true, hi, hdue] at hlast
      omega

/-- A spinning thread holds nothing. -/
theorem spinLive_stable (p : Nat) (x : Worker) : (spinLive p x).Stable :=
  fun _ _ _ _ _ _ _ hhold => hhold

/-- Nor does a worker with pipes. -/
theorem pipeLive_stable (x : Worker) : (pipeLive x).Stable :=
  fun _ _ _ _ _ _ _ hhold => hhold

/-- Whether a worker holds the token is told by its control point alone. -/
theorem semLive_stable (x : Worker) : (semLive x).Stable :=
  fun _ _ _ _ _ _ _ hhold => hhold

/-- A sleeper is not made: FUTEX_WAIT finds the futex unlocked. -/
theorem futexLive_stable (x : Worker) : (futexLive x).Stable := by
  intro n c mem loc a w v b k o hg h hb ho hself hk hlast hhold
  rcases hhold with rfl | ⟨rfl, hne⟩
  · exact .inl rfl
  refine .inr ⟨rfl, fun hempty => hne ?_⟩
  -- the failing step itself, or a later one of the peer
  by_cases hv : v = w
  · subst hv
    obtain ⟨msg, hmsg⟩ := hself rfl
    obtain rfl : b = .wake .send := by simpa [hk] using hb.symm
    cases ho
    unfold futex_wake at hmsg ⊢
    split at hmsg
    · next hf => simpa [hf, failing] using hempty
    · cases hmsg
  obtain rfl : v = !w := by simpa [Bool.eq_not] using hv
  cases b with
  | cas role =>
    cases ho
    unfold futex_cas
    split <;> exact hempty
  | wait role =>
    cases ho
    -- the peer cannot go to sleep: its futex is unlocked by then
    have hopen : ¬ mem.futex (!w) = 1 := by
      have hgrip : grips FutexAt.grip loc (!w) = .free := by
        simp [grips, hb, Ctl.grip, FutexAt.grip]
      have hone : mem.slot (!w) = 1 := by
        cases role with
        | send =>
          obtain ⟨hst, hw, -⟩ := hg.where hb
          rw [hw]
          exact (FutexInv.token h).sender_slot (by simp [hst, isSent]) (hw ▸ hgrip)
        | recv =>
          obtain ⟨⟨v, hst⟩, rfl⟩ := hg.last_waiting hk rfl hlast hb rfl
          rcases (FutexInv.token h).on_the_way hst with hp | ⟨hone, -⟩
          · simp [grips, hk, Ctl.grip, FutexAt.grip] at hp
          · simpa [hgrip] using hone
      intro hlocked
      simp [Follicles.slot, hlocked] at hone
    rw [futex_wait, if_neg hopen]
    split <;> exact hempty
  | asleep role =>
    simp only [futex_main, futex_return, hempty, List.not_mem_nil, not_false_eq_true,
      if_true, Option.some.injEq] at ho
    subst ho
    exact hempty
  | unlock role =>
    cases ho
    unfold futex_unlock
    split <;> exact hempty
  | wake role =>
    cases ho
    unfold futex_wake
    split
    · exact hempty
    · cases role <;> simp [Role.target, hempty]
  | rdtsc =>
    cases ho
    simpa using hempty
  | pause | write | read | rdtscp =>
    cases ho
    exact hempty

/-- A sleeper is not made: the test finds the message. -/
theorem cvLive_stable (x : Worker) : (cvLive x).Stable := by
  intro n c mem loc a w v b k o hg h hb ho hself hk hlast hhold
  rcases hhold with hin | ⟨rfl, hne⟩
  · exact .inl hin
  refine .inr ⟨rfl, fun hempty => hne ?_⟩
  by_cases hv : v = w
  · subst hv
    -- the worker itself fails in `signal`, and leaves the queue as it was
    obtain ⟨msg, hmsg⟩ := hself rfl
    obtain rfl : b = .signal := by simpa [hk] using hb.symm
    cases ho
    unfold pthread_cond_signal at hmsg ⊢
    split at hmsg
    · next hf => simpa [hf, failing] using hempty
    · cases hmsg
  obtain rfl : v = !w := by simpa [Bool.eq_not] using hv
  cases b with
  | sendLock | recvLock =>
    rcases lock_cases ho with ⟨-, rfl⟩ | ⟨-, rfl⟩ <;> exact hempty
  | sendUnlock =>
    cases ho
    rcases unlock_cases c mem (loc (!w)).regs (!!w) "sender: mutex unlock" .signal with
      ⟨-, hu⟩ | hu <;> (rw [hu]; exact hempty)
  | recvUnlock =>
    cases ho
    rcases unlock_cases c mem (loc (!w)).regs (!w) "retrieve: mutex unlock" .rdtscp with
      ⟨-, hu⟩ | hu <;> (rw [hu]; exact hempty)
  | signal =>
    cases ho
    unfold pthread_cond_signal
    split <;> simp [failing, hempty]
  | test =>
    simp only [cv_main] at ho
    split at ho <;> (cases ho; exact hempty)
  | condWait =>
    -- a message is in flight to it, so it has not seen that none is
    obtain ⟨⟨v, hst⟩, rfl⟩ := hg.last_waiting hk rfl hlast hb rfl
    have habove := (CvInv.stamped h).above hg hst
    exact absurd ((CvInv.seen h _).wait hb) (not_le.mpr habove)
  | asleep =>
    obtain ⟨q, hq, rfl⟩ := wakeup_cases ho
    simpa [hempty] using hq
  | relock =>
    obtain ⟨-, rfl⟩ := relock_cases ho
    exact hempty
  | rdtsc =>
    cases ho
    simpa using hempty
  | pause | write | take | rdtscp =>
    cases ho
    exact hempty

/-! ## §2 Harmless failures

`Harmless` is a condition on the state before a step, since it may ask what a
worker owes there. The invariant `Excused` says that who has failed owed nothing
then, and §1 that this stays so. -/

/-- The main thread's calls succeed, and a worker's call fails only when the
worker owes its peer nothing, or the peer has returned. -/
def Harmless (ph : At → Phase) (hold : Mem → Tid → At → Prop) (n : Nat)
    (s : State Mem At) : Label → Prop
  | .main c => c.fails = false
  | .worker w c => c.fails = true →
      (s.thr (!w)).status.stopped = true ∨ ¬ Owes ph hold n s.mem w (s.loc w)

/-- Workers that the main thread has not created are absent. -/
def Uncreated (s : State Mem At) : Prop :=
  ∀ w, ¬ s.main.created w → (s.thr w).status = .absent

/-- The main thread creates the first worker before the second. -/
theorem Uncreated.main {B : Body Mem At} {c : Choice} {s t : State Mem At}
    (h : Uncreated s) (hstep : MainCase B c s t) : Uncreated t := by
  cases hstep with
  | @setup i _ hm =>
    intro w hw
    refine h w fun hc => hw ?_
    rw [hm] at hc
    cases i <;> cases w <;> simp [Main.created] at hc ⊢
  | @create i hm =>
    intro w hw
    cases i <;> cases w <;> simp [Main.created] at hw
    exact h true (by simp [hm, Main.created])
  | @join i => cases i <;> simp [Uncreated, Main.created]
  | report =>
    intro w hw
    refine absurd ?_ hw
    split <;> simp [State.giveUp, Main.created]
  | setupFails | start | fails => simp [Uncreated, Main.created, State.giveUp]

/-- A step of a worker leaves the other's status. -/
theorem State.apply_status (s : State Mem At) {w v : Tid} (hv : v ≠ w)
    (o : WorkerOut Mem At) :
    ((s.apply w o).thr v).status = (s.thr v).status := by
  unfold State.apply
  cases o.fate <;> simp [Function.update_of_ne hv]

/-- A worker that runs has been created. -/
theorem Uncreated.worker {s : State Mem At} {w : Tid} {o : WorkerOut Mem At}
    (h : Uncreated s) (hr : (s.thr w).status = .running) :
    Uncreated (s.apply w o) := by
  intro v hv
  have habsent := h v (by simpa using hv)
  have hne : v ≠ w := by
    rintro rfl
    rw [hr] at habsent
    cases habsent
  rw [State.apply_status s hne, habsent]

/-- Whoever is in a branch has been created. -/
theorem Owes.of_out {ph : At → Phase} {hold : Mem → Tid → At → Prop} {n : Nat}
    {mem mem' : Mem} {w : Tid} {l : Local At} (hl : ∀ b, l.ctl ≠ .body b)
    (h : Owes ph hold n mem' w l) : Owes ph hold n mem w l :=
  h.imp id fun ⟨b, hb, _⟩ => absurd hb (hl b)

/-- What a worker owes that stands still, or fails, does not grow. -/
theorem Live.Stable.owes {B : Body Mem At} {P : Protocol B} {L : Live P}
    (hL : L.Stable) {n : Nat} {s : State Mem At} {a : Relay.State UInt64}
    {v w : Tid} {c : Choice} {o : WorkerOut Mem At} (hH : P.Holds n s a)
    (hstep : WorkerCase B n v c s.start_work s.mem (s.loc v) o)
    (hself : v = w → ∃ msg, o.fate = .fail msg)
    (ho : Owes P.ph L.hold n o.mem w (s.loc w)) :
    Owes P.ph L.hold n s.mem w (s.loc w) := by
  cases hstep with
  | still hm => exact hm ▸ ho
  | frame hm => exact hm ▸ ho
  | @body b bo hc hb hm _ _ hf =>
    rcases ho with hdue | ⟨k, hk, hhold⟩
    · exact .inl hdue
    by_cases hdue : due w (pos P.ph (s.loc w)) < n
    · exact .inl hdue
    refine .inr ⟨k, hk,
      hL hH.good (hH.after (hH.passed hc)).1 hc hb (fun hv => ?_) hk hdue
      (hm ▸ hhold)⟩
    obtain ⟨msg, hmsg⟩ := hself hv
    rw [hf] at hmsg
    refine ⟨msg, ?_⟩
    cases hn : bo.next <;> simp [hn, Next.fate] at hmsg
    exact hmsg ▸ rfl

/-- A failed step leaves the worker where it was. -/
theorem WorkerCase.loc_of_fail {B : Body Mem At} {n : Nat} {w : Tid}
    {c : Choice} {sw : Bool} {mem : Mem} {l : Local At} {o : WorkerOut Mem At}
    {msg : String} (h : WorkerCase B n w c sw mem l o)
    (hf : o.fate = .fail msg) : o.loc = l := by
  cases h with
  | still _ hl => exact hl
  | frame _ _ _ hr => rw [hr] at hf; cases hf
  | @body b bo _ _ _ hl _ hfate =>
    rw [hfate] at hf
    rw [hl]
    cases hn : bo.next <;> simp [hn, Next.fate, Out.landing] at hf ⊢

/-- Harmless failures are excused. -/
theorem Excused.worker {B : Body Mem At} {P : Protocol B} {L : Live P}
    (hL : L.Stable) {n : Nat} {s : State Mem At} {a : Relay.State UInt64}
    {v : Tid} {c : Choice} {o : WorkerOut Mem At} (h : Excused P.ph L.hold n s)
    (hH : P.Holds n s a) (hr : (s.thr v).status = .running)
    (hok : Harmless P.ph L.hold n s (.worker v c))
    (hstep : WorkerCase B n v c s.start_work s.mem (s.loc v) o) :
    Excused P.ph L.hold n (s.apply v o) := by
  intro w hw
  rw [State.apply_mem, State.apply_loc]
  by_cases hvw : v = w
  · subst hvw
    obtain ⟨msg, hmsg⟩ : ∃ msg, o.fate = .fail msg := by
      cases hf : o.fate with
      | fail msg => exact ⟨msg, rfl⟩
      | _ => simp [State.apply, hf] at hw
    rw [Function.update_self, hstep.loc_of_fail hmsg, State.apply_status s (by simp)]
    exact (hok (hH.fails hstep hmsg)).imp id
      fun hno ho => hno (hL.owes hH hstep (fun _ => ⟨msg, hmsg⟩) ho)
  · obtain rfl : v = !w := by simpa [Bool.eq_not] using hvw
    rw [State.apply_status s (Ne.symm hvw)] at hw
    rw [Function.update_of_ne (Ne.symm hvw)]
    rcases h w hw with hs | hno
    · rw [hr] at hs
      cases hs
    · exact .inr fun ho => hno (hL.owes hH hstep (fun he => absurd he hvw) ho)

/-- The main thread's steps. -/
theorem Excused.main {B : Body Mem At} {P : Protocol B}
    {hold : Mem → Tid → At → Prop} {n : Nat} {s t : State Mem At}
    {a : Relay.State UInt64} {c : Choice} (h : Excused P.ph hold n s)
    (hH : P.Holds n s a) (hu : Uncreated s) (hstep : MainCase B c s t) :
    Excused P.ph hold n t := by
  intro w hw
  have hthr : t.thr w = s.thr w := by
    rcases hstep.thread w with ht | ht
    · exact ht
    · rw [ht] at hw
      cases hw
  have hpeer : (s.thr (!w)).status.stopped = true →
      t.thr (!w) = s.thr (!w) := by
    intro hs
    cases hstep with
    | @create i hm =>
      have hne : (!w) ≠ i := by
        rintro rfl
        have habsent := hu (!w) (by cases w <;> simp [hm, Main.created])
        rw [habsent] at hs
        cases hs
      simp [Function.update_of_ne hne]
    | report => split <;> rfl
    | _ => rfl
  rw [State.loc, hthr]
  rw [hthr] at hw
  rcases h w hw with hs | hno
  · exact .inl (by rw [hpeer hs]; exact hs)
  refine .inr fun ho => hno ?_
  cases hstep with
  | @setup i mem hm =>
    refine Owes.of_out (fun b hb => ?_) ho
    have hmain := (hH.after (hH.passed hb)).2
    rw [hm] at hmain
    exact hmain
  | report => split at ho <;> exact ho
  | _ => exact ho

/-- **In runs with harmless failures a failed worker is excused.** -/
theorem Live.excused {B : Body Mem At} {P : Protocol B} {L : Live P}
    (hL : L.Stable) {x : Worker} {h : List Event} {s : State Mem At}
    (hrun : Run (spin_pingpong B x) (Harmless P.ph L.hold x.n.toNat) h s) :
    Excused P.ph L.hold x.n.toNat s := by
  refine (P.invariant
    (I := fun s => Excused P.ph L.hold x.n.toNat s ∧ Uncreated s) ?_ hrun
    ⟨fun w hw => (by cases hw), fun _ _ => rfl⟩).1
  rintro s l t es a b ha - ⟨hex, hun⟩ hok hstep
  obtain ⟨-, ⟨c, rfl, hm, -⟩ | ⟨v, c, o, rfl, hr, ho, rfl, -⟩⟩ :=
    step_cases hstep
  · exact ⟨hex.main ha hun (mainStep_cases hm), hun.main (mainStep_cases hm)⟩
  · exact ⟨hex.worker hL ha hr hok (workerStep_cases ho), hun.worker hr⟩

/-! ## §3 The report

Nobody is stuck before the process ends, so in particular nobody waits in a join
for ever. What the process returns then is read off the joins: 1 if a worker
failed, and a worker that failed was joined. -/

/-- While the main thread has not returned something can happen, provided a
worker that failed owed nothing. -/
theorem Live.not_stuck_before_exit {B : Body Mem At} {P : Protocol B}
    (L : Live P) {x : Worker} {s : State Mem At} {a : Relay.State UInt64}
    (hH : P.Holds x.n.toNat s a) (hb : Books s) (hset : Settled s)
    (hex : Excused P.ph L.hold x.n.toNat s) (hab : s.aborted = false)
    (hm : ∀ code, s.main ≠ .exited code) : ¬ Stuck B x s := by
  by_cases hu : ∃ w, s.Unfinished w
  · exact L.not_stuck hH hb hset hex hu
  have hall : ∀ w, (s.thr w).status.stopped = true := by
    intro w
    by_contra hs
    exact hu ⟨w, hab, by simpa using hs⟩
  have ha : s.alive = true := by
    unfold State.alive
    cases hs : s.main with
    | exited code => exact absurd hs (hm code)
    | _ => simp [hab]
  cases hs : s.main with
  | setup | create | start =>
    obtain ⟨t, ht, hne⟩ := mainStep_early (B := B) (s := s) (by simp [hs])
    exact not_stuck_of_main ha ht hne
  | join i =>
    exact not_stuck_of_main (t := { s with
        error_in_thread := s.error_in_thread || (s.thr i).status == .failed
        main := if i then .report else .join true })
      ha (by simp [mainStep, hs, hall]) (by cases i <;> simp [hs])
  | report =>
    cases he : s.error_in_thread with
    | true =>
      exact not_stuck_of_main (t := s.giveUp errorMsg) ha (by simp [mainStep, hs, he])
        (by simp [State.giveUp, hs])
    | false =>
      exact not_stuck_of_main (t := { s with main := .exited 0 }) ha
        (by simp [mainStep, hs, he]) (by simp [hs])
  | exited code => exact absurd hs (hm code)

/-- A worker waits, and its peer and the main thread can do nothing about it. -/
theorem stuck_of_waiting {B : Body Mem At} {x : Worker}
    {s : State Mem At} {i : Tid} (hm : s.main = .join i)
    (hr : (s.thr i).status = .running) (hw : s.Waiting B i)
    (hpeer : (s.thr (!i)).status.stopped = true) : Stuck B x s := by
  obtain ⟨b, hb, hwaits⟩ := hw
  intro h t hrun
  refine hrun.history_invariant (I := fun h t => h = [] ∧ t.Same s) ?_
    ⟨rfl, rfl, rfl, rfl, rfl, rfl, fun _ => rfl⟩
  rintro h t a u es ⟨rfl, hsame⟩ hcalm hstep
  obtain ⟨-, ⟨c, rfl, hmain, -⟩ | ⟨v, c, o, rfl, hrv, ho, rfl, rfl⟩⟩ :=
    step_cases hstep
  · have hrun : (t.thr i).status = .running := (hsame.status i).trans hr
    have hc : c.fails = false := hcalm.1
    rw [mainStep, hsame.main, hm] at hmain
    simp [hc, hrun, Status.stopped] at hmain
  · obtain rfl : v = i := by
      by_contra hne
      obtain rfl : v = !i := by simpa [Bool.eq_not] using hne
      rw [← hsame.status, hrv] at hpeer
      cases hpeer
    obtain ⟨hmem, hloc, hfate, hev⟩ :
        o.mem = t.mem ∧ o.loc = t.loc v ∧ o.fate = .run ∧ o.ev = [] := by
      unfold workerStep at ho
      split at ho
      · cases ho
        exact ⟨rfl, rfl, rfl, rfl⟩
      rw [hsame.loc, hb] at ho
      obtain ⟨bo, hbo, rfl⟩ := Option.map_eq_some_iff.mp ho
      rw [hsame.mem] at hbo
      obtain ⟨hn, hmem, hregs, hev⟩ := hwaits c hcalm bo hbo
      refine ⟨hmem.trans hsame.mem.symm, ?_, by simp [hn, Next.fate], hev⟩
      rw [hsame.loc]
      simp only [Out.landing, hn, hregs, ← hb]
    refine ⟨hev, by simpa using hsame.main, by simpa using hsame.start_work, ?_, ?_, ?_, ?_⟩
    · simpa [State.apply, hfate] using hsame.aborted
    · simpa [hmem] using hsame.mem
    · rw [State.apply_loc, hloc, Function.update_eq_self]
      exact hsame.loc
    · intro u
      by_cases hu : u = v
      · subst hu
        simp [State.apply, hfate, hr]
      · rw [State.apply_status _ hu]
        exact hsame.status u

/-- An error in a worker is reported: nobody waits for a worker that has
returned 0, the process goes on until the main thread returns, and the main
thread then returns 1 after the message. -/
structure Reported (B : Body Mem At) (x : Worker)
    (s : State Mem At) : Prop where
  orphan : ∀ w, (s.thr w).status = .failed → (s.thr (!w)).status = .running →
    ¬ s.Waiting B (!w)
  joins : (∀ code, s.main ≠ .exited code) → s.aborted = false → ¬ Stuck B x s
  code : ∀ code w, s.main = .exited code → (s.thr w).status = .failed →
    code = 1 ∧ errorMsg ∈ s.stderr

/-- In runs with harmless failures an error is reported. -/
theorem Live.reported {B : Body Mem At} {P : Protocol B} {L : Live P}
    (hL : L.Stable) {x : Worker} {h : List Event} {s : State Mem At}
    (hrun : Run (spin_pingpong B x) (Harmless P.ph L.hold x.n.toNat) h s) :
    Reported B x s := by
  obtain ⟨a, -, hH⟩ := P.refines hrun
  have hbooks :=
    P.books (fun {s c} (hok : Harmless P.ph L.hold x.n.toNat s (.main c)) => hok) hrun
  have hex := L.excused hL hrun
  refine ⟨fun w hf hr hw => ?_, fun hm hab =>
    L.not_stuck_before_exit hH hbooks (settled hrun) hex hab hm,
      fun code w hm hf => ?_⟩
  · obtain ⟨b, hb, hwaits⟩ := hw
    have howes := L.waits_owes hH.good (hH.after (hH.passed hb)).1 hb hwaits
    rw [Bool.not_not] at howes
    rcases hex w hf with hs | hno
    · rw [hr] at hs
      cases hs
    · exact hno howes
  · have he := hbooks.noted w (by simp [hm, Main.joined]) hf
    have hexit := (hbooks.exit code hm).2
    rw [if_pos he] at hexit
    exact hexit

/-- The process aborts only where thread 1 has one delta too many. -/
theorem Protocol.odd_of_aborted {B : Body Mem At} (P : Protocol B) {x : Worker}
    {ok : State Mem At → Label → Prop} {h : List Event} {s : State Mem At}
    (hrun : Run (spin_pingpong B x) ok h s) :
    s.aborted = true → x.n.toNat % 2 = 1 := by
  refine P.invariant (I := fun s => s.aborted = true → x.n.toNat % 2 = 1) ?_ hrun
    (by intro h; cases h)
  intro s l t es a b ha _ hI _ hstep hab
  obtain ⟨-, ⟨c, -, hm, -⟩ | ⟨w, c, o, rfl, -, ho, rfl, -⟩⟩ := step_cases hstep
  · refine hI ?_
    cases mainStep_cases hm with
    | report => split at hab <;> exact hab
    | _ => exact hab
  · cases hf : o.fate with
    | abort msg =>
      cases workerStep_cases ho with
      | still _ _ _ hfate =>
        rcases hfate with hr | ⟨-, msg', hfail⟩ | ⟨hfin, hend⟩
        · rw [hr] at hf; cases hf
        · rw [hfail] at hf; cases hf
        · have hok := ha.good.ok w
          simp only [Local.view, hfin, Ctl.stand] at hok
          rw [hend, spin_main_finalize] at hf
          split at hf
          · split at hf <;> cases hf
          · next hlt =>
            rw [hok.2, hok.1, recvs] at hlt
            have hle := w.toNat_le
            omega
      | frame _ _ _ hr => rw [hr] at hf; cases hf
      | @body b bo hc hb _ _ _ hfate =>
        rw [hfate] at hf
        refine absurd ?_ ((P.sound ha.good (ha.after (ha.passed hc)).1 hc hb).1 msg)
        cases hn : bo.next <;> simp [hn, Next.fate] at hf
        exact hf ▸ rfl
    | _ => exact hI (by simpa [State.apply, hf] using hab)

/-- What each method has proved about its memory. -/
def Method.protocol (x : Worker) : (m : Method) → Protocol (m.main x).body
  | .METHOD_SPIN => spinProtocol _ x
  | .METHOD_SPIN_PAUSE => spinProtocol _ x
  | .METHOD_SPIN_PAUSE_MORE => spinProtocol _ x
  | .METHOD_COND_VAR => cvProtocol x
  | .METHOD_PIPE => pipeProtocol x
  | .METHOD_FUTEX => futexProtocol x
  | .METHOD_SEMAPHORE => semProtocol x

/-- And about waiting. -/
def Method.live (x : Worker) : (m : Method) → Live (m.protocol x)
  | .METHOD_SPIN => spinLive _ x
  | .METHOD_SPIN_PAUSE => spinLive _ x
  | .METHOD_SPIN_PAUSE_MORE => spinLive _ x
  | .METHOD_COND_VAR => cvLive x
  | .METHOD_PIPE => pipeLive x
  | .METHOD_FUTEX => futexLive x
  | .METHOD_SEMAPHORE => semLive x

/-- Each of the seven methods. -/
theorem Method.live_stable (x : Worker) (m : Method) : (m.live x).Stable := by
  cases m with
  | METHOD_SPIN | METHOD_SPIN_PAUSE | METHOD_SPIN_PAUSE_MORE =>
    exact spinLive_stable _ x
  | METHOD_COND_VAR => exact cvLive_stable x
  | METHOD_PIPE => exact pipeLive_stable x
  | METHOD_FUTEX => exact futexLive_stable x
  | METHOD_SEMAPHORE => exact semLive_stable x

/-- **When an error in a worker is reported.** In every run in which a call
of a worker fails only when the worker owes its peer nothing, or its peer has
returned: nobody waits for a worker that returned 0, something can happen
until the main thread returns, and it returns 1 after the message. Nothing
but the assertion on an odd `n` can end the process before. -/
theorem error_reported (m : Method) (x : Worker) {h : List Event}
    {s : State (m.main x).Mem (m.main x).At}
    (hrun : Run (spin_pingpong (m.main x).body x)
      (Harmless (m.protocol x).ph (m.live x).hold x.n.toNat) h s) :
    Reported (m.main x).body x s ∧ (s.aborted = true → x.n.toNat % 2 = 1) :=
  ⟨Live.reported (m.live_stable x) hrun, (m.protocol x).odd_of_aborted hrun⟩

instance (ph : At → Phase) (n : Nat) (mem : Mem) (w : Tid) (l : Local At) :
    Decidable (Owes ph (fun _ _ _ => False) n mem w l) :=
  decidable_of_iff (due w (pos ph l) < n) (by simp [Owes])

instance (ph : At → Phase) (n : Nat) (s : State Mem At) (a : Label) :
    Decidable (Harmless ph (fun _ _ _ => False) n s a) :=
  match a with
  | .main c => inferInstanceAs (Decidable (c.fails = false))
  | .worker _ c => inferInstanceAs (Decidable (c.fails = true → _ ∨ ¬ _))

/-- One iteration: thread 1 has no memory, and nothing to send. -/
def spinUnheard : List Label :=
  List.flatten
    [List.replicate 5 (.main {}), [.worker true { fails := true }],
      List.replicate 4 (.worker false {}), [.worker false { clock := 5 }],
      List.replicate 3 (.worker false {}), List.replicate 3 (.main {})]

/-- The labels make a run of harmless steps. -/
theorem spinUnheard_run : ∃ s,
    Run (spin_pingpong (spin_main ⟨1, 0, 0⟩) ⟨1, 0, 0⟩)
        (Harmless SpinAt.phase (fun _ _ _ => False) 1)
          [.clock false 5, .send false 5] s ∧
      s.main = .exited 1 ∧ (s.thr true).status = .failed :=
  Machine.run_of_exec_where _ spinUnheard (by decide +kernel)

/-- The error of the second thread is reported. -/
theorem error_reported_once : ∃ s,
    Run (spin_pingpong (spin_main ⟨1, 0, 0⟩) ⟨1, 0, 0⟩)
        (Harmless SpinAt.phase (fun _ _ _ => False) 1)
          [.clock false 5, .send false 5] s ∧
      s.main = .exited 1 ∧ (s.thr true).status = .failed ∧
        errorMsg ∈ s.stderr := by
  obtain ⟨s, hrun, hm, hf⟩ := spinUnheard_run
  have hrep := error_reported .METHOD_SPIN ⟨1, 0, 0⟩ hrun
  exact ⟨s, hrun, hm, hf, (hrep.1.code 1 true hm hf).2⟩

/-- The main thread's calls succeed. -/
def MainSucceeds (_ : State Mem At) : Label → Prop
  | .main c => c.fails = false
  | .worker _ _ => True

instance (s : State Mem At) (a : Label) : Decidable (MainSucceeds s a) :=
  match a with
  | .main c => inferInstanceAs (Decidable (c.fails = false))
  | .worker _ _ => inferInstanceAs (Decidable True)

/-- Two iterations: thread 0 has no memory, thread 1 waits for it. -/
def spinOrphaned : List Label :=
  List.flatten
    [List.replicate 5 (.main {}), [.worker false { fails := true }], [.main {}],
      List.replicate 3 (.worker true {})]

/-- The labels make a run in which the main thread's own calls succeed. -/
theorem spinOrphaned_run : ∃ s,
    Run (spin_pingpong (spin_main ⟨2, 0, 0⟩) ⟨2, 0, 0⟩) MainSucceeds [] s ∧
      (s.main = .join true ∧ (s.thr false).status = .failed ∧
        (s.thr true).status = .running) ∧
      (s.loc true).ctl = .body .load ∧ s.mem true ≤ (s.loc true).regs.tsc :=
  Machine.run_of_exec_where _ spinOrphaned (by decide +kernel)

/-- Thread 0 returns 0, and thread 1 and the join never end. -/
theorem spin_orphan : ∃ s,
    Run (spin_pingpong (spin_main ⟨2, 0, 0⟩) ⟨2, 0, 0⟩) MainSucceeds [] s ∧
      (s.thr false).status = .failed ∧ Stuck (spin_main ⟨2, 0, 0⟩) ⟨2, 0, 0⟩ s ∧
      ¬ Reported (spin_main ⟨2, 0, 0⟩) ⟨2, 0, 0⟩ s := by
  obtain ⟨s, hrun, ⟨hm, hf, hr⟩, hb, hle⟩ := spinOrphaned_run
  have hw : s.Waiting (spin_main ⟨2, 0, 0⟩) true := spin_waiting hb hle
  refine ⟨s, hrun, hf, stuck_of_waiting hm hr hw (by simp [hf, Status.stopped]), ?_⟩
  intro hrep
  exact hrep.orphan false hf hr hw

end Osjitter.Pingpong
