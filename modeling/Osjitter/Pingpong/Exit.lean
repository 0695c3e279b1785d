/-
Osjitter.Pingpong.Exit — the runs of `spin_pingpong` that return 0.

  §1 `Cleared`: what the main thread has seen of the workers that it has
     joined, whatever calls fail. It returns 0 only if both have returned their
     arrays (`Cleared.returned`).
  §2 A run that returns 0 has relayed all `n` messages, and each worker has
     returned the deltas of its own legs, in order and sorted (`Success`,
     `Protocol.success`). `Delivered` ties what a worker has returned to the
     variables that it had.
  §3 Once both workers have left their loops the process can return 0, if the
     assertion on the number of deltas holds (`Protocol.exit_steps`, by
     `ret_steps` for a worker and `join_steps` for the joins). So the histories
     of the runs that return 0 are those of a complete relay of an even number
     of messages: `exit_histories_iff`.

`--null`, whose threads do not relay, is in `Pingpong.NullTheorems`; what is
printed behind the joins is in `Pingpong.Program`.
-/
import Osjitter.Pingpong.Replay
import Osjitter.Pingpong.ResultsTheorems

namespace Osjitter.Pingpong

open Machines Relay

variable {Mem At : Type}

/-! ## §1 The main thread

A join that finds a worker failed sets the error, and a call that fails ends the
main thread at once. So behind a return of 0 there are two joins that found an
array. -/

/-- The main thread has joined worker `w`, and has not given up. -/
def Main.cleared : Main → Tid → Prop
  | .join true, false | .report, _ | .exited 0, _ => True
  | _, _ => False

/-- A joined worker has returned, and a failure is noted. -/
structure Cleared (s : State Mem At) : Prop where
  stopped : ∀ w, s.main.cleared w → (s.thr w).status.stopped = true
  noted : ∀ w, s.main.cleared w → (s.thr w).status = .failed →
    s.error_in_thread = true
  exit : s.main = .exited 0 → s.error_in_thread = false

/-- Nothing is asked of a main thread that has joined nobody. -/
theorem Cleared.of_none {s : State Mem At} (h : ∀ w, ¬ s.main.cleared w)
    (hexit : s.main ≠ .exited 0) : Cleared s :=
  ⟨fun w hw => absurd hw (h w), fun w hw => absurd hw (h w), fun hm => absurd hm hexit⟩

/-- A return with an error claims nothing. -/
theorem Cleared.giveUp (s : State Mem At) (msg : String) :
    Cleared (s.giveUp msg) :=
  .of_none (by simp [State.giveUp, Main.cleared]) (by simp [State.giveUp])

/-- The steps of the main thread. -/
theorem Cleared.main {B : Body Mem At} {c : Choice} {s t : State Mem At}
    (h : Cleared s) (hstep : MainCase B c s t) : Cleared t := by
  cases hstep with
  | setup => exact .of_none (by simp [Main.cleared]) (by simp)
  | setupFails | fails => exact .giveUp _ _
  | @create i => cases i <;> exact .of_none (by simp [Main.cleared]) (by simp)
  | start => exact .of_none (by simp [Main.cleared]) (by simp)
  | @join i hm _ hs =>
    constructor
    · intro w hw
      cases i with
      | false =>
        cases w with
        | false => exact hs
        | true => simp [Main.cleared] at hw
      | true =>
        cases w with
        | false => exact h.stopped false (by simp [hm, Main.cleared])
        | true => exact hs
    · intro w hw hf
      rw [Bool.or_eq_true, beq_iff_eq]
      cases i with
      | false =>
        cases w with
        | false => exact .inr hf
        | true => simp [Main.cleared] at hw
      | true =>
        cases w with
        | false => exact .inl (h.noted false (by simp [hm, Main.cleared]) hf)
        | true => exact .inr hf
    · intro hexit
      cases i <;> simp at hexit
  | report hm =>
    split
    · exact .giveUp _ _
    · next he =>
      constructor
      · exact fun w _ => h.stopped w (by simp [hm, Main.cleared])
      · exact fun w _ => h.noted w (by simp [hm, Main.cleared])
      · exact fun _ => by simpa using he

/-- The steps of a worker, which the main thread has not joined yet. -/
theorem Cleared.worker {s : State Mem At} {w : Tid} {o : WorkerOut Mem At}
    (h : Cleared s) (hr : (s.thr w).status = .running) :
    Cleared (s.apply w o) := by
  have hne : ∀ {v}, s.main.cleared v → v ≠ w := by
    rintro v hv rfl
    have hs := h.stopped _ hv
    rw [hr] at hs
    cases hs
  constructor
  · intro v hv
    rw [State.apply_main] at hv
    rw [State.apply_status s (hne hv)]
    exact h.stopped v hv
  · intro v hv hf
    rw [State.apply_main] at hv
    rw [State.apply_status s (hne hv)] at hf
    simpa using h.noted v hv hf
  · simpa using h.exit

/-- In every run, whatever calls fail. -/
theorem cleared {B : Body Mem At} {x : Worker}
    {ok : State Mem At → Label → Prop} {h : List Event} {s : State Mem At}
    (hrun : Run (spin_pingpong B x) ok h s) : Cleared s := by
  refine Steps.invariant (I := Cleared) ?_ hrun
    (.of_none (by simp [spin_pingpong, Main.cleared]) (by simp [spin_pingpong]))
  intro s l t es hs _ hstep
  obtain ⟨-, ⟨c, -, hm, -⟩ | ⟨w, c, o, -, hr, -, rfl, -⟩⟩ := step_cases hstep
  · exact hs.main (mainStep_cases hm)
  · exact hs.worker hr

/-- When the main thread has returned 0 both workers have returned. -/
theorem Cleared.returned {s : State Mem At} (h : Cleared s)
    (hm : s.main = .exited 0) (w : Tid) :
    ∃ raw_ds ds, (s.thr w).status = .returned raw_ds ds := by
  have hw : s.main.cleared w := by simp [hm, Main.cleared]
  have hstopped := h.stopped w hw
  cases hs : (s.thr w).status with
  | absent | running =>
    rw [hs] at hstopped
    cases hstopped
  | returned raw_ds ds => exact ⟨raw_ds, ds, rfl⟩
  | failed =>
    have herror := h.noted w hw hs
    rw [h.exit hm] at herror
    cases herror

/-! ## §2 A complete relay

A worker that has returned an array has gone through all its turns, so the relay
is at its last message. The arrays are the deltas of the worker's legs, by
`Protocol.ds_eq`, and sorted. -/

/-- What a worker has returned is what `spin_main_finalize` makes of its
deltas. -/
def Delivered (n : UInt32) (s : State Mem At) : Prop :=
  ∀ w raw_ds ds, (s.thr w).status = .returned raw_ds ds →
    Finalized n (s.loc w).regs.ds ⟨raw_ds, ds⟩

/-- A worker delivers when it ends. -/
theorem Delivered.worker {B : Body Mem At} {n : UInt32} {s : State Mem At}
    {w : Tid} {c : Choice} {o : WorkerOut Mem At} (h : Delivered n s)
    (hstep : WorkerCase B n.toNat w c s.start_work s.mem (s.loc w) o) :
    Delivered n (s.apply w o) := by
  intro v raw_ds ds hv
  rw [State.apply_loc]
  by_cases hvw : v = w
  · subst hvw
    rw [Function.update_self]
    have hret : o.fate = .ret raw_ds ds := by
      unfold State.apply at hv
      cases hf : o.fate <;> simp [hf] at hv
      rw [hv.1, hv.2]
    cases hstep with
    | still hm hl he hfate =>
      rcases hfate with hf | ⟨-, msg, hf⟩ | ⟨-, hf⟩
      · rw [hret] at hf
        cases hf
      · rw [hret] at hf
        cases hf
      · rw [hl]
        rw [hret] at hf
        have hfail : c.fails = false := by
          by_contra hc
          rw [Bool.not_eq_false] at hc
          rw [hc, spin_main_finalize] at hf
          split at hf <;> cases hf
        rw [hfail] at hf
        exact hf.symm
    | frame _ _ _ hf =>
      rw [hret] at hf
      cases hf
    | @body b bo _ _ _ _ _ hf =>
      rw [hret] at hf
      cases hn : bo.next <;> simp [hn, Next.fate] at hf
  · rw [State.apply_status s hvw] at hv
    rw [Function.update_of_ne hvw]
    exact h v raw_ds ds hv

/-- In every run, whatever calls fail. -/
theorem delivered {B : Body Mem At} {x : Worker}
    {ok : State Mem At → Label → Prop} {h : List Event} {s : State Mem At}
    (hrun : Run (spin_pingpong B x) ok h s) : Delivered x.n s := by
  refine Steps.invariant (I := Delivered x.n) ?_ hrun (by intro w raw_ds ds h; cases h)
  intro s l t es hs _ hstep
  obtain ⟨-, ⟨c, -, hm, -⟩ | ⟨w, c, o, -, -, ho, rfl, -⟩⟩ := step_cases hstep
  · intro w raw_ds ds hw
    have ht := (mainStep_cases hm).returned hw
    rw [ht] at hw
    rw [State.loc, ht]
    exact hs w raw_ds ds hw
  · exact hs.worker (workerStep_cases ho)

/-- Workers that have left their loops have relayed every message. -/
theorem Good.complete {ph : At → Phase} {n : Nat} {loc : Tid → Local At}
    {a : Relay.State UInt64} (h : Good ph n loc a)
    (hf : ∀ w, (loc w).ctl = .finalize) : a.m = n ∧ a.stage = .ready := by
  have hsig : ∀ w, ((loc w).view ph).sig = ⟨n, (loc w).regs.tsc, none, none⟩ := by
    intro w
    have hok := h.ok w
    simp only [Local.view, hf w, Ctl.stand] at hok
    simp [Local.view, hf w, Ctl.stand, View.sig, hok.1]
  obtain ⟨hS, hpos, -, -, htaken, -⟩ := h.linked
  simp only [hsig, Sig.mk.injEq] at hS hpos htaken
  obtain ⟨hm, -, harmed, -⟩ := hS
  cases hs : a.stage with
  | ready => exact ⟨by simpa [hs, isSent] using hm.symm, rfl⟩
  | armed v => simp [hs, armed?] at harmed
  | taken v => simp [hs, taken?] at htaken
  | flight v =>
    simp only [hs, isSent, isTaken, Bool.toNat_true, Bool.toNat_false]
      at hm hpos
    omega

/-- What a run that returned 0 has done: the number of messages is even, all of
them have been relayed, and each worker has returned the deltas of its legs. -/
structure Success (x : Worker) (h : List Event) (s : State Mem At) : Prop where
  even : x.n.toNat % 2 = 0
  complete : ∃ last, Accepts x.n.toNat 1 h ⟨x.n.toNat, last, .ready⟩
  results : ∀ w, ∃ ds, (s.thr w).status = .returned (deltas w h) ds ∧
    Finalized x.n (deltas w h) ⟨deltas w h, ds⟩ ∧
      (deltas w h).length = x.n.toNat / 2

/-- **Whatever calls fail**, a run that returns 0 is complete. -/
theorem Protocol.success {B : Body Mem At} (P : Protocol B) {x : Worker}
    {ok : State Mem At → Label → Prop} {h : List Event} {s : State Mem At}
    (hrun : Run (spin_pingpong B x) ok h s) (hm : s.main = .exited 0) :
    Success x h s := by
  have hret := (cleared hrun).returned hm
  have hfin : ∀ w, (s.loc w).ctl = .finalize := by
    intro w
    obtain ⟨raw_ds, ds, hw⟩ := hret w
    exact settled hrun w raw_ds ds hw
  have hlen : ∀ w, (deltas w h).length = (x.n.toNat + w.toNat) / 2 := by
    intro w
    rw [← P.ds_eq hrun w]
    exact P.finalize_length hrun (hfin w)
  have hdone : ∀ w, ∃ ds, (s.thr w).status = .returned (deltas w h) ds ∧
      Finalized x.n (deltas w h) ⟨deltas w h, ds⟩ := by
    intro w
    obtain ⟨raw_ds, ds, hw⟩ := hret w
    have hf := delivered hrun w raw_ds ds hw
    rw [P.ds_eq hrun w] at hf
    obtain rfl : raw_ds = deltas w h := hf.eq.1
    exact ⟨ds, hw, hf⟩
  -- for odd `n` thread 1 has one delta more than its assertion allows
  have heven : x.n.toNat % 2 = 0 := by
    obtain ⟨ds, -, hf⟩ := hdone true
    have hle := hf.eq.2.2
    rw [hlen true, Bool.toNat_true] at hle
    omega
  refine ⟨heven, ?_, fun w => ?_⟩
  · obtain ⟨⟨m, last, stage⟩, ha, hH⟩ := P.refines hrun
    obtain ⟨rfl, rfl⟩ := hH.good.complete hfin
    exact ⟨last, ha⟩
  · obtain ⟨ds, hw, hf⟩ := hdone w
    refine ⟨ds, hw, hf, ?_⟩
    rw [hlen w]
    cases w <;> simp
    omega

/-! ## §3 The way out

The other inclusion needs a run to its end: the one of `Replay`, which shows the
history, and behind it the ends of the two workers and the joins. -/

section exit

variable {B : Body Mem At} {x : Worker} {s : State Mem At} {w : Tid}

/-- A worker that has left its loop can return its arrays. -/
theorem ret_steps (ha : s.alive = true) (hsw : s.start_work = true)
    (hr : (s.thr w).status = .running) (hc : (s.loc w).ctl = .finalize)
    (hlen : (s.loc w).regs.ds.length ≤ x.n.toNat / 2) :
    ∃ t, Steps (spin_pingpong B x) Calm s [] t ∧ t.alive = true ∧
      t.main = s.main ∧ t.start_work = true ∧ t.loc = s.loc ∧
      (∃ raw_ds ds, (t.thr w).status = .returned raw_ds ds) ∧
      (t.thr (!w)).status = (s.thr (!w)).status := by
  obtain ⟨u, hu, hsame, hua, hk⟩ := pauses_end (B := B) (x := x) ha hr
  have hur : (u.thr w).status = .running := (hsame.status w).trans hr
  have huc : (u.thr w).loc.ctl = .finalize :=
    (congrArg Local.ctl (congrFun hsame.loc w)).trans hc
  have huds : (u.thr w).loc.regs.ds = (s.loc w).regs.ds :=
    congrArg (fun l => l.regs.ds) (congrFun hsame.loc w)
  have hfate : spin_main_finalize x.n.toNat (s.loc w).regs.ds false =
      .ret (s.loc w).regs.ds ((s.loc w).regs.ds.insertionSort (· ≤ ·)) := by
    simp [spin_main_finalize, hlen]
  have hone : (spin_pingpong B x).step u (.worker w {}) = some (u.apply w
      { mem := u.mem, loc := (u.thr w).loc, fate :=
        .ret (s.loc w).regs.ds ((s.loc w).regs.ds.insertionSort (· ≤ ·)) },
        []) := by
    simp [spin_pingpong, hua, hur, workerStep, hk, huc, huds, hfate]
  have hcalm : Calm u (.worker w {}) := ⟨rfl, rfl⟩
  refine ⟨_, hu.trans (Steps.single hcalm hone), ?_, ?_, ?_, ?_,
    ⟨(s.loc w).regs.ds, (s.loc w).regs.ds.insertionSort (· ≤ ·),
      by simp [State.apply]⟩, ?_⟩
  · simpa [State.apply, State.alive] using hua
  · simpa using hsame.main
  · simpa using hsame.start_work.trans hsw
  · rw [State.apply_loc, ← hsame.loc]
    exact Function.update_eq_self w u.loc
  · rw [State.apply_status _ (by simp)]
    exact hsame.status _

/-- The main thread of a process whose workers run is about to join the
first. -/
theorem Books.joins_first (hb : Books s) (hg : s.Going) :
    s.main = .join false := by
  have hstarted := hb.started hg.gate
  have halive := hg.alive
  have hnone : ∀ w, ¬ s.main.joined w := by
    intro w hw
    have hs := hb.joined w hw
    rw [hg.running w] at hs
    cases hs
  cases hm : s.main with
  | setup | create | start => simp [hm, Main.started] at hstarted
  | join i =>
    cases i with
    | false => rfl
    | true => exact (hnone false (by simp [hm, Main.joined])).elim
  | report => exact (hnone false (by simp [hm, Main.joined])).elim
  | exited code => simp [State.alive, hm] at halive

/-- The main thread joins two workers that have returned. -/
theorem join_steps (ha : s.alive = true) (hm : s.main = .join false)
    (hret : ∀ w, ∃ raw_ds ds, (s.thr w).status = .returned raw_ds ds)
    (he : s.error_in_thread = false) :
    ∃ t, Steps (spin_pingpong B x) Calm s [] t ∧ t.main = .exited 0 := by
  have hcalm : ∀ u : State Mem At, Calm u (.main {}) := fun _ => ⟨rfl, rfl⟩
  have hab := State.alive_aborted ha
  obtain ⟨raw₀, ds₀, h₀⟩ := hret false
  obtain ⟨raw₁, ds₁, h₁⟩ := hret true
  have hone : (spin_pingpong B x).step s (.main {}) =
      some ({ s with main := .join true }, []) := by
    simp [spin_pingpong, ha, mainStep, hm, h₀, Status.stopped, he]
  have htwo : (spin_pingpong B x).step { s with main := .join true } (.main {}) =
      some ({ s with main := .report }, []) := by
    simp [spin_pingpong, State.alive, hab, mainStep, h₁, Status.stopped, he]
  have hthree : (spin_pingpong B x).step { s with main := .report } (.main {}) =
      some ({ s with main := .exited 0 }, []) := by
    simp [spin_pingpong, State.alive, hab, mainStep, he]
  exact ⟨_, ((Steps.single (hcalm _) hone).tail (hcalm _) htwo).tail
    (hcalm _) hthree, rfl⟩

/-- **The process can return 0** once both workers have left their loops with
no delta too many. -/
theorem Protocol.exit_steps (P : Protocol B) {h : List Event}
    (hrun : Run (spin_pingpong B x) Calm h s) (hg : s.Going)
    (hfin : ∀ w, (s.loc w).ctl = .finalize)
    (hlen : ∀ w, (s.loc w).regs.ds.length ≤ x.n.toNat / 2) :
    ∃ t, Steps (spin_pingpong B x) Calm s [] t ∧ t.main = .exited 0 := by
  have hbooks : ∀ {h : List Event} {t : State Mem At},
    Run (spin_pingpong B x) Calm h t →
      Books t := fun ht => P.books (fun {_ _} hok => hok.1) ht
  obtain ⟨t, ht, hta, htm, htsw, htl, ⟨raw₀, ds₀, ht₀⟩, ht₁⟩ :=
    ret_steps (B := B) hg.alive hg.gate
    (hg.running false) (hfin false) (hlen false)
  obtain ⟨u, hu, hua, hum, -, -, ⟨raw₁, ds₁, hu₁⟩, hu₀⟩ :=
    ret_steps (B := B) (w := true) hta htsw
    (ht₁.trans (hg.running true)) (by rw [htl]; exact hfin true)
      (by rw [htl]; exact hlen true)
  have hret : ∀ w, ∃ raw_ds ds, (u.thr w).status = .returned raw_ds ds := by
    intro w
    cases w with
    | false => exact ⟨raw₀, ds₀, hu₀.trans ht₀⟩
    | true => exact ⟨raw₁, ds₁, hu₁⟩
  have hmain : u.main = .join false := by
    rw [hum, htm, (hbooks hrun).joins_first hg]
  have herror : u.error_in_thread = false := by
    by_contra he
    obtain ⟨w, -, hw⟩ :=
      (hbooks ((hrun.trans ht).trans hu)).error (by simpa using he)
    obtain ⟨raw, ds, hs⟩ := hret w
    rw [hs] at hw
    cases hw
  obtain ⟨v, hv, hvm⟩ := join_steps (B := B) (x := x) hua hmain hret herror
  exact ⟨v, (ht.trans hu).trans hv, hvm⟩

/-- Every complete relay of an even number of messages ends in a run that
returns 0. -/
theorem Replay.exits (C : Replay B x) (P : Protocol B)
    (heven : x.n.toNat % 2 = 0) {h : List Event} {last : UInt64}
    (ha : Accepts x.n.toNat 1 h ⟨x.n.toNat, last, .ready⟩) :
    ∃ s, Run (spin_pingpong B x) Calm h s ∧ s.main = .exited 0 := by
  obtain ⟨s, hs, hF⟩ := C.shows ha
  obtain ⟨a, -, hH⟩ := P.refines hs
  obtain ⟨⟨hRc, hRi⟩, hSi, hS⟩ := hF.stands
  dsimp only at hRc hRi hSi hS
  have hhead : ∀ w, (s.loc w).ctl = .head ∧ (s.loc w).regs.i = x.n.toNat := by
    intro w
    by_cases hw : w = turn x.n.toNat
    · subst hw
      rcases hS with ⟨hc, -⟩ | ⟨hc, -⟩
      · exact ⟨hc, hSi⟩
      -- here it would be about to send message `n`, and there is none
      · have hok := hH.good.ok (turn x.n.toNat)
        simp only [Local.view, hc, Ctl.stand] at hok
        have hlt := hok.1
        omega
    · obtain rfl : w = !turn x.n.toNat := by simpa [Bool.eq_not] using hw
      exact ⟨hRc, hRi⟩
  -- one more look at the loop condition
  have hleave : ∀ w mem,
      Acts B x w mem ⟨.finalize, (s.loc w).regs⟩ [] mem (s.loc w) := by
    intro w mem
    obtain ⟨hc, hi⟩ := hhead w
    have hstep : workerStep B x w {} true mem 0 (s.loc w) =
        some { mem, loc := ⟨.finalize, (s.loc w).regs⟩ } := by
      simp [workerStep, hc, hi]
    exact .step (c := {}) ⟨rfl, rfl⟩ hstep rfl rfl .done
  obtain ⟨t, ht, htg, htm, htl⟩ := (hleave false s.mem).steps hF.going rfl rfl
  obtain ⟨u, hu, hug, -, hul⟩ :=
    (hleave true t.mem).steps htg rfl (by simp [htl])
  have hfin : ∀ w, u.loc w = ⟨.finalize, (s.loc w).regs⟩ := by
    intro w
    cases w <;> simp [hul, htl]
  have hrun : Run (spin_pingpong B x) Calm h u := by
    have hall := (hs.trans ht).trans hu
    rwa [List.append_nil, List.append_nil] at hall
  have hctl : ∀ w, (u.loc w).ctl = .finalize := fun w => by rw [hfin w]
  obtain ⟨v, hv, hvm⟩ := P.exit_steps hrun hug hctl fun w => by
    rw [P.finalize_length hrun (hctl w)]
    cases w <;> simp
    omega
  refine ⟨v, ?_, hvm⟩
  have hall := hrun.trans hv
  rwa [List.append_nil] at hall

end exit

/-- **The histories of the runs that return 0.** With an odd number of messages
no run returns 0. With an even one the runs that do, whatever calls failed in
them, show what a relay shows that has completed all its messages, and each of
these is shown by a run in which every call succeeds. -/
theorem exit_histories_iff (m : Method) (x : Worker) (h : List Event) :
    ((∃ s, Run (spin_pingpong (m.main x).body x) Any h s ∧ s.main = .exited 0) ↔
      x.n.toNat % 2 = 0 ∧
        ∃ last, Accepts x.n.toNat 1 h ⟨x.n.toNat, last, .ready⟩) ∧
    ((∃ s, Run (spin_pingpong (m.main x).body x) Calm h s ∧ s.main = .exited 0) ↔
      x.n.toNat % 2 = 0 ∧
        ∃ last, Accepts x.n.toNat 1 h ⟨x.n.toNat, last, .ready⟩) := by
  have hexit : (x.n.toNat % 2 = 0 ∧
      ∃ last, Accepts x.n.toNat 1 h ⟨x.n.toNat, last, .ready⟩) →
      ∃ s, Run (spin_pingpong (m.main x).body x) Calm h s ∧
          s.main = .exited 0 := by
    rintro ⟨heven, last, ha⟩
    exact (m.replay x).exits (m.protocol x) heven ha
  have hdone : ∀ {ok s}, Run (spin_pingpong (m.main x).body x) ok h s →
      s.main = .exited 0 →
      x.n.toNat % 2 = 0 ∧
          ∃ last, Accepts x.n.toNat 1 h ⟨x.n.toNat, last, .ready⟩ := by
    intro ok s hs hm
    have hsuccess := (m.protocol x).success hs hm
    exact ⟨hsuccess.even, hsuccess.complete⟩
  constructor
  · constructor
    · rintro ⟨s, hs, hm⟩
      exact hdone hs hm
    · intro ha
      obtain ⟨s, hs, hm⟩ := hexit ha
      exact ⟨s, hs.mono fun _ _ _ => trivial, hm⟩
  · constructor
    · rintro ⟨s, hs, hm⟩
      exact hdone hs hm
    · exact hexit

end Osjitter.Pingpong
