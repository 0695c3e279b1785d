/-
Osjitter.Pingpong.NullTheorems — what the threads of `--null` measure.

  §1 What a thread has shown, and the invariant of every run: `Tracks` says that
     its events are those of the pairs of readings that it has finished, and of
     one that it has begun, and that its deltas are theirs. `Tracks.step` is the
     step lemma, `null_inv` the run lemma, and `null_success` what follows of a
     run that returns 0: `n / 2` pairs each, and their differences returned in
     order and sorted.
  §2 Every interleaving of two threads' readings can be shown, by induction from
     its end: what a thread shows last says which step it took
     (`NullAwaits.shows`).
  §3 `null_histories_iff`: the runs that return 0 show these interleavings, and
     all of them, also if no call may fail. The threads leave one after the
     other (`null_ret_step`, `null_join_steps`).

The clocks of the two threads are independent here: nothing is asked of the
readings. That such runs end is in `Pingpong.NullTermination`.
-/
import Osjitter.Pingpong.Exit
import Osjitter.Pingpong.Null

namespace Osjitter.Pingpong

open Machines

/-! ## §1 What a thread shows

A pair of readings is shown as a reading of the clock and a leg, so that the
deltas are computed from a history as they are for the other methods. The events
of the two threads may be interleaved in any way; each thread's own are found by
`own`. -/

/-- The thread that shows an event. -/
def party : Event → Tid
  | .clock w _ | .send w _ | .recv w _ | .leg w _ _ _ => w

/-- The events of thread `w`. -/
def own (w : Tid) (h : List Event) : List Event := h.filter fun e => party e = w

/-- The events of a thread in a longer history. -/
theorem own_append (w : Tid) (h h' : List Event) :
    own w (h ++ h') = own w h ++ own w h' :=
  List.filter_append ..

/-- A history of one thread is its own. -/
theorem own_all {w : Tid} {h : List Event} (hw : ∀ e ∈ h, party e = w) :
    own w h = h := by
  simpa [own] using hw

/-- Others have no part in it. -/
theorem own_none {w v : Tid} {h : List Event} (hw : ∀ e ∈ h, party e = w)
    (hv : v ≠ w) : own v h = [] := by
  simp only [own, List.filter_eq_nil_iff, decide_eq_true_eq]
  intro e he heq
  exact hv (heq.symm.trans (hw e he))

/-- What thread `w` shows of its readings, the first of them its `j`-th. -/
def readings (w : Tid) : Nat → List (UInt64 × UInt64) → List Event
  | _, [] => []
  | j, p :: ps => .clock w p.1 :: .leg w j p.1 p.2 :: readings w (j + 1) ps

/-- One more pair of readings. -/
theorem readings_concat (w : Tid) (p : UInt64 × UInt64)
    (ps : List (UInt64 × UInt64)) (j : Nat) :
    readings w j (ps ++ [p]) =
      readings w j ps ++ [.clock w p.1, .leg w (j + ps.length) p.1 p.2] := by
  induction ps generalizing j with
  | nil => rfl
  | cons q ps ih =>
    simp only [List.cons_append, readings, ih, List.length_cons]
    rw [show j + 1 + ps.length = j + (ps.length + 1) by omega]

/-- `delta`, of two readings. -/
def reading (p : UInt64 × UInt64) : UInt32 := (p.2 - p.1).toUInt32

/-- What thread `w` shows when it has finished `ps` and begun `t`. -/
def progress (w : Tid) (ps : List (UInt64 × UInt64)) (t : Option UInt64) :
    List Event :=
  readings w 0 ps ++ (t.map fun v => Relay.Event.clock w v).toList

/-- Where a thread is then. -/
structure NullOk (n : Nat) (l : Local NullAt) (ps : List (UInt64 × UInt64))
    (t : Option UInt64) : Prop where
  ds : l.regs.ds = ps.map reading
  i : l.regs.i = ps.length
  begun : t = if l.ctl = .body .rdtscp then some l.regs.t else none
  le : ps.length ≤ n / 2
  lt : ∀ b, l.ctl = .body b → ps.length < n / 2
  done : l.ctl = .finalize → ps.length = n / 2

/-- A thread against what it has shown. -/
def Tracks (n : Nat) (w : Tid) (h : List Event) (l : Local NullAt) : Prop :=
  ∃ ps t, own w h = progress w ps t ∧ NullOk n l ps t

/-- A thread that has not begun has shown nothing. -/
theorem NullOk.fresh (n : Nat) : NullOk n {} [] none := by
  constructor <;> simp

/-- A step that shows nothing, to a control point that is no branch. -/
theorem NullOk.silent {n : Nat} {l : Local NullAt} {ps : List (UInt64 × UInt64)}
    {t : Option UInt64} {k : Ctl NullAt} (h : NullOk n l ps t)
    (hl : l.ctl ≠ .body .rdtscp) (hk : k ≠ .body .rdtscp)
    (hlt : ∀ b, k = .body b → l.regs.i < n / 2)
    (hdone : k = .finalize → n / 2 ≤ l.regs.i) :
    NullOk n { l with ctl := k } ps t := by
  obtain ⟨hds, hi, hbegun, hle, -, -⟩ := h
  rw [if_neg hl] at hbegun
  refine ⟨hds, hi, by rw [hbegun, if_neg hk], hle, fun b hb => ?_, fun hf => ?_⟩
  · rw [← hi]
    exact hlt b hb
  · have hge := hdone hf
    omega

/-- The first reading. -/
theorem NullOk.begin {n : Nat} {l : Local NullAt} {ps : List (UInt64 × UInt64)}
    {t : Option UInt64} (h : NullOk n l ps t) (hl : l.ctl = .body .rdtsc)
    (v : UInt64) :
    NullOk n ⟨.body .rdtscp, { l.regs with t := v }⟩ ps (some v) where
  ds := h.ds
  i := h.i
  begun := by simp
  le := h.le
  lt _ _ := h.lt _ hl
  done := by simp

/-- The second one. -/
theorem NullOk.finish {n : Nat} {l : Local NullAt} {ps : List (UInt64 × UInt64)}
    {v : UInt64} (h : NullOk n l ps (some v)) (now : UInt64) :
    l.ctl = .body .rdtscp ∧ l.regs.t = v ∧
      NullOk n ⟨.head, { l.regs with
        ds := l.regs.ds ++ [(now - l.regs.t).toUInt32], i := l.regs.i + 1 }⟩
        (ps ++ [(v, now)]) none := by
  have hctl : l.ctl = .body .rdtscp := by
    by_contra hne
    have hbegun := h.begun
    rw [if_neg hne] at hbegun
    cases hbegun
  have ht : l.regs.t = v := by
    have hbegun := h.begun
    rw [if_pos hctl] at hbegun
    exact (Option.some.inj hbegun).symm
  have hlt := h.lt _ hctl
  refine ⟨hctl, ht, ?_, ?_, ?_, ?_, ?_, ?_⟩
  · simp [h.ds, ht, reading]
  · simp [h.i]
  · simp
  · simpa using hlt
  · simp
  · simp

/-- **A step of a thread** is one of its own readings, or shows nothing. -/
theorem Tracks.step {x : Worker} {w : Tid} {c : Choice} {sw : Bool} {h : List Event}
    {l : Local NullAt} {o : WorkerOut Unit NullAt} (ht : Tracks x.n.toNat w h l)
    (ho : spin_null_main x w c sw l = some o) :
    Tracks x.n.toNat w (h ++ o.ev) o.loc ∧ ∀ e ∈ o.ev, party e = w := by
  obtain ⟨ps, t, hown, hok⟩ := ht
  have hstill : ∀ {l' : Local NullAt}, NullOk x.n.toNat l' ps t →
      Tracks x.n.toNat w (h ++ []) l' ∧ ∀ e ∈ ([] : List Event), party e = w := by
    intro l' hl'
    exact ⟨⟨ps, t, by rw [List.append_nil, hown], hl'⟩, by simp⟩
  unfold spin_null_main at ho
  split at ho
  · next hctl =>
    split at ho <;> cases ho
    · exact hstill hok
    · exact hstill (hok.silent (by simp [hctl]) (by simp) (by simp) (by simp))
  · next hctl =>
    split at ho <;> cases ho
    · exact hstill (hok.silent (by simp [hctl]) (by simp) (by simp) (by simp))
    · exact hstill hok
  · next hctl =>
    split at ho <;> cases ho
    · next hlt => exact hstill (hok.silent (by simp [hctl]) (by simp) (fun _ _ => hlt) (by simp))
    · next hge =>
      exact hstill (hok.silent (by simp [hctl]) (by simp) (by simp) (fun _ => Nat.le_of_not_lt hge))
  · next b hctl =>
    cases b with
    | rdtsc =>
      cases ho
      have hnone := hok.begun
      rw [if_neg (by simp [hctl])] at hnone
      refine ⟨⟨ps, some c.clock, ?_, hok.begin hctl c.clock⟩, by simp [party]⟩
      rw [own_append, hown, own_all (by simp [party]), hnone]
      simp [progress]
    | rdtscp =>
      cases ho
      have hsome := hok.begun
      rw [if_pos hctl] at hsome
      subst hsome
      refine ⟨⟨ps ++ [(l.regs.t, c.clock)], none, ?_, (hok.finish c.clock).2.2⟩, by simp [party]⟩
      rw [own_append, hown, own_all (by simp [party])]
      simp [progress, readings_concat, hok.ds]
  · cases ho
    exact hstill hok

/-- Nor does it abort, and it returns what `spin_main_finalize` makes of its
deltas. -/
theorem Tracks.fate {x : Worker} {w : Tid} {c : Choice} {sw : Bool}
    {h : List Event} {l : Local NullAt} {o : WorkerOut Unit NullAt}
    (ht : Tracks x.n.toNat w h l) (ho : spin_null_main x w c sw l = some o) :
    (∀ msg, o.fate ≠ .abort msg) ∧
      ∀ raw_ds ds, o.fate = .ret raw_ds ds →
        o.loc.ctl = .finalize ∧ Finalized x.n o.loc.regs.ds ⟨raw_ds, ds⟩ := by
  obtain ⟨ps, t, -, hok⟩ := ht
  unfold spin_null_main at ho
  split at ho
  · split at ho <;> (cases ho; simp)
  · split at ho <;> (cases ho; simp)
  · split at ho <;> (cases ho; simp)
  · next b hctl => cases b <;> (cases ho; simp [Next.fate])
  · next hctl =>
    cases ho
    have hlen : l.regs.ds.length ≤ x.n.toNat / 2 := by
      rw [hok.ds, List.length_map]
      exact hok.le
    dsimp only
    cases hf : c.fails with
    | true => simp [spin_main_finalize, hlen]
    | false =>
      refine ⟨by simp [spin_main_finalize, hlen], fun raw_ds ds hret => ⟨hctl, hret⟩⟩

/-- The invariant of the process. -/
structure NullInv (n : UInt32) (h : List Event)
    (s : State Unit NullAt) : Prop where
  tracks : ∀ w, Tracks n.toNat w h (s.loc w)
  fresh : ∀ w, (s.thr w).status = .absent → s.loc w = {}
  uncreated : Uncreated s
  cleared : Cleared s
  returned : ∀ w raw_ds ds, (s.thr w).status = .returned raw_ds ds →
    (s.loc w).ctl = .finalize ∧ Finalized n (s.loc w).regs.ds ⟨raw_ds, ds⟩
  alive : s.aborted = false

/-- Nobody has shown anything. -/
theorem NullInv.init (x : Worker) : NullInv x.n [] (null_pingpong x).init where
  tracks w := ⟨[], none, rfl, NullOk.fresh _⟩
  fresh w _ := rfl
  uncreated w _ := rfl
  cleared :=
    .of_none (by simp [null_pingpong, Main.cleared]) (by simp [null_pingpong])
  returned w raw_ds ds h := by cases h
  alive := rfl

/-- The main thread leaves the threads as they are, or creates one. -/
theorem NullInv.main {n : UInt32} {h : List Event} {c : Choice}
    {s t : State Unit NullAt} (hs : NullInv n h s)
    (hstep : MainCase nullBody c s t) : NullInv n h t := by
  have hloc : ∀ w, t.loc w = s.loc w := by
    intro w
    cases hstep with
    | @create i hm =>
      by_cases hw : w = i
      · subst hw
        have habsent := hs.uncreated w (by cases w <;> simp [hm, Main.created])
        rw [hs.fresh w habsent]
        simp [State.loc]
      · simp [State.loc, Function.update_of_ne hw]
    | report => split <;> rfl
    | _ => rfl
  constructor
  · intro w
    rw [hloc]
    exact hs.tracks w
  · intro w hw
    rw [hloc]
    rcases hstep.thread w with ht | ht <;> rw [ht] at hw
    · exact hs.fresh w hw
    · cases hw
  · exact hs.uncreated.main hstep
  · exact hs.cleared.main hstep
  · intro w raw_ds ds hw
    rw [hloc]
    rcases hstep.thread w with ht | ht <;> rw [ht] at hw
    · exact hs.returned w raw_ds ds hw
    · cases hw
  · cases hstep with
    | report => split <;> exact hs.alive
    | _ => exact hs.alive

/-- A thread's step leaves the other alone. -/
theorem NullInv.worker {x : Worker} {h : List Event}
    {s : State Unit NullAt} {w : Tid} {c : Choice} {o : WorkerOut Unit NullAt}
    (hs : NullInv x.n h s) (hr : (s.thr w).status = .running)
    (ho : spin_null_main x w c s.start_work (s.loc w) = some o) :
    NullInv x.n (h ++ o.ev) (s.apply w o) := by
  obtain ⟨htracks, hev⟩ := (hs.tracks w).step ho
  obtain ⟨habort, hret⟩ := (hs.tracks w).fate ho
  have hloc : (s.apply w o).loc w = o.loc := by
    rw [State.apply_loc, Function.update_self]
  have hother : ∀ {v}, v ≠ w → (s.apply w o).loc v = s.loc v := by
    intro v hv
    rw [State.apply_loc, Function.update_of_ne hv]
  constructor
  · intro v
    by_cases hv : v = w
    · subst hv
      rw [hloc]
      exact htracks
    · obtain ⟨ps, t, hown, hok⟩ := hs.tracks v
      rw [hother hv]
      exact ⟨ps, t, by rw [own_append, hown, own_none hev hv, List.append_nil], hok⟩
  · intro v hv
    by_cases hvw : v = w
    · subst hvw
      cases hf : o.fate <;> simp [State.apply, hf] at hv
    · rw [State.apply_status s hvw] at hv
      rw [hother hvw]
      exact hs.fresh v hv
  · exact hs.uncreated.worker hr
  · exact hs.cleared.worker hr
  · intro v raw_ds ds hv
    by_cases hvw : v = w
    · subst hvw
      rw [hloc]
      refine hret raw_ds ds ?_
      cases hf : o.fate <;> simp [State.apply, hf] at hv
      rw [hv.1, hv.2]
    · rw [State.apply_status s hvw] at hv
      rw [hother hvw]
      exact hs.returned v raw_ds ds hv
  · cases hf : o.fate with
    | abort msg => exact absurd hf (habort msg)
    | _ => simpa [State.apply, hf] using hs.alive

/-- The steps of the machine, taken apart. -/
theorem null_step_cases {x : Worker} {s t : State Unit NullAt} {a : Label}
    {es : List Event} (h : (null_pingpong x).step s a = some (t, es)) :
    (∃ c, a = .main c ∧ mainStep nullBody c s = some t ∧ es = []) ∨
      ∃ w c o, a = .worker w c ∧ (s.thr w).status = .running ∧
        spin_null_main x w c s.start_work (s.loc w) = some o ∧ t = s.apply w o ∧
          es = o.ev := by
  cases a with
  | main c =>
    simp only [null_pingpong] at h
    split at h
    · obtain ⟨u, hu, he⟩ := Option.map_eq_some_iff.mp h
      cases he
      exact .inl ⟨c, rfl, hu, rfl⟩
    · cases h
  | worker w c =>
    simp only [null_pingpong] at h
    split at h
    · next ha =>
      obtain ⟨o, ho, he⟩ := Option.map_eq_some_iff.mp h
      cases he
      exact .inr ⟨w, c, o, rfl, ha.2, ho, rfl, rfl⟩
    · cases h

/-- In every run, whatever calls fail. -/
theorem null_inv {x : Worker} {ok : State Unit NullAt → Label → Prop}
    {h : List Event} {s : State Unit NullAt}
    (hrun : Run (null_pingpong x) ok h s) : NullInv x.n h s := by
  refine hrun.history_invariant (I := NullInv x.n) ?_ (NullInv.init x)
  intro h s a t es hs _ hstep
  obtain ⟨c, rfl, hm, rfl⟩ | ⟨w, c, o, rfl, hr, ho, rfl, rfl⟩ :=
    null_step_cases hstep
  · rw [List.append_nil]
    exact hs.main (mainStep_cases hm)
  · exact hs.worker hr ho

/-- **What a run that returns 0 has shown**, whatever calls fail: each thread all
its readings, of which it has returned the deltas. -/
theorem null_success {x : Worker} {ok : State Unit NullAt → Label → Prop}
    {h : List Event} {s : State Unit NullAt}
    (hrun : Run (null_pingpong x) ok h s) (hm : s.main = .exited 0) (w : Tid) :
    ∃ ps ds, ps.length = x.n.toNat / 2 ∧ own w h = readings w 0 ps ∧
      (s.thr w).status = .returned (ps.map reading) ds ∧
      Finalized x.n (ps.map reading) ⟨ps.map reading, ds⟩ := by
  have hinv := null_inv hrun
  obtain ⟨raw_ds, ds, hs⟩ := hinv.cleared.returned hm w
  obtain ⟨hctl, hfin⟩ := hinv.returned w raw_ds ds hs
  obtain ⟨ps, t, hown, hok⟩ := hinv.tracks w
  have hnone : t = none := by simpa [hctl] using hok.begun
  subst hnone
  rw [hok.ds] at hfin
  obtain rfl : raw_ds = ps.map reading := hfin.eq.1
  exact ⟨ps, ds, hok.done hctl, by simpa [progress] using hown, hs, hfin⟩

/-! ## §2 All histories

`NullAwaits` is a process in which each thread has shown given readings and can
show the next. A history that interleaves two such lists is shown from its
beginning, event by event. -/

section shows

variable {x : Worker} {s : State Unit NullAt} {w : Tid} {c : Choice}
    {o : WorkerOut Unit NullAt}

/-- The threads run, and the main thread is about to join the first. -/
structure NullReady (s : State Unit NullAt) : Prop where
  going : s.Going
  main : s.main = .join false
  error : s.error_in_thread = false

/-- A step of one thread leaves both ready. -/
theorem NullReady.step (hs : NullReady s) (hc : c.Quiet)
    (ho : spin_null_main x w c true (s.loc w) = some o) (hf : o.fate = .run) :
    Steps (null_pingpong x) Calm s o.ev (s.apply w o) ∧
      NullReady (s.apply w o) := by
  obtain ⟨⟨ha, hgate, hrun⟩, hm, he⟩ := hs
  have hone : (null_pingpong x).step s (.worker w c) =
      some (s.apply w o, o.ev) := by
    have hthr : spin_null_main x w c true (s.thr w).loc = some o := ho
    simp only [null_pingpong, ha, hrun w, and_self, if_true, hgate, hthr,
      Option.map_some]
  have hcalm : Calm s (.worker w c) := hc
  refine ⟨Steps.single hcalm hone, ⟨?_, by simpa using hgate, fun v => ?_⟩,
    by simpa using hm,
    by simpa using he⟩
  · simpa [State.apply, hf, State.alive] using ha
  · by_cases hv : v = w
    · subst hv
      simp [State.apply, hf]
    · rw [State.apply_status s hv]
      exact hrun v

/-- A step in the frame. -/
theorem NullReady.goto (hs : NullReady s) {k : Ctl NullAt}
    (ho : spin_null_main x w {} true (s.loc w) =
      some { mem := (), loc := { s.loc w with ctl := k } }) :
    ∃ t, Steps (null_pingpong x) Calm s [] t ∧ NullReady t ∧
      t.loc = Function.update s.loc w { s.loc w with ctl := k } := by
  obtain ⟨hstep, ht⟩ := hs.step (c := {}) ⟨rfl, rfl⟩ ho rfl
  exact ⟨_, hstep, ht, State.apply_loc ..⟩

/-- The main thread's five steps up to the open gate. -/
theorem null_start_run (x : Worker) :
    ∃ s, Run (null_pingpong x) Calm [] s ∧ NullReady s ∧ ∀ w, s.loc w = {} := by
  have hok : ∀ s : State Unit NullAt, Calm s (.main {}) := fun _ => ⟨rfl, rfl⟩
  have hrun :=
    (((((Steps.refl (M := null_pingpong x) (s := (null_pingpong x).init)).tail
    (hok _) (by simp [null_pingpong, State.alive, mainStep, nullBody]; exact ⟨rfl, rfl⟩)).tail
    (hok _) (by simp [null_pingpong, State.alive, mainStep]; exact ⟨rfl, rfl⟩)).tail
    (hok _) (by simp [null_pingpong, State.alive, mainStep, nullBody]; exact ⟨rfl, rfl⟩)).tail
    (hok _) (by simp [null_pingpong, State.alive, mainStep]; exact ⟨rfl, rfl⟩)).tail
    (hok _) (by simp [null_pingpong, State.alive, mainStep]; exact ⟨rfl, rfl⟩)
  refine ⟨_, hrun, ⟨⟨rfl, rfl, fun w => ?_⟩, rfl, rfl⟩, fun w => ?_⟩
  · cases w <;> simp [Function.update]
  · cases w <;> simp [State.loc, Function.update]

/-- A thread goes through the gate. -/
theorem NullReady.gate (hs : NullReady s) (hl : s.loc w = {}) :
    ∃ t, Steps (null_pingpong x) Calm s [] t ∧ NullReady t ∧
      t.loc = Function.update s.loc w ⟨.head, {}⟩ := by
  obtain ⟨t, ht, htr, htl⟩ :=
    hs.goto (x := x) (w := w) (k := .gate) (by rw [hl]; rfl)
  have htw : t.loc w = ⟨.gate, {}⟩ := by rw [htl, Function.update_self, hl]
  obtain ⟨u, hu, hur, hul⟩ :=
    htr.goto (x := x) (w := w) (k := .head) (by rw [htw]; rfl)
  refine ⟨u, ht.trans hu, hur, ?_⟩
  rw [hul, htw, htl, Function.update_idem]

/-- A thread between two readings of its loop, as seen between two events. -/
structure NullAwaits (x : Worker) (s : State Unit NullAt)
    (ps : Tid → List (UInt64 × UInt64)) (t : Tid → Option UInt64) : Prop where
  ready : NullReady s
  ok : ∀ w, NullOk x.n.toNat (s.loc w) (ps w) (t w)
  ctl : ∀ w, t w = none → (s.loc w).ctl = .head

/-- The process comes to where no reading was taken. -/
theorem NullAwaits.first (x : Worker) :
    ∃ s, Run (null_pingpong x) Calm [] s ∧
      NullAwaits x s (fun _ => []) fun _ => none := by
  obtain ⟨s, hs, hsr, hsl⟩ := null_start_run x
  obtain ⟨t, ht, htr, htl⟩ := hsr.gate (x := x) (hsl false)
  obtain ⟨u, hu, hur, hul⟩ :=
    htr.gate (x := x) (w := true) (by rw [htl]; simp [hsl])
  have hloc : ∀ w, u.loc w = ⟨.head, {}⟩ := by
    intro w
    cases w <;> simp [hul, htl]
  refine ⟨u, (hs.trans ht).trans hu, hur, fun w => ?_, fun w _ => by rw [hloc]⟩
  rw [hloc]
  exact (NullOk.fresh x.n.toNat).silent (by simp) (by simp) (by simp) (by simp)

variable {ps : Tid → List (UInt64 × UInt64)} {t : Tid → Option UInt64}
    {v : UInt64}

/-- What is known of the other thread stays as it is. -/
theorem NullAwaits.update {l : Local NullAt} {s' : State Unit NullAt}
    {qs : List (UInt64 × UInt64)} {k : Option UInt64} (hs : NullAwaits x s ps t)
    (hready : NullReady s') (hloc : s'.loc = Function.update s.loc w l)
    (hok : NullOk x.n.toNat l qs k) (hctl : k = none → l.ctl = .head) :
    NullAwaits x s' (Function.update ps w qs) (Function.update t w k) := by
  refine ⟨hready, fun u => ?_, fun u hu => ?_⟩
  · by_cases huw : u = w
    · subst huw
      simpa [hloc] using hok
    · simpa [hloc, Function.update_of_ne huw] using hs.ok u
  · by_cases huw : u = w
    · subst huw
      rw [Function.update_self] at hu
      simpa [hloc] using hctl hu
    · rw [Function.update_of_ne huw] at hu
      simpa [hloc, Function.update_of_ne huw] using hs.ctl u hu

/-- The first reading of an iteration. -/
theorem NullAwaits.clock (hs : NullAwaits x s ps t) (hw : t w = none)
    (hlt : (ps w).length < x.n.toNat / 2) (v : UInt64) :
    ∃ s', Steps (null_pingpong x) Calm s [.clock w v] s' ∧
      NullAwaits x s' ps (Function.update t w (some v)) := by
  have hctl := hs.ctl w hw
  have hi := (hs.ok w).i
  obtain ⟨u, hu, hur, hul⟩ :=
    hs.ready.goto (x := x) (w := w) (k := .body .rdtsc)
    (by simp [spin_null_main, hctl, hi, hlt])
  have huw : u.loc w = ⟨.body .rdtsc, (s.loc w).regs⟩ := by
    rw [hul, Function.update_self]
  have hok : NullOk x.n.toNat (u.loc w) (ps w) (t w) := by
    rw [huw]
    exact (hs.ok w).silent (by simp [hctl]) (by simp) (fun _ _ => by rwa [hi]) (by simp)
  obtain ⟨hstep, hready⟩ := hur.step (x := x) (w := w) (c := { clock := v })
    (o := { mem := (), loc := ⟨.body .rdtscp, { (s.loc w).regs with t := v }⟩,
            ev := [.clock w v] }) ⟨rfl, rfl⟩ (by rw [huw]; rfl) rfl
  have hbegin := hok.begin (by rw [huw]) v
  rw [huw] at hbegin
  have hnext :=
    hs.update (w := w) hready (by rw [State.apply_loc, hul, Function.update_idem])
    hbegin (by simp)
  rw [Function.update_eq_self] at hnext
  exact ⟨_, hu.trans hstep, hnext⟩

/-- The second reading. -/
theorem NullAwaits.leg (hs : NullAwaits x s ps t) (hw : t w = some v)
    (now : UInt64) :
    ∃ s', Steps (null_pingpong x) Calm s [.leg w (ps w).length v now] s' ∧
      NullAwaits x s' (Function.update ps w (ps w ++ [(v, now)]))
        (Function.update t w none) := by
  have hok := hs.ok w
  rw [hw] at hok
  obtain ⟨hctl, ht, hfinish⟩ := hok.finish now
  have hlen : (s.loc w).regs.ds.length = (ps w).length := by
    rw [hok.ds, List.length_map]
  obtain ⟨hstep, hready⟩ :=
    hs.ready.step (x := x) (w := w) (c := { clock := now })
    (o := { mem := (), loc := ⟨.head, { (s.loc w).regs with
              ds := (s.loc w).regs.ds ++ [(now - (s.loc w).regs.t).toUInt32]
              i := (s.loc w).regs.i + 1 }⟩,
            ev := [.leg w (ps w).length v now] }) ⟨rfl, rfl⟩
    (by simp [spin_null_main, hctl, nullBody, Out.landing, Next.fate, hlen, ht]) rfl
  exact ⟨_, hstep, hs.update hready (State.apply_loc ..) hfinish (fun _ => rfl)⟩

/-- A thread that has shown nothing has taken no reading. -/
theorem progress_eq_nil {w : Tid} {qs : List (UInt64 × UInt64)}
    {k : Option UInt64} (h : progress w qs k = []) : qs = [] ∧ k = none := by
  obtain ⟨hq, hk⟩ := List.append_eq_nil_iff.mp h
  constructor
  · cases qs with
    | nil => rfl
    | cons p qs => cases hq
  · cases k with
    | none => rfl
    | some v => cases hk

/-- The last event of a thread is one of its readings. -/
theorem progress_eq_concat {w : Tid} {qs : List (UInt64 × UInt64)}
    {k : Option UInt64} {h : List Event} {e : Event}
    (heq : h ++ [e] = progress w qs k) :
    (∃ v, k = some v ∧ e = .clock w v ∧ h = progress w qs none) ∨
      ∃ rs v now, k = none ∧ qs = rs ++ [(v, now)] ∧
        e = .leg w rs.length v now ∧
        h = progress w rs (some v) := by
  cases k with
  | some v =>
    obtain ⟨hh, he⟩ := List.append_inj' heq rfl
    exact .inl ⟨v, rfl, (List.cons.inj he).1, by simpa [progress] using hh⟩
  | none =>
    rcases List.eq_nil_or_concat qs with rfl | ⟨rs, ⟨v, now⟩, rfl⟩
    · simp [progress, readings] at heq
    · have hlast : h ++ [e] =
          (readings w 0 rs ++ [.clock w v]) ++ [.leg w rs.length v now] := by
        rw [heq, progress, List.concat_eq_append, readings_concat]
        simp
      obtain ⟨hh, he⟩ := List.append_inj' hlast rfl
      exact .inr ⟨rs, v, now, rfl,
        by simp, (List.cons.inj he).1, by simpa [progress] using hh⟩

/-- **Every interleaving of readings can be shown**, by induction from its end. -/
theorem NullAwaits.shows :
    ∀ (h : List Event) (ps : Tid → List (UInt64 × UInt64))
    (t : Tid → Option UInt64), (∀ w, own w h = progress w (ps w) (t w)) →
    (∀ w, (ps w).length + (t w).toList.length ≤ x.n.toNat / 2) →
    ∃ s, Run (null_pingpong x) Calm h s ∧ NullAwaits x s ps t := by
  intro h
  induction h using List.reverseRecOn with
  | nil =>
    intro ps t hown _
    obtain ⟨s, hs, haw⟩ := NullAwaits.first x
    obtain rfl : ps = fun _ => [] :=
      funext fun w => (progress_eq_nil (hown w).symm).1
    obtain rfl : t = fun _ => none :=
      funext fun w => (progress_eq_nil (hown w).symm).2
    exact ⟨s, hs, haw⟩
  | append_singleton h e ih =>
    intro ps t hown hlen
    obtain ⟨w, hw⟩ : ∃ w, party e = w := ⟨_, rfl⟩
    have hself : own w h ++ [e] = progress w (ps w) (t w) := by
      rw [← hown, own_append, own_all (h := [e]) (by simpa using hw)]
    have hother : ∀ v, v ≠ w → own v h = progress v (ps v) (t v) := by
      intro v hv
      rw [← hown, own_append,
        own_none (w := w) (h := [e]) (by simpa using hw) hv, List.append_nil]
    have hlast := progress_eq_concat hself
    -- the run up to `e`, in which `w` had come less far
    have hbefore : ∀ qs k, own w h = progress w qs k →
        qs.length + k.toList.length ≤ x.n.toNat / 2 →
        ∃ s, Run (null_pingpong x) Calm h s ∧
          NullAwaits x s (Function.update ps w qs) (Function.update t w k) := by
      intro qs k hqs hle
      refine ih _ _ (fun v => ?_) (fun v => ?_)
      · by_cases hv : v = w
        · subst hv
          simpa using hqs
        · simpa [Function.update_of_ne hv] using hother v hv
      · by_cases hv : v = w
        · subst hv
          simpa using hle
        · simpa [Function.update_of_ne hv] using hlen v
    have hlw := hlen w
    rcases hlast with ⟨v, hk, rfl, hh⟩ | ⟨rs, v, now, hk, hqs, rfl, hh⟩
    · rw [hk] at hlw
      simp only [Option.toList_some, List.length_singleton] at hlw
      obtain ⟨s, hs, haw⟩ := hbefore (ps w) none hh (by simp; omega)
      obtain ⟨u, hu, hau⟩ := haw.clock (w := w) (by simp) (by simpa using hlw) v
      rw [Function.update_eq_self, Function.update_idem, ← hk,
        Function.update_eq_self] at hau
      exact ⟨u, hs.trans hu, hau⟩
    · rw [hk, hqs] at hlw
      obtain ⟨s, hs, haw⟩ := hbefore rs (some v) hh (by simpa using hlw)
      obtain ⟨u, hu, hau⟩ := haw.leg (w := w) (v := v) (by simp) now
      rw [Function.update_self, Function.update_idem, Function.update_idem, ← hk, ← hqs,
        Function.update_eq_self, Function.update_eq_self] at hau
      rw [Function.update_self] at hu
      exact ⟨u, hs.trans hu, hau⟩

/-! ## §3 The way out

Threads that have taken all their readings leave their loops, return their
arrays and are joined. That adds no event, so the histories of runs to the end
are the interleavings of complete lists. -/

/-- A thread that has left its loop returns its arrays. -/
theorem null_ret_step (ha : s.alive = true) (hsw : s.start_work = true)
    (hr : (s.thr w).status = .running) (hctl : (s.loc w).ctl = .finalize)
    (hlen : (s.loc w).regs.ds.length ≤ x.n.toNat / 2) :
    ∃ u, Steps (null_pingpong x) Calm s [] u ∧ u.alive = true ∧
      u.main = s.main ∧ u.start_work = true ∧
      u.error_in_thread = s.error_in_thread ∧ u.loc = s.loc ∧
      (∃ raw_ds ds, (u.thr w).status = .returned raw_ds ds) ∧
      (u.thr (!w)).status = (s.thr (!w)).status := by
  obtain ⟨o, ho⟩ : ∃ o : WorkerOut Unit NullAt, o =
      { mem := (), loc := s.loc w
        fate :=
          .ret (s.loc w).regs.ds ((s.loc w).regs.ds.insertionSort (· ≤ ·)) } :=
            ⟨_, rfl⟩
  have hone : (null_pingpong x).step s (.worker w {}) =
      some (s.apply w o, []) := by
    have hthr : (s.thr w).loc = s.loc w := rfl
    simp [null_pingpong, ha, hr, spin_null_main, hthr, hctl,
      spin_main_finalize, hlen, ho]
  have hcalm : Calm s (.worker w {}) := ⟨rfl, rfl⟩
  have hfate : o.fate =
      .ret (s.loc w).regs.ds ((s.loc w).regs.ds.insertionSort (· ≤ ·)) := by
    rw [ho]
  refine ⟨_, Steps.single hcalm hone, ?_, by simp, by simpa using hsw, by simp, ?_,
    ⟨_, _, by simp [State.apply, hfate]; exact ⟨rfl, rfl⟩⟩,
    State.apply_status s (by simp) o⟩
  · simpa [State.apply, State.alive, hfate] using ha
  · rw [State.apply_loc, ho, Function.update_eq_self]

/-- The main thread joins both threads and returns 0. -/
theorem null_join_steps (ha : s.alive = true) (hm : s.main = .join false)
    (hret : ∀ w, ∃ raw_ds ds, (s.thr w).status = .returned raw_ds ds)
    (he : s.error_in_thread = false) :
    ∃ u, Steps (null_pingpong x) Calm s [] u ∧ u.main = .exited 0 := by
  have hcalm : ∀ u : State Unit NullAt, Calm u (.main {}) := fun _ => ⟨rfl, rfl⟩
  have hab := State.alive_aborted ha
  obtain ⟨raw₀, ds₀, h₀⟩ := hret false
  obtain ⟨raw₁, ds₁, h₁⟩ := hret true
  have hone : (null_pingpong x).step s (.main {}) =
      some ({ s with main := .join true }, []) := by
    simp [null_pingpong, ha, mainStep, hm, h₀, Status.stopped, he]
  have htwo : (null_pingpong x).step { s with main := .join true } (.main {}) =
      some ({ s with main := .report }, []) := by
    simp [null_pingpong, State.alive, hab, mainStep, h₁, Status.stopped, he]
  have hthree : (null_pingpong x).step { s with main := .report } (.main {}) =
      some ({ s with main := .exited 0 }, []) := by
    simp [null_pingpong, State.alive, hab, mainStep, he]
  exact ⟨_, ((Steps.single (hcalm _) hone).tail (hcalm _) htwo).tail
    (hcalm _) hthree, rfl⟩

/-- Threads that have finished their readings leave, and the process returns 0. -/
theorem NullAwaits.exits (hs : NullAwaits x s ps fun _ => none)
    (hlen : ∀ w, (ps w).length = x.n.toNat / 2) :
    ∃ u, Steps (null_pingpong x) Calm s [] u ∧ u.main = .exited 0 := by
  have hleave : ∀ {u : State Unit NullAt} {w : Tid}, NullReady u →
      u.loc w = s.loc w →
      ∃ u', Steps (null_pingpong x) Calm u [] u' ∧ NullReady u' ∧
        u'.loc = Function.update u.loc w ⟨.finalize, (s.loc w).regs⟩ := by
    intro u w hu hl
    have hi : ¬ (s.loc w).regs.i < x.n.toNat / 2 := by
      rw [(hs.ok w).i, hlen w]
      exact lt_irrefl _
    have hstep : spin_null_main x w {} true (u.loc w) =
        some { mem := (), loc := { u.loc w with ctl := .finalize } } := by
      simp [spin_null_main, hl, hs.ctl w rfl, hi]
    obtain ⟨u', hu', hr', hl'⟩ := hu.goto hstep
    exact ⟨u', hu', hr', by rw [hl', hl]⟩
  obtain ⟨u₁, hu₁, hr₁, hl₁⟩ := hleave (w := false) hs.ready rfl
  obtain ⟨u₂, hu₂, hr₂, hl₂⟩ := hleave (w := true) hr₁ (by simp [hl₁])
  have hfin : ∀ w, u₂.loc w = ⟨.finalize, (s.loc w).regs⟩ := by
    intro w
    cases w <;> simp [hl₂, hl₁]
  have hds : ∀ w, (u₂.loc w).regs.ds.length ≤ x.n.toNat / 2 := by
    intro w
    rw [hfin, (hs.ok w).ds, List.length_map, hlen]
  obtain ⟨⟨ha, hsw, hrun⟩, hm, he⟩ := hr₂
  obtain ⟨u₃, hu₃, ha₃, hm₃, hsw₃, he₃, hl₃, ⟨raw₀, ds₀, h₀⟩, h₁⟩ :=
    null_ret_step (x := x) (w := false)
    ha hsw (hrun false) (by rw [hfin]) (hds false)
  obtain ⟨u₄, hu₄, ha₄, hm₄, -, he₄, -, ⟨raw₁, ds₁, h₂⟩, h₃⟩ :=
    null_ret_step (x := x) (w := true)
    ha₃ hsw₃ (h₁.trans (hrun true)) (by rw [hl₃, hfin]) (by rw [hl₃]; exact hds true)
  have hret : ∀ w, ∃ raw_ds ds, (u₄.thr w).status = .returned raw_ds ds := by
    intro w
    cases w with
    | false => exact ⟨raw₀, ds₀, h₃.trans h₀⟩
    | true => exact ⟨raw₁, ds₁, h₂⟩
  obtain ⟨u₅, hu₅, hm₅⟩ :=
    null_join_steps (x := x) ha₄ (hm₄.trans (hm₃.trans hm)) hret
    (he₄.trans (he₃.trans he))
  exact ⟨u₅, (((hu₁.trans hu₂).trans hu₃).trans hu₄).trans hu₅, hm₅⟩

end shows

/-- **The histories of `--null`.** Whatever calls fail, no run aborts, and a
history belongs to a run that returns 0 iff it is an interleaving of `n / 2`
pairs of readings of each thread. Every such interleaving is shown by a run in
which all calls succeed, for odd `n` too. In a run that returns 0 each thread has
returned the differences of its pairs, in order and sorted. -/
theorem null_histories_iff (x : Worker) (h : List Event) :
    (∀ s, Run (null_pingpong x) Any h s → s.aborted = false) ∧
    ((∃ s, Run (null_pingpong x) Any h s ∧ s.main = .exited 0) ↔
      ∀ w, ∃ ps, ps.length = x.n.toNat / 2 ∧ own w h = readings w 0 ps) ∧
    ((∃ s, Run (null_pingpong x) Calm h s ∧ s.main = .exited 0) ↔
      ∀ w, ∃ ps, ps.length = x.n.toNat / 2 ∧ own w h = readings w 0 ps) ∧
    ∀ s, Run (null_pingpong x) Any h s → s.main = .exited 0 → ∀ w, ∃ ps ds,
      own w h = readings w 0 ps ∧
        (s.thr w).status = .returned (ps.map reading) ds ∧
        Finalized x.n (ps.map reading) ⟨ps.map reading, ds⟩ := by
  have hshown : ∀ {ok s}, Run (null_pingpong x) ok h s → s.main = .exited 0 →
      ∀ w, ∃ ps, ps.length = x.n.toNat / 2 ∧ own w h = readings w 0 ps := by
    intro ok s hs hm w
    obtain ⟨ps, ds, hlen, hown, -⟩ := null_success hs hm w
    exact ⟨ps, hlen, hown⟩
  have hexit : (∀ w, ∃ ps, ps.length = x.n.toNat / 2 ∧ own w h = readings w 0 ps) →
      ∃ s, Run (null_pingpong x) Calm h s ∧ s.main = .exited 0 := by
    intro hall
    choose ps hlen hown using hall
    obtain ⟨s, hs, haw⟩ := NullAwaits.shows (x := x) h ps (fun _ => none)
      (fun w => by simpa [progress] using hown w) (fun w => by simp [hlen])
    obtain ⟨u, hu, hm⟩ := haw.exits hlen
    have hrun := hs.trans hu
    rw [List.append_nil] at hrun
    exact ⟨u, hrun, hm⟩
  refine ⟨fun s hs => (null_inv hs).alive, ⟨?_, fun hall => ?_⟩, ⟨?_, hexit⟩,
    fun s hs hm w => ?_⟩
  · rintro ⟨s, hs, hm⟩
    exact hshown hs hm
  · obtain ⟨s, hs, hm⟩ := hexit hall
    exact ⟨s, hs.mono fun _ _ _ => trivial, hm⟩
  · rintro ⟨s, hs, hm⟩
    exact hshown hs hm
  · obtain ⟨ps, ds, -, hown, hreturned, hfin⟩ := null_success hs hm w
    exact ⟨ps, ds, hown, hreturned, hfin⟩

end Osjitter.Pingpong
