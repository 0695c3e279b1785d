/-
Osjitter.Pingpong.SpinTheorems — the spinning loops relay.

The cells hold no sequence number and are never reset; the invariant is
`Stamped`: the cell of the receiver is above its last timestamp exactly while a
message is in flight. `spin_keep` is the step lemma, `spinProtocol` and
`spinLive` are what the general theorems ask for.

`spin_exactly_once`: in every run of the three loops, whatever the clocks say,
each value received is the next one that was stored, the values increase, and
not all unfinished threads are in a receive loop with a stale cell.

`spin_legs_disjoint` is about a clock that never decreases: the legs are
intervals, one after the other, and what both threads have recorded fits the
time that has passed. On other clocks a delta may wrap, and nothing is said.
-/
import Osjitter.Pingpong.Spin
import Osjitter.Pingpong.Progress

namespace Osjitter.Pingpong

open Machines Relay

/-! ## The branches

Each control point is in one phase of the relay, so `spin_lawful` is a case
analysis on the steps. The invariant is that of cells, and the step of the
process keeps it. -/

/-- The phase of a control point. -/
def SpinAt.phase : SpinAt → Phase
  | .pause | .rdtsc => .ready
  | .store => .armed
  | .load => .waiting
  | .rdtscp => .taken

/-- The branches of the loops are those of a relay. -/
theorem spin_lawful (p : Nat) (x : Worker) :
    Lawful (spinBody p x) SpinAt.phase where
  send := rfl
  recv := rfl
  step {w c mem r b o} h := by
    cases b with
    | pause => cases h; exact .idle
    | rdtsc => cases h; exact fenced_rdtsc_move rfl rfl
    | store => cases h; exact .storeOver
    | load =>
      simp only [spinBody] at h
      split at h
      · cases h; exact .take
      · cases h; exact .idle
    | rdtscp => cases h; exact .legOver

/-- The steps of the branches keep the cells right. -/
theorem spin_keep {p : Nat} {x : Worker} {n : Nat} {c : Choice} {mem : Cells}
    {loc : Tid → Local SpinAt} {a a' : Relay.State UInt64} {w : Tid}
    {b : SpinAt} {o : Out Cells SpinAt} (hg : Good SpinAt.phase n loc a)
    (h : Stamped mem loc a)
    (ho : (spinBody p x).step w c mem (loc w).regs b = some o)
    (hread : Monitor.read (next n) o.ev a = some a') :
    Stamped o.mem (Function.update loc w (o.landing (loc w))) a' := by
  cases b with
  | pause =>
    cases ho
    cases hread
    exact h.congr (update_tsc (Out.landing_tsc rfl))
  | rdtsc =>
    cases ho
    rw [fenced_rdtsc_ev] at hread
    rw [fenced_rdtsc_mem]
    obtain ⟨m, last, stage, rfl, rfl, -, hstage⟩ := read_clock hread
    exact (h.clock hstage).congr (update_tsc (Out.landing_tsc (by simp)))
  | store =>
    cases ho
    obtain ⟨m, last, rfl, rfl, rfl⟩ := read_send hread
    exact h.send
  | load =>
    simp only [spinBody] at ho
    split at ho
    · cases ho
      obtain ⟨m, last, rfl, rfl, rfl⟩ := read_recv hread
      exact h.recv
    · cases ho
      cases hread
      exact h.congr (update_tsc (Out.landing_tsc rfl))
  | rdtscp =>
    cases ho
    have hlast := hg.tsc_turn
    obtain ⟨m, last, rfl, rfl, rfl⟩ := read_leg hread
    exact h.leg (by simpa using hlast)

/-- **The spinning loops follow the protocol.** -/
def spinProtocol (p : Nat) (x : Worker) : Protocol (spinBody p x) where
  ph := SpinAt.phase
  lawful := spin_lawful p x
  Inv := Stamped
  setup h := by cases h
  init {c₀ c₁ m₀ m₁ loc} h₀ h₁ _ := by
    cases h₀
    cases h₁
    exact .start fun _ => rfl
  frame _ h _ := h.congr (update_tsc rfl)
  take {n c mem loc a w b o v} hg h hb ho hev := by
    cases b with
    | load =>
      simp only [spinBody] at ho
      split at ho
      · next ht =>
        cases ho
        cases hev
        exact h.flight hg hb rfl ht
      · cases ho
        cases hev
    | rdtsc =>
      cases ho
      simp at hev
    | _ => cases ho; cases hev
  keep hg h _ ho hread := spin_keep hg h ho hread
  sound {n c mem loc a w b o} _ _ _ ho := by
    cases b with
    | load =>
      simp only [spinBody] at ho
      split at ho <;> (cases ho; simp)
    | _ => cases ho; simp [pause, fenced_rdtscp]

/-- A spinning worker waits in its receive loop only. -/
def spinLive (p : Nat) (x : Worker) : Live (spinProtocol p x) where
  hold _ _ _ := False
  blocked {n mem loc a w b} hg h hb hw := by
    refine .inl ?_
    cases b with
    | load =>
      refine ⟨rfl, fun v hv => ?_⟩
      by_contra hne
      obtain rfl : w = !turn a.m := by simpa [Bool.eq_not] using hne
      have hlt := Stamped.above h hg hv
      obtain ⟨hn, -⟩ := hw {} ⟨rfl, rfl⟩ _ (by simp [spinBody, hlt]; rfl)
      cases hn
    | rdtsc =>
      obtain ⟨-, -, -, hev⟩ := hw {} ⟨rfl, rfl⟩ _ rfl
      simp at hev
    | pause | store | rdtscp =>
      obtain ⟨hn, -⟩ := hw {} ⟨rfl, rfl⟩ _ rfl
      cases hn
  moves := by simp

/-! ## Runs

The three loops differ in their pauses, which no event shows, so one theorem is
about all of them. `spinRound` is a run of one message in each direction. -/

/-- The three methods are spinning bodies. -/
theorem eq_spinBody {x : Worker} {B : Body Cells SpinAt}
    (hB : B ∈ spinMains x) : ∃ p, B = spinBody p x := by
  simp only [spinMains, List.mem_cons, List.not_mem_nil, or_false] at hB
  rcases hB with rfl | rfl | rfl <;> exact ⟨_, rfl⟩

/-- A worker whose cell is not above its `tsc` waits in its receive loop. -/
theorem spin_waiting {p : Nat} {x : Worker} {s : State Cells SpinAt} {w : Tid}
    (hb : (s.loc w).ctl = .body .load) (hle : s.mem w ≤ (s.loc w).regs.tsc) :
    s.Waiting (spinBody p x) w := by
  refine ⟨.load, hb, fun c _ o ho => ?_⟩
  simp only [spinBody, not_lt.mpr hle, if_false, Option.some.injEq] at ho
  cases ho
  exact ⟨rfl, rfl, rfl, rfl⟩

/-- **Exactly-once alternation of the spinning methods.** In every run,
whatever the clocks say: every value received is the next one the other
thread stored, the values stored increase above 1, and while no thread has
failed the unfinished ones are not all in a receive loop with a stale
cell. -/
theorem spin_exactly_once {x : Worker} {B : Body Cells SpinAt}
    (hB : B ∈ spinMains x) {ok : State Cells SpinAt → Label → Prop}
    {h : List Event} {s : State Cells SpinAt}
    (hrun : Run (spin_pingpong B x) ok h s) :
    ExactlyOnce h ∧ Increasing 1 h ∧
      ((∀ w, (s.thr w).status ≠ .failed) → ¬ ((∃ w, s.Unfinished w) ∧
        ∀ w, s.Unfinished w →
          (s.loc w).ctl = .body .load ∧ s.mem w ≤ (s.loc w).regs.tsc)) := by
  obtain ⟨p, rfl⟩ := eq_spinBody hB
  obtain ⟨a, ha, -⟩ := (spinProtocol p x).refines hrun
  refine ⟨ha.exactlyOnce, ha.increasing, ?_⟩
  rintro hf ⟨hu, hall⟩
  exact (spinLive p x).not_all_waiting hrun hf hu
    fun w hw => spin_waiting (hall w hw).1 (hall w hw).2

/-- Two iterations of `spin_main`: each thread sends once. -/
def spinRound : List Label :=
  List.flatten
    [List.replicate 5 (.main {}), List.replicate 4 (.worker false {}),
      [.worker false { clock := 5 }, .worker false {}],
      List.replicate 4 (.worker true {}), [.worker true { clock := 7 }],
      List.replicate 2 (.worker true {}),
      [.worker true { clock := 8 }, .worker true {}],
      List.replicate 2 (.worker false {}), [.worker false { clock := 9 }]]

/-- What `spinRound` shows. -/
def spinRoundEvents : List Event :=
  [.clock false 5, .send false 5, .recv true 5, .leg true 0 5 7,
    .clock true 8, .send true 8, .recv false 8, .leg false 0 8 9]

/-- The labels make a run, with these events. -/
theorem spinRound_run :
    ∃ s, Run (spin_pingpong (spin_main ⟨2, 0, 0⟩) ⟨2, 0, 0⟩) NoFail spinRoundEvents s :=
  Machine.run_of_exec spinRound (by decide)

/-- Two messages, whose run ends. -/
theorem spin_exactly_once_two : ∃ s,
    Run (spin_pingpong (spin_main ⟨2, 0, 0⟩) ⟨2, 0, 0⟩) NoFail spinRoundEvents s ∧
      ExactlyOnce spinRoundEvents ∧ Increasing 1 spinRoundEvents ∧
      ((∀ w, (s.thr w).status ≠ .failed) → ¬ ((∃ w, s.Unfinished w) ∧
        ∀ w, s.Unfinished w →
          (s.loc w).ctl = .body .load ∧ s.mem w ≤ (s.loc w).regs.tsc)) := by
  obtain ⟨s, hrun⟩ := spinRound_run
  exact ⟨s, hrun, spin_exactly_once (by simp [spinMains]) hrun⟩

/-- **Disjoint legs on a synchronised clock.** If the clock reads never
decrease, every leg is an interval, the threads record legs in turn, every
leg starts no earlier than the one before ends, and the recorded deltas add
up to no more than the time from the first timestamp sent to the latest
`now`. -/
theorem spin_legs_disjoint {x : Worker} {B : Body Cells SpinAt}
    (hB : B ∈ spinMains x) {ok : State Cells SpinAt → Label → Prop}
    {h : List Event} {s : State Cells SpinAt}
    (hrun : Run (spin_pingpong B x) ok h s)
    (hclock : (clocks h).Pairwise (· ≤ ·)) :
    (∀ l ∈ legs h, l.v ≤ l.now) ∧
      (legs h).map Leg.party = (List.range (legs h).length).map (fun k => !turn k) ∧
      (legs h).Pairwise (fun l l' => l.now ≤ l'.v) ∧
      (legs h = [] → sum_ds s = 0) ∧
      ∀ first latest, (sends h).head? = some first →
        (legs h).getLast? = some latest →
        sum_ds s + first.2.toNat ≤ latest.now.toNat := by
  obtain ⟨p, rfl⟩ := eq_spinBody hB
  obtain ⟨a, ha, -⟩ := (spinProtocol p x).refines hrun
  have hds := (spinProtocol p x).ds_eq hrun
  obtain ⟨-, -, hup, hapart⟩ := legs_ordered ha hclock
  have hsum := sum_mod_le latency (2 ^ 32) (legs h)
  rw [← (spinProtocol p x).sum_ds_eq hrun hup] at hsum
  have hparty := congrArg (List.map Prod.fst) (legs_eq ha)
  have hlen := congrArg List.length (legs_eq ha)
  have hstamps := legs_stamps ha
  refine ⟨hup, ?_, hapart, ?_, ?_⟩
  · simp only [List.length_map, List.length_range] at hlen
    simpa [hlen, Function.comp_def] using hparty
  · intro hnil
    simp [sum_ds, hds, deltas, hnil]
  · intro first latest hfirst hlatest
    cases hl : legs h with
    | nil => simp [hl] at hlatest
    | cons l ls =>
      rw [hl] at hup hapart hsum hlatest hstamps
      -- the legs are intervals in a row; what is summed is their lengths
      have hgaps := sum_gaps_le (fun l => l.v.toNat) (fun l => l.now.toNat) l ls
        (fun x hx => UInt64.le_iff_toNat_le.mp (hup x hx))
        (hapart.imp fun hle => UInt64.le_iff_toNat_le.mp hle)
      have hlast : (l :: ls).getLastD l = latest := by
        rw [List.getLastD_eq_getLast?, hlatest, Option.getD_some]
      have hv : first.2 = l.v := by
        cases hs : sends h with
        | nil => simp [hs] at hfirst
        | cons y ys =>
          simp only [hs, List.head?_cons, Option.some.injEq] at hfirst
          simp only [hs, List.map_cons, List.cons_append, List.cons.injEq]
            at hstamps
          rw [← hfirst, hstamps.1]
      have hlatency : (l :: ls).map latency =
          (l :: ls).map fun l => l.now.toNat - l.v.toNat := rfl
      rw [hlast] at hgaps
      rw [hlatency] at hsum
      rw [hv]
      omega

/-- Their legs, in the time from 5 to 9. -/
theorem spin_legs_disjoint_two : ∃ s,
    Run (spin_pingpong (spin_main ⟨2, 0, 0⟩) ⟨2, 0, 0⟩) NoFail spinRoundEvents s ∧
      sum_ds s + 5 ≤ 9 := by
  obtain ⟨s, hrun⟩ := spinRound_run
  obtain ⟨-, -, -, -, hsum⟩ :=
    spin_legs_disjoint (by simp [spinMains]) hrun (by decide)
  exact ⟨s, hrun, hsum (false, 5) ⟨false, 0, 8, 9⟩ rfl rfl⟩

end Osjitter.Pingpong
