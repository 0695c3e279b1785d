/-
Osjitter.Pingpong.PipeTheorems — the pipes relay.

The receiver of `pipe_main` never compares timestamps. It does not have to
(`PipeInv`): the sender's pipe is empty, and the receiver's holds the
message in flight and nothing else.

`PipeCall` are the two calls with their outcomes, `pipe_lawful` the branches.
`PipeInv.created` is the memory before the first message, `PipeInv.take` says
what a read finds, and `PipeInv.keep` that every step keeps the invariant;
`pipeProtocol` and `pipeLive` follow.

`pipe_one_in_flight` is the result: in every run the pipes hold one message at
most, of 8 bytes, which is the one in flight; messages are received once and in
order; and no worker waits for ever while no call has failed.
-/
import Osjitter.Pingpong.Pipe
import Osjitter.Pingpong.Progress

namespace Osjitter.Pingpong

open Machines Relay

/-! ## The branches

Both calls fail, are cut short, or transfer a message of 8 bytes at once. -/

/-- The phase of a control point. -/
def PipeAt.phase : PipeAt → Phase
  | .pause | .rdtsc => .ready
  | .write => .armed
  | .read => .waiting
  | .rdtscp => .taken

/-- The steps of `write` and `read`, taken apart. -/
inductive PipeCall (w : Tid) (c : Choice) (mem : Pipes) (r : Regs) :
    PipeAt → Out Pipes PipeAt → Prop
  | fails {b msg} : c.fails = true → PipeCall w c mem r b (failing mem r msg)
  | closed {b v msg} : mem v = none → PipeCall w c mem r b (failing mem r msg)
  | write {q} : mem (!w) = some q → PipeCall w c mem r .write
      { mem := Function.update mem (!w) (some (q ++ [r.t])), regs := r, next := .next,
        ev := [.send w r.t] }
  | read {v q} : mem w = some (v :: q) → PipeCall w c mem r .read
      { mem := Function.update mem w (some q), regs := { r with t := v },
        next := .goto .rdtscp, ev := [.recv w v] }

/-- A write, with its outcomes. -/
theorem pipe_write_cases {x : Worker} {w : Tid} {c : Choice} {mem : Pipes}
    {r : Regs} {o : Out Pipes PipeAt}
    (h : (pipe_main x).step w c mem r .write = some o) :
    PipeCall w c mem r .write o := by
  simp only [pipe_main] at h
  split at h
  · next hf => cases h; exact .fails hf
  · split at h
    · next hq => cases h; exact .closed hq
    · next q hq => cases h; exact .write hq

/-- A read, with its outcomes. -/
theorem pipe_read_cases {x : Worker} {w : Tid} {c : Choice} {mem : Pipes}
    {r : Regs} {o : Out Pipes PipeAt}
    (h : (pipe_main x).step w c mem r .read = some o) :
    PipeCall w c mem r .read o := by
  simp only [pipe_main] at h
  split at h
  · next hf => cases h; exact .fails hf
  · split at h
    · next hq => cases h; exact .closed hq
    · cases h
    · next v q hq => cases h; exact .read hq

/-- The branches are those of a relay. -/
theorem pipe_lawful (x : Worker) : Lawful (pipe_main x) PipeAt.phase where
  send := rfl
  recv := rfl
  step {w c mem r b o} h := by
    cases b with
    | pause => cases h; exact .idle
    | rdtsc => cases h; exact fenced_rdtsc_move rfl rfl
    | write =>
      cases pipe_write_cases h with
      | fails | closed => exact .stop
      | write => exact .storeOver
    | read =>
      cases pipe_read_cases h with
      | fails | closed => exact .stop
      | read => exact .take
    | rdtscp => cases h; exact .legOver

/-! ## The invariant

Without a test of the timestamp, a receiver takes whatever is in its pipe. It is
right because there is never more than the one message, and none when it is not
its turn. -/

/-- The pipes against the relay. -/
structure PipeInv (mem : Pipes) (_ : Tid → Local PipeAt)
    (a : Relay.State UInt64) : Prop where
  sender : mem (turn a.m) = some []
  receiver : mem (!turn a.m) = some a.stage.pending

/-- Both pipes have been created. -/
theorem PipeInv.created {mem : Pipes} {loc : Tid → Local PipeAt}
    {a : Relay.State UInt64} (h : PipeInv mem loc a) (v : Tid) :
    ∃ q, mem v = some q := by
  by_cases hv : v = turn a.m
  · exact ⟨_, hv ▸ h.sender⟩
  · obtain rfl : v = !turn a.m := by simpa [Bool.eq_not] using hv
    exact ⟨_, h.receiver⟩

/-- Whoever finds a message in its pipe finds the one in flight. -/
theorem PipeInv.take {mem : Pipes} {loc : Tid → Local PipeAt}
    {a : Relay.State UInt64} {w : Tid} {v : UInt64} {q : List UInt64}
    (h : PipeInv mem loc a) (hq : mem w = some (v :: q)) :
    a.stage = .flight v ∧ w = (!turn a.m) ∧ q = [] := by
  by_cases hw : w = turn a.m
  · rw [hw, h.sender] at hq
    simp at hq
  · obtain rfl : w = !turn a.m := by simpa [Bool.eq_not] using hw
    rw [h.receiver] at hq
    cases hs : a.stage <;> simp [hs, Stage.pending] at hq ⊢
    exact hq

/-- The steps of the branches keep the pipes right. -/
theorem PipeInv.keep {x : Worker} {n : Nat} {c : Choice} {mem : Pipes}
    {loc loc' : Tid → Local PipeAt} {a a' : Relay.State UInt64} {w : Tid}
    {b : PipeAt} {o : Out Pipes PipeAt} (h : PipeInv mem loc a)
    (ho : (pipe_main x).step w c mem (loc w).regs b = some o)
    (hread : Monitor.read (next n) o.ev a = some a') :
    PipeInv o.mem loc' a' := by
  cases b with
  | pause =>
    cases ho
    cases hread
    exact ⟨h.sender, h.receiver⟩
  | rdtsc =>
    cases ho
    rw [fenced_rdtsc_ev] at hread
    rw [fenced_rdtsc_mem]
    obtain ⟨m, last, stage, rfl, rfl, -, hstage⟩ := read_clock hread
    refine ⟨h.sender, ?_⟩
    rcases hstage with rfl | rfl <;> exact h.receiver
  | write =>
    cases pipe_write_cases ho with
    | fails | closed => cases hread; exact ⟨h.sender, h.receiver⟩
    | write hq =>
      obtain ⟨m, last, rfl, rfl, rfl⟩ := read_send hread
      rw [h.receiver] at hq
      cases hq
      exact ⟨by simpa using h.sender, by simp [Stage.pending]⟩
  | read =>
    cases pipe_read_cases ho with
    | fails | closed => cases hread; exact ⟨h.sender, h.receiver⟩
    | @read v q hq =>
      obtain ⟨-, -, rfl⟩ := h.take hq
      obtain ⟨m, last, rfl, rfl, rfl⟩ := read_recv hread
      exact ⟨by simpa using h.sender, by simp [Stage.pending]⟩
  | rdtscp =>
    cases ho
    obtain ⟨m, last, rfl, rfl, rfl⟩ := read_leg hread
    exact ⟨by simpa [Stage.pending] using h.receiver,
      by simpa [Stage.pending] using h.sender⟩

/-- **The pipes follow the protocol.** -/
def pipeProtocol (x : Worker) : Protocol (pipe_main x) where
  ph := PipeAt.phase
  lawful := pipe_lawful x
  Inv := PipeInv
  setup {i c mem msg} h := by
    simp only [pipe_main] at h
    split at h
    · assumption
    · cases h
  init {c₀ c₁ m₀ m₁ loc} h₀ h₁ _ := by
    simp only [pipe_main] at h₀ h₁
    split at h₀
    · cases h₀
    split at h₁
    · cases h₁
    cases h₀
    cases h₁
    constructor <;> simp [start, Stage.pending]
  frame _ h _ := ⟨h.sender, h.receiver⟩
  take {n c mem loc a w b o v} _ h _ ho hev := by
    cases b with
    | read =>
      cases pipe_read_cases ho with
      | fails | closed => cases hev
      | read hq =>
        cases hev
        obtain ⟨hs, hw, -⟩ := h.take hq
        exact ⟨hs, hw⟩
    | write => cases pipe_write_cases ho <;> cases hev
    | rdtsc =>
      cases ho
      simp at hev
    | _ => cases ho; cases hev
  keep _ h _ ho hread := h.keep ho hread
  sound {n c mem loc a w b o} _ h _ ho := by
    have hcall : PipeCall w c mem (loc w).regs b o →
        (∀ msg, o.next ≠ .abort msg) ∧
            (∀ msg, o.next = .fail msg → c.fails = true) := by
      intro hc
      cases hc with
      | fails hf => exact ⟨by simp [failing], fun _ _ => hf⟩
      | closed hn =>
        obtain ⟨q, hq⟩ := h.created _
        rw [hn] at hq
        cases hq
      | write | read => simp
    cases b with
    | write => exact hcall (pipe_write_cases ho)
    | read => exact hcall (pipe_read_cases ho)
    | _ => cases ho; simp [pause, fenced_rdtscp]

/-- A worker waits on its empty pipe only. -/
def pipeLive (x : Worker) : Live (pipeProtocol x) where
  hold _ _ _ := False
  blocked {n mem loc a w b} hg h hb hw := by
    refine .inl ?_
    cases b with
    | read =>
      refine ⟨rfl, fun v hv => ?_⟩
      by_contra hne
      obtain rfl : w = !turn a.m := by simpa [Bool.eq_not] using hne
      have hq : mem (!turn a.m) = some [v] := by
        rw [PipeInv.receiver h, hv]; rfl
      obtain ⟨hn, -⟩ := hw {} ⟨rfl, rfl⟩ _ (by simp [pipe_main, hq]; rfl)
      cases hn
    | write =>
      obtain ⟨q, hq⟩ := PipeInv.created h (!w)
      obtain ⟨hn, -⟩ := hw {} ⟨rfl, rfl⟩ _ (by simp [pipe_main, hq]; rfl)
      cases hn
    | rdtsc =>
      obtain ⟨-, -, -, hev⟩ := hw {} ⟨rfl, rfl⟩ _ rfl
      simp at hev
    | pause | rdtscp =>
      obtain ⟨hn, -⟩ := hw {} ⟨rfl, rfl⟩ _ rfl
      cases hn
  moves := by simp

/-! ## Runs

What a pipe holds is read off the state of the relay: the message in flight, and
nothing in any other stage. -/

/-- The messages in a pipe. -/
def held (mem : Pipes) (w : Tid) : List UInt64 := (mem w).getD []

/-- Before the gate opens the pipes are empty. -/
theorem pipe_initial {x : Worker} {mem : Pipes} (h : Initial (pipe_main x) mem)
    (w : Tid) : held mem w = [] := by
  have hnew : ∀ {i c m m'}, (pipe_main x).setup i c m = .ok m' → held m w = [] →
      held m' w = [] := by
    intro i c m m' h hm
    simp only [pipe_main] at h
    split at h
    · cases h
    · cases h
      by_cases hw : w = i
      · subst hw; simp [held]
      · simpa [held, Function.update_of_ne hw] using hm
  cases h with
  | none => rfl
  | one h => exact hnew h rfl
  | both h₀ h₁ => exact hnew h₁ (hnew h₀ rfl)

/-- **At most one message in flight.** In every run without failing calls:
the two pipes hold at most one message, every value received is the next one
the other thread wrote, the values written increase above 1, no branch runs
before both pipes exist, an unfinished thread is never stuck, and nothing is
left in the pipes when both threads have left their loop. -/
theorem pipe_one_in_flight {x : Worker} {h : List Event}
    {s : State Pipes PipeAt}
    (hrun : Run (spin_pingpong (pipe_main x) x) NoFail h s) :
    (held s.mem false ++ held s.mem true).length ≤ 1 ∧ ExactlyOnce h ∧
      Increasing 1 h ∧
      (∀ w b, (s.loc w).ctl = .body b → ∀ v, (s.mem v).isSome) ∧
      ((∃ w, s.Unfinished w) → ¬ Stuck (pipe_main x) x s) ∧
      ((∀ w, (s.loc w).ctl = .finalize ∨ (s.thr w).status.stopped = true) →
        ∀ w, held s.mem w = []) := by
  obtain ⟨a, ha, hH⟩ := (pipeProtocol x).refines hrun
  have hheld : s.start_work = true →
      ∀ w, held s.mem w = if w = turn a.m then [] else a.stage.pending := by
    intro hsw w
    have hinv := (hH.after hsw).1
    split
    · next hw => rw [held, hw, PipeInv.sender hinv]; rfl
    · next hw =>
      obtain rfl : w = !turn a.m := by simpa [Bool.eq_not] using hw
      rw [held, PipeInv.receiver hinv]
      rfl
  refine ⟨?_, ha.exactlyOnce, ha.increasing, fun w b hb v => ?_,
    (pipeLive x).no_fail_not_stuck hrun, fun hst w => ?_⟩
  · cases hsw : s.start_work with
    | false =>
      have hinit := (hH.before hsw).2.2.initial
      simp [pipe_initial hinit]
    | true =>
      rw [hheld hsw, hheld hsw]
      cases turn a.m <;> cases a.stage <;> simp [Stage.pending]
  · obtain ⟨q, hq⟩ := PipeInv.created (hH.after (hH.passed hb)).1 v
    simp [hq]
  · have hfin : ∀ w, (s.loc w).ctl = .finalize := by
      intro w
      rcases hst w with hw | hw
      · exact hw
      · cases hs : (s.thr w).status with
        | returned raw_ds ds => exact settled hrun w raw_ds ds hs
        | absent | running => simp [hs, Status.stopped] at hw
        | failed => exact absurd hs ((pipeProtocol x).no_failure hrun w)
    cases hsw : s.start_work with
    | false => exact pipe_initial (hH.before hsw).2.2.initial w
    | true =>
      rw [hheld hsw, hH.good.finished hfin]
      simp

/-- One iteration of `pipe_main`: thread 0 has sent, thread 1 is about to
read. -/
def pipeSent : List Label :=
  List.flatten
    [List.replicate 5 (.main {}), List.replicate 4 (.worker false {}),
      [.worker false { clock := 5 }, .worker false {}],
      List.replicate 3 (.worker true {})]

/-- The labels make a run, with these events. -/
theorem pipeSent_run :
    ∃ s, Run (spin_pingpong (pipe_main ⟨2, 0, 0⟩) ⟨2, 0, 0⟩) NoFail
    [.clock false 5, .send false 5] s :=
  Machine.run_of_exec pipeSent (by decide)

/-- A state with one message under way. -/
theorem pipe_one_in_flight_two : ∃ s,
    Run (spin_pingpong (pipe_main ⟨2, 0, 0⟩) ⟨2, 0, 0⟩) NoFail
        [.clock false 5, .send false 5] s ∧
      (held s.mem false ++ held s.mem true).length ≤ 1 ∧
      ((∃ w, s.Unfinished w) → ¬ Stuck (pipe_main ⟨2, 0, 0⟩) ⟨2, 0, 0⟩ s) := by
  obtain ⟨s, hrun⟩ := pipeSent_run
  obtain ⟨hheld, -, -, -, hstuck, -⟩ := pipe_one_in_flight hrun
  exact ⟨s, hrun, hheld, hstuck⟩

end Osjitter.Pingpong
