/-
Osjitter.Pingpong.Complete — a run in which both workers finish their loops.

What holds of every run says nothing if no run gets there. In the run built
here the sender of message `m` goes through its whole branch, then the
receiver through its own, for `m = 0, 1, …, n - 1`; message `m` has the
timestamp `m + 2`. A method says (`Cycle`) what its memory looks like before
message `m` and between the two branches.

  §1 A worker on its own: `Solo` are the steps of one worker while the other
     stands still, and `Solo.steps` makes them a run of the process.
  §2 Message by message: `start_run` brings the process to the gate,
     `Cycle.round` through one message, and `Cycle.complete` to the point where
     both have left their loops with `n / 2` deltas each, or one more for thread
     1 and odd `n`.

No call fails in these runs, and nothing is spurious. Runs with other
timestamps and in another order are in `Pingpong.Replay`.
-/
import Osjitter.Pingpong.Progress

namespace Osjitter.Pingpong

open Machines Relay

variable {Mem At : Type}

/-! ## §1 A worker on its own

`Solo` is like a run of one worker in a memory that nobody else writes. Its
rules are the kinds of steps, so a branch is a term that names the calls it
makes. -/

/-- Worker `w` can go on its own, no call failing, from the first memory and
control point to the second. -/
inductive Solo (B : Body Mem At) (x : Worker) (w : Tid) (mem' : Mem)
    (l' : Local At) : Mem → Local At → Prop
  | done : Solo B x w mem' l' mem' l'
  | step {c mem l o} : Choice.Quiet c →
    workerStep B x w c true mem 0 l = some o →
      o.fate = .run → Solo B x w mem' l' o.mem o.loc → Solo B x w mem' l' mem l

section Solo

variable {B : Body Mem At} {x : Worker} {w : Tid} {mem mem' : Mem}
  {l l' : Local At} {r : Regs} {c : Choice} {b b' : At} {o : Out Mem At}

/-- The head of the loop, when the worker is to send. -/
theorem Solo.send (hi : r.i < x.n.toNat) (hw : turn r.i = w)
    (h : Solo B x w mem' l' mem ⟨.body B.send, r⟩) :
    Solo B x w mem' l' mem ⟨.head, r⟩ := by
  have hp := (mod_two_beq r.i w).mpr hw
  exact .step (c := {}) ⟨rfl, rfl⟩ (by simp [workerStep, hi, hp]; rfl) rfl h

/-- The head of the loop, when it is to receive. -/
theorem Solo.recv (hi : r.i < x.n.toNat) (hw : turn r.i ≠ w)
    (h : Solo B x w mem' l' mem ⟨.body B.recv, r⟩) :
    Solo B x w mem' l' mem ⟨.head, r⟩ := by
  have hp := mt (mod_two_beq r.i w).mp hw
  exact .step (c := {}) ⟨rfl, rfl⟩ (by simp [workerStep, hi, hp]; rfl) rfl h

/-- A step inside a branch. -/
theorem Solo.goto (hc : c.Quiet) (ho : B.step w c mem r b = some o)
    (hn : o.next = .goto b') (h : Solo B x w mem' l' o.mem ⟨.body b', o.regs⟩) :
    Solo B x w mem' l' mem ⟨.body b, r⟩ := by
  refine .step hc (by simp [workerStep, ho]; rfl) (by simp [hn, Next.fate]) ?_
  simpa [Out.landing, hn] using h

/-- The last step of a branch. -/
theorem Solo.ended (hc : c.Quiet) (ho : B.step w c mem r b = some o)
    (hn : o.next = .next)
    (h : Solo B x w mem' l' o.mem ⟨.head, { o.regs with i := o.regs.i + 1 }⟩) :
    Solo B x w mem' l' mem ⟨.body b, r⟩ := by
  refine .step hc (by simp [workerStep, ho]; rfl) (by simp [hn, Next.fate]) ?_
  simpa [Out.landing, hn] using h

/-- The pauses of the sender. -/
theorem Solo.pause (ho : B.step w {} mem r b = some (Pingpong.pause mem r x b'))
    (h : Solo B x w mem' l' mem ⟨.body b', r⟩) :
    Solo B x w mem' l' mem ⟨.body b, r⟩ :=
  .goto (c := {}) ⟨rfl, rfl⟩ ho rfl h

/-- The sender's clock shows `t`. -/
theorem Solo.rdtsc {again : At} {t : UInt64}
    (ho : ∀ c, B.step w c mem r b = some (fenced_rdtsc w c mem r again b'))
    (ht : r.tsc < t) (h : Solo B x w mem' l' mem ⟨.body b', { r with t := t }⟩) :
    Solo B x w mem' l' mem ⟨.body b, r⟩ := by
  have hgo : B.step w { clock := t } mem r b = some
      { mem, regs := { r with t := t }, next := .goto b', ev := [.clock w t] } := by
    rw [ho]
    simp [fenced_rdtsc, not_le.mpr ht]
  exact .goto ⟨rfl, rfl⟩ hgo rfl h

end Solo

/-- Both workers run, past the gate. -/
structure State.Going (s : State Mem At) : Prop where
  alive : s.alive = true
  gate : s.start_work = true
  running : ∀ w, (s.thr w).status = .running

/-- The process follows one step of a worker. -/
theorem State.Going.act {B : Body Mem At} {x : Worker} {s : State Mem At}
    {w : Tid} {c : Choice} {o : WorkerOut Mem At} (hs : s.Going) (hc : c.Quiet)
    (ho : workerStep B x w c true s.mem 0 (s.loc w) = some o)
    (hf : o.fate = .run) :
    ∃ u, Steps (spin_pingpong B x) Calm s o.ev u ∧ u.Going ∧ u.mem = o.mem ∧
      u.loc = Function.update s.loc w o.loc := by
  rw [← hs.gate] at ho
  obtain ⟨t, ht, hsame, hta, hone⟩ :=
    step_after_pauses (x := x) hs.alive (hs.running w) ho
  have hcalm : Calm t (.worker w c) := hc
  refine ⟨t.apply w o, by simpa using ht.trans (Steps.single hcalm hone),
    ⟨?_, ?_, fun v => ?_⟩, by simp, by rw [State.apply_loc, hsame.loc]⟩
  · simpa [State.apply, hf, State.alive] using hta
  · simpa using hsame.start_work.trans hs.gate
  · have hrun := (hsame.status v).trans (hs.running v)
    by_cases hv : v = w
    · subst hv
      simp [State.apply, hf]
    · simpa [State.apply, hf, Function.update_of_ne hv] using hrun

/-- The process can follow a worker on its own. -/
theorem Solo.steps {B : Body Mem At} {x : Worker} {w : Tid} {mem mem' : Mem}
    {l l' : Local At} (h : Solo B x w mem' l' mem l) :
    ∀ {s : State Mem At}, s.Going → s.mem = mem → s.loc w = l →
    ∃ es t, Steps (spin_pingpong B x) NoFail s es t ∧ t.Going ∧ t.mem = mem' ∧
      t.loc = Function.update s.loc w l' := by
  induction h with
  | done =>
    intro s hs hmem hl
    exact ⟨[], s, .refl, hs, hmem, by rw [← hl, Function.update_eq_self]⟩
  | @step c mem l o hc ho hf _ ih =>
    intro s hs hmem hl
    subst hmem hl
    obtain ⟨t, ht, htg, htm, htl⟩ := hs.act (x := x) hc ho hf
    obtain ⟨es, u, hu, hug, hum, hul⟩ := ih htg htm (by simp [htl])
    have hpre : Steps (spin_pingpong B x) NoFail s o.ev t :=
      ht.mono fun _ _ hcalm => hcalm.1
    exact ⟨_, u, hpre.trans hu, hug, hum, by rw [hul, htl, Function.update_idem]⟩

/-! ## §2 Message by message

Between two messages both workers stand at the heads of their loops, with as
many turns behind them as messages were relayed. One cycle keeps that, and the
number of messages is arbitrary. -/

/-- What a method does with one message when the workers take turns: `Rest m`
is the memory before message `m`, `Sent m t` the memory once it is stored with
timestamp `t`. -/
structure Cycle (B : Body Mem At) (x : Worker) where
  Rest : Nat → Mem → Prop
  Sent : Nat → UInt64 → Mem → Prop
  start : ∃ m₀ m₁, B.setup false {} B.mem0 = .ok m₀ ∧
    B.setup true {} m₀ = .ok m₁ ∧ Rest 0 m₁
  send : ∀ {t mem} {r : Regs}, Rest r.i mem → r.i < x.n.toNat → r.tsc < t →
    ∃ mem' r', Solo B x (turn r.i) mem' ⟨.head, r'⟩ mem ⟨.head, r⟩ ∧
      Sent r.i t mem' ∧
      r'.i = r.i + 1 ∧ r'.tsc = r.tsc
  recv : ∀ {t mem} {r : Regs}, Sent r.i t mem → r.i < x.n.toNat → r.tsc < t →
    ∃ mem' r', Solo B x (!turn r.i) mem' ⟨.head, r'⟩ mem ⟨.head, r⟩ ∧
      Rest (r.i + 1) mem' ∧
      r'.i = r.i + 1 ∧ r'.tsc = t

/-- Both workers are about to begin iteration `m`. -/
structure Cycle.Before {B : Body Mem At} {x : Worker} (C : Cycle B x) (m : Nat)
    (s : State Mem At) : Prop where
  going : s.Going
  rest : C.Rest m s.mem
  head : ∀ w, (s.loc w).ctl = .head
  i : ∀ w, (s.loc w).regs.i = m
  tsc : ∀ w, (s.loc w).regs.tsc.toNat ≤ m + 1

/-- The main thread's five steps up to the open gate. -/
theorem start_run {B : Body Mem At} {x : Worker} {m₀ m₁ : Mem}
    (h₀ : B.setup false {} B.mem0 = .ok m₀) (h₁ : B.setup true {} m₀ = .ok m₁) :
    ∃ s, Run (spin_pingpong B x) Calm [] s ∧ s.Going ∧ s.mem = m₁ ∧
      ∀ w, s.loc w = {} := by
  have hok : ∀ s : State Mem At, Calm s (.main {}) := fun _ => ⟨rfl, rfl⟩
  have hrun :=
    (((((Steps.refl (M := spin_pingpong B x) (s := (spin_pingpong B x).init)).tail
    (hok _) (by simp [spin_pingpong, State.alive, mainStep, h₀]; exact ⟨rfl, rfl⟩)).tail
    (hok _) (by simp [spin_pingpong, State.alive, mainStep]; exact ⟨rfl, rfl⟩)).tail
    (hok _) (by simp [spin_pingpong, State.alive, mainStep, h₁]; exact ⟨rfl, rfl⟩)).tail
    (hok _) (by simp [spin_pingpong, State.alive, mainStep]; exact ⟨rfl, rfl⟩)).tail
    (hok _) (by simp [spin_pingpong, State.alive, mainStep]; exact ⟨rfl, rfl⟩)
  refine ⟨_, hrun, ⟨rfl, rfl, fun w => ?_⟩, rfl, fun w => ?_⟩
  · cases w <;> simp [Function.update]
  · cases w <;> simp [State.loc, Function.update]

/-- Both workers go through the gate. -/
theorem Solo.gate {B : Body Mem At} {x : Worker} {w : Tid} {mem : Mem} :
    Solo B x w mem ⟨.head, {}⟩ mem {} :=
  .step (c := {}) (o := { mem, loc := ⟨.gate, {}⟩ }) ⟨rfl, rfl⟩ rfl rfl
    (.step (c := {}) (o := { mem, loc := ⟨.head, {}⟩ }) ⟨rfl, rfl⟩ rfl rfl .done)

variable {B : Body Mem At} {x : Worker}

/-- The process comes to the heads of the loops. -/
theorem Cycle.first (C : Cycle B x) :
    ∃ h s, Run (spin_pingpong B x) NoFail h s ∧ C.Before 0 s := by
  obtain ⟨m₀, m₁, h₀, h₁, hrest⟩ := C.start
  obtain ⟨s, hs, hg, hmem, hloc⟩ := start_run (x := x) h₀ h₁
  obtain ⟨e, t, ht, htg, htm, htl⟩ := Solo.gate.steps hg hmem (hloc false)
  obtain ⟨e', u, hu, hug, hum, hul⟩ :=
    Solo.gate.steps (w := true) htg htm (by simp [htl, hloc])
  have hfin : ∀ w, u.loc w = ⟨.head, {}⟩ := by
    intro w
    cases w <;> simp [hul, htl]
  have hstart : Run (spin_pingpong B x) NoFail [] s :=
    hs.mono fun _ _ hcalm => hcalm.1
  exact ⟨_, u, (hstart.trans ht).trans hu, hug, hum ▸ hrest,
    fun w => by rw [hfin], fun w => by rw [hfin],
    fun w => by rw [hfin]; exact Nat.le_refl 1⟩

/-- One message. -/
theorem Cycle.round (C : Cycle B x) {m : Nat} {h : List Event}
    {s : State Mem At} (hrun : Run (spin_pingpong B x) NoFail h s)
    (hs : C.Before m s) (hm : m < x.n.toNat) :
    ∃ h s, Run (spin_pingpong B x) NoFail h s ∧ C.Before (m + 1) s := by
  have hn : x.n.toNat < 2 ^ 32 := x.n.toNat_lt
  obtain ⟨t, ht⟩ : ∃ t : UInt64, t.toNat = m + 2 :=
    ⟨UInt64.ofNat (m + 2), by simp; omega⟩
  have htsc : ∀ w, (s.loc w).regs.tsc < t := by
    intro w
    rw [UInt64.lt_iff_toNat_lt, ht]
    exact Nat.lt_succ_of_le (hs.tsc w)
  have hloc : ∀ w, s.loc w = ⟨.head, (s.loc w).regs⟩ :=
    fun w => by rw [← hs.head w]
  obtain ⟨mem₁, r₁, hsolo₁, hsent, hi₁, htsc₁⟩ :=
    C.send (t := t) (r := (s.loc (turn m)).regs)
    (by rw [hs.i]; exact hs.rest) (by rw [hs.i]; exact hm) (htsc _)
  rw [hs.i] at hsolo₁ hsent hi₁
  obtain ⟨e₁, s₁, hrun₁, hg₁, hmem₁, hloc₁⟩ :=
    hsolo₁.steps hs.going rfl (hloc _)
  obtain ⟨mem₂, r₂, hsolo₂, hrest, hi₂, htsc₂⟩ := C.recv (t := t)
    (r := (s.loc (!turn m)).regs) (by rw [hs.i]; exact hsent)
      (by rw [hs.i]; exact hm) (htsc _)
  rw [hs.i] at hsolo₂ hrest hi₂
  obtain ⟨e₂, s₂, hrun₂, hg₂, hmem₂, hloc₂⟩ := hsolo₂.steps hg₁ hmem₁
    (by rw [hloc₁, Function.update_of_ne (by simp)]; exact hloc _)
  -- neither worker moves while the other does
  have hS : s₂.loc (turn m) = ⟨.head, r₁⟩ := by
    rw [hloc₂, Function.update_of_ne (by simp), hloc₁, Function.update_self]
  have hR : s₂.loc (!turn m) = ⟨.head, r₂⟩ := by
    rw [hloc₂, Function.update_self]
  have hboth : ∀ {P : Local At → Prop}, P ⟨.head, r₁⟩ → P ⟨.head, r₂⟩ →
      ∀ w, P (s₂.loc w) := by
    intro P h₁ h₂ w
    by_cases hw : w = turn m
    · rw [hw, hS]
      exact h₁
    · obtain rfl : w = !turn m := by simpa [Bool.eq_not] using hw
      rw [hR]
      exact h₂
  refine ⟨_, s₂, (hrun.trans hrun₁).trans hrun₂, hg₂, hmem₂ ▸ hrest,
    hboth (P := fun l => l.ctl = .head) rfl rfl,
    hboth (P := fun l => l.regs.i = m + 1) hi₁ hi₂,
    hboth (P := fun l => l.regs.tsc.toNat ≤ m + 1 + 1) ?_ ?_⟩
  · have hle := hs.tsc (turn m)
    show r₁.tsc.toNat ≤ m + 1 + 1
    rw [htsc₁]
    omega
  · show r₂.tsc.toNat ≤ m + 1 + 1
    rw [htsc₂, ht]

/-- **Every method has a run in which both workers finish their loops.** -/
theorem Cycle.complete (C : Cycle B x) :
    ∃ h s, Run (spin_pingpong B x) NoFail h s ∧
      ∀ w, (s.loc w).ctl = .finalize := by
  have hrounds : ∀ m ≤ x.n.toNat,
      ∃ h s, Run (spin_pingpong B x) NoFail h s ∧ C.Before m s := by
    intro m
    induction m with
    | zero => exact fun _ => C.first
    | succ m ih =>
      intro hm
      obtain ⟨h, s, hrun, hs⟩ := ih (by omega)
      exact C.round hrun hs (by omega)
  obtain ⟨h, s, hrun, hs⟩ := hrounds _ (Nat.le_refl _)
  have hleave : ∀ {w : Tid} {mem : Mem} {r : Regs}, r.i = x.n.toNat →
      Solo B x w mem ⟨.finalize, r⟩ mem ⟨.head, r⟩ := by
    intro w mem r hi
    exact .step (c := {}) ⟨rfl, rfl⟩ (by simp [workerStep, hi]; rfl) rfl .done
  have hloc : ∀ w, s.loc w = ⟨.head, (s.loc w).regs⟩ :=
    fun w => by rw [← hs.head w]
  obtain ⟨e, t, ht, htg, -, htl⟩ :=
    (hleave (hs.i false)).steps hs.going rfl (hloc false)
  obtain ⟨e', u, hu, -, -, hul⟩ :=
    (hleave (w := true) (hs.i true)).steps htg rfl
    (by rw [htl, Function.update_of_ne (by simp)]; exact hloc true)
  refine ⟨_, u, (hrun.trans ht).trans hu, fun w => ?_⟩
  cases w <;> simp [hul, htl]

end Osjitter.Pingpong
