/-
Osjitter.Pingpong.Replay — every relay is a run of every method.

`Protocol.refines` says that what the two workers show is the history of a
relay, whatever calls fail. Here is the converse: whatever a relay of `n`
messages can show, the workers can show, with no call failing and nothing
happening spuriously. So the seven methods cannot be told apart by what is
sent, received and recorded: how a worker waits, and for how many pauses, does
not matter.

  §1 `Acts`: what a worker can show on its own, as a derivation that ends in a
     given memory. `Acts.steps` makes it a run of the process.
  §2 A method says (`Replay`) how its workers show each of the relay's events,
     and what its memory looks like in between. `Replay.Follows` is the
     simulation of the relay by the process, and `Replay.Follows.next` its step,
     from one lemma for each event.
  §3 The seven methods, of which the three that spin are one.
  §4 `histories_iff`: the histories of all runs, those of runs in which no call
     fails, and those of the relay are the same. Runs that end in a return of 0
     are in `Pingpong.Exit`.

A history may stop anywhere; the run that shows it stops there too.
-/
import Osjitter.Pingpong.Bounds
import Osjitter.Pingpong.Failure

namespace Osjitter.Pingpong

open Machines Relay

variable {Mem At : Type}

/-! ## §1 A worker on its own

`Acts` is a derivation whose rules are the kinds of steps, so that a run of a
branch is written as a term, from its first step to its last. It collects the
events that the steps show. -/

/-- Worker `w` can go on its own from the first memory and control point to the
second, showing the events. -/
inductive Acts (B : Body Mem At) (x : Worker) (w : Tid) (mem' : Mem)
    (l' : Local At) : List Event → Mem → Local At → Prop
  | done : Acts B x w mem' l' [] mem' l'
  | step {c mem l o es es'} : Choice.Quiet c →
    workerStep B x w c true mem 0 l = some o →
      o.fate = .run → o.ev ++ es = es' → Acts B x w mem' l' es o.mem o.loc →
      Acts B x w mem' l' es' mem l

section Acts

variable {B : Body Mem At} {x : Worker} {w : Tid} {mem mem' : Mem}
  {l l' : Local At} {r : Regs} {c : Choice} {b b' : At} {o : Out Mem At}
  {es es' : List Event}

/-- The head of the loop, when the worker is to send. -/
theorem Acts.send (hi : r.i < x.n.toNat) (hw : turn r.i = w)
    (h : Acts B x w mem' l' es mem ⟨.body B.send, r⟩) :
    Acts B x w mem' l' es mem ⟨.head, r⟩ := by
  have hp := (mod_two_beq r.i w).mpr hw
  exact .step (c := {}) ⟨rfl, rfl⟩ (by simp [workerStep, hi, hp]; rfl) rfl rfl h

/-- The head of the loop, when it is to receive. -/
theorem Acts.recv (hi : r.i < x.n.toNat) (hw : turn r.i ≠ w)
    (h : Acts B x w mem' l' es mem ⟨.body B.recv, r⟩) :
    Acts B x w mem' l' es mem ⟨.head, r⟩ := by
  have hp := mt (mod_two_beq r.i w).mp hw
  exact .step (c := {}) ⟨rfl, rfl⟩ (by simp [workerStep, hi, hp]; rfl) rfl rfl h

/-- A step inside a branch. -/
theorem Acts.goto (hc : c.Quiet) (ho : B.step w c mem r b = some o)
    (hn : o.next = .goto b') (he : o.ev ++ es = es')
    (h : Acts B x w mem' l' es o.mem ⟨.body b', o.regs⟩) :
    Acts B x w mem' l' es' mem ⟨.body b, r⟩ := by
  refine .step hc (by simp [workerStep, ho]; rfl) (by simp [hn, Next.fate]) he ?_
  simpa [Out.landing, hn] using h

/-- The last step of a branch. -/
theorem Acts.ended (hc : c.Quiet) (ho : B.step w c mem r b = some o)
    (hn : o.next = .next) (he : o.ev ++ es = es')
    (h : Acts B x w mem' l' es o.mem ⟨.head, { o.regs with i := o.regs.i + 1 }⟩) :
    Acts B x w mem' l' es' mem ⟨.body b, r⟩ := by
  refine .step hc (by simp [workerStep, ho]; rfl) (by simp [hn, Next.fate]) he ?_
  simpa [Out.landing, hn] using h

/-- The pauses of the sender. -/
theorem Acts.pause (ho : B.step w {} mem r b = some (Pingpong.pause mem r x b'))
    (h : Acts B x w mem' l' es mem ⟨.body b', r⟩) :
    Acts B x w mem' l' es mem ⟨.body b, r⟩ :=
  .goto (c := {}) ⟨rfl, rfl⟩ ho rfl rfl h

end Acts

/-- The process can follow a worker on its own. -/
theorem Acts.steps {B : Body Mem At} {x : Worker} {w : Tid} {mem mem' : Mem}
    {l l' : Local At} {es : List Event} (h : Acts B x w mem' l' es mem l) :
    ∀ {s : State Mem At}, s.Going → s.mem = mem → s.loc w = l →
    ∃ t, Steps (spin_pingpong B x) Calm s es t ∧ t.Going ∧ t.mem = mem' ∧
      t.loc = Function.update s.loc w l' := by
  induction h with
  | done =>
    intro s hs hmem hl
    exact ⟨s, .refl, hs, hmem, by rw [← hl, Function.update_eq_self]⟩
  | @step c mem l o es es' hc ho hf he _ ih =>
    intro s hs hmem hl
    subst he hmem hl
    obtain ⟨t, ht, htg, htm, htl⟩ := hs.act (x := x) hc ho hf
    obtain ⟨u, hu, hug, hum, hul⟩ := ih htg htm (by simp [htl])
    exact ⟨u, ht.trans hu, hug, hum, by rw [hul, htl, Function.update_idem]⟩

/-! ## §2 Event by event

A relay may read its clock any number of times before it sends, and record a leg
only after the message was taken. A method stands ready for every next event
(`Stands`), and gets there by its own steps. What the process looks like at each
stage of the relay is `Follows`. -/

/-- How a method shows the relay's events. `Rest m` is its memory before
message `m`, `Held m` while the sender has the message in hand, `Sent m v`
while it is in flight, and `Taken m` until its leg is recorded. -/
structure Replay (B : Body Mem At) (x : Worker) where
  rdtsc : At
  store : At
  record : At
  Rest : Nat → Mem → Prop
  Held : Nat → Mem → Prop
  Sent : Nat → UInt64 → Mem → Prop
  Taken : Nat → Mem → Prop
  start : ∃ m₀ m₁, B.setup false {} B.mem0 = .ok m₀ ∧
    B.setup true {} m₀ = .ok m₁ ∧ Rest 0 m₁
  prepare : ∀ {mem} {r : Regs}, Rest r.i mem → r.i < x.n.toNat →
    ∃ mem', Acts B x (turn r.i) mem' ⟨.body rdtsc, r⟩ [] mem ⟨.head, r⟩ ∧
      Held r.i mem'
  clock : ∀ {w c mem r},
    B.step w c mem r rdtsc = some (fenced_rdtsc w c mem r rdtsc store)
  send : ∀ {mem} {r : Regs}, Held r.i mem →
    ∃ mem', Acts B x (turn r.i) mem' ⟨.head, { r with i := r.i + 1 }⟩
      [.send (turn r.i) r.t] mem
      ⟨.body store, r⟩ ∧ Sent r.i r.t mem'
  recv : ∀ {v mem} {r : Regs}, Sent r.i v mem → r.i < x.n.toNat → r.tsc < v →
    ∃ mem', Acts B x (!turn r.i) mem' ⟨.body record, { r with t := v }⟩
      [.recv (!turn r.i) v] mem
      ⟨.head, r⟩ ∧ Taken r.i mem'
  leg : ∀ {now mem} {r : Regs}, Taken r.i mem →
    ∃ mem', Acts B x (!turn r.i) mem' ⟨.head, { r.record now with i := r.i + 1 }⟩
      [.leg (!turn r.i) r.ds.length r.t now] mem ⟨.body record, r⟩ ∧
        Rest (r.i + 1) mem'

/-- Where the sender `S` and the receiver `R` of message `m` stand. -/
def Replay.Stands {B : Body Mem At} {x : Worker} (C : Replay B x) (m : Nat)
    (mem : Mem) (S R : Local At) : Stage UInt64 → Prop
  | .ready => (R.ctl = .head ∧ R.regs.i = m) ∧ S.regs.i = m ∧
      (S.ctl = .head ∧ C.Rest m mem ∨ S.ctl = .body C.rdtsc ∧ C.Held m mem)
  | .armed v => (R.ctl = .head ∧ R.regs.i = m) ∧ S.regs.i = m ∧
      S.ctl = .body C.store ∧ S.regs.t = v ∧ C.Held m mem
  | .flight v => (R.ctl = .head ∧ R.regs.i = m) ∧ S.regs.i = m + 1 ∧
      S.ctl = .head ∧ C.Sent m v mem
  | .taken v => (R.ctl = .body C.record ∧ R.regs.i = m) ∧ S.regs.i = m + 1 ∧
      S.ctl = .head ∧ R.regs.t = v ∧ C.Taken m mem

/-- Both workers are where the relay is. -/
structure Replay.Follows {B : Body Mem At} {x : Worker} (C : Replay B x)
    (a : Relay.State UInt64) (s : State Mem At) : Prop where
  going : s.Going
  stands : C.Stands a.m s.mem (s.loc (turn a.m)) (s.loc (!turn a.m)) a.stage
  tsc : (s.loc (turn a.m)).regs.tsc = a.last
  tsc_le : (s.loc (!turn a.m)).regs.tsc ≤ a.last
  index : (s.loc (!turn a.m)).regs.ds.length = a.m / 2
  next_index : (s.loc (turn a.m)).regs.ds.length = (a.m + 1) / 2
  above : ∀ v, a.stage.stamp? = some v → a.last < v
  bound : a.stage ≠ .ready → a.m < x.n.toNat

section Follows

variable {B : Body Mem At} {x : Worker} {C : Replay B x} {s : State Mem At}
  {m : Nat} {last v c : UInt64} {r : Regs} {w : Tid}

/-- A clock value that is not above `tsc` is read again. -/
theorem Replay.retry (C : Replay B x) (mem : Mem) (hc : c ≤ r.tsc) :
    Acts B x w mem ⟨.body C.rdtsc, r⟩ [.clock w c] mem ⟨.body C.rdtsc, r⟩ := by
  have hgo : B.step w { clock := c } mem r C.rdtsc = some
      { mem, regs := r, next := .goto C.rdtsc, ev := [.clock w c] } := by
    rw [C.clock]
    simp [fenced_rdtsc, hc]
  exact .goto ⟨rfl, rfl⟩ hgo rfl rfl .done

/-- One above it is taken. -/
theorem Replay.arm (C : Replay B x) (mem : Mem) (hc : r.tsc < c) :
    Acts B x w mem ⟨.body C.store,
      { r with t := c }⟩ [.clock w c] mem ⟨.body C.rdtsc, r⟩ := by
  have hgo : B.step w { clock := c } mem r C.rdtsc = some
      { mem, regs := { r with t := c }, next := .goto C.store,
        ev := [.clock w c] } := by
    rw [C.clock]
    simp [fenced_rdtsc, not_le.mpr hc]
  exact .goto ⟨rfl, rfl⟩ hgo rfl rfl .done

/-- A worker moves on its own, and the other stays where it is. -/
theorem Acts.next {mem' : Mem} {l' : Local At} {es : List Event}
    (h : Acts B x w mem' l' es s.mem (s.loc w)) (hs : s.Going) :
    ∃ t, Steps (spin_pingpong B x) Calm s es t ∧ t.Going ∧ t.mem = mem' ∧
      t.loc w = l' ∧
      t.loc (!w) = s.loc (!w) := by
  obtain ⟨t, ht, hg, hm, hl⟩ := h.steps hs rfl rfl
  exact ⟨t, ht, hg, hm, by rw [hl, Function.update_self],
    by rw [hl, Function.update_of_ne (by simp)]⟩

/-- Before message `m` its sender gets to its clock. -/
theorem Replay.Follows.poised (hF : C.Follows ⟨m, last, .ready⟩ s)
    (hm : m < x.n.toNat) :
    ∃ t, Steps (spin_pingpong B x) Calm s [] t ∧ C.Follows ⟨m, last, .ready⟩ t ∧
      (t.loc (turn m)).ctl = .body C.rdtsc ∧ C.Held m t.mem := by
  obtain ⟨hgoing, ⟨hR, hi, hS⟩, htsc, hle, hidx, hnext, habove, hbound⟩ := hF
  dsimp only at hR hi hS htsc hle hidx hnext
  rcases hS with ⟨hctl, hrest⟩ | ⟨hctl, hheld⟩
  · have hloc : s.loc (turn m) = ⟨.head, (s.loc (turn m)).regs⟩ := by
      rw [← hctl]
    obtain ⟨mem', hacts, hheld⟩ :=
      C.prepare (r := (s.loc (turn m)).regs) (hi ▸ hrest)
      (by rw [hi]; exact hm)
    rw [hi, ← hloc] at hacts
    obtain ⟨t, ht, hg, hmem, hl, hother⟩ := hacts.next hgoing
    rw [hi] at hheld
    refine ⟨t, ht, ⟨hg, ⟨by rw [hother]; exact hR, by rw [hl]; exact hi,
      .inr ⟨by rw [hl], hmem ▸ hheld⟩⟩,
      by rw [hl]; exact htsc, by rw [hother]; exact hle,
      by rw [hother]; exact hidx, by rw [hl]; exact hnext, habove, hbound⟩,
      by rw [hl], hmem ▸ hheld⟩
  · exact ⟨s, .refl,
      ⟨hgoing, ⟨hR, hi, .inr ⟨hctl, hheld⟩⟩, htsc, hle, hidx, hnext, habove,
      hbound⟩, hctl, hheld⟩

/-- The sender reads its clock. -/
theorem Replay.Follows.clock (hF : C.Follows ⟨m, last, .ready⟩ s)
    (hm : m < x.n.toNat) (c : UInt64) :
    ∃ t, Steps (spin_pingpong B x) Calm s [.clock (turn m) c] t ∧
      C.Follows ⟨m, last, if last < c then .armed c else .ready⟩ t := by
  obtain ⟨u, hu, hFu, hctl, hheld⟩ := hF.poised hm
  obtain ⟨hgoing, ⟨hR, hi, -⟩, htsc, hle, hidx, hnext, -, -⟩ := hFu
  dsimp only at hR hi htsc hle hidx hnext
  have hloc : u.loc (turn m) = ⟨.body C.rdtsc, (u.loc (turn m)).regs⟩ := by
    rw [← hctl]
  by_cases hc : last < c
  · have hacts := C.arm u.mem (w := turn m) (htsc.symm ▸ hc)
    rw [← hloc] at hacts
    obtain ⟨t, ht, hg, hmem, hl, hother⟩ := hacts.next hgoing
    refine ⟨t, hu.trans ht, hg, ?_, by rw [hl]; exact htsc, by rw [hother]; exact hle,
      by rw [hother]; exact hidx, by rw [hl]; exact hnext, ?_, fun _ => hm⟩
    · simp only [if_pos hc]
      exact ⟨by rw [hother]; exact hR, by rw [hl]; exact hi, by rw [hl], by rw [hl],
        hmem ▸ hheld⟩
    · simpa [if_pos hc, Stage.stamp?] using hc
  · have hacts := C.retry u.mem (w := turn m) (htsc.symm ▸ not_lt.mp hc)
    rw [← hloc] at hacts
    obtain ⟨t, ht, hg, hmem, hl, hother⟩ := hacts.next hgoing
    refine ⟨t, hu.trans ht, hg, ?_, by rw [hl]; exact htsc, by rw [hother]; exact hle,
      by rw [hother]; exact hidx, by rw [hl]; exact hnext, ?_, fun _ => hm⟩
    · simp only [if_neg hc]
      exact ⟨by rw [hother]; exact hR, by rw [hl]; exact hi,
        .inr ⟨by rw [hl]; exact hctl, hmem ▸ hheld⟩⟩
    · simp [if_neg hc, Stage.stamp?]

/-- The sender hands the message over. -/
theorem Replay.Follows.send (hF : C.Follows ⟨m, last, .armed v⟩ s) :
    ∃ t, Steps (spin_pingpong B x) Calm s [.send (turn m) v] t ∧
      C.Follows ⟨m, last, .flight v⟩ t := by
  obtain ⟨hgoing, ⟨hR, hi, hctl, hv, hheld⟩, htsc, hle, hidx, hnext, habove,
    hbound⟩ := hF
  dsimp only at hR hi hctl hv hheld htsc hle hidx hnext
  have hloc : s.loc (turn m) = ⟨.body C.store, (s.loc (turn m)).regs⟩ := by
    rw [← hctl]
  obtain ⟨mem', hacts, hsent⟩ :=
    C.send (r := (s.loc (turn m)).regs) (hi ▸ hheld)
  rw [hi, hv, ← hloc] at hacts
  rw [hi, hv] at hsent
  obtain ⟨t, ht, hg, hmem, hl, hother⟩ := hacts.next hgoing
  refine ⟨t, ht, hg, ⟨by rw [hother]; exact hR, by rw [hl], by rw [hl], hmem ▸ hsent⟩,
    by rw [hl]; exact htsc, by rw [hother]; exact hle, by rw [hother]; exact hidx,
    by rw [hl]; exact hnext, habove, fun _ => hbound (by simp)⟩

/-- The receiver takes it. -/
theorem Replay.Follows.recv (hF : C.Follows ⟨m, last, .flight v⟩ s) :
    ∃ t, Steps (spin_pingpong B x) Calm s [.recv (!turn m) v] t ∧
      C.Follows ⟨m, last, .taken v⟩ t := by
  obtain ⟨hgoing, ⟨⟨hctl, hRi⟩, hi, hS, hsent⟩, htsc, hle, hidx, hnext, habove,
    hbound⟩ := hF
  dsimp only at hctl hRi hi hS hsent htsc hle hidx hnext
  have hloc : s.loc (!turn m) = ⟨.head, (s.loc (!turn m)).regs⟩ := by
    rw [← hctl]
  have hlt : (s.loc (!turn m)).regs.tsc < v := lt_of_le_of_lt hle (habove v rfl)
  obtain ⟨mem', hacts, htaken⟩ :=
    C.recv (r := (s.loc (!turn m)).regs) (hRi ▸ hsent)
    (by rw [hRi]; exact hbound (by simp)) hlt
  rw [hRi, ← hloc] at hacts
  rw [hRi] at htaken
  obtain ⟨t, ht, hg, hmem, hl, hother⟩ := hacts.next hgoing
  rw [Bool.not_not] at hother
  refine ⟨t, ht, hg, ⟨⟨by rw [hl], by rw [hl]⟩, by rw [hother]; exact hi,
    by rw [hother]; exact hS, by rw [hl], hmem ▸ htaken⟩,
    by rw [hother]; exact htsc,
    by rw [hl]; exact hle, by rw [hl]; exact hidx, by rw [hother]; exact hnext, habove,
    fun _ => hbound (by simp)⟩

/-- The receiver records its leg, and is the next sender. -/
theorem Replay.Follows.leg (hF : C.Follows ⟨m, last, .taken v⟩ s)
    (now : UInt64) :
    ∃ t, Steps (spin_pingpong B x) Calm s [.leg (!turn m) (m / 2) v now] t ∧
      C.Follows ⟨m + 1, v, .ready⟩ t := by
  obtain ⟨hgoing, ⟨⟨hctl, hRi⟩, hi, hS, hv, htaken⟩, htsc, hle, hidx, hnext,
    habove, hbound⟩ := hF
  dsimp only at hctl hRi hi hS hv htaken htsc hle hidx hnext
  have hloc : s.loc (!turn m) = ⟨.body C.record, (s.loc (!turn m)).regs⟩ := by
    rw [← hctl]
  obtain ⟨mem', hacts, hrest⟩ :=
    @C.leg now _ (s.loc (!turn m)).regs (hRi ▸ htaken)
  rw [hRi, hidx, hv, ← hloc] at hacts
  rw [hRi] at hrest
  obtain ⟨t, ht, hg, hmem, hl, hother⟩ := hacts.next hgoing
  rw [Bool.not_not] at hother
  refine ⟨t, ht, hg, ?_, ?_, ?_, ?_, ?_, by simp [Stage.stamp?], by simp⟩
  all_goals simp only [turn_succ, Bool.not_not, hl, hother]
  · exact ⟨⟨hS, hi⟩, rfl, .inl ⟨rfl, hmem ▸ hrest⟩⟩
  · exact hv
  · exact htsc ▸ le_of_lt (habove v rfl)
  · exact hnext
  · simp only [Regs.record, List.length_append, List.length_singleton, hidx]
    omega

/-- **Whatever the relay does next, the workers can show.** -/
theorem Replay.Follows.next {a b : Relay.State UInt64} {e : Event}
    (hF : C.Follows a s) (he : Relay.next x.n.toNat a e = some b) :
    ∃ t, Steps (spin_pingpong B x) Calm s [e] t ∧ C.Follows b t := by
  cases (next_iff _ _ _ _).mp he with
  | @retry m last c hm hc =>
    obtain ⟨t, ht, hFt⟩ := hF.clock hm c
    rw [if_neg (not_lt.mpr hc)] at hFt
    exact ⟨t, ht, hFt⟩
  | @arm m last c hm hc =>
    obtain ⟨t, ht, hFt⟩ := hF.clock hm c
    rw [if_pos hc] at hFt
    exact ⟨t, ht, hFt⟩
  | send => exact hF.send
  | recv => exact hF.recv
  | leg => exact hF.leg _

end Follows

/-! ## §3 The methods

For each method the memory at rest and the steps for each event. The proofs are
runs of the branches, evaluated step by step. -/

/-- Cells: the receiver tests when the message is there. -/
def spinReplay (p : Nat) (x : Worker) : Replay (spinBody p x) x where
  rdtsc := .rdtsc
  store := .store
  record := .rdtscp
  Rest _ _ := True
  Held _ _ := True
  Sent m v mem := mem (!turn m) = v
  Taken _ _ := True
  start := (spinCycle p x).start
  prepare {mem _} _ hi := ⟨mem, .send hi rfl (.pause rfl .done), trivial⟩
  clock := rfl
  send {mem r} _ := by
    refine ⟨Function.update mem (!turn r.i) r.t, ?_, by simp⟩
    exact .ended (c := {}) ⟨rfl, rfl⟩ rfl rfl rfl .done
  recv {v mem r} hs hi ht := by
    subst hs
    refine ⟨mem, .recv hi (not_turn _) ?_, trivial⟩
    exact .goto (c := {}) ⟨rfl, rfl⟩ (if_pos ht) rfl rfl .done
  leg {now mem _} _ :=
    ⟨mem, .ended (c := { clock := now }) ⟨rfl, rfl⟩ rfl rfl rfl .done, trivial⟩

/-- Pipes: the receiver reads when the message is there. -/
def pipeReplay (x : Worker) : Replay (pipe_main x) x where
  rdtsc := .rdtsc
  store := .write
  record := .rdtscp
  Rest _ mem := ∀ v, mem v = some []
  Held _ mem := ∀ v, mem v = some []
  Sent m v mem := mem (turn m) = some [] ∧ mem (!turn m) = some [v]
  Taken _ mem := ∀ v, mem v = some []
  start := (pipeCycle x).start
  prepare {mem _} hrest hi := ⟨mem, .send hi rfl (.pause rfl .done), hrest⟩
  clock := rfl
  send {mem r} hheld := by
    refine ⟨Function.update mem (!turn r.i) (some [r.t]), ?_, by simp [hheld]⟩
    exact .ended (c := {}) ⟨rfl, rfl⟩ (by simp [pipe_main, hheld]; rfl) rfl rfl .done
  recv {v mem r} hs hi _ := by
    refine ⟨Function.update mem (!turn r.i) (some []), .recv hi (not_turn _) ?_,
      fun u => ?_⟩
    · exact .goto (c := {}) ⟨rfl, rfl⟩ (by simp [pipe_main, hs.2]; rfl) rfl rfl .done
    · by_cases hu : u = turn r.i
      · simp [hu, hs.1]
      · obtain rfl : u = !turn r.i := by simpa [Bool.eq_not] using hu
        simp
  leg {now mem _} htaken :=
    ⟨mem, .ended (c := { clock := now }) ⟨rfl, rfl⟩ rfl rfl rfl .done, htaken⟩

/-- Semaphores: a worker waits when its value is 1. -/
def semReplay (x : Worker) : Replay (semaphore_main x) x where
  rdtsc := .rdtsc
  store := .write
  record := .rdtscp
  Rest m mem := mem.sem (turn m) = some 1 ∧ mem.sem (!turn m) = some 0
  Held m mem := mem.sem (turn m) = some 0 ∧ mem.sem (!turn m) = some 0
  Sent m v mem := mem.sem (turn m) = some 0 ∧ mem.sem (!turn m) = some 1 ∧
    mem.tsc (!turn m) = v
  Taken m mem := mem.sem (turn m) = some 0 ∧ mem.sem (!turn m) = some 0
  start := (semCycle x).start
  prepare {mem r} hrest hi := by
    refine ⟨⟨Function.update mem.sem (turn r.i) (some 0), mem.tsc⟩, .send hi rfl ?_,
      by simp [hrest.2]⟩
    exact .goto (c := {}) ⟨rfl, rfl⟩
      (by simp [semaphore_main, sem_wait, hrest.1]; rfl) rfl rfl
      (.pause rfl .done)
  clock := rfl
  send {mem r} hheld := by
    refine ⟨⟨Function.update mem.sem (!turn r.i) (some 1),
        Function.update mem.tsc (!turn r.i) r.t⟩,
      .goto (c := {}) ⟨rfl, rfl⟩ rfl rfl rfl ?_, by simp [hheld.1]⟩
    exact .ended (c := {}) ⟨rfl, rfl⟩
      (by simp [semaphore_main, sem_post, hheld.2]; rfl) rfl rfl
      .done
  recv {v mem r} hs hi _ := by
    obtain ⟨hS, hR, rfl⟩ := hs
    refine ⟨⟨Function.update mem.sem (!turn r.i) (some 0), mem.tsc⟩,
      .recv hi (not_turn _) ?_,
      by simp [hS]⟩
    refine .goto (c := {}) ⟨rfl, rfl⟩
      (by simp [semaphore_main, sem_wait, hR]; rfl) rfl rfl ?_
    exact .goto (c := {}) ⟨rfl, rfl⟩ rfl rfl rfl .done
  leg {now mem r} htaken := by
    refine ⟨⟨Function.update mem.sem (!turn r.i) (some 1), mem.tsc⟩,
      .goto (c := { clock := now }) ⟨rfl, rfl⟩ rfl rfl rfl ?_,
      by simp [htaken.1]⟩
    exact .ended (c := {}) ⟨rfl, rfl⟩
      (by simp [semaphore_main, sem_post, htaken.2]; rfl) rfl rfl
      .done

/-- Futexes: a worker locks when its futex is free, so nobody sleeps. -/
def futexReplay (x : Worker) : Replay (futex_main x) x where
  rdtsc := .rdtsc
  store := .write
  record := .rdtscp
  Rest m mem :=
    mem.futex (turn m) = 0 ∧ mem.futex (!turn m) = 1 ∧ ∀ v, mem.queue v = []
  Held m mem :=
    mem.futex (turn m) = 1 ∧ mem.futex (!turn m) = 1 ∧ ∀ v, mem.queue v = []
  Sent m v mem :=
    mem.futex (turn m) = 1 ∧ mem.futex (!turn m) = 0 ∧ mem.tsc (!turn m) = v ∧
    ∀ v, mem.queue v = []
  Taken m mem :=
    mem.futex (turn m) = 1 ∧ mem.futex (!turn m) = 1 ∧ ∀ v, mem.queue v = []
  start := (futexCycle x).start
  prepare {mem r} hrest hi := by
    obtain ⟨hS, hR, hq⟩ := hrest
    refine ⟨⟨Function.update mem.futex (turn r.i) 1, mem.tsc, mem.queue⟩,
      .send hi rfl ?_,
      by simp [hR, hq]⟩
    exact .goto (c := {}) ⟨rfl, rfl⟩ (by simp [futex_main, futex_cas, hS]; rfl) rfl rfl
      (.pause rfl .done)
  clock := rfl
  send {mem r} hheld := by
    obtain ⟨hS, hR, hq⟩ := hheld
    refine ⟨⟨Function.update mem.futex (!turn r.i) 0,
        Function.update mem.tsc (!turn r.i) r.t, mem.queue⟩,
      .goto (c := {}) ⟨rfl, rfl⟩ rfl rfl rfl ?_, by simp [hS, hq]⟩
    refine .goto (c := {}) ⟨rfl, rfl⟩
      (by simp [futex_main, futex_unlock, Role.target, hR]; rfl) rfl rfl ?_
    exact .ended (c := {}) ⟨rfl, rfl⟩
      (congrArg some (futex_wake_idle (hq _))) rfl rfl .done
  recv {v mem r} hs hi _ := by
    obtain ⟨hS, hR, rfl, hq⟩ := hs
    refine ⟨⟨Function.update mem.futex (!turn r.i) 1, mem.tsc, mem.queue⟩,
      .recv hi (not_turn _) ?_, by simp [hS, hq]⟩
    refine .goto (c := {}) ⟨rfl, rfl⟩
      (by simp [futex_main, futex_cas, hR]; rfl) rfl rfl ?_
    exact .goto (c := {}) ⟨rfl, rfl⟩ rfl rfl rfl .done
  leg {now mem r} htaken := by
    obtain ⟨hS, hR, hq⟩ := htaken
    refine ⟨⟨Function.update mem.futex (!turn r.i) 0, mem.tsc, mem.queue⟩,
      .goto (c := { clock := now }) ⟨rfl, rfl⟩ rfl rfl rfl ?_, by simp [hS, hq]⟩
    refine .goto (c := {}) ⟨rfl, rfl⟩
      (by simp [futex_main, futex_unlock, Role.target, hR]; rfl) rfl rfl ?_
    exact .ended (c := {}) ⟨rfl, rfl⟩
      (congrArg some (futex_wake_idle (hq _))) rfl rfl .done

/-- Condition variables: the receiver locks when the message is there, so nobody
sleeps. -/
def cvReplay (x : Worker) : Replay (cv_main x) x where
  rdtsc := .rdtsc
  store := .sendLock
  record := .recvUnlock
  Rest _ mem := ∀ v, mem.mutex v = none ∧ mem.queue v = []
  Held _ mem := ∀ v, mem.mutex v = none ∧ mem.queue v = []
  Sent m v mem :=
    mem.tsc (!turn m) = v ∧ ∀ v, mem.mutex v = none ∧ mem.queue v = []
  Taken m mem := ∃ mutex : Tid → Option Tid, (∀ v, mutex v = none) ∧
    mem.mutex = Function.update mutex (!turn m) (some (!turn m)) ∧
      ∀ v, mem.queue v = []
  start := (cvCycle x).start
  prepare {mem _} hrest hi := ⟨mem, .send hi rfl (.pause rfl .done), hrest⟩
  clock := rfl
  send {mem r} hheld := by
    refine ⟨⟨mem.mutex, mem.queue, Function.update mem.tsc (!turn r.i) r.t⟩, ?_,
      by simpa using hheld⟩
    refine .goto (c := {}) ⟨rfl, rfl⟩
      (by simp [cv_main, pthread_mutex_lock, (hheld _).1]; rfl) rfl rfl ?_
    refine .goto (c := {}) ⟨rfl, rfl⟩ rfl rfl rfl ?_
    refine .goto (c := {}) ⟨rfl, rfl⟩
      (congrArg some (pthread_mutex_unlock_locked (hheld _).1 _)) rfl rfl ?_
    exact .ended (c := {}) ⟨rfl, rfl⟩
      (congrArg some (pthread_cond_signal_idle (hheld _).2)) rfl
      rfl .done
  recv {v mem r} hs hi ht := by
    obtain ⟨rfl, hfree⟩ := hs
    refine ⟨⟨Function.update mem.mutex (!turn r.i) (some (!turn r.i)),
      mem.queue, mem.tsc⟩, .recv hi (not_turn _) ?_, mem.mutex,
      fun v => (hfree v).1, rfl, fun v => (hfree v).2⟩
    refine .goto (c := {}) ⟨rfl, rfl⟩
      (by simp [cv_main, pthread_mutex_lock, (hfree _).1]; rfl) rfl rfl ?_
    refine .goto (c := {}) ⟨rfl, rfl⟩ (by simp [cv_main, not_le.mpr ht]; rfl) rfl rfl ?_
    exact .goto (c := {}) ⟨rfl, rfl⟩ rfl rfl rfl .done
  leg {now mem r} htaken := by
    obtain ⟨mutex, hfree, hmutex, hq⟩ := htaken
    obtain ⟨_, queue, tsc⟩ := mem
    subst hmutex
    refine ⟨⟨mutex, queue, tsc⟩, ?_, fun v => ⟨hfree v, hq v⟩⟩
    have hunlock :=
      @pthread_mutex_unlock_locked (!turn r.i) ⟨mutex, queue, tsc⟩ r (!turn r.i)
    refine .goto (c := {}) ⟨rfl, rfl⟩ (congrArg some (hunlock (hfree _) _)) rfl rfl ?_
    exact .ended (c := { clock := now }) ⟨rfl, rfl⟩ rfl rfl rfl .done

/-- Every method shows every relay. -/
def Method.replay (x : Worker) : (m : Method) → Replay (m.main x).body x
  | .METHOD_SPIN => spinReplay _ x
  | .METHOD_SPIN_PAUSE => spinReplay _ x
  | .METHOD_SPIN_PAUSE_MORE => spinReplay _ x
  | .METHOD_COND_VAR => cvReplay x
  | .METHOD_PIPE => pipeReplay x
  | .METHOD_FUTEX => futexReplay x
  | .METHOD_SEMAPHORE => semReplay x

/-! ## §4 Histories

The runs begin with the creation of the threads and the gate, of which no event
is shown. The theorem compares three sets of histories; two inclusions are
trivial, and the others are `Protocol.refines` and `Replay.shows`. -/

section histories

variable {B : Body Mem At} {x : Worker}

/-- A worker goes through the gate. -/
theorem Acts.gate {w : Tid} {mem : Mem} :
    Acts B x w mem ⟨.head, {}⟩ [] mem {} :=
  .step (c := {}) (o := { mem, loc := ⟨.gate, {}⟩ }) ⟨rfl, rfl⟩ rfl rfl rfl
    (.step (c := {}) (o := { mem, loc := ⟨.head, {}⟩ }) ⟨rfl, rfl⟩ rfl rfl rfl .done)

/-- Before the first message. -/
theorem Replay.first (C : Replay B x) :
    ∃ s, Run (spin_pingpong B x) Calm [] s ∧ C.Follows (Relay.start 1) s := by
  obtain ⟨m₀, m₁, h₀, h₁, hrest⟩ := C.start
  obtain ⟨s, hs, hg, hmem, hloc⟩ := start_run (x := x) h₀ h₁
  obtain ⟨t, ht, htg, htm, htl⟩ := Acts.gate.steps hg hmem (hloc false)
  obtain ⟨u, hu, hug, hum, hul⟩ :=
    Acts.gate.steps (w := true) htg htm (by simp [htl, hloc])
  have hfin : ∀ w, u.loc w = ⟨.head, {}⟩ := by
    intro w
    cases w <;> simp [hul, htl]
  refine ⟨u, (hs.trans ht).trans hu, hug, ?_, ?_, ?_, ?_, ?_, ?_, ?_⟩
  all_goals simp only [hfin, Relay.start]
  · exact ⟨⟨rfl, rfl⟩, rfl, .inl ⟨rfl, hum ▸ hrest⟩⟩
  · exact le_refl _
  · rfl
  · rfl
  · simp [Stage.stamp?]
  · simp

/-- **Whatever a relay shows, the workers can show**, with every call
succeeding. -/
theorem Replay.shows (C : Replay B x) {h : List Event} {a : Relay.State UInt64}
    (ha : Accepts x.n.toNat 1 h a) :
    ∃ s, Run (spin_pingpong B x) Calm h s ∧ C.Follows a s := by
  obtain ⟨s, hs, hF⟩ := C.first
  obtain ⟨t, ht, hFt⟩ :=
    Monitor.shown (R := C.Follows) (fun hF he => hF.next he) hF ha
  exact ⟨t, hs.trans ht, hFt⟩

end histories

/-- **The histories of every method** are those of a relay of `n` messages, no
matter which calls fail, what wakes up spuriously, and how long the workers
pause. So no two methods differ in what they can show. -/
theorem histories_iff (m : Method) (x : Worker) (h : List Event) :
    ((∃ s, Run (spin_pingpong (m.main x).body x) Any h s) ↔
      ∃ a, Accepts x.n.toNat 1 h a) ∧
      ((∃ s, Run (spin_pingpong (m.main x).body x) Calm h s) ↔
        ∃ a, Accepts x.n.toNat 1 h a) := by
  have hshow : (∃ a, Accepts x.n.toNat 1 h a) →
      ∃ s, Run (spin_pingpong (m.main x).body x) Calm h s := by
    rintro ⟨a, ha⟩
    obtain ⟨s, hs, -⟩ := (m.replay x).shows ha
    exact ⟨s, hs⟩
  have hread : ∀ {ok s}, Run (spin_pingpong (m.main x).body x) ok h s →
      ∃ a, Accepts x.n.toNat 1 h a := by
    intro ok s hs
    obtain ⟨a, ha, -⟩ := (m.protocol x).refines hs
    exact ⟨a, ha⟩
  constructor
  · constructor
    · rintro ⟨s, hs⟩
      exact hread hs
    · intro ha
      obtain ⟨s, hs⟩ := hshow ha
      exact ⟨s, hs.mono fun _ _ _ => trivial⟩
  · constructor
    · rintro ⟨s, hs⟩
      exact hread hs
    · exact hshow

end Osjitter.Pingpong
