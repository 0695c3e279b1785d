/-
Osjitter.Pingpong.Protocol — every method refines the relay, given an
invariant of its shared memory.

  §1 A `Protocol` is what a method has to prove: its branches are lawful,
     and an invariant of its memory is kept by its steps and makes receipts
     right. Two ways of handing over a timestamp are prepared: cells that the
     receiver compares with its last one (`Stamped`), and a token in slots
     (`grips`).
  §2 `Protocol.Holds` extends this to the process: before the gate opens
     nothing has been relayed. `MainCase` are the steps of the main thread, and
     `Protocol.Holds.step` is the step lemma. `Protocol.refines` then holds of
     every run, whatever calls fail in it: the relay reads its history, and is
     where the workers are. `Protocol.invariant` is the induction rule for
     further properties.
  §3 `Protocol.ds_eq`: what a worker has in `ds` are the deltas of the legs
     that the relay read.
  §4 `Protocol.sum_ds_eq`: their sum is that of the cycles under way, each cut
     to 32 bits.

The relay is sequential, so all that follows of its histories (`Lib.Relay`)
holds of the two threads in every interleaving.
-/
import Osjitter.Lib.Token
import Osjitter.Pingpong.WorkerTheorems

namespace Osjitter.Pingpong

open Machines Relay

variable {Mem At : Type}

/-! ## §1 Protocols

`Protocol B` is the obligation of a method: an invariant of the memory and the
workers that every step of a branch keeps, from which a receipt carries what was
sent. Two families of invariants are prepared for the methods: `Stamped`, for
cells whose timestamps say by their order whether they are new, and `grips`, for
a token that a worker has in its hand. -/

/-- Two workers in order, linked to the relay. -/
structure Good (ph : At → Phase) (n : Nat) (loc : Tid → Local At)
    (a : Relay.State UInt64) : Prop where
  ok : ∀ w, LocOk n w ((loc w).view ph)
  linked : Linked (fun w => ((loc w).view ph).sig) a

/-- A worker that has not passed the gate. -/
def Fresh (l : Local At) : Prop :=
  (l.ctl = .calloc ∨ l.ctl = .gate) ∧ l.regs = {}

/-- A fresh worker is in front of its loop. -/
theorem Fresh.view {l : Local At} (h : Fresh l) (ph : At → Phase) :
    l.view ph = (.out, {}) := by
  obtain ⟨hc | hc, hr⟩ := h <;> simp [Local.view, hc, hr, Ctl.stand]

/-- Two fresh workers and the relay before its first message. -/
theorem Good.fresh {ph : At → Phase} {n : Nat} {loc : Tid → Local At}
    (h : ∀ w, Fresh (loc w)) : Good ph n loc (start 1) where
  ok w := by
    rw [(h w).view ph]
    rfl
  linked := Linked.start fun w => by rw [(h w).view ph]; rfl

/-- A worker's move whose events the relay reads keeps both in order. -/
theorem Good.move {ph : At → Phase} {n : Nat} {loc : Tid → Local At}
    {a b : Relay.State UInt64} {w : Tid} {l : Local At} {ev : List Event}
    (h : Good ph n loc a)
    (hmove : StandMove n w ((loc w).ctl.stand ph) (loc w).regs
      (l.ctl.stand ph) l.regs ev)
    (hread : Monitor.read (next n) ev a = some b) :
    Good ph n (Function.update loc w l) b := by
  constructor
  · intro v
    by_cases hv : v = w
    · subst hv
      rw [Function.update_self]
      exact (h.ok v).move hmove
    · rw [Function.update_of_ne hv]
      exact h.ok v
  · have hfun : (fun v => ((Function.update loc w l v).view ph).sig) =
        Function.update (fun v => ((loc v).view ph).sig) w (l.view ph).sig := by
      funext v
      by_cases hv : v = w
      · subst hv; simp
      · simp [Function.update_of_ne hv]
    rw [hfun]
    exact h.linked.move hmove.sig hread

/-- What a worker in a branch says about the relay. -/
theorem Good.where {ph : At → Phase} {n : Nat} {loc : Tid → Local At}
    {a : Relay.State UInt64} (h : Good ph n loc a) {w : Tid} {b : At}
    (hc : (loc w).ctl = .body b) : Where w (loc w).regs a (ph b) := by
  have hv : (loc w).view ph = (.body (ph b), (loc w).regs) := by
    simp [Local.view, hc, Ctl.stand]
  exact h.linked.where (hv ▸ h.ok w) (by rw [hv])

/-- The last timestamp of a worker. -/
theorem View.sig_tsc (v : View) : v.sig.tsc = v.2.tsc := by
  obtain ⟨st, r⟩ := v
  cases st with
  | body p => cases p <;> rfl
  | _ => rfl

/-- The sender knows the last timestamp exchanged. -/
theorem Good.tsc_turn {ph : At → Phase} {n : Nat} {loc : Tid → Local At}
    {a : Relay.State UInt64} (h : Good ph n loc a) :
    (loc (turn a.m)).regs.tsc = a.last := by
  have hs := congrArg Sig.tsc h.linked.sender
  rwa [View.sig_tsc] at hs

/-- Nobody is ahead of it. -/
theorem Good.tsc_le {ph : At → Phase} {n : Nat} {loc : Tid → Local At}
    {a : Relay.State UInt64} (h : Good ph n loc a) (w : Tid) :
    (loc w).regs.tsc ≤ a.last := by
  by_cases hw : w = turn a.m
  · subst hw
    exact le_of_eq h.tsc_turn
  · obtain rfl : w = !turn a.m := by simpa [Bool.eq_not] using hw
    have hs := h.linked.tsc
    rwa [View.sig_tsc] at hs

/-- A step that keeps `tsc` keeps both. -/
theorem update_tsc {loc : Tid → Local At} {w : Tid} {l : Local At}
    (hl : l.regs.tsc = (loc w).regs.tsc) (v : Tid) :
    (Function.update loc w l v).regs.tsc = (loc v).regs.tsc := by
  by_cases hv : v = w
  · subst hv
    simpa using hl
  · simp [Function.update_of_ne hv]

/-- A step that keeps it. -/
theorem Out.landing_tsc {o : Out Mem At} {l : Local At}
    (h : o.regs.tsc = l.regs.tsc) : (o.landing l).regs.tsc = l.regs.tsc := by
  unfold Out.landing
  cases o.next <;> simp [h]

/-- Timestamps handed over in cells that are never reset. What makes a stale
one harmless: the sender's cell is not above the last timestamp exchanged,
and the receiver's is not above the receiver's `tsc` until the message is
stored, and is that message from then on. -/
structure Stamped (cell : Tid → UInt64) (loc : Tid → Local At)
    (a : Relay.State UInt64) : Prop where
  stale : cell (turn a.m) ≤ a.last
  unsent : isSent a.stage = false →
    cell (!turn a.m) ≤ (loc (!turn a.m)).regs.tsc
  sent : isSent a.stage = true → a.stage.stamp? = some (cell (!turn a.m))

section Stamped

variable {cell : Tid → UInt64} {loc loc' : Tid → Local At}
  {a : Relay.State UInt64} {w : Tid} {m : Nat} {last v : UInt64}

/-- Cells of zeros. -/
theorem Stamped.start (h : ∀ w, cell w = 0) : Stamped cell loc (start 1) :=
  ⟨by rw [h]; exact UInt64.zero_le, fun _ => by rw [h]; exact UInt64.zero_le,
    by simp [isSent, Relay.start]⟩

/-- The cells only matter up to `tsc`. -/
theorem Stamped.congr (h : Stamped cell loc a)
    (htsc : ∀ v, (loc' v).regs.tsc = (loc v).regs.tsc) : Stamped cell loc' a :=
  ⟨h.stale, fun hs => by rw [htsc]; exact h.unsent hs, h.sent⟩

/-- Reading the clock changes no cell. -/
theorem Stamped.clock (h : Stamped cell loc ⟨m, last, .ready⟩)
    {stage : Stage UInt64} (hs : stage = .ready ∨ stage = .armed v) :
    Stamped cell loc ⟨m, last, stage⟩ := by
  refine ⟨h.stale, fun _ => h.unsent rfl, ?_⟩
  rcases hs with rfl | rfl <;> simp [isSent]

/-- Storing a timestamp above the last one. -/
theorem Stamped.send (h : Stamped cell loc ⟨m, last, .armed v⟩) :
    Stamped (Function.update cell (!turn m) v) loc' ⟨m, last, .flight v⟩ :=
  ⟨by simpa using h.stale, by simp [isSent], by simp [Stage.stamp?]⟩

/-- Taking it leaves the cell as it is. -/
theorem Stamped.recv (h : Stamped cell loc ⟨m, last, .flight v⟩) :
    Stamped cell loc' ⟨m, last, .taken v⟩ :=
  ⟨h.stale, by simp [isSent], fun _ => h.sent rfl⟩

/-- The next sender's cell has its own last receipt, the next receiver's is
stale. -/
theorem Stamped.leg (h : Stamped cell loc ⟨m, last, .taken v⟩)
    (hlast : (loc' (turn m)).regs.tsc = last) :
    Stamped cell loc' ⟨m + 1, v, .ready⟩ := by
  have hsent := h.sent rfl
  simp only [Stage.stamp?, Option.some.injEq] at hsent
  refine ⟨by simp [hsent], fun _ => ?_, by simp [isSent]⟩
  simpa [hlast] using h.stale

/-- A cell above `tsc` has the message in flight. -/
theorem Stamped.flight {ph : At → Phase} {n : Nat} {b : At}
    (h : Stamped cell loc a) (hg : Good ph n loc a) (hb : (loc w).ctl = .body b)
    (hph : ph b = .waiting) (ht : (loc w).regs.tsc < cell w) :
    a.stage = .flight (cell w) ∧ w = !turn a.m := by
  have hwhere := hg.where hb
  rw [hph] at hwhere
  rcases hwhere with ⟨rfl, -, hs⟩ | ⟨rfl, -, -⟩
  · cases hstage : a.stage with
    | flight v =>
      have hv := h.sent (by simp [hstage, isSent])
      simp only [hstage, Stage.stamp?, Option.some.injEq] at hv
      simp [hv]
    | taken v => simp [hstage, isTaken] at hs
    | ready | armed v =>
      exact absurd ht (not_lt.mpr (h.unsent (by simp [hstage, isSent])))
  · rw [hg.tsc_turn] at ht
    exact absurd ht (not_lt.mpr h.stale)

/-- A message in flight is above the receiver's `tsc`. -/
theorem Stamped.above {ph : At → Phase} {n : Nat} (h : Stamped cell loc a)
    (hg : Good ph n loc a) (hv : a.stage = .flight v) :
    (loc (!turn a.m)).regs.tsc < cell (!turn a.m) := by
  have hcell := h.sent (by simp [hv, isSent])
  simp only [hv, Stage.stamp?, Option.some.injEq] at hcell
  have habove : a.last < v := hg.linked.above v (by simp [hv, Stage.stamp?])
  exact hcell ▸ lt_of_le_of_lt (hg.tsc_le _) habove

end Stamped

/-- What a worker has of a token, when its branches say so. -/
def Ctl.grip (g : At → Grip) : Ctl At → Grip
  | .body b => g b
  | _ => .free

/-- The grips of both workers. -/
def grips (g : At → Grip) (loc : Tid → Local At) (w : Tid) : Grip :=
  (loc w).ctl.grip g

/-- The grip of one worker changes with its control point. -/
theorem grips_update (g : At → Grip) (loc : Tid → Local At) (w : Tid)
    (l : Local At) :
    grips g (Function.update loc w l) =
      Function.update (grips g loc) w (l.ctl.grip g) := by
  funext v
  by_cases hv : v = w
  · subst hv
    simp [grips]
  · simp [grips, Function.update_of_ne hv]

/-- Whoever has the token is in a branch. -/
theorem grips_passing {g : At → Grip} {loc : Tid → Local At} {w : Tid}
    (h : grips g loc w = .passing) :
    ∃ b, (loc w).ctl = .body b ∧ g b = .passing := by
  unfold grips at h
  cases hc : (loc w).ctl with
  | body b => exact ⟨b, rfl, by simpa [hc, Ctl.grip] using h⟩
  | _ => simp [hc, Ctl.grip] at h

/-- A step that keeps the grip keeps both. -/
theorem grips_same {g : At → Grip} {loc : Tid → Local At} {w : Tid}
    {l : Local At} (hl : l.ctl.grip g = grips g loc w) :
    grips g (Function.update loc w l) = grips g loc := by
  rw [grips_update, hl, Function.update_eq_self]

/-- A step inside a branch that keeps the grip keeps both. -/
theorem grips_goto {g : At → Grip} {loc : Tid → Local At} {w : Tid} {b k : At}
    {o : Out Mem At} (hb : (loc w).ctl = .body b) (hn : o.next = .goto k)
    (hg : g k = g b) :
    grips g (Function.update loc w (o.landing (loc w))) = grips g loc :=
  grips_same (by simp [grips, Out.landing, hn, hb, Ctl.grip, hg])

/-- Whether it is repeated or not, a reading of the clock keeps both. -/
theorem grips_rdtsc {g : At → Grip} {loc : Tid → Local At} {w : Tid} {b k : At}
    {c : Choice} {mem : Mem} {r : Regs} (hb : (loc w).ctl = .body b)
    (hg : g k = g b) :
    grips g (Function.update loc w
      ((fenced_rdtsc w c mem r b k).landing (loc w))) = grips g loc := by
  rcases fenced_rdtsc_next w c mem r b k with hn | hn
  · exact grips_goto hb hn rfl
  · exact grips_goto hb hn hg

/-- The frame never has a token. -/
theorem FrameStep.grips_eq {B : Body Mem At} {n : Nat} {w : Tid} {sw : Bool}
    {g : At → Grip} {loc : Tid → Local At} {k : Ctl At} (hs : g B.send = .free)
    (hr : g B.recv = .free) (h : FrameStep B n w sw (loc w) k) :
    grips g (Function.update loc w { loc w with ctl := k }) = grips g loc := by
  refine grips_same ?_
  cases h with
  | gate hc | head hc | finalize hc => simp [grips, hc, Ctl.grip]
  | send hc => simp [grips, hc, Ctl.grip, hs]
  | recv hc => simp [grips, hc, Ctl.grip, hr]

/-- Who has the token in its receive loop finds a message in flight to it. -/
theorem Good.reader {ph : At → Phase} {n : Nat} {loc : Tid → Local At}
    {a : Relay.State UInt64} {g : At → Grip} {slot : Tid → Nat}
    {w : Tid} {b : At} (h : Good ph n loc a) (hT : Token slot (grips g loc) a)
    (hb : (loc w).ctl = .body b) (hph : ph b = .waiting) (hg : g b = .held) :
    (∃ v, a.stage = .flight v) ∧ w = !turn a.m := by
  have hgrip : grips g loc w = .held := by simp [grips, hb, Ctl.grip, hg]
  have hwhere := h.where hb
  rw [hph] at hwhere
  rcases hwhere with ⟨rfl, -, ht⟩ | ⟨rfl, -, hs⟩
  · refine ⟨?_, rfl⟩
    cases hst : a.stage with
    | flight v => exact ⟨v, rfl⟩
    | taken v => simp [hst, isTaken] at ht
    | ready | armed v =>
      have hw :=
        hT.holder (w := !turn a.m) (by simp [hst, isSent]) (by simp [hgrip])
      simp at hw
  · rcases hT.sent hs with hp | hz
    · simp [hgrip] at hp
    · simp [hgrip] at hz

/-- What a method proves about its shared memory: an invariant `Inv` over
memory, workers and relay, established by the two slot initialisations,
kept by the frame and by the branches, that makes every receipt one of the
message in flight, never lets a branch abort, and lets it fail only when a
call does. -/
structure Protocol (B : Body Mem At) where
  ph : At → Phase
  lawful : Lawful B ph
  Inv : Mem → (Tid → Local At) → Relay.State UInt64 → Prop
  setup : ∀ {i c mem msg}, B.setup i c mem = .error msg → c.fails = true
  init : ∀ {c₀ c₁ m₀ m₁ loc}, B.setup false c₀ B.mem0 = .ok m₀ →
    B.setup true c₁ m₀ = .ok m₁ → (∀ w, Fresh (loc w)) → Inv m₁ loc (start 1)
  frame : ∀ {n sw mem loc a w k}, Good ph n loc a → Inv mem loc a →
    FrameStep B n w sw (loc w) k →
    Inv mem (Function.update loc w { loc w with ctl := k }) a
  take : ∀ {n c mem loc a w b o v}, Good ph n loc a → Inv mem loc a →
    (loc w).ctl = .body b → B.step w c mem (loc w).regs b = some o →
    o.ev = [.recv w v] → a.stage = .flight v ∧ w = !turn a.m
  keep : ∀ {n c mem loc a a' w b o}, Good ph n loc a → Inv mem loc a →
    (loc w).ctl = .body b → B.step w c mem (loc w).regs b = some o →
    Monitor.read (next n) o.ev a = some a' →
    Inv o.mem (Function.update loc w (o.landing (loc w))) a'
  sound : ∀ {n c mem loc a w b o}, Good ph n loc a → Inv mem loc a →
    (loc w).ctl = .body b → B.step w c mem (loc w).regs b = some o →
    (∀ msg, o.next ≠ .abort msg) ∧ (∀ msg, o.next = .fail msg → c.fails = true)

/-- A worker without its fate. -/
def State.loc (s : State Mem At) (w : Tid) : Local At := (s.thr w).loc

section apply

variable (s : State Mem At) (w : Tid) (o : WorkerOut Mem At)

/-- A step of a worker changes that worker. -/
theorem State.apply_loc :
    (s.apply w o).loc = Function.update s.loc w o.loc := by
  funext v
  by_cases hv : v = w
  · subst hv; unfold State.apply State.loc; cases o.fate <;> simp
  · unfold State.apply State.loc
    cases o.fate <;> simp [Function.update_of_ne hv]

@[simp] theorem State.apply_mem : (s.apply w o).mem = o.mem := by
  unfold State.apply; cases o.fate <;> rfl

@[simp] theorem State.apply_start_work :
    (s.apply w o).start_work = s.start_work := by
  unfold State.apply; cases o.fate <;> rfl

@[simp] theorem State.apply_main : (s.apply w o).main = s.main := by
  unfold State.apply; cases o.fate <;> rfl

@[simp] theorem State.apply_error :
    (s.apply w o).error_in_thread = s.error_in_thread := by
  unfold State.apply; cases o.fate <;> rfl

end apply

/-! ## §2 The process

Before the gate opens the memory is initialised and no worker runs, so the
invariant begins there. `Protocol.Holds` carries it through the steps of the
main thread as well, and `Protocol.refines` is the simulation of the relay by
the whole process. -/

/-- The shared memory before the gate opens. -/
inductive Initial (B : Body Mem At) : Mem → Prop
  | none : Initial B B.mem0
  | one {c mem} : B.setup false c B.mem0 = .ok mem → Initial B mem
  | both {c₀ c₁ m₀ mem} : B.setup false c₀ B.mem0 = .ok m₀ →
    B.setup true c₁ m₀ = .ok mem →
      Initial B mem

/-- What `spin_pingpong` has initialised when it is at `main`, before the
gate opens. -/
def Prepared (B : Body Mem At) (mem : Mem) : Main → Prop
  | .setup false => mem = B.mem0
  | .create false | .setup true => ∃ c, B.setup false c B.mem0 = .ok mem
  | .create true | .start =>
      ∃ c₀ c₁ m₀, B.setup false c₀ B.mem0 = .ok m₀ ∧
        B.setup true c₁ m₀ = .ok mem
  | .join _ | .report => False
  | .exited _ => Initial B mem

/-- Memory that needs no preparation is initialised. -/
theorem Prepared.initial {B : Body Mem At} {mem : Mem} {m : Main}
    (h : Prepared B mem m) : Initial B mem := by
  cases m with
  | setup i =>
    cases i with
    | false => exact (show mem = B.mem0 from h) ▸ .none
    | true => exact h.elim fun _ h => .one h
  | create i =>
    cases i with
    | false => exact h.elim fun _ h => .one h
    | true => obtain ⟨_, _, _, h₀, h₁⟩ := h; exact .both h₀ h₁
  | start => obtain ⟨_, _, _, h₀, h₁⟩ := h; exact .both h₀ h₁
  | join | report => exact h.elim
  | exited => exact h

/-- The main thread has opened the gate. -/
def Main.started : Main → Prop
  | .join _ | .report | .exited _ => True
  | _ => False

/-- The process is where the relay says: before the gate opens nothing has
been relayed, after it the protocol's invariant holds. -/
structure Protocol.Holds {B : Body Mem At} (P : Protocol B) (n : Nat)
    (s : State Mem At) (a : Relay.State UInt64) : Prop where
  good : Good P.ph n s.loc a
  before : s.start_work = false → a = start 1 ∧ (∀ w, Fresh (s.loc w)) ∧
    Prepared B s.mem s.main
  after : s.start_work = true → P.Inv s.mem s.loc a ∧ s.main.started

/-- It holds of the state in which the process starts. -/
theorem Protocol.Holds.init {B : Body Mem At} (P : Protocol B) (x : Worker) :
    P.Holds x.n.toNat (spin_pingpong B x).init (start 1) where
  good := Good.fresh fun _ => ⟨.inl rfl, rfl⟩
  before _ := ⟨rfl, fun _ => ⟨.inl rfl, rfl⟩, rfl⟩
  after h := by cases h

/-- A worker in a branch has passed the gate. -/
theorem Protocol.Holds.passed {B : Body Mem At} {P : Protocol B} {n : Nat}
    {s : State Mem At} {a : Relay.State UInt64} (h : P.Holds n s a)
    {w : Tid} {b : At} (hb : (s.loc w).ctl = .body b) :
    s.start_work = true := by
  cases hsw : s.start_work with
  | true => rfl
  | false =>
    obtain ⟨hfresh, -⟩ := (h.before hsw).2.1 w
    simp [hb] at hfresh

/-- The steps of the machine, taken apart. -/
theorem step_cases {B : Body Mem At} {x : Worker} {s t : State Mem At}
    {a : Label} {es : List Event}
    (h : (spin_pingpong B x).step s a = some (t, es)) :
    s.alive = true ∧
      ((∃ c, a = .main c ∧ mainStep B c s = some t ∧ es = []) ∨
        ∃ w c o, a = .worker w c ∧ (s.thr w).status = .running ∧
          workerStep B x w c s.start_work s.mem (s.thr w).pauses (s.loc w) = some o ∧
          t = s.apply w o ∧ es = o.ev) := by
  cases a with
  | main c =>
    simp only [spin_pingpong] at h
    split at h
    · next ha =>
      obtain ⟨u, hu, he⟩ := Option.map_eq_some_iff.mp h
      cases he
      exact ⟨ha, .inl ⟨c, rfl, hu, rfl⟩⟩
    · cases h
  | worker w c =>
    simp only [spin_pingpong] at h
    split at h
    · next ha =>
      obtain ⟨o, ho, he⟩ := Option.map_eq_some_iff.mp h
      cases he
      exact ⟨ha.1, .inr ⟨w, c, o, rfl, ha.2, ho, rfl, rfl⟩⟩
    · cases h

/-- The steps of the main thread, taken apart. -/
inductive MainCase (B : Body Mem At) (c : Choice) (s : State Mem At) :
    State Mem At → Prop
  | setup {i mem} : s.main = .setup i → B.setup i c s.mem = .ok mem →
      MainCase B c s { s with mem, main := .create i }
  | setupFails {i msg} : s.main = .setup i → B.setup i c s.mem = .error msg →
      MainCase B c s (s.giveUp msg)
  | create {i} : s.main = .create i → c.fails = false →
      MainCase B c s { s with
        thr := Function.update s.thr i { status := .running }
        main := if i then .start else .setup true }
  | start : s.main = .start →
    MainCase B c s { s with start_work := true, main := .join false }
  | join {i} : s.main = .join i → c.fails = false →
    (s.thr i).status.stopped = true →
      MainCase B c s { s with
        error_in_thread := s.error_in_thread || (s.thr i).status == .failed
        main := if i then .report else .join true }
  | report : s.main = .report →
      MainCase B c s (if s.error_in_thread then s.giveUp errorMsg
        else { s with main := .exited 0 })
  | fails {msg} : c.fails = true → MainCase B c s (s.giveUp msg)

/-- The steps of the main thread, all of them. -/
theorem mainStep_cases {B : Body Mem At} {c : Choice} {s t : State Mem At}
    (h : mainStep B c s = some t) : MainCase B c s t := by
  unfold mainStep at h
  split at h
  · next i hm =>
    split at h
    · next mem hs => cases h; exact .setup hm hs
    · next msg hs => cases h; exact .setupFails hm hs
  · next i hm =>
    split at h
    · next hf => cases h; exact .fails hf
    · next hf => cases h; exact .create hm (by simpa using hf)
  · next hm => cases h; exact .start hm
  · next i hm =>
    split at h
    · next hf => cases h; exact .fails hf
    · next hf =>
      split at h
      · next hs => cases h; exact .join hm (by simpa using hf) hs
      · cases h
  · next hm =>
    have hr := MainCase.report (B := B) (c := c) hm
    split at h
    · next he => cases h; simpa [he] using hr
    · next he => cases h; simpa [he] using hr
  · cases h

/-- Giving up changes nothing the relay can tell. -/
theorem Protocol.Holds.giveUp {B : Body Mem At} {P : Protocol B} {n : Nat}
    {s : State Mem At} {a : Relay.State UInt64} (h : P.Holds n s a)
    (msg : String) : P.Holds n (s.giveUp msg) a where
  good := h.good
  before hs := ⟨(h.before hs).1, (h.before hs).2.1, (h.before hs).2.2.initial⟩
  after hs := ⟨(h.after hs).1, trivial⟩

/-- The main thread's steps keep the process where the relay says. -/
theorem Protocol.Holds.main {B : Body Mem At} {P : Protocol B} {n : Nat}
    {c : Choice} {s t : State Mem At} {a : Relay.State UInt64}
    (h : P.Holds n s a) (hstep : MainCase B c s t) : P.Holds n t a := by
  cases hsw : s.start_work with
  | false =>
    -- before the gate opens the relay has not begun
    obtain ⟨rfl, hfresh, hprep⟩ := h.before hsw
    cases hstep with
    | @setup i mem hm hs =>
      refine ⟨h.good, fun _ => ⟨rfl, hfresh, ?_⟩, fun hw => by simp [hsw] at hw⟩
      rw [hm] at hprep
      cases i with
      | false =>
        have hm0 : s.mem = B.mem0 := hprep
        exact ⟨c, hm0 ▸ hs⟩
      | true => obtain ⟨c₀, h₀⟩ := hprep; exact ⟨c₀, c, s.mem, h₀, hs⟩
    | @create i hm hf =>
      have hloc : State.loc { s with
          thr := Function.update s.thr i { status := .running }
          main := if i then .start else .setup true } =
          Function.update s.loc i {} := by
        funext v
        by_cases hv : v = i
        · subst hv; simp [State.loc]
        · simp [State.loc, Function.update_of_ne hv]
      have hfresh' : ∀ w, Fresh (Function.update s.loc i {} w) := by
        intro v
        by_cases hv : v = i
        · subst hv; simpa using ⟨.inl rfl, rfl⟩
        · simpa [Function.update_of_ne hv] using hfresh v
      refine ⟨hloc ▸ Good.fresh hfresh', fun _ => ⟨rfl, hloc ▸ hfresh', ?_⟩,
        fun hw => by simp [hsw] at hw⟩
      rw [hm] at hprep
      cases i <;> exact hprep
    | start hm =>
      rw [hm] at hprep
      obtain ⟨c₀, c₁, m₀, h₀, h₁⟩ := hprep
      exact ⟨h.good, fun hw => (by cases hw), fun _ => ⟨P.init h₀ h₁ hfresh, trivial⟩⟩
    | join hm => rw [hm] at hprep; exact hprep.elim
    | report hm => rw [hm] at hprep; exact hprep.elim
    | setupFails | fails => exact h.giveUp _
  | true =>
    -- behind it the main thread only joins and reports
    obtain ⟨hinv, hmain⟩ := h.after hsw
    cases hstep with
    | setup hm | create hm | start hm => rw [hm] at hmain; exact hmain.elim
    | @join i hm =>
      exact ⟨h.good, fun hw => by simp [hsw] at hw,
        fun _ => ⟨hinv, by cases i <;> trivial⟩⟩
    | report hm =>
      split
      · exact h.giveUp _
      · exact ⟨h.good, fun hw => by simp [hsw] at hw, fun _ => ⟨hinv, trivial⟩⟩
    | setupFails | fails => exact h.giveUp _

/-- A worker's steps keep the process where the relay says, and the relay
reads what the step shows. -/
theorem Protocol.Holds.worker {B : Body Mem At} {P : Protocol B}
    {n : Nat} {w : Tid} {c : Choice} {s : State Mem At} {a : Relay.State UInt64}
    {o : WorkerOut Mem At} (h : P.Holds n s a)
    (hstep : WorkerCase B n w c s.start_work s.mem (s.loc w) o) :
    ∃ b, Monitor.read (next n) o.ev a = some b ∧ P.Holds n (s.apply w o) b := by
  have hmove := hstep.move P.lawful
  cases hsw : s.start_work with
  -- before the gate a worker does nothing that the relay could see
  | false =>
    obtain ⟨rfl, hfresh, hprep⟩ := h.before hsw
    have hstill : ∀ {l : Local At}, Fresh l → o.loc = l → o.mem = s.mem →
        o.ev = [] →
        ∃ b, Monitor.read (next n) o.ev (Relay.start 1) = some b ∧
          P.Holds n (s.apply w o) b := by
      intro l hl hloc hmem hev
      have hfresh' : ∀ v, Fresh ((s.apply w o).loc v) := by
        intro v
        rw [State.apply_loc, hloc]
        by_cases hv : v = w
        · subst hv; simpa using hl
        · simpa [Function.update_of_ne hv] using hfresh v
      refine ⟨_, by rw [hev]; rfl, Good.fresh hfresh', fun _ => ⟨rfl, hfresh', ?_⟩,
        fun hw => by simp [hsw] at hw⟩
      simpa [hmem] using hprep
    obtain ⟨hctl, hregs⟩ := hfresh w
    cases hstep with
    | still hm hl he => exact hstill (hfresh w) hl hm he
    | frame hm hl he _ hk =>
      cases hk with
      | gate =>
        have hgate : Fresh (⟨.gate, (s.loc w).regs⟩ : Local At) :=
          ⟨.inr rfl, hregs⟩
        exact hstill hgate hl hm he
      | head _ ht => rw [hsw] at ht; cases ht
      | send hc | recv hc | finalize hc => rw [hc] at hctl; simp at hctl
    | body hc => rw [hc] at hctl; simp at hctl
  -- behind it every step is one of the relay, or none
  | true =>
    obtain ⟨hinv, hmain⟩ := h.after hsw
    have hdone : ∀ {b : Relay.State UInt64},
      Monitor.read (next n) o.ev a = some b →
        P.Inv o.mem (Function.update s.loc w o.loc) b →
        ∃ b, Monitor.read (next n) o.ev a = some b ∧
            P.Holds n (s.apply w o) b := by
      intro b hread hinv'
      refine ⟨b, hread, ?_, fun hw => by simp [hsw] at hw, fun _ => ?_⟩
      · rw [State.apply_loc]
        exact h.good.move hmove hread
      · simpa [State.apply_loc] using ⟨hinv', hmain⟩
    cases hstep with
    | still hm hl he =>
      refine hdone (b := a) (by rw [he]; rfl) ?_
      rw [hm, hl, Function.update_eq_self]
      exact hinv
    | frame hm hl he _ hk =>
      refine hdone (b := a) (by rw [he]; rfl) ?_
      rw [hm, hl]
      exact P.frame h.good hinv hk
    | @body k bo hc hb hm hl he =>
      have hview : (s.loc w).view P.ph = (.body (P.ph k), (s.loc w).regs) := by
        simp [Local.view, hc, Ctl.stand]
      -- only a receipt needs the memory: it must carry what was sent
      obtain ⟨b, hread⟩ :=
        h.good.linked.reads (hview ▸ h.good.ok w) (by rw [hview])
        (P.lawful.step hb) (fun v hv => P.take h.good hinv hc hb hv)
      refine hdone (b := b) (he ▸ hread) ?_
      rw [hm, hl]
      exact P.keep h.good hinv hc hb hread

/-- One step of the process, read by the relay. -/
theorem Protocol.Holds.step {B : Body Mem At} {P : Protocol B} {x : Worker}
    {s t : State Mem At} {l : Label} {es : List Event} {a : Relay.State UInt64}
    (h : P.Holds x.n.toNat s a)
    (hstep : (spin_pingpong B x).step s l = some (t, es)) :
    ∃ b, Monitor.read (next x.n.toNat) es a = some b ∧
      P.Holds x.n.toNat t b := by
  obtain ⟨-, ⟨c, -, hm, rfl⟩ | ⟨w, c, o, -, -, ho, rfl, rfl⟩⟩ :=
    step_cases hstep
  · exact ⟨a, rfl, h.main (mainStep_cases hm)⟩
  · exact h.worker (workerStep_cases ho)

/-- **Every method refines the relay.** In every run, whatever calls fail,
the clock reads, stores, receipts and deltas of the two workers are those of
a relay of `n` messages, and the method's invariant holds. -/
theorem Protocol.refines {B : Body Mem At} (P : Protocol B) {x : Worker}
    {ok : State Mem At → Label → Prop} {h : List Event} {s : State Mem At}
    (hrun : Run (spin_pingpong B x) ok h s) :
    ∃ a, Accepts x.n.toNat 1 h a ∧ P.Holds x.n.toNat s a :=
  Steps.monitor (fun hR _ hstep => Protocol.Holds.step hR hstep) hrun
    (Protocol.Holds.init P x)

/-- Invariants of the process that rest on the protocol's. -/
theorem Protocol.invariant {B : Body Mem At} (P : Protocol B) {x : Worker}
    {ok : State Mem At → Label → Prop} {I : State Mem At → Prop}
    (hkeep : ∀ {s l t es a b}, P.Holds x.n.toNat s a → P.Holds x.n.toNat t b →
      I s → ok s l →
      (spin_pingpong B x).step s l = some (t, es) → I t)
    {h : List Event} {s : State Mem At} (hrun : Run (spin_pingpong B x) ok h s)
    (h0 : I (spin_pingpong B x).init) : I s := by
  refine (Steps.invariant (I := fun s => (∃ a, P.Holds x.n.toNat s a) ∧ I s) ?_ hrun
    ⟨⟨_, Protocol.Holds.init P x⟩, h0⟩).2
  rintro s l t es ⟨⟨a, ha⟩, hI⟩ hok hstep
  obtain ⟨b, -, hb⟩ := ha.step hstep
  exact ⟨⟨b, hb⟩, hkeep ha hb hI hok hstep⟩

/-! ## §3 The recorded deltas

A leg is recorded where the receiver writes its delta, so the arrays are
functions of the history: those legs that are the worker's own, in order. -/

/-- `delta`, cut to 32 bits. -/
def delta (l : Leg UInt64) : UInt32 := (l.now - l.v).toUInt32

/-- The deltas of the legs that worker `w` shows. -/
def deltas (w : Tid) (h : List Event) : List UInt32 :=
  ((legs h).filter fun l => l.party = w).map delta

/-- Deltas of a longer history. -/
theorem deltas_append (w : Tid) (h h' : List Event) :
    deltas w (h ++ h') = deltas w h ++ deltas w h' := by
  simp [deltas, legs]

/-- A move of a branch writes what its events say. -/
theorem BodyMove.ds {w : Tid} {p : Phase} {r r' : Regs} {af : After}
    {ev : List Event} (h : BodyMove w r p r' af ev) :
    r'.ds = r.ds ++ deltas w ev ∧ deltas (!w) ev = [] := by
  cases h <;> simp [deltas, legs, Relay.Event.leg?, delta, Regs.record]

/-- The frame writes nothing. -/
theorem StandMove.ds {n : Nat} {w : Tid} {st st' : Stand} {r r' : Regs}
    {ev : List Event} (h : StandMove n w st r st' r' ev) :
    r'.ds = r.ds ++ deltas w ev ∧ deltas (!w) ev = [] := by
  cases h with
  | stay | enter | toSend | toRecv | leave => simp [deltas, legs]
  | body hb | ended hb => exact hb.ds

/-- The main thread leaves the workers' variables as they are. -/
theorem Protocol.Holds.main_regs {B : Body Mem At} {P : Protocol B} {n : Nat}
    {c : Choice} {s t : State Mem At} {a : Relay.State UInt64}
    (h : P.Holds n s a) (hstep : MainCase B c s t) (w : Tid) :
    (t.loc w).regs = (s.loc w).regs := by
  cases hstep with
  | @create i hm =>
    have hfresh : (s.loc w).regs = {} := by
      cases hsw : s.start_work with
      | false => exact ((h.before hsw).2.1 w).2
      | true =>
        have hmain := (h.after hsw).2
        rw [hm] at hmain
        exact hmain.elim
    by_cases hw : w = i
    · subst hw
      rw [hfresh]
      simp [State.loc]
    · simp [State.loc, Function.update_of_ne hw]
  | report => split <;> rfl
  | _ => rfl

/-- **A worker's array holds the deltas of the legs it showed.** -/
theorem Protocol.ds_eq {B : Body Mem At} (P : Protocol B) {x : Worker}
    {ok : State Mem At → Label → Prop} {h : List Event} {s : State Mem At}
    (hrun : Run (spin_pingpong B x) ok h s) (w : Tid) :
    (s.loc w).regs.ds = deltas w h := by
  refine (Steps.history_invariant (I := fun h s => (∃ a, P.Holds x.n.toNat s a) ∧
    ∀ w, (s.loc w).regs.ds = deltas w h) ?_ hrun
    ⟨⟨_, Protocol.Holds.init P x⟩, fun w => rfl⟩).2 w
  rintro h s l t es ⟨⟨a, ha⟩, hds⟩ - hstep
  obtain ⟨b, -, hb⟩ := ha.step hstep
  refine ⟨⟨b, hb⟩, fun v => ?_⟩
  obtain ⟨-, ⟨c, -, hm, rfl⟩ | ⟨w, c, o, -, -, ho, rfl, rfl⟩⟩ :=
    step_cases hstep
  · rw [ha.main_regs (mainStep_cases hm), hds, List.append_nil]
  · obtain ⟨hself, hother⟩ := ((workerStep_cases ho).move P.lawful).ds
    rw [deltas_append, State.apply_loc]
    by_cases hv : v = w
    · subst hv
      rw [Function.update_self, hself, hds]
    · obtain rfl : v = !w := by simpa [Bool.eq_not] using hv
      rw [Function.update_of_ne hv, hother, List.append_nil, hds]

/-! ## §4 Their sum

The deltas have 32 bits, so their sum is that of the latencies, each cut. What
it is compared with is the time from the first reading to the last. -/

/-- All deltas of both threads, added up. -/
def sum_ds (s : State Mem At) : Nat :=
  ((s.loc false).regs.ds.map UInt32.toNat).sum +
    ((s.loc true).regs.ds.map UInt32.toNat).sum

/-- The cycles that a message takes. -/
def latency (l : Leg UInt64) : Nat := l.now.toNat - l.v.toNat

/-- A delta is the latency, cut to 32 bits. -/
theorem toNat_delta {l : Leg UInt64} (h : l.v ≤ l.now) :
    (delta l).toNat = latency l % 2 ^ 32 := by
  rw [delta, UInt64.toNat_toUInt32, UInt64.toNat_sub_of_le _ _ h, latency]

/-- The deltas of both threads are those of all legs. -/
theorem sum_ds_legs : ∀ ls : List (Leg UInt64), (∀ l ∈ ls, l.v ≤ l.now) →
    (((ls.filter fun l => l.party = false).map delta).map UInt32.toNat).sum +
      (((ls.filter fun l => l.party = true).map delta).map UInt32.toNat).sum =
      (ls.map fun l => latency l % 2 ^ 32).sum
  | [], _ => rfl
  | l :: ls, hup => by
      have ih := sum_ds_legs ls fun x hx => hup x (List.mem_cons_of_mem _ hx)
      have hdelta := toNat_delta (hup l List.mem_cons_self)
      cases hp : l.party <;> simp [hp, hdelta] at ih ⊢ <;> omega

/-- What is left of numbers in a narrower word. -/
theorem sum_mod_le {α : Type} (f : α → Nat) (m : Nat) :
    ∀ xs : List α, (xs.map fun x => f x % m).sum ≤ (xs.map f).sum
  | [] => Nat.le_refl _
  | x :: xs => by
      have ih := sum_mod_le f m xs
      have hx := Nat.mod_le (f x) m
      simp only [List.map_cons, List.sum_cons]
      omega

/-- **What both threads have recorded**: the cycles of every message, cut to 32
bits, where none is received before its timestamp. -/
theorem Protocol.sum_ds_eq {B : Body Mem At} (P : Protocol B) {x : Worker}
    {ok : State Mem At → Label → Prop} {h : List Event} {s : State Mem At}
    (hrun : Run (spin_pingpong B x) ok h s) (hup : ∀ l ∈ legs h, l.v ≤ l.now) :
    sum_ds s = ((legs h).map fun l => latency l % 2 ^ 32).sum := by
  have hds := P.ds_eq hrun
  rw [sum_ds, hds, hds]
  exact sum_ds_legs (legs h) hup

end Osjitter.Pingpong
