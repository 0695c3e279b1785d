/-
Osjitter.Pingpong.WorkerTheorems — what the branches of every method do to
a worker, and what the relay can tell of it.

The frame of the thread functions is proved about once, over any `Body`.

  §1 A body is `Lawful` when a map from its control points to six phases
     (ready, armed, sent; waiting, taken, recorded) turns each of its steps
     into one of ten moves. This is what the seven loops of `pingpong.c`
     have in common, and all that bounds, counts and timestamps depend on.
  §2 The frame around a lawful body makes only the moves of `StandMove`:
     `WorkerCase` are the steps of `workerStep`, and `WorkerCase.move` says
     which move each of them is.
  §3 `LocOk`: the branch taken is the one the parity of `i` asks for, and
     `j` is the number of receive turns completed (`recvs`). `LocOk.move` is
     the step lemma.
  §4 `Linked`: two workers against the state of the relay. It is kept by
     every move whose events the relay reads (`Linked.move`), and
     `Linked.reads` shows that the relay reads every event but the receipt of
     a message. Receipts are where the shared memory matters.

`Protocol` adds what a method has to prove about its shared memory.
-/
import Osjitter.Pingpong.Worker

namespace Osjitter.Pingpong

open Machines Relay

/-! ## §1 Phases of an iteration

A branch goes through phases, whatever a method does in between: the sender
reads the clock until it has a timestamp and sends it, the receiver takes one,
reads the clock and records. A step either stays in its phase without an event
or makes one of the moves to the next phase, with the event that belongs to it.
-/

/-- Where a worker is with the message of its current iteration. -/
inductive Phase where
  | ready
  | armed
  | sent
  | waiting
  | taken
  | recorded
  deriving DecidableEq, Repr

/-- The phases of the sender branch. -/
def Phase.sending : Phase → Bool
  | .ready | .armed | .sent => true
  | _ => false

/-- The phases after the message was stored or taken. -/
def Phase.handled : Phase → Bool
  | .sent | .taken | .recorded => true
  | _ => false

/-- What follows a step of a branch. -/
inductive After where
  | phase (p : Phase)
  | ended
  | stop
  deriving DecidableEq, Repr

/-- The moves of a branch. -/
inductive BodyMove (w : Tid) (r : Regs) :
    Phase → Regs → After → List Event → Prop
  | idle {p} : BodyMove w r p r (.phase p) []
  | stop {p} : BodyMove w r p r .stop []
  | retry {c} : c ≤ r.tsc → BodyMove w r .ready r (.phase .ready) [.clock w c]
  | arm {c} : r.tsc < c →
      BodyMove w r .ready { r with t := c } (.phase .armed) [.clock w c]
  | store : BodyMove w r .armed r (.phase .sent) [.send w r.t]
  | storeOver : BodyMove w r .armed r .ended [.send w r.t]
  | sentOver : BodyMove w r .sent r .ended []
  | take {v} : BodyMove w r .waiting { r with t := v } (.phase .taken) [.recv w v]
  | leg {now} : BodyMove w r .taken (r.record now) (.phase .recorded)
      [.leg w r.ds.length r.t now]
  | legOver {now} : BodyMove w r .taken (r.record now) .ended
    [.leg w r.ds.length r.t now]
  | recordedOver : BodyMove w r .recorded r .ended []

variable {Mem At : Type}

/-- A step that ends the worker shows nothing. -/
theorem BodyMove.ev_of_stop {w : Tid} {r r' : Regs} {p : Phase}
    {ev : List Event} (h : BodyMove w r p r' .stop ev) : ev = [] := by
  cases h
  rfl

/-- What follows, in phases. -/
def Next.after (ph : At → Phase) : Next At → After
  | .goto b => .phase (ph b)
  | .next => .ended
  | .fail _ | .abort _ => .stop

/-- The branches move through the phases. -/
structure Lawful (B : Body Mem At) (ph : At → Phase) : Prop where
  send : ph B.send = .ready
  recv : ph B.recv = .waiting
  step : ∀ {w c mem r b o}, B.step w c mem r b = some o →
    BodyMove w r (ph b) o.regs (o.next.after ph) o.ev

/-- A sender's reading of the clock, which is repeated or kept. -/
theorem fenced_rdtsc_move {w : Tid} {c : Choice} {mem : Mem} {r : Regs}
    {again b : At} {ph : At → Phase} (ha : ph again = .ready)
    (hb : ph b = .armed) :
    BodyMove w r .ready (fenced_rdtsc w c mem r again b).regs
      ((fenced_rdtsc w c mem r again b).next.after ph)
        (fenced_rdtsc w c mem r again b).ev := by
  unfold fenced_rdtsc
  split
  · next hc => simpa [Next.after, ha] using BodyMove.retry hc
  · next hc => simpa [Next.after, hb] using BodyMove.arm (not_le.mp hc)

section fenced_rdtsc

variable (w : Tid) (c : Choice) (mem : Mem) (r : Regs) (again b : At)

@[simp] theorem fenced_rdtsc_mem :
    (fenced_rdtsc w c mem r again b).mem = mem := by
  unfold fenced_rdtsc; split <;> rfl

@[simp] theorem fenced_rdtsc_tsc :
    (fenced_rdtsc w c mem r again b).regs.tsc = r.tsc := by
  unfold fenced_rdtsc; split <;> rfl

@[simp] theorem fenced_rdtsc_ev :
    (fenced_rdtsc w c mem r again b).ev = [.clock w c.clock] := by
  unfold fenced_rdtsc; split <;> rfl

/-- It goes back to the same place, or on. -/
theorem fenced_rdtsc_next :
    (fenced_rdtsc w c mem r again b).next = .goto again ∨
    (fenced_rdtsc w c mem r again b).next = .goto b := by
  unfold fenced_rdtsc; split <;> simp

/-- So it does not end the worker. -/
@[simp] theorem fenced_rdtsc_not_abort (msg : String) :
    (fenced_rdtsc w c mem r again b).next ≠ .abort msg := by
  unfold fenced_rdtsc; split <;> simp

@[simp] theorem fenced_rdtsc_not_fail (msg : String) :
    (fenced_rdtsc w c mem r again b).next ≠ .fail msg := by
  unfold fenced_rdtsc; split <;> simp

@[simp] theorem fenced_rdtscp_mem (k : Next At) :
    (fenced_rdtscp w c mem r k).mem = mem := rfl

end fenced_rdtsc

/-! ## §2 The frame

The frame adds what is around the branches: the gate, the head of the loop,
which picks a branch by the parity of `i`, and the end. Its steps are listed
once, with all that they change, and everything else about workers is proved by
cases on the list. -/

/-- A control point up to phases. -/
inductive Stand where
  | out
  | head
  | body (p : Phase)
  | done
  deriving DecidableEq, Repr

/-- Where a worker stands, as far as the relay can tell. -/
def Ctl.stand (ph : At → Phase) : Ctl At → Stand
  | .calloc | .gate => .out
  | .head => .head
  | .body b => .body (ph b)
  | .finalize => .done

/-- The moves of a worker in a loop of `n` iterations. -/
inductive StandMove (n : Nat) (w : Tid) :
    Stand → Regs → Stand → Regs → List Event → Prop
  | stay {st r} : StandMove n w st r st r []
  | enter {r} : StandMove n w .out r .head r []
  | toSend {r} : r.i < n → turn r.i = w →
    StandMove n w .head r (.body .ready) r []
  | toRecv {r} : r.i < n → turn r.i ≠ w →
    StandMove n w .head r (.body .waiting) r []
  | leave {r} : n ≤ r.i → StandMove n w .head r .done r []
  | body {p r p' r' ev} : BodyMove w r p r' (.phase p') ev →
      StandMove n w (.body p) r (.body p') r' ev
  | ended {p r r' ev} : BodyMove w r p r' .ended ev →
      StandMove n w (.body p) r .head { r' with i := r'.i + 1 } ev

/-- The test at the head of the loop asks whose turn it is. -/
theorem mod_two_beq (i : Nat) (w : Tid) :
    (i % 2 == w.toNat) = true ↔ turn i = w := by
  unfold turn
  rcases Nat.mod_two_eq_zero_or_one i with h | h <;> cases w <;> simp [h]

/-- The moves of the frame from a worker's control point. -/
inductive FrameStep (B : Body Mem At) (n : Nat) (w : Tid) (sw : Bool)
    (l : Local At) : Ctl At → Prop
  | gate : l.ctl = .calloc → FrameStep B n w sw l .gate
  | head : l.ctl = .gate → sw = true → FrameStep B n w sw l .head
  | send : l.ctl = .head → l.regs.i < n → turn l.regs.i = w →
      FrameStep B n w sw l (.body B.send)
  | recv : l.ctl = .head → l.regs.i < n → turn l.regs.i ≠ w →
      FrameStep B n w sw l (.body B.recv)
  | finalize : l.ctl = .head → n ≤ l.regs.i → FrameStep B n w sw l .finalize

/-- What a worker's step can do: move inside the frame over unchanged
memory, or take a step of the branch it is in. -/
inductive WorkerCase (B : Body Mem At) (n : Nat) (w : Tid) (c : Choice)
    (sw : Bool) (mem : Mem) (l : Local At) (o : WorkerOut Mem At) : Prop
  | still : o.mem = mem → o.loc = l → o.ev = [] →
      (o.fate = .run ∨ c.fails = true ∧ (∃ msg, o.fate = .fail msg) ∨
        l.ctl = .finalize ∧ o.fate = spin_main_finalize n l.regs.ds c.fails) →
      WorkerCase B n w c sw mem l o
  | frame {k} : o.mem = mem → o.loc = { l with ctl := k } → o.ev = [] →
    o.fate = .run →
      FrameStep B n w sw l k → WorkerCase B n w c sw mem l o
  | body {b bo} : l.ctl = .body b → B.step w c mem l.regs b = some bo →
    o.mem = bo.mem →
      o.loc = bo.landing l → o.ev = bo.ev → o.fate = bo.next.fate →
      WorkerCase B n w c sw mem l o

/-- The list is complete. -/
theorem workerStep_cases {B : Body Mem At} {x : Worker} {w : Tid} {c : Choice}
    {sw : Bool} {mem : Mem} {pauses : Nat} {l : Local At} {o : WorkerOut Mem At}
    (h : workerStep B x w c sw mem pauses l = some o) :
    WorkerCase B x.n.toNat w c sw mem l o := by
  unfold workerStep at h
  split at h
  · cases h
    exact .still rfl rfl rfl (.inl rfl)
  split at h
  · next hctl =>
    split at h
    · next hf => cases h; exact .still rfl rfl rfl (.inr (.inl ⟨hf, _, rfl⟩))
    · cases h; exact .frame rfl rfl rfl rfl (.gate hctl)
  · next hctl =>
    split at h
    · next hsw => cases h; exact .frame rfl rfl rfl rfl (.head hctl hsw)
    · cases h; exact .still rfl rfl rfl (.inl rfl)
  · next hctl =>
    split at h
    · next hi =>
      split at h
      · next hw =>
        cases h
        exact .frame rfl rfl rfl rfl (.send hctl hi ((mod_two_beq _ _).mp hw))
      · next hw =>
        cases h
        exact .frame rfl rfl rfl rfl (.recv hctl hi (mt (mod_two_beq _ _).mpr hw))
    · next hi =>
      cases h
      exact .frame rfl rfl rfl rfl (.finalize hctl (Nat.le_of_not_lt hi))
  · next b hctl =>
    obtain ⟨bo, hb, rfl⟩ := Option.map_eq_some_iff.mp h
    exact .body hctl hb rfl rfl rfl rfl
  · next hctl =>
    cases h
    exact .still rfl rfl rfl (.inr (.inr ⟨hctl, rfl⟩))

/-- A step of a lawful worker is a move. -/
theorem WorkerCase.move {B : Body Mem At} {ph : At → Phase}
    (hB : Lawful B ph) {n : Nat} {w : Tid} {c : Choice} {sw : Bool} {mem : Mem}
    {l : Local At} {o : WorkerOut Mem At} (h : WorkerCase B n w c sw mem l o) :
    StandMove n w (l.ctl.stand ph) l.regs (o.loc.ctl.stand ph) o.loc.regs o.ev := by
  cases h with
  | still hm hl he _ =>
    rw [hl, he]
    exact .stay
  | frame hm hl he _ hk =>
    rw [hl, he]
    cases hk with
    | gate hc => simpa [hc, Ctl.stand] using StandMove.stay
    | head hc => simpa [hc, Ctl.stand] using StandMove.enter
    | send hc hi hw =>
      simpa [hc, Ctl.stand, hB.send] using StandMove.toSend hi hw
    | recv hc hi hw =>
      simpa [hc, Ctl.stand, hB.recv] using StandMove.toRecv hi hw
    | finalize hc hi => simpa [hc, Ctl.stand] using StandMove.leave hi
  | @body b bo hc hb hm hl he _ =>
    have hmove := hB.step hb
    rw [hl, he, hc]
    cases hn : bo.next with
    | goto b' =>
      rw [hn] at hmove
      simpa [Out.landing, hn, Ctl.stand] using StandMove.body hmove
    | next =>
      rw [hn] at hmove
      simpa [Out.landing, hn, Ctl.stand] using StandMove.ended hmove
    | fail msg | abort msg =>
      rw [hn] at hmove
      rw [hmove.ev_of_stop]
      simpa [Out.landing, hn, hc, Ctl.stand] using StandMove.stay

/-! ## §3 One worker

What one worker knows by itself: its branch fits its turn, and the deltas
recorded are as many as its turns to receive. The shared memory has no part in
it, so it holds for all methods, also after calls have failed. -/

/-- A stand with its local variables. -/
abbrev View := Stand × Regs

/-- The worker, without what is of its method. -/
def Local.view (ph : At → Phase) (l : Local At) : View :=
  (l.ctl.stand ph, l.regs)

/-- The receive turns of worker `w` among the first `i` iterations. -/
def recvs (w : Tid) (i : Nat) : Nat := (i + w.toNat) / 2

/-- Turns alternate, from the first thread on. -/
theorem turn_eq_iff (i : Nat) (w : Tid) : turn i = w ↔ i % 2 = w.toNat := by
  rw [← mod_two_beq, beq_iff_eq]

/-- A turn to send adds no receipt. -/
theorem recvs_succ_of_send {w : Tid} {i : Nat} (h : turn i = w) :
    recvs w (i + 1) = recvs w i := by
  have hm := (turn_eq_iff i w).mp h
  unfold recvs
  cases w <;> (simp at hm ⊢; omega)

/-- A turn to receive adds one. -/
theorem recvs_succ_of_recv {w : Tid} {i : Nat} (h : turn i ≠ w) :
    recvs w (i + 1) = recvs w i + 1 := by
  have hm := mt (turn_eq_iff i w).mpr h
  unfold recvs
  cases w <;> (simp at hm ⊢; omega)

/-- In a receive turn the next index is half the message number. -/
theorem recvs_of_recv {w : Tid} {i : Nat} (h : turn i ≠ w) :
    recvs w i = i / 2 := by
  have hm := mt (turn_eq_iff i w).mpr h
  unfold recvs
  cases w with
  | false => simp
  | true => simp at hm ⊢; omega

/-- A worker in order: the branch matches the parity of `i`, the sender's
`t` has passed its test, and `j` counts the receive turns completed. -/
def LocOk (n : Nat) (w : Tid) : View → Prop
  | (.out, r) => r = {}
  | (.head, r) => r.i ≤ n ∧ r.ds.length = recvs w r.i
  | (.body p, r) => r.i < n ∧ (turn r.i = w ↔ p.sending = true) ∧
      (p = .armed → r.tsc < r.t) ∧
      r.ds.length = recvs w r.i + (if p = .recorded then 1 else 0)
  | (.done, r) => r.i = n ∧ r.ds.length = recvs w r.i

/-- A branch keeps its worker in order, in the next phase or at the next
iteration. -/
theorem LocOk.body {n : Nat} {w : Tid} {p : Phase} {r r' : Regs} {af : After}
    {ev : List Event} (h : LocOk n w (.body p, r))
    (hmove : BodyMove w r p r' af ev) :
    (∀ p', af = .phase p' → LocOk n w (.body p', r')) ∧
      (af = .ended → LocOk n w (.head, { r' with i := r'.i + 1 })) := by
  obtain ⟨hi, ht, ha, hj⟩ := h
  have hsend : turn r.i = w → recvs w (r.i + 1) = recvs w r.i :=
    recvs_succ_of_send
  have hrecv : turn r.i ≠ w → recvs w (r.i + 1) = recvs w r.i + 1 :=
    recvs_succ_of_recv
  cases hmove with
  | idle =>
    refine ⟨?_, by simp⟩
    rintro p' ⟨⟩
    exact ⟨hi, ht, ha, hj⟩
  | stop => simp
  | retry => exact ⟨by rintro p' ⟨⟩; exact ⟨hi, ht, ha, hj⟩, by simp⟩
  | arm hc =>
    refine ⟨?_, by simp⟩
    rintro p' ⟨⟩
    exact ⟨hi, ht, fun _ => hc, hj⟩
  | store => exact ⟨by rintro p' ⟨⟩; exact ⟨hi, ht, by simp, hj⟩, by simp⟩
  | storeOver | sentOver =>
    refine ⟨by simp, fun _ => ⟨hi, ?_⟩⟩
    rw [hsend (ht.mpr rfl)]
    exact hj
  | take => exact ⟨by rintro p' ⟨⟩; exact ⟨hi, ht, by simp, hj⟩, by simp⟩
  | leg =>
    refine ⟨?_, by simp⟩
    rintro p' ⟨⟩
    exact ⟨hi, ht, by simp, by simpa [Regs.record] using hj⟩
  | legOver =>
    refine ⟨by simp, fun _ => ⟨hi, ?_⟩⟩
    have hw : turn r.i ≠ w := mt ht.mp (by simp [Phase.sending])
    simpa [Regs.record, hrecv hw] using hj
  | recordedOver =>
    refine ⟨by simp, fun _ => ⟨hi, ?_⟩⟩
    have hw : turn r.i ≠ w := mt ht.mp (by simp [Phase.sending])
    rw [hrecv hw]
    exact hj

/-- Every move keeps a worker in order. -/
theorem LocOk.move {n : Nat} {w : Tid} {st st' : Stand} {r r' : Regs}
    {ev : List Event} (h : LocOk n w (st, r))
    (hmove : StandMove n w st r st' r' ev) : LocOk n w (st', r') := by
  cases hmove with
  | stay => exact h
  | enter =>
    obtain rfl : r = {} := h
    exact ⟨Nat.zero_le n, by cases w <;> rfl⟩
  | toSend hi hw => exact ⟨hi, by simpa [Phase.sending] using hw, by simp, h.2⟩
  | toRecv hi hw => exact ⟨hi, by simpa [Phase.sending] using hw, by simp, h.2⟩
  | leave hi => exact ⟨Nat.le_antisymm h.1 hi, h.2⟩
  | body hb => exact (h.body hb).1 _ rfl
  | ended hb => exact (h.body hb).2 rfl

/-! ## §4 Two workers and the relay

The relay has one state, and each of the two workers a part of it: its number of
turns, its last timestamp, and the message it is about to send or has just
taken. `Linked` puts the parts together. A worker may be behind by the turn that
the other has ended, which is why its own number is compared with the relay's.
-/

/-- What the relay can tell about a worker: the number of messages it has
stored or taken, its `tsc`, and the timestamp it is about to store, or has
taken and not yet recorded. -/
structure Sig where
  pos : Nat
  tsc : UInt64
  armed : Option UInt64
  taken : Option UInt64
  deriving DecidableEq, Repr

/-- What the relay can tell of a worker. -/
def View.sig : View → Sig
  | (.body .armed, r) => ⟨r.i, r.tsc, some r.t, none⟩
  | (.body .sent, r) => ⟨r.i + 1, r.tsc, none, none⟩
  | (.body .taken, r) => ⟨r.i + 1, r.tsc, none, some r.t⟩
  | (.body .recorded, r) => ⟨r.i + 1, r.tsc, none, none⟩
  | (_, r) => ⟨r.i, r.tsc, none, none⟩

/-- The moves of a worker, as the relay sees them. -/
inductive SigMove (w : Tid) : Sig → Sig → List Event → Prop
  | silent {g} : SigMove w g g []
  | retry {g c} : c ≤ g.tsc → SigMove w g g [.clock w c]
  | arm {g c} : g.tsc < c → SigMove w g { g with armed := some c } [.clock w c]
  | store {g v} : g.armed = some v →
      SigMove w g { g with pos := g.pos + 1, armed := none } [.send w v]
  | take {g v} : SigMove w g { g with pos := g.pos + 1, taken := some v } [.recv w v]
  | leg {g v k now} : g.taken = some v →
      SigMove w g { g with tsc := v, taken := none } [.leg w k v now]

/-- A move of a branch, as the relay sees it. -/
theorem BodyMove.sig {w : Tid} {p : Phase} {r r' : Regs} {af : After}
    {ev : List Event} (h : BodyMove w r p r' af ev) :
    (∀ p', af = .phase p' →
      SigMove w (View.sig (.body p, r)) (View.sig (.body p', r')) ev) ∧
      (af = .ended → SigMove w (View.sig (.body p, r))
        (View.sig (.head, { r' with i := r'.i + 1 })) ev) := by
  cases h with
  | idle => exact ⟨by rintro p' ⟨⟩; exact .silent, by simp⟩
  | stop => simp
  | retry hc => exact ⟨by rintro p' ⟨⟩; exact .retry hc, by simp⟩
  | arm hc => exact ⟨by rintro p' ⟨⟩; exact .arm hc, by simp⟩
  | store => exact ⟨by rintro p' ⟨⟩; exact .store rfl, by simp⟩
  | storeOver => exact ⟨by simp, fun _ => .store rfl⟩
  | sentOver => exact ⟨by simp, fun _ => .silent⟩
  | take => exact ⟨by rintro p' ⟨⟩; exact .take, by simp⟩
  | leg => exact ⟨by rintro p' ⟨⟩; exact .leg rfl, by simp⟩
  | legOver => exact ⟨by simp, fun _ => .leg rfl⟩
  | recordedOver => exact ⟨by simp, fun _ => .silent⟩

/-- A move of the frame, as the relay sees it. -/
theorem StandMove.sig {n : Nat} {w : Tid} {st st' : Stand} {r r' : Regs}
    {ev : List Event} (h : StandMove n w st r st' r' ev) :
    SigMove w (View.sig (st, r)) (View.sig (st', r')) ev := by
  cases h with
  | stay | enter | toSend | toRecv | leave => exact .silent
  | body hb => exact hb.sig.1 _ rfl
  | ended hb => exact hb.sig.2 rfl

/-- The timestamp that is about to be sent. -/
def armed? : Stage UInt64 → Option UInt64
  | .armed v => some v
  | _ => none

/-- The timestamp that was received last. -/
def taken? : Stage UInt64 → Option UInt64
  | .taken v => some v
  | _ => none

/-- The two workers are where the relay says. -/
structure Linked (G : Tid → Sig) (a : Relay.State UInt64) : Prop where
  sender : G (turn a.m) = ⟨a.m + (isSent a.stage).toNat, a.last, armed? a.stage, none⟩
  pos : (G (!turn a.m)).pos = a.m + (isTaken a.stage).toNat
  tsc : (G (!turn a.m)).tsc ≤ a.last
  armed : (G (!turn a.m)).armed = none
  taken : (G (!turn a.m)).taken = taken? a.stage
  above : ∀ v, a.stage.stamp? = some v → a.last < v

/-- Two workers that have not begun. -/
theorem Linked.start {G : Tid → Sig} (h : ∀ w, G w = ⟨0, 1, none, none⟩) :
    Linked G (start 1) := by
  constructor <;> simp [Relay.start, h, isSent, isTaken, armed?, taken?, Stage.stamp?]

/-- A move whose events the relay reads keeps the workers linked to it. -/
theorem Linked.move {n : Nat} {G : Tid → Sig} {a b : Relay.State UInt64}
    {w : Tid} {g : Sig} {ev : List Event} (hL : Linked G a)
    (hmove : SigMove w (G w) g ev)
    (hread : Monitor.read (next n) ev a = some b) :
    Linked (Function.update G w g) b := by
  obtain ⟨hS, hpos, htsc, harm, htak, habove⟩ := hL
  cases hmove with
  | silent =>
    cases hread
    rw [Function.update_eq_self]
    exact ⟨hS, hpos, htsc, harm, htak, habove⟩
  | retry hc =>
    rw [Monitor.read_singleton, next_iff] at hread
    rw [Function.update_eq_self]
    cases hread with
    | retry => exact ⟨hS, hpos, htsc, harm, htak, habove⟩
    -- the worker rejects this reading, so the relay has not accepted it
    | arm _ hlt =>
      rw [hS] at hc
      exact absurd hlt (not_lt.mpr hc)
  | arm hc =>
    rw [Monitor.read_singleton, next_iff] at hread
    cases hread with
    | retry _ hle =>
      rw [hS] at hc
      exact absurd hc (not_lt.mpr hle)
    | arm _ hlt =>
      constructor <;>
        simp_all [isSent, isTaken, armed?, taken?, Stage.stamp?]
  | store hv =>
    rw [Monitor.read_singleton, next_iff] at hread
    cases hread
    constructor <;> simp_all [isSent, isTaken, armed?, taken?, Stage.stamp?]
  | take =>
    rw [Monitor.read_singleton, next_iff] at hread
    cases hread
    constructor <;> simp_all [isSent, isTaken, armed?, taken?, Stage.stamp?]
  | @leg v _ _ hv =>
    rw [Monitor.read_singleton, next_iff] at hread
    cases hread with
    | @leg m last =>
      have hlt : last < v := habove v rfl
      exact ⟨by simpa [isSent, isTaken, armed?, harm] using
        congrArg (Sig.mk · v none none) hpos, by simp [hS, isSent, isTaken],
        by simpa [hS] using le_of_lt hlt, by simp [hS, armed?], by simp [hS, taken?],
        by simp [Stage.stamp?]⟩

/-- What the phase of a worker says about the relay. -/
def Where (w : Tid) (r : Regs) (a : Relay.State UInt64) : Phase → Prop
  | .ready => a.stage = .ready ∧ w = turn a.m ∧ r.i = a.m
  | .armed => a.stage = .armed r.t ∧ w = turn a.m ∧ r.i = a.m
  | .sent => w = turn a.m ∧ r.i = a.m ∧ isSent a.stage = true ∨
      w = (!turn a.m) ∧ r.i + 1 = a.m ∧ isTaken a.stage = false
  | .waiting => w = (!turn a.m) ∧ r.i = a.m ∧ isTaken a.stage = false ∨
      w = turn a.m ∧ r.i = a.m + 1 ∧ isSent a.stage = true
  | .taken => a.stage = .taken r.t ∧ w = (!turn a.m) ∧ r.i = a.m
  | .recorded => a.stage = .ready ∧ w = turn a.m ∧ r.i + 1 = a.m

/-- A worker in a branch is the one the relay is waiting for, except when
it has stored its message or waits for the other's. -/
theorem Linked.where {n : Nat} {G : Tid → Sig} {a : Relay.State UInt64}
    (hL : Linked G a) {w : Tid} {p : Phase} {r : Regs}
    (hok : LocOk n w (.body p, r)) (hG : G w = View.sig (.body p, r)) :
    Where w r a p := by
  obtain ⟨m, last, stage⟩ := a
  obtain ⟨hS, hpos, -, harm, htak, -⟩ := hL
  obtain ⟨-, ht, -, -⟩ := hok
  by_cases hw : w = turn m
  · subst hw
    rw [hG] at hS
    cases p <;> cases stage <;>
      simp [Where, View.sig, isSent, isTaken, armed?, taken?, Phase.sending]
        at * <;>
      grind [turn_succ]
  · obtain rfl : w = !turn m := by simpa [Bool.eq_not] using hw
    rw [hG] at hpos harm htak
    cases p <;> cases stage <;>
      simp [Where, View.sig, isSent, isTaken, armed?, taken?, Phase.sending]
        at * <;>
      grind [turn_succ]

/-- The relay reads every event of a worker in order, provided a message is
taken only in flight, by its receiver. -/
theorem Linked.reads {n : Nat} {G : Tid → Sig} {a : Relay.State UInt64}
    (hL : Linked G a) {w : Tid} {p : Phase} {r r' : Regs} {af : After}
    {ev : List Event} (hok : LocOk n w (.body p, r))
    (hG : G w = View.sig (.body p, r)) (hmove : BodyMove w r p r' af ev)
    (htake : ∀ v, ev = [.recv w v] → a.stage = .flight v ∧ w = !turn a.m) :
    ∃ b, Monitor.read (next n) ev a = some b := by
  have hwhere := hL.where hok hG
  obtain ⟨m, last, stage⟩ := a
  have hi := hok.1
  cases hmove with
  | idle | stop | sentOver | recordedOver => exact ⟨_, rfl⟩
  | @retry c | @arm c =>
    obtain ⟨rfl, rfl, hm⟩ := hwhere
    dsimp only at hm
    simp [next, hm ▸ hi]
  | store | storeOver =>
    obtain ⟨rfl, rfl, -⟩ := hwhere
    simp [next]
  | take =>
    obtain ⟨rfl, rfl⟩ := htake _ rfl
    simp [next]
  | leg | legOver =>
    obtain ⟨rfl, rfl, hm⟩ := hwhere
    dsimp only at hm
    have hj : r.ds.length = m / 2 := by
      rw [hok.2.2.2, recvs_of_recv (by simp [hm]), hm]
      simp
    simp [next, hj]

end Osjitter.Pingpong
