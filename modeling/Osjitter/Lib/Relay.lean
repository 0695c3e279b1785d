/-
Osjitter.Lib.Relay — two parties relaying one stamped message at a time.

The protocol pattern, with no program in sight. Messages are numbered
`0, 1, …, n - 1`. Message `m` is sent by party `turn m` and received by the
other, and the parties take turns. The sender reads a clock until the value
exceeds the last timestamp exchanged (`armed`), sends that value
(`flight`); the receiver takes it (`taken`), reads the clock once more and
records a leg `[v, now]`, after which it is the sender of the next message.

`next` is the monitor of the pattern: ONE party acts at any moment, so it
is a sequential automaton over the events of both parties. A two-thread
program whose every interleaving is accepted by it is, for an observer of
the events, that sequential loop.

The theorems are about accepted histories:

  §2  `received_prefix_sent`, `sent_before_received` — exactly-once, in
      order, and no message sent before the previous one was received;
      `stamps_sorted` — one strictly increasing sequence of timestamps
      above the base; `senders_alternate`.
  §3  `legs_eq` — the `k`-th leg is recorded by the receiver of message
      `k`, at index `k / 2` of its own array.
  §4  `legs_ordered` — if the clock reads never decrease, legs are
      intervals that follow each other; `sum_gaps_le` bounds the sum of
      such a sequence of intervals by its span.
-/
import Mathlib
import Osjitter.Lib.Machine

namespace Relay

open Machines

variable {τ : Type}

/-- What an observer of the two parties sees. `leg w k v now` is the
receiver's second clock read, which records the interval `[v, now]` as its
`k`-th. -/
inductive Event (τ : Type) where
  | clock (w : Bool) (c : τ)
  | send (w : Bool) (v : τ)
  | recv (w : Bool) (v : τ)
  | leg (w : Bool) (k : Nat) (v now : τ)
  deriving DecidableEq, Repr

/-- Where the message being relayed is. -/
inductive Stage (τ : Type) where
  | ready
  | armed (v : τ)
  | flight (v : τ)
  | taken (v : τ)
  deriving DecidableEq, Repr

/-- `m` messages are complete and `last` is the last timestamp exchanged. -/
structure State (τ : Type) where
  m : Nat
  last : τ
  stage : Stage τ
  deriving DecidableEq, Repr

/-- The message in progress has been sent. -/
def isSent : Stage τ → Bool
  | .flight _ | .taken _ => true
  | _ => false

/-- The message in progress has been taken. -/
def isTaken : Stage τ → Bool
  | .taken _ => true
  | _ => false

/-- The sender of message `m`. -/
def turn (m : Nat) : Bool := m % 2 == 1

@[simp] theorem turn_zero : turn 0 = false := rfl

@[simp] theorem turn_succ (m : Nat) : turn (m + 1) = !turn m := by
  unfold turn
  rcases Nat.mod_two_eq_zero_or_one m with h | h <;> simp [Nat.add_mod, h]

variable [LinearOrder τ]

/-- The monitor of a relay of `n` messages. -/
def next (n : Nat) : Monitor (State τ) (Event τ)
  | ⟨m, last, .ready⟩, .clock w c =>
      if m < n ∧ w = turn m then
        some ⟨m, last, if last < c then .armed c else .ready⟩
      else none
  | ⟨m, last, .armed v⟩, .send w v' =>
      if w = turn m ∧ v' = v then some ⟨m, last, .flight v⟩ else none
  | ⟨m, last, .flight v⟩, .recv w v' =>
      if w = !turn m ∧ v' = v then some ⟨m, last, .taken v⟩ else none
  | ⟨m, _, .taken v⟩, .leg w k v' _ =>
      if w = !turn m ∧ v' = v ∧ k = m / 2 then some ⟨m + 1, v, .ready⟩ else none
  | _, _ => none

/-- The relay before its first message, `base` being below every timestamp. -/
def start (base : τ) : State τ := ⟨0, base, .ready⟩

/-- The history is one of a relay of `n` messages, which is now at `s`. -/
def Accepts (n : Nat) (base : τ) (h : List (Event τ)) (s : State τ) : Prop :=
  Monitor.read (next n) h (start base) = some s

/-! ## §1 What one event can do

The monitor's step, inverted once: every invariant below is a case analysis
on these five shapes. -/

/-- The possible steps of the monitor. -/
inductive Move (n : Nat) : State τ → Event τ → State τ → Prop
  | retry {m last c} : m < n → c ≤ last →
      Move n ⟨m, last, .ready⟩ (.clock (turn m) c) ⟨m, last, .ready⟩
  | arm {m last c} : m < n → last < c →
      Move n ⟨m, last, .ready⟩ (.clock (turn m) c) ⟨m, last, .armed c⟩
  | send {m last v} :
      Move n ⟨m, last, .armed v⟩ (.send (turn m) v) ⟨m, last, .flight v⟩
  | recv {m last v} :
      Move n ⟨m, last, .flight v⟩ (.recv (!turn m) v) ⟨m, last, .taken v⟩
  | leg {m last v now} :
      Move n ⟨m, last, .taken v⟩ (.leg (!turn m) (m / 2) v now) ⟨m + 1, v, .ready⟩

/-- The monitor makes these moves and no others. -/
theorem next_iff (n : Nat) (s : State τ) (e : Event τ) (t : State τ) :
    next n s e = some t ↔ Move n s e t := by
  constructor
  · intro h
    unfold next at h
    split at h
    · split at h
      · next hw =>
        obtain ⟨hm, rfl⟩ := hw
        cases h
        split
        · next hc => exact .arm hm hc
        · next hc => exact .retry hm (not_lt.mp hc)
      · cases h
    · split at h
      · next hw => obtain ⟨rfl, rfl⟩ := hw; cases h; exact .send
      · cases h
    · split at h
      · next hw => obtain ⟨rfl, rfl⟩ := hw; cases h; exact .recv
      · cases h
    · split at h
      · next hw => obtain ⟨rfl, rfl, rfl⟩ := hw; cases h; exact .leg
      · cases h
    · cases h
  · intro h
    cases h with
    | retry hm hc => simp [next, hm, not_lt.mpr hc]
    | arm hm hc => simp [next, hm, hc]
    | send => simp [next]
    | recv => simp [next]
    | leg => simp [next]

section read

variable {n k : Nat} {v now : τ} {w : Bool} {s t : State τ}

/-- The same for reading one event as a history. -/
theorem read_iff {e : Event τ} :
    Monitor.read (next n) [e] s = some t ↔ Move n s e t := by
  rw [Monitor.read_singleton, next_iff]

/-- A clock is read by the sender, before it has a timestamp to send. -/
theorem read_clock {c : τ} (h : Monitor.read (next n) [.clock w c] s = some t) :
    ∃ m last stage, s = ⟨m, last, .ready⟩ ∧ t = ⟨m, last, stage⟩ ∧ w = turn m ∧
      (stage = .ready ∨ stage = .armed c) := by
  cases read_iff.mp h with
  | retry => exact ⟨_, _, _, rfl, rfl, rfl, .inl rfl⟩
  | arm => exact ⟨_, _, _, rfl, rfl, rfl, .inr rfl⟩

/-- A message is sent by the party whose turn it is, with the timestamp it read.
-/
theorem read_send (h : Monitor.read (next n) [.send w v] s = some t) :
    ∃ m last, s = ⟨m, last, .armed v⟩ ∧ t = ⟨m, last, .flight v⟩ ∧
      w = turn m := by
  cases read_iff.mp h
  exact ⟨_, _, rfl, rfl, rfl⟩

/-- A message is received by the other party, and carries what was sent. -/
theorem read_recv (h : Monitor.read (next n) [.recv w v] s = some t) :
    ∃ m last, s = ⟨m, last, .flight v⟩ ∧ t = ⟨m, last, .taken v⟩ ∧
      w = !turn m := by
  cases read_iff.mp h
  exact ⟨_, _, rfl, rfl, rfl⟩

/-- A leg is recorded by the receiver, and ends the turn. -/
theorem read_leg (h : Monitor.read (next n) [.leg w k v now] s = some t) :
    ∃ m last, s = ⟨m, last, .taken v⟩ ∧ t = ⟨m + 1, v, .ready⟩ ∧
      w = !turn m := by
  cases read_iff.mp h
  exact ⟨_, _, rfl, rfl, rfl⟩

end read

/-- Facts about accepted histories, by induction over the moves. -/
theorem Accepts.induct {n : Nat} {base : τ}
    {I : List (Event τ) → State τ → Prop} (h0 : I [] (start base))
    (hkeep : ∀ {h s e t}, I h s → Move n s e t → I (h ++ [e]) t)
    {h : List (Event τ)} {s : State τ} (ha : Accepts n base h s) : I h s :=
  Monitor.read_invariant h0 (fun hi he => hkeep hi ((next_iff n _ _ _).mp he)) ha

/-- The messages stay below `n`, and one in progress is below it. -/
theorem Accepts.bound {n : Nat} {base : τ} {h : List (Event τ)} {s : State τ}
    (ha : Accepts n base h s) : s.m ≤ n ∧ (s.stage ≠ .ready → s.m < n) := by
  refine ha.induct (I := fun _ s => s.m ≤ n ∧ (s.stage ≠ .ready → s.m < n)) ?_ ?_
  · simp [start]
  · intro h s e t hi hmove
    cases hmove with
    | retry hm _ => exact hi
    | arm hm _ => exact ⟨hi.1, fun _ => hm⟩
    | send => exact ⟨hi.1, fun _ => hi.2 (by simp)⟩
    | recv => exact ⟨hi.1, fun _ => hi.2 (by simp)⟩
    | leg => exact ⟨hi.2 (by simp), by simp⟩

/-! ## §2 Exactly-once, in order, increasing

The messages sent and those received are projections of the history, so that
both are lists and to be received exactly once and in order is to be a prefix.
The state of the monitor says which message is missing: `Accepts.exchanged`
holds of every accepted history, by induction on its last event. -/

/-- The message an event sends, with its sender. -/
def Event.send? : Event τ → Option (Bool × τ)
  | .send w v => some (w, v)
  | _ => none

/-- The value an event makes party `w` send. -/
def Event.sentBy? (w : Bool) : Event τ → Option τ
  | .send u v => if u = w then some v else none
  | _ => none

/-- The value an event makes party `w` receive. -/
def Event.recvBy? (w : Bool) : Event τ → Option τ
  | .recv u v => if u = w then some v else none
  | _ => none

/-- The messages sent, in order, with their senders. -/
def sends (h : List (Event τ)) : List (Bool × τ) := h.filterMap Event.send?

/-- The values party `w` sent, in order. -/
def sent (w : Bool) (h : List (Event τ)) : List τ :=
  h.filterMap (Event.sentBy? w)

/-- The values party `w` received, in order. -/
def received (w : Bool) (h : List (Event τ)) : List τ :=
  h.filterMap (Event.recvBy? w)

omit [LinearOrder τ] in
/-- Projections grow with the history at its end. -/
theorem filterMap_snoc {β : Type} (f : Event τ → Option β) (h : List (Event τ))
    (e : Event τ) : (h ++ [e]).filterMap f = h.filterMap f ++ (f e).toList := by
  rw [List.filterMap_append]
  cases hf : f e <;> simp [hf]

omit [LinearOrder τ] in
@[simp] theorem sends_snoc (h : List (Event τ)) (e : Event τ) :
    sends (h ++ [e]) = sends h ++ e.send?.toList := filterMap_snoc _ h e

omit [LinearOrder τ] in
@[simp] theorem sent_snoc (w : Bool) (h : List (Event τ)) (e : Event τ) :
    sent w (h ++ [e]) = sent w h ++ (e.sentBy? w).toList := filterMap_snoc _ h e

omit [LinearOrder τ] in
@[simp] theorem received_snoc (w : Bool) (h : List (Event τ)) (e : Event τ) :
    received w (h ++ [e]) = received w h ++ (e.recvBy? w).toList :=
  filterMap_snoc _ h e

/-- The message sent and not yet received. -/
def Stage.pending : Stage τ → List τ
  | .flight v => [v]
  | _ => []

/-- Everything sent is received, in order, up to the message in flight. -/
theorem Accepts.exchanged {n : Nat} {base : τ} {h : List (Event τ)}
    {s : State τ} (ha : Accepts n base h s) :
    sent (turn s.m) h = received (!turn s.m) h ++ s.stage.pending ∧
      sent (!turn s.m) h = received (turn s.m) h := by
  refine ha.induct (I := fun h s =>
    sent (turn s.m) h = received (!turn s.m) h ++ s.stage.pending ∧
      sent (!turn s.m) h = received (turn s.m) h) ?_ ?_
  · simp [sent, received, start, Stage.pending]
  · rintro h s e t ⟨h1, h2⟩ hmove
    cases hmove with
    | leg =>
      simpa [Event.sentBy?, Event.recvBy?, Stage.pending] using And.intro h2 h1
    | _ =>
      simpa [Event.sentBy?, Event.recvBy?, Stage.pending] using And.intro h1 h2

/-- The `k`-th value a party receives is the `k`-th value the other sent. -/
theorem received_prefix_sent {n : Nat} {base : τ} {h : List (Event τ)}
    {s : State τ} (ha : Accepts n base h s) (w : Bool) :
    received w h <+: sent (!w) h := by
  obtain ⟨h1, h2⟩ := ha.exchanged
  by_cases hw : w = turn s.m
  · subst hw
    exact h2 ▸ List.prefix_refl _
  · have hw' : w = !turn s.m := by simpa [Bool.eq_not] using hw
    subst hw'
    simp only [Bool.not_not, h1]
    exact List.prefix_append _ _

/-- When a party sends, the other has received everything it sent before. -/
theorem sent_before_received {n : Nat} {base : τ} {h₁ h₂ : List (Event τ)}
    {s : State τ} {w : Bool} {v : τ}
    (ha : Accepts n base (h₁ ++ .send w v :: h₂) s) :
    received (!w) h₁ = sent w h₁ := by
  obtain ⟨u, hu, hrest⟩ := Monitor.read_prefix ha
  obtain ⟨u', hmove, -⟩ := Option.bind_eq_some_iff.mp hrest
  have hex : Accepts n base h₁ u := hu
  have hex := hex.exchanged
  cases (next_iff n _ _ _).mp hmove with
  | send => simpa [Stage.pending] using hex.1.symm

/-- The greatest timestamp sent so far. -/
def State.top (s : State τ) : τ :=
  match s.stage with
  | .flight v | .taken v => v
  | _ => s.last

/-- The number of messages sent. -/
def State.handed (s : State τ) : Nat :=
  match s.stage with
  | .flight _ | .taken _ => s.m + 1
  | _ => s.m

/-- The timestamps sent, below the base and in order. -/
def stamps (base : τ) (h : List (Event τ)) : List τ :=
  base :: (sends h).map Prod.snd

omit [LinearOrder τ] in
@[simp] theorem stamps_snoc (base : τ) (h : List (Event τ)) (e : Event τ) :
    stamps base (h ++ [e]) = stamps base h ++ (e.send?.map Prod.snd).toList := by
  cases e <;> simp [stamps, Event.send?]

/-- The timestamps sent, by both parties in turn, increase strictly above
the base, and the last of them is `top`. -/
theorem Accepts.stamps {n : Nat} {base : τ} {h : List (Event τ)} {s : State τ}
    (ha : Accepts n base h s) :
    (stamps base h).Pairwise (· < ·) ∧ (∀ x ∈ stamps base h, x ≤ s.top) ∧
      (∀ v, s.stage = .armed v → s.last < v) := by
  refine ha.induct (I := fun h s =>
    (Relay.stamps base h).Pairwise (· < ·) ∧
      (∀ x ∈ Relay.stamps base h, x ≤ s.top) ∧
      (∀ v, s.stage = .armed v → s.last < v)) ?_ ?_
  · simp [Relay.stamps, sends, start, State.top]
  · rintro h s e t ⟨hp, htop, harm⟩ hmove
    cases hmove with
    | retry hm hc => simpa [Event.send?] using And.intro hp htop
    | arm hm hc => simpa [Event.send?, State.top, hc] using And.intro hp htop
    | @send m last v =>
      have hlt : last < v := harm v rfl
      simp only [stamps_snoc, Event.send?, Option.map_some, Option.toList_some]
      refine ⟨List.pairwise_append.mpr ⟨hp, by simp, ?_⟩, ?_, by simp⟩
      · intro x hx y hy
        obtain rfl := List.mem_singleton.mp hy
        exact lt_of_le_of_lt (htop x hx) hlt
      · intro x hx
        rcases List.mem_append.mp hx with hx | hx
        · exact le_of_lt (lt_of_le_of_lt (htop x hx) hlt)
        · exact le_of_eq (List.mem_singleton.mp hx)
    | recv => simpa [Event.send?, State.top] using And.intro hp htop
    | leg => simpa [Event.send?, State.top] using And.intro hp htop

/-- The timestamps sent increase strictly above the base. -/
theorem stamps_sorted {n : Nat} {base : τ} {h : List (Event τ)} {s : State τ}
    (ha : Accepts n base h s) :
    (base :: (sends h).map Prod.snd).Pairwise (· < ·) :=
  ha.stamps.1

/-- The parties send in turn. -/
theorem senders_alternate {n : Nat} {base : τ} {h : List (Event τ)}
    {s : State τ} (ha : Accepts n base h s) :
    (sends h).map Prod.fst = (List.range s.handed).map turn := by
  refine ha.induct (I := fun h s =>
    (sends h).map Prod.fst = (List.range s.handed).map turn) ?_ ?_
  · simp [sends, start, State.handed]
  · intro h s e t hi hmove
    cases hmove with
    | retry => simpa [Event.send?, State.handed] using hi
    | arm => simpa [Event.send?, State.handed] using hi
    | send => simpa [Event.send?, State.handed, List.range_succ] using hi
    | recv => simpa [Event.send?, State.handed] using hi
    | leg => simpa [Event.send?, State.handed] using hi

/-- The `k`-th value a party receives is the `k`-th one the other sent, and
a party sends only when the other has received all it sent before. -/
structure ExactlyOnce (h : List (Event τ)) : Prop where
  received : ∀ w, received w h <+: sent (!w) h
  before : ∀ h₁ h₂ w v, h = h₁ ++ .send w v :: h₂ →
    Relay.received (!w) h₁ = sent w h₁

/-- The values sent by the parties in turn form one increasing sequence
above the base. -/
structure Increasing (base : τ) (h : List (Event τ)) : Prop where
  sorted : (base :: (sends h).map Prod.snd).Pairwise (· < ·)
  alternate : (sends h).map Prod.fst = (List.range (sends h).length).map turn

/-- Accepted histories lose no message, double none and keep their order. -/
theorem Accepts.exactlyOnce {n : Nat} {base : τ} {h : List (Event τ)}
    {s : State τ} (ha : Accepts n base h s) : ExactlyOnce h where
  received := received_prefix_sent ha
  before := by
    rintro h₁ h₂ w v rfl
    exact sent_before_received ha

/-- Accepted histories have timestamps that increase. -/
theorem Accepts.increasing {n : Nat} {base : τ} {h : List (Event τ)}
    {s : State τ} (ha : Accepts n base h s) : Increasing base h where
  sorted := stamps_sorted ha
  alternate := by
    have halt := senders_alternate ha
    have hlen := congrArg List.length halt
    simp only [List.length_map, List.length_range] at hlen
    rw [halt, hlen]

/-! ## §3 Legs

A leg is recorded by whoever received the message, and the parties receive in
turns. So the numbers of the messages a party has received are every second one,
and the index of a leg in the party's own array is half the number. -/

/-- A recorded interval: who recorded it, at which index of its array, from
which timestamp to which clock read. -/
structure Leg (τ : Type) where
  party : Bool
  idx : Nat
  v : τ
  now : τ
  deriving DecidableEq, Repr

/-- The leg an event records. -/
def Event.leg? : Event τ → Option (Leg τ)
  | .leg w k v now => some ⟨w, k, v, now⟩
  | _ => none

/-- The legs recorded, in order. -/
def legs (h : List (Event τ)) : List (Leg τ) := h.filterMap Event.leg?

omit [LinearOrder τ] in
@[simp] theorem legs_snoc (h : List (Event τ)) (e : Event τ) :
    legs (h ++ [e]) = legs h ++ e.leg?.toList := filterMap_snoc _ h e

/-- Leg `k` is recorded by the receiver of message `k`, which is its
`k / 2`-th. -/
theorem legs_eq {n : Nat} {base : τ} {h : List (Event τ)} {s : State τ}
    (ha : Accepts n base h s) :
    (legs h).map (fun l => (l.party, l.idx)) =
      (List.range s.m).map fun m => (!turn m, m / 2) := by
  refine ha.induct (I := fun h s => (legs h).map (fun l => (l.party, l.idx)) =
    (List.range s.m).map fun m => (!turn m, m / 2)) ?_ ?_
  · simp [legs, start]
  · intro h s e t hi hmove
    cases hmove with
    | retry => simpa [Event.leg?] using hi
    | arm => simpa [Event.leg?] using hi
    | send => simpa [Event.leg?] using hi
    | recv => simpa [Event.leg?] using hi
    | leg => simpa [Event.leg?, List.range_succ] using hi

/-- Every leg belongs to a message below `n`. -/
theorem leg_message {n : Nat} {base : τ} {h : List (Event τ)} {s : State τ}
    (ha : Accepts n base h s) {l : Leg τ} (hl : l ∈ legs h) :
    ∃ m < n, l.party = !turn m ∧ l.idx = m / 2 := by
  have hmem := List.mem_map_of_mem (f := fun l => (l.party, l.idx)) hl
  rw [legs_eq ha] at hmem
  obtain ⟨m, hm, he⟩ := List.mem_map.mp hmem
  obtain ⟨hp, hi⟩ := Prod.mk.inj he
  exact ⟨m, lt_of_lt_of_le (List.mem_range.mp hm) ha.bound.1, hp.symm, hi.symm⟩

/-! ## §4 A clock that never decreases

Where the clock that both parties read never goes back, the order of the events
is one of their times. Each leg begins no earlier than the one before it ended,
and a sum of such intervals is at most the time from the first to the last. -/

/-- The clock value an event reads. -/
def Event.clock? : Event τ → Option τ
  | .clock _ c => some c
  | .leg _ _ _ now => some now
  | _ => none

/-- Every clock read of both parties, in order. -/
def clocks (h : List (Event τ)) : List τ := h.filterMap Event.clock?

omit [LinearOrder τ] in
@[simp] theorem clocks_snoc (h : List (Event τ)) (e : Event τ) :
    clocks (h ++ [e]) = clocks h ++ e.clock?.toList := filterMap_snoc _ h e

/-- The timestamp a stage carries. -/
def Stage.stamp? : Stage τ → Option τ
  | .ready => none
  | .armed v | .flight v | .taken v => some v

/-- What a never-decreasing clock adds: the timestamp in progress is a clock
value that no recorded leg exceeds, and the legs follow each other. -/
structure Ordered (h : List (Event τ)) (s : State τ) : Prop where
  nows : ∀ l ∈ legs h, l.now ∈ clocks h
  stamp : ∀ v, s.stage.stamp? = some v → v ∈ clocks h ∧ ∀ l ∈ legs h, l.now ≤ v
  up : ∀ l ∈ legs h, l.v ≤ l.now
  apart : (legs h).Pairwise fun a b => a.now ≤ b.v

/-- A new clock read is no smaller than the earlier ones. -/
theorem clocks_le_new {h : List (Event τ)} {e : Event τ} {c x : τ}
    (hc : (clocks (h ++ [e])).Pairwise (· ≤ ·)) (he : e.clock? = some c)
    (hx : x ∈ clocks h) : x ≤ c := by
  simp only [clocks_snoc, he, Option.toList_some] at hc
  exact (List.pairwise_append.mp hc).2.2 x hx c (List.mem_singleton_self c)

/-- A new leg of the timestamp in progress keeps the legs in order. -/
theorem Ordered.leg {h : List (Event τ)} {m k : Nat} {last v now : τ} {w : Bool}
    (ho : Ordered h ⟨m, last, .taken v⟩)
    (hc : (clocks (h ++ [.leg w k v now])).Pairwise (· ≤ ·)) :
    Ordered (h ++ [.leg w k v now]) ⟨m + 1, v, .ready⟩ := by
  obtain ⟨hv, hle⟩ := ho.stamp v rfl
  have hnow : v ≤ now := clocks_le_new hc rfl hv
  constructor
  · intro l hl
    simp only [legs_snoc, Event.leg?, Option.toList_some, List.mem_append,
      List.mem_singleton] at hl
    rcases hl with hl | rfl
    · simpa [Event.clock?] using Or.inl (ho.nows l hl)
    · simp [Event.clock?]
  · simp [Stage.stamp?]
  · intro l hl
    simp only [legs_snoc, Event.leg?, Option.toList_some, List.mem_append,
      List.mem_singleton] at hl
    rcases hl with hl | rfl
    · exact ho.up l hl
    · exact hnow
  · simp only [legs_snoc, Event.leg?, Option.toList_some]
    refine List.pairwise_append.mpr ⟨ho.apart, by simp, ?_⟩
    intro a ha b hb
    obtain rfl := List.mem_singleton.mp hb
    exact hle a ha

/-- Every move keeps the legs in order, as long as the clock does not go back.
-/
theorem Ordered.move {n : Nat} {h : List (Event τ)} {s t : State τ}
    {e : Event τ} (ho : Ordered h s) (hmove : Move n s e t)
    (hc : (clocks (h ++ [e])).Pairwise (· ≤ ·)) : Ordered (h ++ [e]) t := by
  obtain ⟨hnows, hstamp, hup, hapart⟩ := ho
  cases hmove with
  | @retry m last c hm hle =>
    refine ⟨?_, by simp [Stage.stamp?], by simpa [Event.leg?] using hup,
      by simpa [Event.leg?] using hapart⟩
    simpa [Event.leg?, Event.clock?] using fun l hl => Or.inl (hnows l hl)
  | @arm m last c hm hlt =>
    refine ⟨?_, ?_, by simpa [Event.leg?] using hup, by simpa [Event.leg?] using hapart⟩
    · simpa [Event.leg?, Event.clock?] using fun l hl => Or.inl (hnows l hl)
    · rintro v ⟨⟩
      simpa [Event.leg?, Event.clock?] using
        fun l hl => clocks_le_new hc rfl (hnows l hl)
  | send =>
    exact ⟨by simpa [Event.leg?, Event.clock?] using hnows,
      by simpa [Event.leg?, Event.clock?, Stage.stamp?] using hstamp,
      by simpa [Event.leg?] using hup, by simpa [Event.leg?] using hapart⟩
  | recv =>
    exact ⟨by simpa [Event.leg?, Event.clock?] using hnows,
      by simpa [Event.leg?, Event.clock?, Stage.stamp?] using hstamp,
      by simpa [Event.leg?] using hup, by simpa [Event.leg?] using hapart⟩
  | leg => exact Ordered.leg ⟨hnows, hstamp, hup, hapart⟩ hc

/-- **Disjoint legs.** On a clock that never decreases, every leg is an
interval and every later leg starts no earlier than it ends. -/
theorem legs_ordered {n : Nat} {base : τ} {h : List (Event τ)} {s : State τ}
    (ha : Accepts n base h s) (hc : (clocks h).Pairwise (· ≤ ·)) :
    Ordered h s := by
  refine ha.induct (I := fun h s => (clocks h).Pairwise (· ≤ ·) → Ordered h s) ?_ ?_ hc
  · intro _
    exact ⟨by simp [legs], by simp [start, Stage.stamp?], by simp [legs], by simp [legs]⟩
  · intro h s e t hi hmove hc'
    have hpre : (clocks h).Pairwise (· ≤ ·) := by
      rw [clocks_snoc] at hc'
      exact (List.pairwise_append.mp hc').1
    exact (hi hpre).move hmove hc'

/-- The timestamp sent and not yet recorded. -/
def Stage.stored : Stage τ → List τ
  | .flight v | .taken v => [v]
  | _ => []

/-- Leg `k` starts at the timestamp of message `k`. -/
theorem legs_stamps {n : Nat} {base : τ} {h : List (Event τ)} {s : State τ}
    (ha : Accepts n base h s) :
    (sends h).map Prod.snd = (legs h).map Leg.v ++ s.stage.stored := by
  refine ha.induct (I := fun h s =>
    (sends h).map Prod.snd = (legs h).map Leg.v ++ s.stage.stored) ?_ ?_
  · simp [sends, legs, start, Stage.stored]
  · intro h s e t hi hmove
    cases hmove with
    | _ => simpa [Event.send?, Event.leg?, Stage.stored] using hi

/-- The time between the legs. -/
def turnaround (lo hi : Leg τ → Nat) : List (Leg τ) → Nat
  | l :: l' :: ls => (lo l' - hi l) + turnaround lo hi (l' :: ls)
  | _ => 0

omit [LinearOrder τ] in
/-- With the time between them the lengths add up to the span. -/
theorem sum_gaps_turnaround (lo hi : Leg τ → Nat) :
    ∀ (l : Leg τ) (ls : List (Leg τ)), (∀ x ∈ l :: ls, lo x ≤ hi x) →
      (l :: ls).Pairwise (fun a b => hi a ≤ lo b) →
      lo l + ((l :: ls).map fun x => hi x - lo x).sum + turnaround lo hi (l :: ls) =
        hi ((l :: ls).getLastD l)
  | l, [], hup, _ => by
      have hl := hup l List.mem_cons_self
      simp only [turnaround, List.map_cons, List.map_nil, List.sum_cons, List.sum_nil,
        List.getLastD_cons, List.getLastD_nil]
      omega
  | l, l' :: ls, hup, hpw => by
      obtain ⟨hfirst, hrest⟩ := List.pairwise_cons.mp hpw
      have hl := hup l List.mem_cons_self
      have hnext := hfirst l' List.mem_cons_self
      have ih :=
        sum_gaps_turnaround lo hi l' ls (fun x hx => hup x (List.mem_cons_of_mem _ hx))
        hrest
      simp only [turnaround, List.map_cons, List.sum_cons, List.getLastD_cons]
        at ih ⊢
      omega

omit [LinearOrder τ] in
/-- Intervals that start no earlier than the one before ends have lengths
that add up to no more than their span. -/
theorem sum_gaps_le (lo hi : Leg τ → Nat) (l : Leg τ) (ls : List (Leg τ))
    (hup : ∀ x ∈ l :: ls, lo x ≤ hi x)
    (hpw : (l :: ls).Pairwise fun a b => hi a ≤ lo b) :
    lo l + ((l :: ls).map fun x => hi x - lo x).sum ≤
      hi ((l :: ls).getLastD l) := by
  have hspan := sum_gaps_turnaround lo hi l ls hup hpw
  omega

end Relay
