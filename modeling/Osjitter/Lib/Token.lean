/-
Osjitter.Lib.Token — a relay in which one token travels with the message.

Each party has a slot that can hold the token. A party takes it out of its
own slot before it handles a message; having sent one it puts the token
into the other party's slot, having received one it puts it back into its
own. So the receiver of a message takes the same token twice in a row: once
to receive, and once, from itself, to send.

`Token` is the invariant: there is one token, in a slot or in a grip, and it
is where the stage of the relay says. How a slot is implemented, as a
semaphore, a lock or a cell, is left to the caller, who shows that its
operations take a token out and put one in.

  §1 The invariant, and what follows from it at once: `Token.alone` (nobody
     else has a token while one party does), `Token.holder` (who handles the
     message has it), `Token.on_the_way` and `Token.sender_slot` (where it
     waits between two messages).
  §2 What a party does, a lemma for each: `acquire` and `release` of a slot,
     `pass` to the other party, and `clock`, `send`, `recv` and `leg` for the
     events of the relay, which move the stage and leave the token where it
     is.
-/
import Osjitter.Lib.Relay

namespace Relay

/-! ## §1 The invariant -/

/-- What a party has of the token: nothing, the token while it handles a
message, or the token that goes with the message it has just sent. -/
inductive Grip where
  | free
  | held
  | passing
  deriving DecidableEq, Repr

/-- How many tokens a party has in hand. -/
def Grip.count : Grip → Nat
  | .free => 0
  | .held | .passing => 1

@[simp] theorem Grip.count_free : Grip.free.count = 0 := rfl
@[simp] theorem Grip.count_held : Grip.held.count = 1 := rfl
@[simp] theorem Grip.count_passing : Grip.passing.count = 1 := rfl

variable {τ : Type}

/-- One token, on the side of the sender until the message is passed on. -/
structure Token (slot : Bool → Nat) (g : Bool → Grip) (s : State τ) : Prop where
  one : slot false + (g false).count + (slot true + (g true).count) = 1
  unsent : isSent s.stage = false → slot (!turn s.m) + (g (!turn s.m)).count = 0
  sent : isSent s.stage = true →
    g (turn s.m) = .passing ∨ slot (turn s.m) + (g (turn s.m)).count = 0
  taken : isTaken s.stage = true → g (!turn s.m) = .held
  passing : ∀ w, g w = .passing → w = turn s.m ∧ isSent s.stage = true

namespace Token

variable {slot : Bool → Nat} {g : Bool → Grip} {s : State τ} {w : Bool}

/-- Whoever has the token has the only one. -/
theorem alone (h : Token slot g s) (hw : (g w).count = 1) :
    g (!w) = .free ∧ ∀ v, slot v = 0 := by
  have hone := h.one
  have hfree : (g (!w)).count = 0 := by cases w <;> simp at hw ⊢ <;> omega
  refine ⟨?_, fun v => ?_⟩
  · cases hg : g (!w) <;> simp [hg] at hfree
    rfl
  · cases w <;> cases v <;> simp at hw hfree ⊢ <;> omega

/-- While the message is unsent, whoever has the token is its sender. -/
theorem holder (h : Token slot g s) (hs : isSent s.stage = false)
    (hw : g w ≠ .free) : w = turn s.m := by
  have hunsent := h.unsent hs
  by_contra hne
  obtain rfl : w = !turn s.m := by simpa [Bool.eq_not] using hne
  cases hg : g (!turn s.m) <;> simp [hg] at hunsent hw

/-- While the message is passed along, its sender has the token, or the
receiver's side has. -/
theorem on_the_way (h : Token slot g s) {v : τ} (hs : s.stage = .flight v) :
    g (turn s.m) = .passing ∨
      slot (!turn s.m) + (g (!turn s.m)).count = 1 ∧ g (turn s.m) = .free := by
  have hone := h.one
  rcases h.sent (by simp [hs, isSent]) with hp | hz
  · exact .inl hp
  · have hfree : g (turn s.m) = .free := by
      cases hg : g (turn s.m) <;> simp [hg] at hz
      rfl
    refine .inr ⟨?_, hfree⟩
    cases hm : turn s.m <;> simp only [hm, Bool.not_false, Bool.not_true]
      at hz ⊢ <;> omega

/-- While the message is unsent, its sender's slot has the token, unless the
sender does. -/
theorem sender_slot (h : Token slot g s) (hs : isSent s.stage = false)
    (hw : g (turn s.m) = .free) : slot (turn s.m) = 1 := by
  have hone := h.one
  have hz := h.unsent hs
  cases hm : turn s.m <;> simp only [hm, Bool.not_false, Bool.not_true]
    at hw hz ⊢ <;>
    simp [hw] at hone hz <;> omega

/-! ## §2 What a party does -/

/-- The invariant sees a slot and a grip together. -/
theorem regrip {slot' : Bool → Nat} {g' : Bool → Grip} (h : Token slot g s)
    (hload : ∀ v, slot' v + (g' v).count = slot v + (g v).count)
    (hpass : ∀ v, g' v = .passing ↔ g v = .passing)
    (htaken : isTaken s.stage = true → g' (!turn s.m) = .held) :
    Token slot' g' s where
  one := by rw [hload, hload]; exact h.one
  unsent hs := by rw [hload]; exact h.unsent hs
  sent hs := by rw [hload, hpass]; exact h.sent hs
  taken := htaken
  passing w hw := h.passing w ((hpass w).mp hw)

/-- The grip of one party changes, with its slot. -/
theorem update_load {k : Nat} {b : Grip}
    (hk : k + b.count = slot w + (g w).count) (v : Bool) :
    Function.update slot w k v + (Function.update g w b v).count =
      slot v + (g v).count := by
  by_cases hv : v = w
  · subst hv
    simpa using hk
  · simp [Function.update_of_ne hv]

/-- Whether somebody passes the token on is not changed by a party that neither
did nor does. -/
theorem update_passing {b : Grip} (hb : b ≠ .passing) (hw : g w ≠ .passing)
    (v : Bool) : Function.update g w b v = .passing ↔ g v = .passing := by
  by_cases hv : v = w
  · subst hv
    simp [hb, hw]
  · rw [Function.update_of_ne hv]

/-- Taking the token out of one's slot. -/
theorem acquire (h : Token slot g s) {k : Nat} (hw : g w = .free)
    (hk : slot w = k + 1) :
    Token (Function.update slot w k) (Function.update g w .held) s := by
  refine h.regrip (update_load (by simp [hw, hk]))
    (update_passing (by simp) (by simp [hw]))
    fun ht => ?_
  have hR := h.taken ht
  have hne : (!turn s.m) ≠ w := by
    rintro rfl
    simp [hw] at hR
  rw [Function.update_of_ne hne, hR]

/-- Putting it back while no message is on its way. -/
theorem release (h : Token slot g s) (hs : isSent s.stage = false)
    (hw : g w = .held) :
    Token (Function.update slot w (slot w + 1)) (Function.update g w .free) s := by
  refine h.regrip (update_load (by simp [hw])) (update_passing (by simp) (by simp [hw]))
    fun ht => ?_
  cases hst : s.stage <;> simp [hst, isSent, isTaken] at hs ht

/-- Whoever passes the token on sent the message that is on its way. -/
theorem passing_flight (h : Token slot g s) (hw : g w = .passing) :
    w = turn s.m ∧ ∃ v, s.stage = .flight v := by
  obtain ⟨rfl, hs⟩ := h.passing w hw
  have halone := (h.alone (w := turn s.m) (by simp [hw])).1
  refine ⟨rfl, ?_⟩
  cases hst : s.stage with
  | flight v => exact ⟨v, rfl⟩
  | taken v =>
    have hR := h.taken (by simp [hst, isTaken])
    simp [halone] at hR
  | ready | armed v => simp [hst, isSent] at hs

/-- Putting the token into the other party's slot. -/
theorem pass (h : Token slot g s) (hw : g w = .passing) :
    Token (Function.update slot (!w) (slot (!w) + 1))
      (Function.update g w .free) s := by
  obtain ⟨hfree, hzero⟩ := h.alone (w := w) (by simp [hw])
  obtain ⟨rfl, v, hst⟩ := h.passing_flight hw
  refine ⟨?_, by simp [hst, isSent], fun _ => .inr (by simp [hzero]), by simp [hst, isTaken], ?_⟩
  · cases hm : turn s.m <;> simp only [hm, Bool.not_true, Bool.not_false]
      at hfree <;>
      simp [hfree, hzero]
  · intro u hu
    by_cases hus : u = turn s.m
    · simp [hus] at hu
    · obtain rfl : u = !turn s.m := by simpa [Bool.eq_not] using hus
      simp [hfree] at hu

variable {m : Nat} {last v : τ}

/-- Reading a clock. -/
theorem clock (h : Token slot g ⟨m, last, .ready⟩) {stage : Stage τ}
    (hs : stage = .ready ∨ stage = .armed v) :
    Token slot g ⟨m, last, stage⟩ := by
  rcases hs with rfl | rfl
  · exact h
  · exact ⟨h.one, fun _ => h.unsent rfl, by simp [isSent], by simp [isTaken],
      fun w hw => absurd (h.passing w hw).2 (by simp [isSent])⟩

/-- Sending: the token now goes with the message. -/
theorem send (h : Token slot g ⟨m, last, .armed v⟩) (hg : g (turn m) = .held) :
    Token slot (Function.update g (turn m) .passing) ⟨m, last, .flight v⟩ := by
  refine ⟨?_, by simp [isSent], fun _ => .inl (by simp), by simp [isTaken], fun w hw => ?_⟩
  · have hone := h.one
    cases hm : turn m <;> simp only [hm] at hg <;> simpa [hg] using hone
  · by_cases hwm : w = turn m
    · exact ⟨hwm, rfl⟩
    · rw [Function.update_of_ne hwm] at hw
      exact absurd (h.passing w hw).2 (by simp [isSent])

/-- Receiving. -/
theorem recv (h : Token slot g ⟨m, last, .flight v⟩)
    (hg : g (!turn m) = .held) : Token slot g ⟨m, last, .taken v⟩ :=
  ⟨h.one, by simp [isSent], fun _ => h.sent rfl, fun _ => hg,
    fun w hw => ⟨(h.passing w hw).1, rfl⟩⟩

/-- Recording a leg: the receiver is the next sender, and has the token. -/
theorem leg (h : Token slot g ⟨m, last, .taken v⟩) :
    Token slot g ⟨m + 1, v, .ready⟩ := by
  have hR : g (!turn m) = .held := h.taken rfl
  obtain ⟨hfree, hzero⟩ := h.alone (w := !turn m) (by simp [hR])
  rw [Bool.not_not] at hfree
  refine ⟨h.one, fun _ => by simp [hfree, hzero], by simp [isSent], by simp [isTaken],
    fun w hw => ?_⟩
  by_cases hwm : w = turn m
  · simp [hwm, hfree] at hw
  · obtain rfl : w = !turn m := by simpa [Bool.eq_not] using hwm
    simp [hR] at hw

end Token

end Relay
