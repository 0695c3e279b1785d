/-
Osjitter.Pingpong.CondVarTheorems — no notification is lost.

The timestamps are handed over in cells (`Stamped`), each under a mutex
(`Owned`). A sender signals after it has released the mutex, so its receiver
may have taken the message, answered, and gone to sleep again before the
signal comes. That no sleeper is left behind (`Sleepers`) rests on the
sleeper's `tsc`: it is due once its cell is above it, and the store that
makes it due makes the sender its waker.

The control points and calls come first: `cv_call` splits a step by the call
that it makes, and `cv_lawful` makes the branches those of a relay. Then the
invariant `CvInv` of the memory, with one lemma for each thing a worker does to
it: `CvInv.lock`, `write`, `sendUnlock`, `signal`, `condWait` and `wakeup`;
`CvInv.step` and `CvInv.failing` are the steps that leave the memory alone.
`CvInv.keep` puts them together, and `cvProtocol` and `cvLive` are what the
general theorems ask for.

`cv_no_lost_notification` is the result, for every run in which no call fails: a
sleeper whose message is there has been taken out of the queue, or its sender is
about to signal, and as long as somebody has not finished something can go on.
That every message is handed over once and in order comes from the relay.
-/
import Osjitter.Lib.Wakeup
import Osjitter.Pingpong.CondVar
import Osjitter.Pingpong.Progress

namespace Osjitter.Pingpong

open Machines Relay Wakeup

/-! ## The branches

A control point is in a phase of the relay and in a mutex or none. What the
calls of the library do is stated by one lemma each, so that no proof about the
invariant unfolds them. -/

/-- The phase of a control point. -/
def CvAt.phase : CvAt → Phase
  | .pause | .rdtsc => .ready
  | .sendLock | .write => .armed
  | .sendUnlock | .signal => .sent
  | .recvLock | .test | .condWait | .asleep | .relock | .take => .waiting
  | .recvUnlock | .rdtscp => .taken

/-- The mutex that worker `w` has at a control point. -/
def CvAt.inside (w : Tid) : CvAt → Option Tid
  | .write | .sendUnlock => some !w
  | .test | .condWait | .take | .recvUnlock => some w
  | _ => none

/-- The mutex that a worker has. -/
def insideOf (loc : Tid → Local CvAt) (w : Tid) : Option Tid :=
  match (loc w).ctl with
  | .body b => b.inside w
  | _ => none

/-- The mutex that a worker is in, by its control point. -/
theorem insideOf_body {loc : Tid → Local CvAt} {w : Tid} {b : CvAt}
    (hb : (loc w).ctl = .body b) : insideOf loc w = b.inside w := by
  simp [insideOf, hb]

/-- A step of a worker may change its own. -/
theorem insideOf_update {loc : Tid → Local CvAt} {w : Tid} {l : Local CvAt}
    {v : Option Tid} (hl : insideOf (fun _ => l) w = v) :
    insideOf (Function.update loc w l) =
      Function.update (insideOf loc) w v := by
  funext u
  by_cases hu : u = w
  · subst hu
    simpa [insideOf] using hl
  · simp [insideOf, Function.update_of_ne hu]

/-- A step to a place in the same mutex changes none. -/
theorem insideOf_goto {loc : Tid → Local CvAt} {w : Tid} {b k : CvAt}
    {o : Out Items CvAt} (hb : (loc w).ctl = .body b) (hn : o.next = .goto k)
    (hk : k.inside w = b.inside w) :
    insideOf (Function.update loc w (o.landing (loc w))) = insideOf loc := by
  rw [insideOf_update (v := b.inside w) (by simp [insideOf, Out.landing, hn, hk]),
    ← insideOf_body hb, Function.update_eq_self]

/-- Locking fails, or takes a mutex that is free. -/
theorem lock_cases {w : Tid} {c : Choice} {mem : Items} {r : Regs} {v : Tid} {msg : String}
    {b : CvAt} {o : Out Items CvAt} (h : pthread_mutex_lock w c mem r v msg b = some o) :
    (c.fails = true ∧ o = failing mem r msg) ∨ mem.mutex v = none ∧
      o = { mem := { mem with mutex := Function.update mem.mutex v (some w) }, regs := r,
            next := .goto b } := by
  unfold pthread_mutex_lock at h
  split at h
  · next hf => cases h; exact .inl ⟨hf, rfl⟩
  · split at h
    · cases h
    · next hv => cases h; exact .inr ⟨hv, rfl⟩

/-- Unlocking fails, or gives the mutex back. -/
theorem unlock_cases (c : Choice) (mem : Items) (r : Regs) (v : Tid)
    (msg : String) (b : CvAt) :
    (c.fails = true ∧ pthread_mutex_unlock c mem r v msg b = failing mem r msg) ∨
      pthread_mutex_unlock c mem r v msg b =
        { mem := { mem with mutex := Function.update mem.mutex v none }, regs := r,
          next := .goto b } := by
  unfold pthread_mutex_unlock
  split
  · next hf => exact .inl ⟨hf, rfl⟩
  · exact .inr rfl

/-- A woken thread takes its mutex again when it is free. -/
theorem relock_cases {w : Tid} {mem : Items} {r : Regs} {o : Out Items CvAt}
    (h : pthread_cond_relock w mem r = some o) : mem.mutex w = none ∧
      o = { mem := { mem with mutex := Function.update mem.mutex w (some w) }, regs := r,
            next := .goto .test } := by
  unfold pthread_cond_relock at h
  split at h
  · cases h
  · next hv => cases h; exact ⟨hv, rfl⟩

/-- A sleeper is woken by a signal, which has taken it out of the queue, or by
itself. -/
theorem wakeup_cases {w : Tid} {c : Choice} {mem : Items} {r : Regs}
    {o : Out Items CvAt} (h : pthread_cond_wakeup w c mem r = some o) :
    ∃ q, (q = mem.queue w ∧ w ∉ mem.queue w ∨
      q = (mem.queue w).erase w) ∧
      o = { mem := { mem with queue := Function.update mem.queue w q }, regs := r,
            next := .goto .relock } := by
  unfold pthread_cond_wakeup at h
  split at h
  · next hq =>
    cases h
    exact ⟨_, .inl ⟨rfl, hq⟩, by rw [Function.update_eq_self]⟩
  split at h
  · cases h; exact ⟨_, .inr rfl, rfl⟩
  · cases h

/-- The calls show nothing, never abort, and fail only if they are made to. -/
theorem cv_call {x : Worker} {w : Tid} {c : Choice} {mem : Items} {r : Regs} {b : CvAt}
    {o : Out Items CvAt} (ho : (cv_main x).step w c mem r b = some o)
    (hb : b ≠ .rdtsc ∧ b ≠ .write ∧ b ≠ .take ∧ b ≠ .rdtscp) :
    o.ev = [] ∧ (∀ msg, o.next ≠ .abort msg) ∧ (∀ msg, o.next = .fail msg → c.fails = true) := by
  cases b with
  | pause => cases ho; simp [pause]
  | sendLock | recvLock =>
    rcases lock_cases ho with ⟨hf, rfl⟩ | ⟨-, rfl⟩
    · exact ⟨rfl, by simp [failing], fun _ _ => hf⟩
    · simp
  | sendUnlock | recvUnlock =>
    cases ho
    unfold pthread_mutex_unlock
    split
    · next hf => exact ⟨rfl, by simp [failing], fun _ _ => hf⟩
    · simp
  | signal =>
    cases ho
    unfold pthread_cond_signal
    split
    · next hf => exact ⟨rfl, by simp [failing], fun _ _ => hf⟩
    · simp
  | test =>
    simp only [cv_main] at ho
    split at ho <;> (cases ho; simp)
  | condWait =>
    cases ho
    unfold pthread_cond_wait
    split
    · next hf => exact ⟨rfl, by simp [failing], fun _ _ => hf⟩
    · simp
  | asleep =>
    obtain ⟨q, -, rfl⟩ := wakeup_cases ho
    simp
  | relock =>
    obtain ⟨-, rfl⟩ := relock_cases ho
    simp
  | rdtsc | write | take | rdtscp => simp at hb

/-- The branches are those of a relay. -/
theorem cv_lawful (x : Worker) : Lawful (cv_main x) CvAt.phase where
  send := rfl
  recv := rfl
  step {w c mem r b o} h := by
    cases b with
    | pause => cases h; exact .idle
    | rdtsc => cases h; exact fenced_rdtsc_move rfl rfl
    | sendLock | recvLock =>
      rcases lock_cases h with ⟨-, rfl⟩ | ⟨-, rfl⟩
      · exact .stop
      · exact .idle
    | write => cases h; exact .store
    | sendUnlock | recvUnlock =>
      cases h
      unfold pthread_mutex_unlock
      split
      · exact .stop
      · exact .idle
    | signal =>
      cases h
      unfold pthread_cond_signal
      split
      · exact .stop
      · exact .sentOver
    | test =>
      simp only [cv_main] at h
      split at h <;> (cases h; exact .idle)
    | condWait =>
      cases h
      unfold pthread_cond_wait
      split
      · exact .stop
      · exact .idle
    | asleep =>
      obtain ⟨q, -, rfl⟩ := wakeup_cases h
      exact .idle
    | relock =>
      obtain ⟨-, rfl⟩ := relock_cases h
      exact .idle
    | take => cases h; exact .take
    | rdtscp => cases h; exact .legOver

/-! ## The invariant

A receiver that finds its cell stale goes to sleep under the mutex, so the
sender cannot store in between. Once the cell is above the sleeper's timestamp,
the sender that stored it is on its way to the signal; that is the waker that
`Sleepers` asks for. -/

/-- What a worker has seen of its cell when it leaves its test. -/
structure Seen (tsc : Tid → UInt64) (w : Tid) (l : Local CvAt) : Prop where
  take : l.ctl = .body .take → l.regs.tsc < tsc w
  wait : l.ctl = .body .condWait → tsc w ≤ l.regs.tsc

/-- Outside of these places nothing has been seen. -/
theorem Seen.of_ne {tsc : Tid → UInt64} {w : Tid} {l : Local CvAt}
    (h : l.ctl ≠ .body .take ∧ l.ctl ≠ .body .condWait) : Seen tsc w l :=
  ⟨fun ht => absurd ht h.1, fun hw => absurd hw h.2⟩

/-- The worker sleeps in the queue of its condition variable. -/
def CvAsleep (loc : Tid → Local CvAt) (v : Tid) : Prop :=
  (loc v).ctl = .body .asleep

/-- The cell of worker `v` has a message for it. -/
def CvDue (mem : Items) (loc : Tid → Local CvAt) (v : Tid) : Prop :=
  (loc v).regs.tsc < mem.tsc v

/-- About to signal the other worker. -/
def Signalling (loc : Tid → Local CvAt) (v : Tid) : Prop :=
  (loc v).ctl = .body .sendUnlock ∨ (loc v).ctl = .body .signal

/-- The items against the relay. -/
structure CvInv (mem : Items) (loc : Tid → Local CvAt)
    (a : Relay.State UInt64) : Prop where
  stamped : Stamped mem.tsc loc a
  owned : Owned mem.mutex (insideOf loc)
  seen : ∀ v, Seen mem.tsc v (loc v)
  sleepers : Sleepers mem.queue (CvAsleep loc) (CvDue mem loc) (Signalling loc)

section step

variable {n : Nat} {c : Choice} {mem mem' : Items} {loc : Tid → Local CvAt}
  {a a' : Relay.State UInt64} {w : Tid} {l : Local CvAt} {b : CvAt}

/-- A step of the one does not wake the other. -/
theorem cvAsleep_other (h : CvAsleep loc (!w)) :
    CvAsleep (Function.update loc w l) (!w) := by
  simpa [CvAsleep] using h

/-- A worker at any other place is awake. -/
theorem not_cvAsleep (hb : (loc w).ctl = .body b) (hne : b ≠ .asleep) :
    ¬ CvAsleep loc w := by
  simpa [CvAsleep, hb] using hne

/-- A worker at any other place has no signal to make. -/
theorem not_signalling (hb : (loc w).ctl = .body b)
    (hne : b ≠ .sendUnlock ∧ b ≠ .signal) : ¬ Signalling loc w := by
  simpa [Signalling, hb] using hne

/-- The other worker's cell is due only if it was. -/
theorem cvDue_other (ht : mem'.tsc (!w) = mem.tsc (!w))
    (h : CvDue mem' (Function.update loc w l) (!w)) : CvDue mem loc (!w) := by
  simpa [CvDue, ht] using h

/-- A step that leaves the other worker's cell alone leaves what it has seen
alone. -/
theorem seen_update (h : ∀ v, Seen mem.tsc v (loc v))
    (ht : mem'.tsc (!w) = mem.tsc (!w)) (hl : Seen mem'.tsc w l) (v : Tid) :
    Seen mem'.tsc v (Function.update loc w l v) := by
  by_cases hv : v = w
  · subst hv
    simpa using hl
  · obtain rfl : v = !w := by simpa [Bool.eq_not] using hv
    rw [Function.update_of_ne hv]
    exact ⟨fun hc => ht ▸ (h _).take hc, fun hc => ht ▸ (h _).wait hc⟩

/-- A step of a worker that is awake and has nobody to signal. -/
theorem CvInv.step (h : CvInv mem loc a) (hna : ¬ CvAsleep loc w)
    (hns : ¬ Signalling loc w) (hq : mem'.queue = mem.queue)
    (ht : mem'.tsc = mem.tsc)
    (hst : Stamped mem.tsc (Function.update loc w l) a')
    (hmu : Owned mem'.mutex (insideOf (Function.update loc w l)))
    (hseen : Seen mem.tsc w l) : CvInv mem' (Function.update loc w l) a' := by
  refine ⟨by rw [ht]; exact hst, hmu, seen_update h.seen (by rw [ht]) (by rw [ht]; exact hseen),
    ?_⟩
  rw [hq]
  exact h.sleepers.move hns (.inl (h.sleepers.awake hna)) rfl cvAsleep_other
    (cvDue_other (by rw [ht]))

/-- A call that fails leaves everything as it is. -/
theorem CvInv.failing (h : CvInv mem loc a) {msg : String}
    (hread : Monitor.read (next n)
      (Pingpong.failing mem (loc w).regs msg : Out Items CvAt).ev a = some a') :
    CvInv (Pingpong.failing mem (loc w).regs msg : Out Items CvAt).mem
      (Function.update loc w
        ((Pingpong.failing mem (loc w).regs msg).landing (loc w))) a' := by
  cases hread
  simpa [Pingpong.failing, Out.landing] using h

/-- Locking. -/
theorem CvInv.lock {v : Tid} {k : CvAt} {o : Out Items CvAt}
    (h : CvInv mem loc a) (hb : (loc w).ctl = .body b) (hna : b ≠ .asleep)
    (hns : b ≠ .sendUnlock ∧ b ≠ .signal) (hout : b.inside w = none)
    (hin : k.inside w = some v) (hk : k ≠ .take ∧ k ≠ .condWait)
    (hv : mem.mutex v = none)
    (ho : o = { mem := { mem with mutex := Function.update mem.mutex v (some w) },
                regs := (loc w).regs, next := .goto k }) :
    CvInv o.mem (Function.update loc w (o.landing (loc w))) a := by
  subst ho
  refine h.step (not_cvAsleep hb hna) (not_signalling hb hns) rfl rfl
    (h.stamped.congr (update_tsc (Out.landing_tsc rfl))) ?_
    (.of_ne (by simpa [Out.landing] using hk))
  rw [insideOf_update (v := some v) (by simpa [insideOf, Out.landing] using hin)]
  exact h.owned.lock hv (by rw [insideOf_body hb, hout])

/-- Storing the timestamp, which makes the worker its peer's waker. -/
theorem CvInv.write {m : Nat} {last v : UInt64}
    (h : CvInv mem loc ⟨m, last, .armed v⟩)
    (hb : (loc (turn m)).ctl = .body .write) {r : Regs} :
    CvInv { mem with tsc := Function.update mem.tsc (!turn m) v }
      (Function.update loc (turn m) ⟨.body .sendUnlock, r⟩) ⟨m, last, .flight v⟩ := by
  have hin : insideOf loc (turn m) = some (!turn m) := insideOf_body hb
  have hself := h.sleepers.awake (not_cvAsleep hb (by simp))
  refine ⟨h.stamped.send, ?_, fun u => ?_, h.sleepers.arm (.inl (by simp)) hself rfl
    cvAsleep_other⟩
  · rw [insideOf_update (v := some (!turn m)) rfl, ← hin, Function.update_eq_self]
    exact h.owned
  · by_cases hu : u = turn m
    · subst hu
      exact .of_ne (by simp)
    · obtain rfl : u = !turn m := by simpa [Bool.eq_not] using hu
      rw [Function.update_of_ne hu]
      refine .of_ne ⟨fun hc => hu ?_, fun hc => hu ?_⟩
      · exact h.owned.exclusive (insideOf_body hc) hin
      · exact h.owned.exclusive (insideOf_body hc) hin

/-- Releasing the mutex, with the signal ahead. -/
theorem CvInv.sendUnlock (h : CvInv mem loc a)
    (hb : (loc w).ctl = .body .sendUnlock) :
    CvInv { mem with mutex := Function.update mem.mutex (!w) none }
      (Function.update loc w ⟨.body .signal, (loc w).regs⟩) a := by
  have hself := h.sleepers.awake (not_cvAsleep hb (by simp))
  refine ⟨h.stamped.congr (update_tsc rfl), ?_,
    seen_update h.seen rfl (.of_ne (by simp)),
    h.sleepers.arm (.inr (by simp)) hself rfl cvAsleep_other⟩
  rw [insideOf_update (v := none) rfl]
  exact h.owned.unlock (insideOf_body hb)

/-- Signalling: nobody is left in the queues. -/
theorem CvInv.signal {k : Nat} {q : List Tid} {r : Regs} (h : CvInv mem loc a)
    (hb : (loc w).ctl = .body .signal) (hr : r.tsc = (loc w).regs.tsc)
    (hq : q = (mem.queue (!w)).eraseIdx (k % (mem.queue (!w)).length)) :
    CvInv { mem with queue := Function.update mem.queue (!w) q }
      (Function.update loc w ⟨.head, r⟩) a := by
  have hself := h.sleepers.awake (not_cvAsleep hb (by simp))
  refine ⟨h.stamped.congr (update_tsc hr), ?_,
    seen_update h.seen rfl (.of_ne (by simp)), .wake fun v => ?_⟩
  · rw [insideOf_update (v := none) rfl, ← show insideOf loc w = none
      from insideOf_body hb, Function.update_eq_self]
    exact h.owned
  · by_cases hv : v = w
    · simpa [hv] using hself
    · obtain rfl : v = !w := by simpa [Bool.eq_not] using hv
      simpa [hq] using h.sleepers.eraseIdx (!w) k

/-- Going to sleep, not yet due. -/
theorem CvInv.condWait (h : CvInv mem loc a)
    (hb : (loc w).ctl = .body .condWait) :
    CvInv { mem with
        mutex := Function.update mem.mutex w none
        queue := Function.update mem.queue w (mem.queue w ++ [w]) }
      (Function.update loc w ⟨.body .asleep, (loc w).regs⟩) a := by
  have hself := h.sleepers.awake (not_cvAsleep hb (by simp))
  refine ⟨h.stamped.congr (update_tsc rfl), ?_,
    seen_update h.seen rfl (.of_ne (by simp)),
    h.sleepers.move (not_signalling hb (by simp))
      (.inr ⟨by simp [hself], ?_, ?_⟩) (by simp)
      cvAsleep_other (cvDue_other rfl)⟩
  · rw [insideOf_update (v := none) rfl]
    exact h.owned.unlock (insideOf_body hb)
  · simp [CvAsleep]
  · simpa [CvDue] using (h.seen w).wait hb

/-- Waking up. -/
theorem CvInv.wakeup {q : List Tid} (h : CvInv mem loc a)
    (hb : (loc w).ctl = .body .asleep)
    (hq : q = mem.queue w ∧ w ∉ mem.queue w ∨ q = (mem.queue w).erase w) :
    CvInv { mem with queue := Function.update mem.queue w q }
      (Function.update loc w ⟨.body .relock, (loc w).regs⟩) a := by
  have hempty : q = [] := by
    rcases h.sleepers.queued w with he | ⟨he, -⟩ <;> simpa [he] using hq
  refine ⟨h.stamped.congr (update_tsc rfl), ?_,
    seen_update h.seen rfl (.of_ne (by simp)),
    h.sleepers.move (not_signalling hb (by simp)) (.inl (by simp [hempty])) (by simp)
      cvAsleep_other (cvDue_other rfl)⟩
  rw [insideOf_update (v := none) rfl, ← show insideOf loc w = none
    from insideOf_body hb, Function.update_eq_self]
  exact h.owned

end step

/-- The steps of the branches keep the items right. -/
theorem CvInv.keep {x : Worker} {n : Nat} {c : Choice} {mem : Items} {loc : Tid → Local CvAt}
    {a a' : Relay.State UInt64} {w : Tid} {b : CvAt} {o : Out Items CvAt}
    (hg : Good CvAt.phase n loc a) (h : CvInv mem loc a) (hb : (loc w).ctl = .body b)
    (ho : (cv_main x).step w c mem (loc w).regs b = some o)
    (hread : Monitor.read (next n) o.ev a = some a') :
    CvInv o.mem (Function.update loc w (o.landing (loc w))) a' := by
  cases b with
  | pause =>
    cases ho
    cases hread
    refine h.step (not_cvAsleep hb (by simp)) (not_signalling hb (by simp)) rfl rfl
      (h.stamped.congr (update_tsc (Out.landing_tsc rfl))) ?_ (.of_ne (by simp [Out.landing, pause]))
    rw [insideOf_goto (k := .rdtsc) hb rfl rfl]
    exact h.owned
  | rdtsc =>
    cases ho
    rw [fenced_rdtsc_ev] at hread
    obtain ⟨m, last, stage, rfl, rfl, -, hstage⟩ := read_clock hread
    have hnext := fenced_rdtsc_next w c mem (loc w).regs CvAt.rdtsc CvAt.sendLock
    refine h.step (not_cvAsleep hb (by simp)) (not_signalling hb (by simp)) (by simp) (by simp)
      ((h.stamped.clock hstage).congr (update_tsc (Out.landing_tsc (by simp)))) ?_ (.of_ne ?_)
    · rw [fenced_rdtsc_mem]
      rcases hnext with hn | hn <;>
        (rw [insideOf_goto hb hn rfl]; exact h.owned)
    · rcases hnext with hn | hn <;> simp [Out.landing, hn]
  | sendLock =>
    -- a failing call changes nothing but the fate of the worker
    rcases lock_cases ho with ⟨-, rfl⟩ | ⟨hv, rfl⟩
    · exact h.failing hread
    · cases hread
      exact h.lock hb (by simp) (by simp) rfl rfl (by simp) hv rfl
  | write =>
    cases ho
    obtain ⟨m, last, rfl, rfl, rfl⟩ := read_send hread
    exact h.write hb
  | sendUnlock =>
    cases ho
    rcases unlock_cases c mem (loc w).regs (!w) "sender: mutex unlock" .signal with ⟨-, hf⟩ | hu
    · rw [hf] at hread ⊢
      exact h.failing hread
    · rw [hu] at hread ⊢
      cases hread
      exact h.sendUnlock hb
  | signal =>
    cases ho
    unfold pthread_cond_signal at hread ⊢
    split at hread
    · next hf =>
      rw [if_pos hf]
      exact h.failing hread
    · next hf =>
      rw [if_neg hf]
      cases hread
      exact h.signal hb rfl rfl
  | recvLock =>
    rcases lock_cases ho with ⟨-, rfl⟩ | ⟨hv, rfl⟩
    · exact h.failing hread
    · cases hread
      exact h.lock hb (by simp) (by simp) rfl rfl (by simp) hv rfl
  | test =>
    -- either outcome is remembered (`Seen`): going to sleep rests on it
    have hstamped : ∀ {o : Out Items CvAt}, o.regs.tsc = (loc w).regs.tsc →
        Stamped mem.tsc (Function.update loc w (o.landing (loc w))) a :=
      fun hr => h.stamped.congr (update_tsc (Out.landing_tsc hr))
    simp only [cv_main] at ho
    split at ho
    · next hle =>
      cases ho
      cases hread
      refine h.step (not_cvAsleep hb (by simp)) (not_signalling hb (by simp)) rfl rfl
        (hstamped rfl) ?_ ⟨by simp [Out.landing], fun _ => hle⟩
      rw [insideOf_goto (k := .condWait) hb rfl rfl]
      exact h.owned
    · next hlt =>
      cases ho
      cases hread
      refine h.step (not_cvAsleep hb (by simp)) (not_signalling hb (by simp)) rfl rfl
        (hstamped rfl) ?_ ⟨fun _ => not_le.mp hlt, by simp [Out.landing]⟩
      rw [insideOf_goto (k := .take) hb rfl rfl]
      exact h.owned
  | condWait =>
    cases ho
    unfold pthread_cond_wait at hread ⊢
    split at hread
    · next hf =>
      rw [if_pos hf]
      exact h.failing hread
    · next hf =>
      rw [if_neg hf]
      cases hread
      exact h.condWait hb
  | asleep =>
    obtain ⟨q, hq, rfl⟩ := wakeup_cases ho
    cases hread
    exact h.wakeup hb hq
  | relock =>
    obtain ⟨hv, rfl⟩ := relock_cases ho
    cases hread
    exact h.lock hb (by simp) (by simp) rfl rfl (by simp) hv rfl
  | take =>
    cases ho
    obtain ⟨m, last, rfl, rfl, rfl⟩ := read_recv hread
    refine h.step (not_cvAsleep hb (by simp)) (not_signalling hb (by simp)) rfl rfl
      h.stamped.recv ?_ (.of_ne (by simp [Out.landing]))
    rw [insideOf_goto (k := .recvUnlock) hb rfl rfl]
    exact h.owned
  | recvUnlock =>
    cases ho
    rcases unlock_cases c mem (loc w).regs w "retrieve: mutex unlock" .rdtscp with ⟨-, hf⟩ | hu
    · rw [hf] at hread ⊢
      exact h.failing hread
    · rw [hu] at hread ⊢
      cases hread
      refine h.step (not_cvAsleep hb (by simp)) (not_signalling hb (by simp)) rfl rfl
        (h.stamped.congr (update_tsc (Out.landing_tsc rfl))) ?_ (.of_ne (by simp [Out.landing]))
      rw [insideOf_update (v := none) rfl]
      exact h.owned.unlock (insideOf_body hb)
  | rdtscp =>
    cases ho
    -- the receiver has raised its `tsc`, so its cell is stale again
    have hlast := hg.tsc_turn
    obtain ⟨m, last, rfl, rfl, rfl⟩ := read_leg hread
    refine h.step (not_cvAsleep hb (by simp)) (not_signalling hb (by simp)) rfl rfl
      (h.stamped.leg (by simpa using hlast)) ?_ (.of_ne (by simp [Out.landing, fenced_rdtscp]))
    rw [insideOf_update (v := none) rfl,
      ← show insideOf loc (!turn m) = none from insideOf_body hb, Function.update_eq_self]
    exact h.owned

/-- **The condition variables follow the protocol.** -/
def cvProtocol (x : Worker) : Protocol (cv_main x) where
  ph := CvAt.phase
  lawful := cv_lawful x
  Inv := CvInv
  setup h := by cases h
  init {c₀ c₁ m₀ m₁ loc} h₀ h₁ hfresh := by
    cases h₀
    cases h₁
    have hctl : ∀ w b, (loc w).ctl ≠ .body b := by
      intro w b hb
      obtain ⟨hc, -⟩ := hfresh w
      simp [hb] at hc
    refine ⟨.start fun _ => rfl, fun v u => ?_, fun v => .of_ne ⟨hctl _ _, hctl _ _⟩,
      .wake fun _ => rfl⟩
    have hnone : insideOf loc u = none := by
      obtain ⟨hc | hc, -⟩ := hfresh u <;> simp [insideOf, hc]
    simp [hnone, cv_main]
  frame {n sw mem loc a w k} _ h hf := by
    have hctl : ∀ b, (loc w).ctl ≠ .body b := by
      intro b hb
      cases hf with
      | gate hc | head hc | send hc | recv hc | finalize hc =>
        rw [hc] at hb; cases hb
    have hin : insideOf loc w = none := by
      cases hf with
      | gate hc | head hc | send hc | recv hc | finalize hc =>
        simp [insideOf, hc]
    have hns : ¬ Signalling loc w := fun hs => hs.elim (hctl _) (hctl _)
    refine h.step (hctl _) hns rfl rfl (h.stamped.congr (update_tsc rfl)) ?_ ?_
    · rw [insideOf_update (v := none) (by cases hf <;> rfl), ← hin,
        Function.update_eq_self]
      exact h.owned
    · cases hf <;> exact .of_ne (by simp [cv_main])
  take {n c mem loc a w b o v} hg h hb ho hev := by
    cases b with
    | take =>
      cases ho
      cases hev
      exact (CvInv.stamped h).flight hg hb rfl ((CvInv.seen h w).take hb)
    | rdtsc =>
      cases ho
      simp at hev
    | write | rdtscp => cases ho; cases hev
    | _ =>
      rw [(cv_call ho (by simp)).1] at hev
      cases hev
  keep := CvInv.keep
  sound {n c mem loc a w b o} _ _ _ ho := by
    cases b with
    | rdtsc | write | take | rdtscp => cases ho; simp [fenced_rdtscp]
    | _ => exact (cv_call ho (by simp)).2

/-- Where a worker can wait: for a mutex, or asleep. -/
theorem cv_waits {x : Worker} {w : Tid} {mem : Items} {r : Regs} {b : CvAt}
    (hw : Waits (cv_main x) w mem r b) :
    (b = .sendLock ∧ ∃ u, mem.mutex (!w) = some u) ∨
      ((b = .recvLock ∨ b = .relock) ∧ ∃ u, mem.mutex w = some u) ∨
      b = .asleep ∧ w ∈ mem.queue w := by
  have hgo : ∀ {o : Out Items CvAt}, (cv_main x).step w {} mem r b = some o →
      o.next = .goto b ∧ o.mem = mem ∧ o.regs = r ∧ o.ev = [] :=
        fun ho => hw {} ⟨rfl, rfl⟩ _ ho
  cases b with
  | sendLock =>
    cases hm : mem.mutex (!w) with
    | some u => exact .inl ⟨rfl, u, rfl⟩
    | none =>
      obtain ⟨hn, -⟩ := hgo (by simp [cv_main, pthread_mutex_lock, hm]; rfl)
      cases hn
  | recvLock =>
    cases hm : mem.mutex w with
    | some u => exact .inr (.inl ⟨.inl rfl, u, rfl⟩)
    | none =>
      obtain ⟨hn, -⟩ := hgo (by simp [cv_main, pthread_mutex_lock, hm]; rfl)
      cases hn
  | relock =>
    cases hm : mem.mutex w with
    | some u => exact .inr (.inl ⟨.inr rfl, u, rfl⟩)
    | none =>
      obtain ⟨hn, -⟩ := hgo (by simp [cv_main, pthread_cond_relock, hm]; rfl)
      cases hn
  | asleep =>
    refine .inr (.inr ⟨rfl, ?_⟩)
    by_contra hq
    obtain ⟨hn, -⟩ := hgo (by simp [cv_main, pthread_cond_wakeup, hq]; rfl)
    cases hn
  | test =>
    by_cases hle : mem.tsc w ≤ r.tsc
    · obtain ⟨hn, -⟩ := hgo (by simp [cv_main, hle]; rfl)
      cases hn
    · obtain ⟨hn, -⟩ := hgo (by simp [cv_main, hle]; rfl)
      cases hn
  | rdtsc =>
    obtain ⟨-, -, -, hev⟩ := hgo rfl
    simp at hev
  | pause | write | sendUnlock | signal | condWait | take | recvUnlock | rdtscp =>
    obtain ⟨hn, -⟩ := hgo rfl
    cases hn

/-- A worker inside a mutex has something that its peer needs, unless it has
taken its message; one that is about to signal may have a sleeper to wake. -/
def cvLive (x : Worker) : Live (cvProtocol x) where
  hold mem w b :=
    (b = .write ∨ b = .sendUnlock ∨ b = .test ∨ b = .condWait ∨ b = .take) ∨
    b = .signal ∧ mem.queue (!w) ≠ []
  blocked {n mem loc a w b} hg h hb hw := by
    have howner : ∀ {v u}, b.inside w = none → mem.mutex v = some u →
        ∃ b', (loc (!w)).ctl = .body b' ∧ b'.inside (!w) = some v := by
      intro v u hout hv
      have hin := (CvInv.owned h v u).mp hv
      have hu : u = !w := by
        by_contra hne
        obtain rfl : u = w := by simpa [Bool.eq_not] using hne
        rw [insideOf_body hb, hout] at hin
        cases hin
      subst hu
      unfold insideOf at hin
      cases hc : (loc (!w)).ctl with
      | body b' => exact ⟨b', rfl, by simpa [hc] using hin⟩
      | _ => simp [hc] at hin
    rcases cv_waits hw with ⟨rfl, u, hu⟩ | ⟨hlock, u, hu⟩ | ⟨rfl, hq⟩
    · obtain ⟨b', hb', hin⟩ := howner rfl hu
      refine .inr ⟨b', hb', .inl ?_⟩
      have harmed := (hg.where hb).1
      cases b' with
      | recvUnlock =>
        have htaken := (hg.where hb').1
        rw [harmed] at htaken
        cases htaken
      | _ => simp [CvAt.inside] at hin ⊢
    · obtain ⟨b', hb', hin⟩ :=
        howner (by rcases hlock with rfl | rfl <;> rfl) hu
      refine .inr ⟨b', hb', .inl ?_⟩
      cases b' <;> simp [CvAt.inside] at hin ⊢
    · have hne : mem.queue w ≠ [] := List.ne_nil_of_mem hq
      by_cases hdue : (loc w).regs.tsc < mem.tsc w
      · rcases (CvInv.sleepers h).pending w hne hdue with hs | hs
        · exact .inr ⟨_, hs, .inl (by simp)⟩
        · exact .inr ⟨_, hs, .inr ⟨rfl, by simpa using hne⟩⟩
      · refine .inl ⟨rfl, fun v hv => ?_⟩
        by_contra hnt
        obtain rfl : w = !turn a.m := by simpa [Bool.eq_not] using hnt
        exact hdue ((CvInv.stamped h).above hg hv)
  moves {n mem loc a w b} _ _ _ hhold hw := by
    rcases cv_waits hw
      with ⟨rfl, -⟩ | ⟨rfl | rfl, -⟩ | ⟨rfl, -⟩ <;> simp at hhold

/-! ## Runs

The run of the witness stops where the message is stored and the signal is still
to come. -/

/-- **No lost notification.** In every run without failing calls: every value
a receiver takes is the next one the other thread wrote, a receiver asleep
although its cell is above its `tsc` has been signalled or is about to be, and
an unfinished thread is never stuck. -/
theorem cv_no_lost_notification {x : Worker} {h : List Event}
    {s : State Items CvAt}
    (hrun : Run (spin_pingpong (cv_main x) x) NoFail h s) :
    ExactlyOnce h ∧
      (∀ w, (s.loc w).ctl = .body .asleep → (s.loc w).regs.tsc < s.mem.tsc w →
        w ∉ s.mem.queue w ∨
          (s.thr (!w)).status = .running ∧
            ((s.loc (!w)).ctl = .body .sendUnlock ∨ (s.loc (!w)).ctl = .body .signal)) ∧
      ((∃ w, s.Unfinished w) → ¬ Stuck (cv_main x) x s) := by
  obtain ⟨a, ha, hH⟩ := (cvProtocol x).refines hrun
  refine ⟨ha.exactlyOnce, fun w hw hdue => ?_, (cvLive x).no_fail_not_stuck hrun⟩
  by_cases hq : w ∈ s.mem.queue w
  · have hinv := (hH.after (hH.passed hw)).1
    have hs := (CvInv.sleepers hinv).pending w (List.ne_nil_of_mem hq) hdue
    refine .inr ⟨?_, hs⟩
    rcases hs with hs | hs <;> exact (cvProtocol x).running hrun hs
  · exact .inl hq

/-- One iteration of `cv_main`: thread 1 sleeps, thread 0 has stored its
timestamp and has yet to signal. -/
def cvSent : List Label :=
  List.flatten
    [List.replicate 5 (.main {}), List.replicate 6 (.worker true {}),
      List.replicate 4 (.worker false {}), [.worker false { clock := 5 }],
      List.replicate 3 (.worker false {})]

/-- The labels make a run, with these events. -/
theorem cvSent_run :
    ∃ s, Run (spin_pingpong (cv_main ⟨2, 0, 0⟩) ⟨2, 0, 0⟩) NoFail
    [.clock false 5, .send false 5] s :=
  Machine.run_of_exec cvSent (by decide)

/-- A state with one message under way. -/
theorem cv_no_lost_notification_two : ∃ s,
    Run (spin_pingpong (cv_main ⟨2, 0, 0⟩) ⟨2, 0, 0⟩) NoFail
        [.clock false 5, .send false 5] s ∧
      ExactlyOnce [.clock false 5, .send false (5 : UInt64)] ∧
      ((∃ w, s.Unfinished w) → ¬ Stuck (cv_main ⟨2, 0, 0⟩) ⟨2, 0, 0⟩ s) := by
  obtain ⟨s, hrun⟩ := cvSent_run
  obtain ⟨honce, -, hstuck⟩ := cv_no_lost_notification hrun
  exact ⟨s, hrun, honce, hstuck⟩

end Osjitter.Pingpong
