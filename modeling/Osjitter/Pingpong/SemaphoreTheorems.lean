/-
Osjitter.Pingpong.SemaphoreTheorems — the semaphores pass a token.

A semaphore's value is the slot of a token (`Osjitter.Lib.Token`), and a
thread between its `sem_wait` and its `sem_post` has the token in its grip.
`SemInv` adds that the receiver's stripe holds the timestamp in flight.

`SemAt.grip` says which control points have the token, `sem_wait_cases` and
`sem_post_cases` what the calls do, and `SemInv.keep` that every step keeps the
invariant, each by one lemma of the library. `semProtocol` and `semLive` are
what the general theorems ask for; a thread that waits does so for the token of
the other.

`sem_one_token` is the result for every run: the two values and the threads
between their calls make one token, so one thread at a time is inside, the
fields are read and written by it alone, messages are received once and in
order, and while no call has failed somebody can go on.
-/
import Osjitter.Pingpong.Semaphore
import Osjitter.Pingpong.Progress

namespace Osjitter.Pingpong

open Machines Relay

/-! ## The branches

The control points are in the phases of the relay, and `SemAt.grip` says which
of them are between a wait and a post. What the two calls do is stated once,
with their failures. -/

/-- The phase of a control point. -/
def SemAt.phase : SemAt → Phase
  | .sendWait | .pause | .rdtsc => .ready
  | .write => .armed
  | .sendPost => .sent
  | .recvWait | .read => .waiting
  | .rdtscp => .taken
  | .recvPost => .recorded

/-- What a thread at a control point has of the token. -/
def SemAt.grip : SemAt → Grip
  | .sendWait | .recvWait => .free
  | .sendPost => .passing
  | _ => .held

/-- The token is passed on by posting the other's semaphore. -/
theorem SemAt.eq_of_passing {b : SemAt} (h : b.grip = .passing) :
    b = .sendPost := by
  cases b with
  | sendPost => rfl
  | _ => cases h

/-- The value of a semaphore, 0 before it is initialised. -/
def Stripes.value (mem : Stripes) (v : Tid) : Nat := (mem.sem v).getD 0

/-- A semaphore is a slot: its value is the number of tokens. -/
@[simp] theorem Stripes.value_update (mem : Stripes) (v : Tid) (k : Nat) :
    Stripes.value { mem with sem := Function.update mem.sem v (some k) } =
      Function.update mem.value v k := by
  funext u
  by_cases hu : u = v
  · subst hu
    simp [value]
  · simp [value, Function.update_of_ne hu]

/-- The call failed, or its semaphore was not initialised. -/
def SemFails (c : Choice) (mem : Stripes) (r : Regs) (v : Tid)
    (o : Out Stripes SemAt) : Prop :=
  ∃ msg, o = failing mem r msg ∧ (c.fails = true ∨ mem.sem v = none)

/-- Waiting fails, or takes one from a value above 0. -/
theorem sem_wait_cases {c : Choice} {mem : Stripes} {r : Regs} {v : Tid}
    {b : SemAt} {o : Out Stripes SemAt} (h : sem_wait c mem r v b = some o) :
    SemFails c mem r v o ∨ ∃ k, mem.sem v = some (k + 1) ∧
      o = { mem := { mem with sem := Function.update mem.sem v (some k) }, regs := r,
            next := .goto b } := by
  unfold sem_wait at h
  split at h
  · next hf => cases h; exact .inl ⟨_, rfl, .inl hf⟩
  · split at h
    · next hn => cases h; exact .inl ⟨_, rfl, .inr hn⟩
    · cases h
    · next k hk => cases h; exact .inr ⟨k, hk, rfl⟩

/-- Posting fails, or adds one. -/
theorem sem_post_cases (c : Choice) (mem : Stripes) (r : Regs) (v : Tid) :
    SemFails c mem r v (sem_post c mem r v) ∨ ∃ k, mem.sem v = some k ∧
      sem_post c mem r v =
        { mem := { mem with sem := Function.update mem.sem v (some (k + 1)) },
          regs := r, next := .next } := by
  unfold sem_post
  split
  · next hf => exact .inl ⟨_, rfl, .inl hf⟩
  · split
    · next hn => exact .inl ⟨_, rfl, .inr hn⟩
    · next k hk => exact .inr ⟨k, hk, rfl⟩

/-- The branches are those of a relay. -/
theorem semaphore_lawful (x : Worker) :
    Lawful (semaphore_main x) SemAt.phase where
  send := rfl
  recv := rfl
  step {w c mem r b o} h := by
    cases b with
    | sendWait | recvWait =>
      rcases sem_wait_cases h with ⟨msg, rfl, -⟩ | ⟨k, -, rfl⟩
      · exact .stop
      · exact .idle
    | pause => cases h; exact .idle
    | rdtsc => cases h; exact fenced_rdtsc_move rfl rfl
    | write => cases h; exact .store
    | sendPost =>
      cases h
      rcases sem_post_cases c mem r (!w) with ⟨msg, hf, -⟩ | ⟨k, -, hp⟩
      · rw [hf]; exact .stop
      · rw [hp]; exact .sentOver
    | read => cases h; exact .take
    | rdtscp => cases h; exact .leg
    | recvPost =>
      cases h
      rcases sem_post_cases c mem r w with ⟨msg, hf, -⟩ | ⟨k, -, hp⟩
      · rw [hf]; exact .stop
      · rw [hp]; exact .recordedOver

/-! ## The invariant

Values and grips are those of `Lib.Token`, and the timestamp is where the
receiver will read it. Both semaphores are there, as they are initialised before
the threads are created. -/

/-- The stripes against the relay. -/
structure SemInv (mem : Stripes) (loc : Tid → Local SemAt)
    (a : Relay.State UInt64) : Prop where
  created : ∀ v, (mem.sem v).isSome = true
  token : Token mem.value (grips SemAt.grip loc) a
  stamp : ∀ v, a.stage = .flight v → mem.tsc (!turn a.m) = v

/-- The value of a semaphore that is there. -/
theorem SemInv.value_eq {mem : Stripes} {loc : Tid → Local SemAt}
    {a : Relay.State UInt64} (_ : SemInv mem loc a) {v : Tid} {k : Nat}
    (hk : mem.sem v = some k) : mem.value v = k := by
  simp [Stripes.value, hk]

/-- A semaphore that is changed is still there. -/
theorem isSome_update {f : Tid → Option Nat} (h : ∀ v, (f v).isSome = true)
    (w : Tid) (k : Nat) (v : Tid) :
    (Function.update f w (some k) v).isSome = true := by
  by_cases hv : v = w
  · subst hv
    simp
  · simp [Function.update_of_ne hv, h v]

/-- A call that fails leaves everything as it is. -/
theorem SemInv.failing {c : Choice} {n : Nat} {mem : Stripes}
    {loc : Tid → Local SemAt} {a a' : Relay.State UInt64} {w v : Tid}
    {o : Out Stripes SemAt} (h : SemInv mem loc a)
    (ho : SemFails c mem (loc w).regs v o)
    (hread : Monitor.read (next n) o.ev a = some a') :
    SemInv o.mem (Function.update loc w (o.landing (loc w))) a' := by
  obtain ⟨msg, rfl, -⟩ := ho
  cases hread
  simpa [Pingpong.failing, Out.landing] using h

/-- The steps of the branches keep the stripes right. -/
theorem SemInv.keep {x : Worker} {n : Nat} {c : Choice} {mem : Stripes}
    {loc : Tid → Local SemAt} {a a' : Relay.State UInt64} {w : Tid} {b : SemAt}
    {o : Out Stripes SemAt} (hg : Good SemAt.phase n loc a)
    (h : SemInv mem loc a) (hb : (loc w).ctl = .body b)
    (ho : (semaphore_main x).step w c mem (loc w).regs b = some o)
    (hread : Monitor.read (next n) o.ev a = some a') :
    SemInv o.mem (Function.update loc w (o.landing (loc w))) a' := by
  have hgrip : grips SemAt.grip loc w = b.grip := by simp [grips, hb, Ctl.grip]
  cases b with
  | sendWait | recvWait =>
    rcases sem_wait_cases ho with hf | ⟨k, hk, rfl⟩
    · exact h.failing hf hread
    · cases hread
      refine ⟨isSome_update h.created w k, ?_, h.stamp⟩
      rw [Stripes.value_update, grips_update]
      exact h.token.acquire hgrip (by simp [Stripes.value, hk])
  | pause =>
    cases ho
    cases hread
    refine ⟨h.created, ?_, h.stamp⟩
    rw [grips_goto (k := .rdtsc) hb rfl rfl]
    exact h.token
  | rdtsc =>
    cases ho
    rw [fenced_rdtsc_ev] at hread
    obtain ⟨m, last, stage, rfl, rfl, -, hstage⟩ := read_clock hread
    rw [fenced_rdtsc_mem]
    refine ⟨h.created, ?_, ?_⟩
    · rw [grips_rdtsc (k := .write) hb rfl]
      exact h.token.clock hstage
    · rcases hstage with rfl | rfl <;> simp
  | write =>
    cases ho
    -- the timestamp goes to the stripe of the other, which nobody reads yet
    obtain ⟨m, last, rfl, rfl, rfl⟩ := read_send hread
    refine ⟨h.created, ?_, by simp⟩
    rw [grips_update]
    exact h.token.send hgrip
  | sendPost =>
    cases ho
    rcases sem_post_cases c mem (loc w).regs (!w) with hf | ⟨k, hk, hp⟩
    · exact h.failing hf hread
    · rw [hp] at hread ⊢
      cases hread
      refine ⟨isSome_update h.created (!w) (k + 1), ?_, h.stamp⟩
      rw [Stripes.value_update, grips_update, ← h.value_eq hk]
      exact h.token.pass hgrip
  | read =>
    cases ho
    obtain ⟨m, last, rfl, rfl, rfl⟩ := read_recv hread
    refine ⟨h.created, ?_, by simp⟩
    rw [grips_goto (k := .rdtscp) hb rfl rfl]
    exact h.token.recv hgrip
  | rdtscp =>
    cases ho
    obtain ⟨m, last, rfl, rfl, rfl⟩ := read_leg hread
    refine ⟨h.created, ?_, by simp⟩
    rw [grips_goto (k := .recvPost) hb rfl rfl]
    exact h.token.leg
  | recvPost =>
    cases ho
    -- the leg is recorded, so this worker is the next sender
    have hready : a.stage = .ready := (hg.where hb).1
    rcases sem_post_cases c mem (loc w).regs w with hf | ⟨k, hk, hp⟩
    · exact h.failing hf hread
    · rw [hp] at hread ⊢
      cases hread
      refine ⟨isSome_update h.created w (k + 1), ?_, h.stamp⟩
      rw [Stripes.value_update, grips_update, ← h.value_eq hk]
      exact h.token.release (by simp [hready, isSent]) hgrip

/-- **The semaphores follow the protocol.** -/
def semProtocol (x : Worker) : Protocol (semaphore_main x) where
  ph := SemAt.phase
  lawful := semaphore_lawful x
  Inv := SemInv
  setup {i c mem msg} h := by
    simp only [semaphore_main] at h
    split at h
    · assumption
    · cases h
  init {c₀ c₁ m₀ m₁ loc} h₀ h₁ hfresh := by
    simp only [semaphore_main] at h₀ h₁
    split at h₀
    · cases h₀
    split at h₁
    · cases h₁
    cases h₀
    cases h₁
    have hfree : ∀ w, grips SemAt.grip loc w = .free := by
      intro w
      obtain ⟨hc | hc, -⟩ := hfresh w <;> simp [grips, hc, Ctl.grip]
    refine ⟨fun v => by cases v <;> simp [Function.update], ?_, by simp [start]⟩
    constructor <;> simp [hfree, start, isSent, isTaken, Stripes.value, Function.update]
  frame _ h hf :=
    ⟨h.created, by rw [hf.grips_eq rfl rfl]; exact h.token, h.stamp⟩
  take {n c mem loc a w b o v} hg h hb ho hev := by
    cases b with
    | read =>
      cases ho
      cases hev
      obtain ⟨⟨v, hv⟩, hw⟩ := hg.reader h.token hb rfl rfl
      rw [hw, h.stamp v hv]
      exact ⟨hv, rfl⟩
    | sendWait | recvWait =>
      rcases sem_wait_cases ho with ⟨msg, rfl, -⟩ | ⟨k, -, rfl⟩ <;> cases hev
    | sendPost =>
      cases ho
      rcases sem_post_cases c mem (loc w).regs (!w)
        with ⟨msg, hf, -⟩ | ⟨k, -, hp⟩
      · rw [hf] at hev; cases hev
      · rw [hp] at hev; cases hev
    | recvPost =>
      cases ho
      rcases sem_post_cases c mem (loc w).regs w with ⟨msg, hf, -⟩ | ⟨k, -, hp⟩
      · rw [hf] at hev; cases hev
      · rw [hp] at hev; cases hev
    | rdtsc =>
      cases ho
      simp at hev
    | pause | write | rdtscp => cases ho; cases hev
  keep := SemInv.keep
  sound {n c mem loc a w b o} _ h _ ho := by
    -- a call fails if the environment says so; a semaphore is always there
    have hfails : ∀ {v}, SemFails c mem (loc w).regs v o →
        (∀ msg, o.next ≠ .abort msg) ∧
            (∀ msg, o.next = .fail msg → c.fails = true) := by
      rintro v ⟨msg, rfl, hf | hn⟩
      · exact ⟨by simp [failing], fun _ _ => hf⟩
      · have hc := SemInv.created h v
        rw [hn] at hc
        cases hc
    cases b with
    | sendWait | recvWait =>
      rcases sem_wait_cases ho with hf | ⟨k, -, rfl⟩
      · exact hfails hf
      · simp
    | sendPost =>
      cases ho
      rcases sem_post_cases c mem (loc w).regs (!w) with hf | ⟨k, -, hp⟩
      · exact hfails hf
      · simp [hp]
    | recvPost =>
      cases ho
      rcases sem_post_cases c mem (loc w).regs w with hf | ⟨k, -, hp⟩
      · exact hfails hf
      · simp [hp]
    | pause | rdtsc | write | read | rdtscp =>
      cases ho
      simp [pause, fenced_rdtscp]

/-- A `sem_post` never waits. -/
theorem sem_post_next {mem : Stripes} (h : ∀ v, (mem.sem v).isSome = true)
    (r : Regs) (v : Tid) : (sem_post {} mem r v).next = .next := by
  obtain ⟨k, hk⟩ := Option.isSome_iff_exists.mp (h v)
  simp [sem_post, hk]

/-- A `sem_wait` only waits for a semaphore at 0. -/
theorem sem_wait_zero {x : Worker} {w : Tid} {mem : Stripes} {r : Regs}
    {b : SemAt} (h : ∀ v, (mem.sem v).isSome = true)
    (hb : b = .sendWait ∨ b = .recvWait)
    (hw : Waits (semaphore_main x) w mem r b) : mem.value w = 0 := by
  obtain ⟨k, hk⟩ := Option.isSome_iff_exists.mp (h w)
  cases k with
  | zero => simp [Stripes.value, hk]
  | succ k =>
    rcases hb with rfl | rfl <;>
      (obtain ⟨hn, -⟩ := hw {} ⟨rfl, rfl⟩ _
        (by simp [semaphore_main, sem_wait, hk]; rfl)
       cases hn)

/-- A thread that is about to post has the token that its peer needs. -/
def semLive (x : Worker) : Live (semProtocol x) where
  hold _ _ b := b = .sendPost
  blocked {n mem loc a w b} hg h hb hw := by
    obtain ⟨hcreated, htoken, -⟩ := h
    have hgrip : grips SemAt.grip loc w = b.grip := by
      simp [grips, hb, Ctl.grip]
    cases b with
    | sendWait =>
      obtain ⟨hst, rfl, -⟩ := hg.where hb
      have hone := htoken.sender_slot (by simp [hst, isSent]) hgrip
      rw [sem_wait_zero hcreated (.inl rfl) hw] at hone
      cases hone
    | recvWait =>
      have hzero := sem_wait_zero hcreated (.inr rfl) hw
      by_cases hflight : ∀ v, a.stage = .flight v → w = turn a.m
      · exact .inl ⟨rfl, hflight⟩
      · obtain ⟨v, hst, hne⟩ : ∃ v, a.stage = .flight v ∧ w ≠ turn a.m := by
          simpa using hflight
        obtain rfl : w = !turn a.m := by simpa [Bool.eq_not] using hne
        rcases htoken.on_the_way hst with hp | ⟨hone, -⟩
        · refine .inr ?_
          rw [Bool.not_not]
          obtain ⟨b', hb', hp⟩ := grips_passing hp
          exact ⟨b', hb', SemAt.eq_of_passing hp⟩
        · rw [hgrip, hzero] at hone
          cases hone
    | rdtsc =>
      obtain ⟨-, -, -, hev⟩ := hw {} ⟨rfl, rfl⟩ _ rfl
      simp at hev
    | sendPost | recvPost =>
      obtain ⟨hn, -⟩ := hw {} ⟨rfl, rfl⟩ _ rfl
      rw [sem_post_next hcreated] at hn
      cases hn
    | pause | write | read | rdtscp =>
      obtain ⟨hn, -⟩ := hw {} ⟨rfl, rfl⟩ _ rfl
      cases hn
  moves {n mem loc a w b} _ h _ hhold hw := by
    obtain rfl : b = .sendPost := hhold
    obtain ⟨hn, -⟩ := hw {} ⟨rfl, rfl⟩ _ rfl
    rw [sem_post_next (SemInv.created h)] at hn
    cases hn

/-! ## Runs

The invariant holds in every state of a run, and the statement says what it
means there for the values and the threads between their calls. -/

/-- 1 if the thread is between a completed `sem_wait` and the following
`sem_post`. -/
def inside (l : Local SemAt) : Nat :=
  match l.ctl with
  | .body .sendWait | .body .recvWait => 0
  | .body _ => 1
  | _ => 0

/-- A thread between its calls has the token. -/
theorem inside_eq (l : Local SemAt) :
    inside l = (l.ctl.grip SemAt.grip).count := by
  unfold inside
  cases hc : l.ctl with
  | body b => cases b <;> rfl
  | _ => rfl

/-- **One token in the system.** In every run without failing calls: once
the gate is open the two semaphores and the threads between wait and post add
up to 1, no thread writes a stripe that the other is about to read, every
timestamp read is the next one the other thread wrote, an unfinished thread is
never stuck, and no branch runs before both semaphores are initialised. -/
theorem sem_one_token {x : Worker} {h : List Event} {s : State Stripes SemAt}
    (hrun : Run (spin_pingpong (semaphore_main x) x) NoFail h s) :
    (s.start_work = true →
        s.mem.value false + s.mem.value true +
          (inside (s.loc false) + inside (s.loc true)) = 1) ∧
      (∀ w, ¬ ((s.loc w).ctl = .body .write ∧ (s.loc (!w)).ctl = .body .read)) ∧
      ExactlyOnce h ∧
      ((∃ w, s.Unfinished w) → ¬ Stuck (semaphore_main x) x s) ∧
      (∀ w b, (s.loc w).ctl = .body b → ∀ v, (s.mem.sem v).isSome = true) := by
  obtain ⟨a, ha, hH⟩ := (semProtocol x).refines hrun
  refine ⟨fun hsw => ?_, ?_, ha.exactlyOnce, (semLive x).no_fail_not_stuck hrun,
    fun w b hb v => SemInv.created (hH.after (hH.passed hb)).1 v⟩
  · have hone := (SemInv.token (hH.after hsw).1).one
    simp only [grips] at hone
    rw [inside_eq, inside_eq]
    omega
  · rintro w ⟨hwrite, hread⟩
    have htoken := SemInv.token (hH.after (hH.passed hwrite)).1
    obtain ⟨hfree, -⟩ :=
      htoken.alone (w := w) (by simp [grips, hwrite, Ctl.grip, SemAt.grip])
    simp [grips, hread, Ctl.grip, SemAt.grip] at hfree

/-- One iteration of `semaphore_main`: thread 0 has sent and posted, thread 1
is about to wait. -/
def semSent : List Label :=
  List.flatten
    [List.replicate 5 (.main {}), List.replicate 5 (.worker false {}),
      [.worker false { clock := 5 }], List.replicate 2 (.worker false {}),
      List.replicate 3 (.worker true {})]

/-- The labels make a run, with these events. -/
theorem semSent_run :
    ∃ s, Run (spin_pingpong (semaphore_main ⟨2, 0, 0⟩) ⟨2, 0, 0⟩) NoFail
    [.clock false 5, .send false 5] s :=
  Machine.run_of_exec semSent (by decide)

/-- A state with one message under way. -/
theorem sem_one_token_two : ∃ s,
    Run (spin_pingpong (semaphore_main ⟨2, 0, 0⟩) ⟨2, 0, 0⟩) NoFail
        [.clock false 5, .send false 5] s ∧
      (s.start_work = true →
        s.mem.value false + s.mem.value true +
          (inside (s.loc false) + inside (s.loc true)) = 1) ∧
      ((∃ w, s.Unfinished w) → ¬ Stuck (semaphore_main ⟨2, 0, 0⟩) ⟨2, 0, 0⟩ s) := by
  obtain ⟨s, hrun⟩ := semSent_run
  obtain ⟨hone, -, -, hstuck, -⟩ := sem_one_token hrun
  exact ⟨s, hrun, hone, hstuck⟩

end Osjitter.Pingpong
