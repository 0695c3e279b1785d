/-
Osjitter.Pingpong.FutexTheorems — the futexes pass a token, and no wake-up
is lost.

A futex that is 0 is the slot of a token (`Osjitter.Lib.Token`), so the
compare-exchange of `futex_unlock` always finds a 1. The compare-exchange and
FUTEX_WAKE are two steps; that no wake-up is lost between them is the
invariant of `Osjitter.Lib.Wakeup`.

`FutexAt.grip` says where a worker has the token in its hand. `FutexInv` is the
invariant of the memory: each futex is 0 or 1, the token is where the relay
says, the receiver's field holds the timestamp in flight, and a sleeper whose
futex is 0 has a waker. There is one lemma for each step that changes the
memory (`FutexInv.cas`, `wait`, `wakes`, `locked`, `unlock`, `wake`), and
`FutexInv.keep` has them all. `futexProtocol` and `futexLive` are what the
general theorems ask for.

`futex_one_token` is the result for every run: one token, exclusion, messages
once and in order, and no state in which nothing can change while no call has
failed.
-/
import Osjitter.Lib.Wakeup
import Osjitter.Pingpong.Futex
import Osjitter.Pingpong.Progress

namespace Osjitter.Pingpong

open Machines Relay Wakeup

/-! ## The branches

The control points of a futex are those of its two calls, so a branch stays in
one phase for several steps. `FutexAt.grip` is the other map: where the worker
has the token, and where it is about to give it to the other. -/

/-- The phase of a control point. -/
def FutexAt.phase : FutexAt → Phase
  | .cas .send | .wait .send | .asleep .send | .pause | .rdtsc => .ready
  | .write => .armed
  | .unlock .send | .wake .send => .sent
  | .cas .recv | .wait .recv | .asleep .recv | .read => .waiting
  | .rdtscp => .taken
  | .unlock .recv | .wake .recv => .recorded

/-- What a thread at a control point has of the token. -/
def FutexAt.grip : FutexAt → Grip
  | .cas _ | .wait _ | .asleep _ | .wake _ => .free
  | .unlock .send => .passing
  | _ => .held

/-- A token is passed on by unlocking the other's futex. -/
theorem FutexAt.eq_of_passing {b : FutexAt} (h : b.grip = .passing) :
    b = .unlock .send := by
  cases b with
  | unlock role =>
    cases role with
    | send => rfl
    | recv => cases h
  | _ => cases h

/-- 1 if the futex is unlocked. -/
def Follicles.slot (mem : Follicles) (v : Tid) : Nat :=
  if mem.futex v = 0 then 1 else 0

/-- A futex is a slot: it has the token if it is 0. -/
theorem Follicles.slot_update (mem : Follicles) (v : Tid) (k : Nat) :
    Follicles.slot { mem with futex := Function.update mem.futex v k } =
      Function.update mem.slot v (if k = 0 then 1 else 0) := by
  funext u
  by_cases hu : u = v
  · subst hu
    simp [slot]
  · simp [slot, Function.update_of_ne hu]

/-- The branches are those of a relay. -/
theorem futex_lawful (x : Worker) : Lawful (futex_main x) FutexAt.phase where
  send := rfl
  recv := rfl
  step {w c mem r b o} h := by
    cases b with
    | cas role =>
      cases h
      unfold futex_cas
      split <;> cases role <;> exact .idle
    | wait role =>
      cases h
      unfold futex_wait
      split
      · exact .stop
      · split <;> cases role <;> exact .idle
    | asleep role =>
      simp only [futex_main, futex_return] at h
      split at h
      · cases h; cases role <;> exact .idle
      split at h
      · cases h; exact .stop
      split at h
      · cases h; cases role <;> exact .idle
      · cases h
    | pause => cases h; exact .idle
    | rdtsc => cases h; exact fenced_rdtsc_move rfl rfl
    | write => cases h; exact .store
    | read => cases h; exact .take
    | rdtscp => cases h; exact .leg
    | unlock role =>
      cases h
      unfold futex_unlock
      split
      · cases role <;> exact .idle
      · exact .stop
    | wake role =>
      cases h
      unfold futex_wake
      split
      · exact .stop
      · cases role
        · exact .sentOver
        · exact .recordedOver

/-- The calls on a futex show nothing. -/
theorem futex_silent {x : Worker} {w : Tid} {c : Choice} {mem : Follicles}
    {r : Regs} {b : FutexAt} {o : Out Follicles FutexAt}
    (ho : (futex_main x).step w c mem r b = some o)
    (hb : ∃ role, b = .cas role ∨ b = .wait role ∨ b = .asleep role ∨
      b = .unlock role ∨ b = .wake role) : o.ev = [] := by
  obtain ⟨role, rfl | rfl | rfl | rfl | rfl⟩ := hb
  · cases ho
    unfold futex_cas
    split <;> rfl
  · cases ho
    unfold futex_wait
    split
    · rfl
    · split <;> rfl
  · simp only [futex_main, futex_return] at ho
    split at ho
    · cases ho; rfl
    split at ho
    · cases ho; rfl
    split at ho
    · cases ho; rfl
    · cases ho
  · cases ho
    unfold futex_unlock
    split <;> rfl
  · cases ho
    unfold futex_wake
    split <;> rfl

/-! ## The invariant

A sleeper is asleep because its futex was 1, and its futex becomes 0 in a step
that makes the other thread one that will wake it. Between that step and the
wake-up the sleeper may return by itself, lock its futex and go on; the wake-up
then finds nobody, or one that sleeps again and whose futex is 1, and does no
harm. -/

/-- The worker sleeps in the queue of its futex. -/
def Asleep (loc : Tid → Local FutexAt) (v : Tid) : Prop :=
  ∃ role, (loc v).ctl = .body (.asleep role)

/-- About to wake the other thread. -/
def Waking (loc : Tid → Local FutexAt) (v : Tid) : Prop :=
  (loc v).ctl = .body (.wake .send)

/-- The futexes and their sleepers against the relay. -/
structure FutexInv (mem : Follicles) (loc : Tid → Local FutexAt)
    (a : Relay.State UInt64) : Prop where
  bit : ∀ v, mem.futex v = 0 ∨ mem.futex v = 1
  token : Token mem.slot (grips FutexAt.grip loc) a
  stamp : ∀ v, a.stage = .flight v → mem.tsc (!turn a.m) = v
  sleepers : Sleepers mem.queue (Asleep loc) (fun v => mem.futex v = 0) (Waking loc)

/-- A step of the one does not wake the other. -/
theorem asleep_other {loc : Tid → Local FutexAt} {w : Tid} {l : Local FutexAt}
    (h : Asleep loc (!w)) : Asleep (Function.update loc w l) (!w) := by
  simpa [Asleep] using h

/-- A worker at any other place is awake. -/
theorem not_asleep {loc : Tid → Local FutexAt} {w : Tid} {b : FutexAt}
    (hb : (loc w).ctl = .body b) (hne : ∀ role, b ≠ .asleep role) :
    ¬ Asleep loc w := by
  rintro ⟨role, hr⟩
  rw [hb] at hr
  cases hr
  exact hne role rfl

/-- A worker at any other place has no wake-up to make. -/
theorem not_waking {loc : Tid → Local FutexAt} {w : Tid} {b : FutexAt}
    (hb : (loc w).ctl = .body b) (hne : b ≠ .wake .send) : ¬ Waking loc w := by
  intro hw
  rw [Waking, hb] at hw
  cases hw
  exact hne rfl

/-- A futex that is set to 0 or 1 is 0 or 1. -/
theorem bit_update {f : Tid → Nat} (h : ∀ v, f v = 0 ∨ f v = 1)
    (w : Tid) {k : Nat} (hk : k = 0 ∨ k = 1) (v : Tid) :
    Function.update f w k v = 0 ∨ Function.update f w k v = 1 := by
  by_cases hv : v = w
  · subst hv
    simpa using hk
  · simpa [Function.update_of_ne hv] using h v

/-- A step between locking and unlocking leaves the futexes alone. -/
theorem FutexInv.between {mem mem' : Follicles} {loc : Tid → Local FutexAt}
    {a a' : Relay.State UInt64} {w : Tid} {l : Local FutexAt} {b : FutexAt}
    (h : FutexInv mem loc a) (hb : (loc w).ctl = .body b)
    (hheld : b.grip = .held) (hf : mem'.futex = mem.futex)
    (hq : mem'.queue = mem.queue)
    (htoken : Token mem.slot (grips FutexAt.grip (Function.update loc w l)) a')
    (hstamp : ∀ v, a'.stage = .flight v → mem'.tsc (!turn a'.m) = v) :
    FutexInv mem' (Function.update loc w l) a' := by
  have hna : ¬ Asleep loc w := not_asleep hb (by rintro role rfl; cases hheld)
  have hnw : ¬ Waking loc w := not_waking hb (by rintro rfl; cases hheld)
  refine ⟨by rw [hf]; exact h.bit, ?_, hstamp, ?_⟩
  · have hslot : mem'.slot = mem.slot := by
      funext v
      simp [Follicles.slot, hf]
    rw [hslot]
    exact htoken
  · rw [hf, hq]
    exact h.sleepers.move hnw (.inl (h.sleepers.awake hna)) rfl asleep_other id

/-- The compare-exchange of `futex_lock`. -/
theorem FutexInv.cas {c : Choice} {mem : Follicles} {loc : Tid → Local FutexAt}
    {a : Relay.State UInt64} {w : Tid} {role : Role} (h : FutexInv mem loc a)
    (hb : (loc w).ctl = .body (.cas role)) :
    FutexInv (futex_cas w c mem (loc w).regs role).mem
      (Function.update loc w
        ((futex_cas w c mem (loc w).regs role).landing (loc w))) a := by
  have hgrip : grips FutexAt.grip loc w = .free := by
    simp [grips, hb, Ctl.grip, FutexAt.grip]
  have hna : ¬ Asleep loc w := not_asleep hb (by simp)
  have hnw : ¬ Waking loc w := not_waking hb (by simp)
  have hself := h.sleepers.awake hna
  unfold futex_cas
  split
  · next hz =>
    refine ⟨bit_update h.bit w (.inr rfl), ?_, h.stamp, ?_⟩
    · rw [Follicles.slot_update, grips_update]
      have hacq :=
        h.token.acquire (k := 0) hgrip (by simp [Follicles.slot, hz.1])
      cases role <;> exact hacq
    · exact h.sleepers.move hnw (.inl hself) rfl asleep_other (by simp)
  · refine ⟨h.bit, ?_, h.stamp, ?_⟩
    · rw [grips_goto (k := .wait role) hb rfl rfl]
      exact h.token
    · exact h.sleepers.move hnw (.inl hself) rfl asleep_other id

/-- FUTEX_WAIT. -/
theorem FutexInv.wait {c : Choice} {mem : Follicles} {loc : Tid → Local FutexAt}
    {a : Relay.State UInt64} {w : Tid} {role : Role} (h : FutexInv mem loc a)
    (hb : (loc w).ctl = .body (.wait role)) :
    FutexInv (futex_wait w c mem (loc w).regs role).mem
      (Function.update loc w
        ((futex_wait w c mem (loc w).regs role).landing (loc w))) a := by
  have hna : ¬ Asleep loc w := not_asleep hb (by simp)
  have hnw : ¬ Waking loc w := not_waking hb (by simp)
  have hself := h.sleepers.awake hna
  unfold futex_wait
  split
  · simpa [failing, Out.landing] using h
  split
  · next hone =>
    refine ⟨h.bit, ?_, h.stamp, ?_⟩
    · rw [grips_goto (k := .asleep role) hb rfl rfl]
      exact h.token
    · refine h.sleepers.move hnw (.inr ⟨by simp [hself], ?_, by simp [hone]⟩) (by simp)
        asleep_other id
      exact ⟨role, by simp [Out.landing]⟩
  · refine ⟨h.bit, ?_, h.stamp, ?_⟩
    · rw [grips_goto (k := .cas role) hb rfl rfl]
      exact h.token
    · exact h.sleepers.move hnw (.inl hself) rfl asleep_other id

/-- The return from FUTEX_WAIT. -/
theorem FutexInv.wakes {c : Choice} {mem : Follicles}
    {loc : Tid → Local FutexAt} {a : Relay.State UInt64} {w : Tid} {role : Role}
    {o : Out Follicles FutexAt} (h : FutexInv mem loc a)
    (hb : (loc w).ctl = .body (.asleep role))
    (ho : futex_return w c mem (loc w).regs role = some o) :
    FutexInv o.mem (Function.update loc w (o.landing (loc w))) a := by
  have hnw : ¬ Waking loc w := not_waking hb (by simp)
  have hempty : (mem.queue w).erase w = [] := by
    rcases h.sleepers.queued w with hq | ⟨hq, -⟩ <;> simp [hq]
  have hleft : ∀ {mem' : Follicles} {l : Local FutexAt},
      mem'.futex = mem.futex → mem'.tsc = mem.tsc → mem'.queue w = [] →
      mem'.queue (!w) = mem.queue (!w) →
      l.ctl.grip FutexAt.grip = .free →
        FutexInv mem' (Function.update loc w l) a := by
    intro mem' l hf ht hqw hq hl
    refine ⟨by rw [hf]; exact h.bit, ?_, by rw [ht]; exact h.stamp, ?_⟩
    · have hslot : mem'.slot = mem.slot := by
        funext v
        simp [Follicles.slot, hf]
      rw [hslot, grips_same (by rw [hl]; simp [grips, hb, Ctl.grip, FutexAt.grip])]
      exact h.token
    · exact h.sleepers.move hnw (.inl hqw) hq asleep_other (by rw [hf]; exact id)
  unfold futex_return at ho
  split at ho
  · next hnot =>
    cases ho
    refine hleft rfl rfl ?_ rfl rfl
    rcases h.sleepers.queued w with hq | ⟨hq, -⟩
    · exact hq
    · simp [hq] at hnot
  split at ho
  · cases ho
    exact hleft rfl rfl (by simp [failing, hempty]) (by simp [failing])
      (by simp [failing, Out.landing, hb, Ctl.grip, FutexAt.grip])
  split at ho
  · cases ho
    exact hleft rfl rfl (by simp [hempty]) (by simp) rfl
  · cases ho

/-- The futex that a thread is about to unlock is locked. -/
theorem FutexInv.locked {mem : Follicles} {loc : Tid → Local FutexAt}
    {a : Relay.State UInt64} {w : Tid} {role : Role} (h : FutexInv mem loc a)
    (hb : (loc w).ctl = .body (.unlock role)) (v : Tid) : mem.futex v = 1 := by
  obtain ⟨-, hzero⟩ := h.token.alone (w := w) (by
    cases role <;> simp [grips, hb, Ctl.grip, FutexAt.grip])
  rcases h.bit v with hv | hv
  · have hs := hzero v
    simp [Follicles.slot, hv] at hs
  · exact hv

/-- The compare-exchange of `futex_unlock`. -/
theorem FutexInv.unlock {n : Nat} {mem : Follicles} {loc : Tid → Local FutexAt}
    {a : Relay.State UInt64} {w : Tid} {role : Role}
    (hg : Good FutexAt.phase n loc a) (h : FutexInv mem loc a)
    (hb : (loc w).ctl = .body (.unlock role)) :
    FutexInv (futex_unlock w mem (loc w).regs role).mem
      (Function.update loc w
        ((futex_unlock w mem (loc w).regs role).landing (loc w))) a := by
  have hna : ¬ Asleep loc w := not_asleep hb (by simp)
  have hnw : ¬ Waking loc w := not_waking hb (by simp)
  have hself := h.sleepers.awake hna
  have hslot : ∀ v, mem.slot v = 0 := by simp [Follicles.slot, h.locked hb]
  unfold futex_unlock
  rw [if_pos (h.locked hb _)]
  refine ⟨bit_update h.bit _ (.inl rfl), ?_, h.stamp, ?_⟩
  · rw [Follicles.slot_update, grips_update]
    cases role with
    | send =>
      have hpass :=
        h.token.pass (w := w) (by simp [grips, hb, Ctl.grip, FutexAt.grip])
      rw [hslot] at hpass
      exact hpass
    | recv =>
      have hready : a.stage = .ready := (hg.where hb).1
      have hrel := h.token.release (w := w) (by simp [hready, isSent])
        (by simp [grips, hb, Ctl.grip, FutexAt.grip])
      rw [hslot] at hrel
      exact hrel
  · cases role with
    | send =>
      exact h.sleepers.arm (by simp [Waking, Out.landing]) hself rfl asleep_other
    | recv =>
      exact h.sleepers.move hnw (.inl hself) rfl asleep_other (by simp [Role.target])

/-- FUTEX_WAKE. -/
theorem FutexInv.wake {c : Choice} {mem : Follicles} {loc : Tid → Local FutexAt}
    {a : Relay.State UInt64} {w : Tid} {role : Role} (h : FutexInv mem loc a)
    (hb : (loc w).ctl = .body (.wake role)) :
    FutexInv (futex_wake w c mem (loc w).regs role).mem
      (Function.update loc w
        ((futex_wake w c mem (loc w).regs role).landing (loc w))) a := by
  have hna : ¬ Asleep loc w := not_asleep hb (by simp)
  have hself := h.sleepers.awake hna
  unfold futex_wake
  split
  · simpa [failing, Out.landing] using h
  refine ⟨h.bit, ?_, h.stamp, ?_⟩
  · rw [grips_same (by simp [Out.landing, grips, hb, Ctl.grip, FutexAt.grip])]
    exact h.token
  · have hout := h.sleepers.eraseIdx (role.target w) c.pick
    cases role with
    | send =>
      refine .wake fun v => ?_
      by_cases hv : v = w
      · simpa [hv, Role.target] using hself
      · obtain rfl : v = !w := by simpa [Bool.eq_not] using hv
        simpa [Role.target] using hout
    | recv =>
      have hnw : ¬ Waking loc w := not_waking hb (by simp)
      exact h.sleepers.move hnw (.inl (by simpa [Role.target] using hout))
        (by simp [Role.target]) asleep_other id

/-- The steps of the branches keep the futexes right. -/
theorem FutexInv.keep {x : Worker} {n : Nat} {c : Choice} {mem : Follicles}
    {loc : Tid → Local FutexAt} {a a' : Relay.State UInt64} {w : Tid}
    {b : FutexAt} {o : Out Follicles FutexAt} (hg : Good FutexAt.phase n loc a)
    (h : FutexInv mem loc a) (hb : (loc w).ctl = .body b)
    (ho : (futex_main x).step w c mem (loc w).regs b = some o)
    (hread : Monitor.read (next n) o.ev a = some a') :
    FutexInv o.mem (Function.update loc w (o.landing (loc w))) a' := by
  have hgrip : grips FutexAt.grip loc w = b.grip := by
    simp [grips, hb, Ctl.grip]
  cases b with
  | cas role =>
    rw [futex_silent ho ⟨role, by simp⟩] at hread
    cases hread
    cases ho
    exact h.cas hb
  | wait role =>
    rw [futex_silent ho ⟨role, by simp⟩] at hread
    cases hread
    cases ho
    exact h.wait hb
  | asleep role =>
    rw [futex_silent ho ⟨role, by simp⟩] at hread
    cases hread
    exact h.wakes hb ho
  | pause =>
    cases ho
    cases hread
    refine h.between hb rfl rfl rfl ?_ h.stamp
    rw [grips_goto (k := .rdtsc) hb rfl rfl]
    exact h.token
  | rdtsc =>
    cases ho
    rw [fenced_rdtsc_ev] at hread
    obtain ⟨m, last, stage, rfl, rfl, -, hstage⟩ := read_clock hread
    refine h.between hb rfl (by simp) (by simp) ?_ ?_
    · rw [grips_rdtsc (k := .write) hb rfl]
      exact h.token.clock hstage
    · rcases hstage with rfl | rfl <;> simp
  | write =>
    cases ho
    obtain ⟨m, last, rfl, rfl, rfl⟩ := read_send hread
    refine h.between hb rfl rfl rfl ?_ (by simp)
    rw [grips_update]
    exact h.token.send hgrip
  | read =>
    cases ho
    obtain ⟨m, last, rfl, rfl, rfl⟩ := read_recv hread
    refine h.between hb rfl rfl rfl ?_ (by simp)
    rw [grips_goto (k := .rdtscp) hb rfl rfl]
    exact h.token.recv hgrip
  | rdtscp =>
    cases ho
    obtain ⟨m, last, rfl, rfl, rfl⟩ := read_leg hread
    refine h.between hb rfl rfl rfl ?_ (by simp)
    rw [grips_goto (k := .unlock .recv) hb rfl rfl]
    exact h.token.leg
  | unlock role =>
    rw [futex_silent ho ⟨role, by simp⟩] at hread
    cases hread
    cases ho
    exact h.unlock hg hb
  | wake role =>
    rw [futex_silent ho ⟨role, by simp⟩] at hread
    cases hread
    cases ho
    exact h.wake hb

/-- **The futexes follow the protocol.** -/
def futexProtocol (x : Worker) : Protocol (futex_main x) where
  ph := FutexAt.phase
  lawful := futex_lawful x
  Inv := FutexInv
  setup h := by cases h
  init {c₀ c₁ m₀ m₁ loc} h₀ h₁ hfresh := by
    cases h₀
    cases h₁
    have hfree : ∀ w, grips FutexAt.grip loc w = .free := by
      intro w
      obtain ⟨hc | hc, -⟩ := hfresh w <;> simp [grips, hc, Ctl.grip]
    refine ⟨fun v => by cases v <;> simp [Function.update], ?_, by simp [start],
      .wake fun _ => rfl⟩
    constructor <;>
      simp [hfree, start, isSent, isTaken, Follicles.slot, Function.update]
  frame {n sw mem loc a w k} _ h hf := by
    -- outside of its branches a worker neither sleeps nor wakes anybody
    have hctl : ∀ b, (loc w).ctl ≠ .body b := by
      intro b hb
      cases hf with
      | gate hc | head hc | send hc | recv hc | finalize hc =>
        rw [hc] at hb; cases hb
    have hna : ¬ Asleep loc w := fun ⟨role, hr⟩ => hctl _ hr
    refine ⟨h.bit, by rw [hf.grips_eq rfl rfl]; exact h.token, h.stamp, ?_⟩
    exact h.sleepers.move (hctl _) (.inl (h.sleepers.awake hna)) rfl asleep_other id
  take {n c mem loc a w b o v} hg h hb ho hev := by
    cases b with
    | read =>
      cases ho
      cases hev
      obtain ⟨⟨v, hv⟩, hw⟩ := hg.reader h.token hb rfl rfl
      rw [hw, h.stamp v hv]
      exact ⟨hv, rfl⟩
    | cas role | wait role | asleep role | unlock role | wake role =>
      rw [futex_silent ho ⟨role, by simp⟩] at hev
      cases hev
    | rdtsc =>
      cases ho
      simp at hev
    | pause | write | rdtscp => cases ho; cases hev
  keep := FutexInv.keep
  sound {n c mem loc a w b o} _ h hb ho := by
    cases b with
    | cas role =>
      cases ho
      unfold futex_cas
      split <;> simp
    | wait role =>
      cases ho
      unfold futex_wait
      split
      · next hf => exact ⟨by simp [failing], fun _ _ => hf⟩
      · split <;> simp
    | asleep role =>
      simp only [futex_main, futex_return] at ho
      split at ho
      · cases ho; simp
      split at ho
      · next hf => cases ho; exact ⟨by simp [failing], fun _ _ => hf⟩
      split at ho
      · cases ho; simp
      · cases ho
    | unlock role =>
      cases ho
      -- the compare-exchange finds a 1, so nobody aborts
      simp [futex_unlock, FutexInv.locked h hb]
    | wake role =>
      cases ho
      unfold futex_wake
      split
      · next hf => exact ⟨by simp [failing], fun _ _ => hf⟩
      · simp
    | pause | rdtsc | write | read | rdtscp =>
      cases ho
      simp [pause, fenced_rdtscp]

/-- A thread waits only while it sleeps. -/
theorem futex_asleep {x : Worker} {w : Tid} {mem : Follicles} {r : Regs}
    {b : FutexAt} (hw : Waits (futex_main x) w mem r b) :
    ∃ role, b = .asleep role ∧ w ∈ mem.queue w := by
  cases b with
  | asleep role =>
    refine ⟨role, rfl, ?_⟩
    by_contra hq
    obtain ⟨hn, -⟩ :=
      hw {} ⟨rfl, rfl⟩ _ (by simp [futex_main, futex_return, hq]; rfl)
    cases hn
  | cas role =>
    obtain ⟨hn, -⟩ := hw {} ⟨rfl, rfl⟩ _ rfl
    unfold futex_cas at hn
    split at hn <;> cases role <;> cases hn
  | wait role =>
    obtain ⟨hn, -⟩ := hw {} ⟨rfl, rfl⟩ _ rfl
    simp only [futex_wait, Bool.false_eq_true, if_false] at hn
    split at hn <;> cases hn
  | unlock role =>
    obtain ⟨hn, -⟩ := hw {} ⟨rfl, rfl⟩ _ rfl
    unfold futex_unlock at hn
    split at hn <;> cases hn
  | wake role =>
    obtain ⟨hn, -⟩ := hw {} ⟨rfl, rfl⟩ _ rfl
    cases hn
  | rdtsc =>
    obtain ⟨-, -, -, hev⟩ := hw {} ⟨rfl, rfl⟩ _ rfl
    simp at hev
  | pause | write | read | rdtscp =>
    obtain ⟨hn, -⟩ := hw {} ⟨rfl, rfl⟩ _ rfl
    cases hn

/-- A thread that is about to unlock has the token that its peer needs, and
one that is about to wake has a sleeper to wake. -/
def futexLive (x : Worker) : Live (futexProtocol x) where
  hold mem w b := b = .unlock .send ∨ b = .wake .send ∧ mem.queue (!w) ≠ []
  blocked {n mem loc a w b} hg h hb hw := by
    obtain ⟨role, rfl, hq⟩ := futex_asleep hw
    have hgrip : grips FutexAt.grip loc w = .free := by
      simp [grips, hb, Ctl.grip, FutexAt.grip]
    have hne : mem.queue w ≠ [] := List.ne_nil_of_mem hq
    by_cases hz : mem.futex w = 0
    · refine .inr ⟨_, FutexInv.sleepers h |>.pending w hne hz, .inr ⟨rfl, ?_⟩⟩
      simpa using hne
    have hslot : mem.slot w = 0 := by simp [Follicles.slot, hz]
    cases role with
    | send =>
      obtain ⟨hst, rfl, -⟩ := hg.where hb
      have hone := FutexInv.token h |>.sender_slot (by simp [hst, isSent]) hgrip
      rw [hslot] at hone
      cases hone
    | recv =>
      by_cases hflight : ∀ v, a.stage = .flight v → w = turn a.m
      · exact .inl ⟨rfl, hflight⟩
      · obtain ⟨v, hst, hne⟩ : ∃ v, a.stage = .flight v ∧ w ≠ turn a.m := by
          simpa using hflight
        obtain rfl : w = !turn a.m := by simpa [Bool.eq_not] using hne
        rcases FutexInv.token h |>.on_the_way hst with hp | ⟨hone, -⟩
        · refine .inr ?_
          rw [Bool.not_not]
          obtain ⟨b', hb', hp⟩ := grips_passing hp
          exact ⟨b', hb', .inl (FutexAt.eq_of_passing hp)⟩
        · rw [hgrip, hslot] at hone
          cases hone
  moves {n mem loc a w b} _ _ _ hhold hw := by
    obtain ⟨role, rfl, -⟩ := futex_asleep hw
    rcases hhold with hb | ⟨hb, -⟩ <;> cases hb

/-! ## Runs

The invariant holds in every state of a run, and the statement says what it
means there for the futexes and the threads between their calls. -/

/-- Before the gate opens nobody sleeps. -/
theorem futex_initial {x : Worker} {mem : Follicles}
    (h : Initial (futex_main x) mem) (v : Tid) : mem.queue v = [] := by
  cases h with
  | none => rfl
  | one h => cases h; rfl
  | both h₀ h₁ => cases h₀; cases h₁; rfl

/-- 1 if the thread is between its successful lock and its unlock. -/
def locking (l : Local FutexAt) : Nat :=
  match l.ctl with
  | .body (.cas _) | .body (.wait _) | .body (.asleep _) | .body (.wake _) => 0
  | .body _ => 1
  | _ => 0

/-- A thread that has locked has the token. -/
theorem locking_eq (l : Local FutexAt) :
    locking l = (l.ctl.grip FutexAt.grip).count := by
  unfold locking
  cases hc : l.ctl with
  | body b =>
    cases b with
    | unlock role => cases role <;> rfl
    | _ => rfl
  | _ => rfl

/-- **Token passing without abort or lost wake-up.** In every run without
failing calls: once the gate is open exactly one of the futexes and of the
threads between lock and unlock has the token, no step aborts, every
timestamp read is the next one the other thread wrote, no thread writes a
`tsc` that the other is about to read, whoever sleeps on a futex that is 0 is
about to be woken, and an unfinished thread is never stuck. -/
theorem futex_one_token {x : Worker} {h : List Event}
    {s : State Follicles FutexAt}
    (hrun : Run (spin_pingpong (futex_main x) x) NoFail h s) :
    (s.start_work = true →
        s.mem.slot false + s.mem.slot true +
          (locking (s.loc false) + locking (s.loc true)) = 1) ∧
      (∀ w b c o msg, (s.loc w).ctl = .body b →
        (futex_main x).step w c s.mem (s.loc w).regs b = some o →
          o.next ≠ .abort msg) ∧
      ExactlyOnce h ∧
      (∀ w, ¬ ((s.loc w).ctl = .body .write ∧ (s.loc (!w)).ctl = .body .read)) ∧
      (∀ v u, u ∈ s.mem.queue v → s.mem.futex v = 0 →
        (s.loc (!v)).ctl = .body (.wake .send) ∧
          (s.thr (!v)).status = .running) ∧
      ((∃ w, s.Unfinished w) → ¬ Stuck (futex_main x) x s) := by
  obtain ⟨a, ha, hH⟩ := (futexProtocol x).refines hrun
  refine ⟨fun hsw => ?_, fun w b c o msg hb ho => ?_, ha.exactlyOnce, ?_,
    fun v u hu hz => ?_, (futexLive x).no_fail_not_stuck hrun⟩
  · have hone := (FutexInv.token (hH.after hsw).1).one
    simp only [grips] at hone
    rw [locking_eq, locking_eq]
    omega
  · exact ((futexProtocol x).sound hH.good (hH.after (hH.passed hb)).1 hb ho).1 msg
  · rintro w ⟨hwrite, hread⟩
    have htoken := FutexInv.token (hH.after (hH.passed hwrite)).1
    obtain ⟨hfree, -⟩ :=
      htoken.alone (w := w) (by simp [grips, hwrite, Ctl.grip, FutexAt.grip])
    simp [grips, hread, Ctl.grip, FutexAt.grip] at hfree
  · have hsw : s.start_work = true := by
      cases hsw : s.start_work with
      | true => rfl
      | false =>
        have hempty := futex_initial (hH.before hsw).2.2.initial v
        rw [hempty] at hu
        cases hu
    have hctl :=
      (FutexInv.sleepers (hH.after hsw).1).pending v (List.ne_nil_of_mem hu) hz
    exact ⟨hctl, (futexProtocol x).running hrun hctl⟩

/-- One iteration of `futex_main`: thread 1 sleeps on its futex, thread 0 has
unlocked it and is about to wake it. -/
def futexSent : List Label :=
  List.flatten
    [List.replicate 5 (.main {}), List.replicate 5 (.worker true {}),
      List.replicate 5 (.worker false {}), [.worker false { clock := 5 }],
      List.replicate 2 (.worker false {})]

/-- The labels make a run, with these events. -/
theorem futexSent_run :
    ∃ s, Run (spin_pingpong (futex_main ⟨2, 0, 0⟩) ⟨2, 0, 0⟩) NoFail
    [.clock false 5, .send false 5] s :=
  Machine.run_of_exec futexSent (by decide)

/-- A state with one message under way. -/
theorem futex_one_token_two : ∃ s,
    Run (spin_pingpong (futex_main ⟨2, 0, 0⟩) ⟨2, 0, 0⟩) NoFail
        [.clock false 5, .send false 5] s ∧
      (s.start_work = true →
        s.mem.slot false + s.mem.slot true +
          (locking (s.loc false) + locking (s.loc true)) = 1) ∧
      ((∃ w, s.Unfinished w) → ¬ Stuck (futex_main ⟨2, 0, 0⟩) ⟨2, 0, 0⟩ s) := by
  obtain ⟨s, hrun⟩ := futexSent_run
  obtain ⟨hone, -, -, -, -, hstuck⟩ := futex_one_token hrun
  exact ⟨s, hrun, hone, hstuck⟩

end Osjitter.Pingpong
