/-
Osjitter.Pingpong.NullTermination — `--null` comes to its end, whatever fails.

With the other methods a failure can leave a thread waiting for a message that
nobody sends. Here no thread waits for another one: only for the gate, which the
main thread opens, and the main thread for threads that end.

  §1 `null_left`: what is left to do, which each step takes away from that does
     not wait at the gate. It adds up what is left of the main thread and of the
     two workers, three steps for a pair of readings; `null_left_main` and
     `null_left_worker` are the steps, `null_ranked` makes it a rank.
  §2 While the process has not ended there is such a step: `Joining` says what
     the joins have seen, `spin_null_main_goes` that a worker can go on, and
     `null_goes` that somebody can, without a failing call.

`null_comes_to_end` has the bound and the progress, for runs in which any call
may fail. Steps at the gate are not counted.
-/
import Osjitter.Pingpong.Ranking
import Osjitter.Pingpong.NullTheorems

namespace Osjitter.Pingpong

open Machines

/-! ## §1 What is left

The rank of a thread is the number of its steps to come, and does not depend on
the other thread or on any memory. Only the wait at the gate is a step that
leaves it. -/

/-- What is left for a thread that runs. -/
def null_rank (n : Nat) (l : Local NullAt) : Nat :=
  match l.ctl with
  | .calloc => 4 + 3 * (n / 2 - l.regs.i)
  | .gate => 3 + 3 * (n / 2 - l.regs.i)
  | .head => 2 + 3 * (n / 2 - l.regs.i)
  | .body .rdtsc => 1 + 3 * (n / 2 - l.regs.i)
  | .body .rdtscp => 3 * (n / 2 - l.regs.i)
  | .finalize => 1

/-- What is left for a thread. -/
def null_thread (n : Nat) (s : State Unit NullAt) (w : Tid) : Nat :=
  match (s.thr w).status with
  | .absent => 4 + 3 * (n / 2)
  | .running => null_rank n (s.loc w)
  | .returned _ _ | .failed => 0

/-- What is left for the process. -/
def null_left (n : Nat) (s : State Unit NullAt) : Nat :=
  s.main.rank + (null_thread n s false + null_thread n s true)

section left

variable {n : Nat} {s t : State Unit NullAt} {w : Tid}
    {o : WorkerOut Unit NullAt}

/-- What is left, with either thread first. -/
theorem null_left_eq (n : Nat) (s : State Unit NullAt) (w : Tid) :
    null_left n s = s.main.rank + (null_thread n s w + null_thread n s (!w)) := by
  cases w
  · rfl
  · rw [null_left, Nat.add_comm (null_thread n s false)]
    rfl

/-- What is left for a thread depends on where it stands. -/
theorem null_thread_congr (hstatus : (t.thr w).status = (s.thr w).status)
    (hloc : t.loc w = s.loc w) : null_thread n t w = null_thread n s w := by
  rw [null_thread, null_thread, hstatus, hloc]

/-- States that cannot be told apart have as much left. -/
theorem null_left_same (h : t.Same s) : null_left n t = null_left n s := by
  have hthread : ∀ w, null_thread n t w = null_thread n s w := fun w =>
    null_thread_congr (h.status w) (congrFun h.loc w)
  rw [null_left, null_left, h.main, hthread, hthread]

/-- A step of the main thread. -/
theorem null_left_lt (hthread : ∀ w, null_thread n t w = null_thread n s w)
    (hmain : t.main.rank < s.main.rank) : null_left n t < null_left n s := by
  rw [null_left, null_left, hthread, hthread]
  omega

/-- A process that goes on has a step left. -/
theorem main_rank_pos (ha : s.alive = true) : 0 < s.main.rank := by
  cases hm : s.main with
  | exited code => simp [State.alive, hm] at ha
  | setup i | create i | join i => cases i <;> exact Nat.succ_pos _
  | start | report => exact Nat.succ_pos _

/-- A step of the main thread, also one that fails. -/
theorem null_left_main {c : Choice} (hu : Uncreated s) (ha : s.alive = true)
    (hstep : MainCase nullBody c s t) : null_left n t < null_left n s := by
  have hgiveUp : ∀ msg, null_left n (s.giveUp msg) < null_left n s := fun msg =>
    null_left_lt (fun w => rfl) (main_rank_pos ha)
  cases hstep with
  | @setup i mem hm =>
    exact null_left_lt (fun w => rfl) (by cases i <;> simp [hm, Main.rank])
  | setupFails => exact hgiveUp _
  | @create i hm =>
    have habsent := hu i (by cases i <;> simp [hm, Main.created])
    refine null_left_lt (fun w => ?_) (by cases i <;> simp [hm, Main.rank])
    by_cases hw : w = i
    · subst hw
      simp [null_thread, habsent, State.loc, null_rank]
    · exact null_thread_congr (by simp [Function.update_of_ne hw])
        (by simp [State.loc, Function.update_of_ne hw])
  | start hm => exact null_left_lt (fun w => rfl) (by simp [hm, Main.rank])
  | @join i hm =>
    exact null_left_lt (fun w => rfl) (by cases i <;> simp [hm, Main.rank])
  | report hm =>
    split
    · exact hgiveUp _
    · exact null_left_lt (fun w => rfl) (by simp [hm, Main.rank])
  | fails => exact hgiveUp _

/-- A process that makes a step goes on. -/
theorem null_alive {x : Worker} {a : Label} {es : List Event}
    (h : (null_pingpong x).step s a = some (t, es)) : s.alive = true := by
  cases a with
  | main c =>
    by_contra ha
    simp [null_pingpong, ha] at h
  | worker w c =>
    by_contra ha
    simp [null_pingpong, ha] at h

/-- What a thread does in a step: it waits at the gate, goes on, or ends. -/
theorem spin_null_main_cases {x : Worker} {c : Choice} {sw : Bool}
    {l : Local NullAt} (hlt : ∀ b, l.ctl = .body b → l.regs.i < x.n.toNat / 2)
    (ho : spin_null_main x w c sw l = some o) :
    (l.ctl = .gate ∧ sw = false ∧ o.loc = l ∧ o.fate = .run) ∨
      (o.fate = .run ∧ null_rank x.n.toNat o.loc < null_rank x.n.toNat l) ∨
        (o.fate ≠ .run ∧ 0 < null_rank x.n.toNat l) := by
  unfold spin_null_main at ho
  split at ho
  · next hctl =>
    split at ho <;> cases ho
    · exact .inr (.inr ⟨Fate.noConfusion, by simp [null_rank, hctl]⟩)
    · exact .inr (.inl ⟨rfl, by simp [null_rank, hctl]⟩)
  · next hctl =>
    split at ho <;> cases ho
    · exact .inr (.inl ⟨rfl, by simp [null_rank, hctl]⟩)
    · next hsw => exact .inl ⟨hctl, by simpa using hsw, rfl, rfl⟩
  · next hctl =>
    split at ho <;> cases ho
    · exact .inr (.inl ⟨rfl, by simp [null_rank, hctl]⟩)
    · refine .inr (.inl ⟨rfl, ?_⟩)
      simp only [null_rank, hctl]
      omega
  · next b hctl =>
    have hi := hlt b hctl
    cases b <;> cases ho
    · exact .inr (.inl ⟨rfl, by simp [null_rank, hctl, Out.landing]⟩)
    · refine .inr (.inl ⟨rfl, ?_⟩)
      simp only [null_rank, hctl, Out.landing]
      omega
  · next hctl =>
    cases ho
    refine .inr (.inr ⟨?_, by simp [null_rank, hctl]⟩)
    dsimp only [spin_main_finalize]
    split
    · split <;> exact Fate.noConfusion
    · exact Fate.noConfusion

/-- **A step of a thread** waits at the gate, or leaves less to do. -/
theorem null_left_worker {x : Worker} {h : List Event} {c : Choice}
    (hs : NullInv x.n h s) (hr : (s.thr w).status = .running)
    (ho : spin_null_main x w c s.start_work (s.loc w) = some o) :
    (s.apply w o).Same s ∨
      null_left x.n.toNat (s.apply w o) < null_left x.n.toNat s := by
  have hlt : ∀ b, (s.loc w).ctl = .body b →
      (s.loc w).regs.i < x.n.toNat / 2 := by
    obtain ⟨ps, t, -, hok⟩ := hs.tracks w
    intro b hb
    rw [hok.i]
    exact hok.lt b hb
  have habort := ((hs.tracks w).fate ho).1
  have hself : null_thread x.n.toNat s w = null_rank x.n.toNat (s.loc w) := by
    rw [null_thread, hr]
  have hother : null_thread x.n.toNat (s.apply w o) (!w) =
      null_thread x.n.toNat s (!w) := by
    refine null_thread_congr (State.apply_status s (by simp) o) ?_
    rw [State.apply_loc, Function.update_of_ne (by simp)]
  rw [null_left_eq _ _ w, null_left_eq _ s w, State.apply_main, hother, hself]
  rcases spin_null_main_cases hlt ho
    with ⟨-, -, hl, hf⟩ | ⟨hf, hrank⟩ | ⟨hf, hpos⟩
  · exact .inl (apply_same hr rfl hl hf)
  · right
    have hstatus : ((s.apply w o).thr w).status = .running := by
      simp [State.apply, hf]
    have hloc : (s.apply w o).loc w = o.loc := by
      rw [State.apply_loc, Function.update_self]
    have hnew : null_thread x.n.toNat (s.apply w o) w =
        null_rank x.n.toNat o.loc := by
      rw [null_thread, hstatus, hloc]
    omega
  · right
    have hnew : null_thread x.n.toNat (s.apply w o) w = 0 := by
      cases hfate : o.fate with
      | run => exact absurd hfate hf
      | abort msg => exact absurd hfate (habort msg)
      | fail msg => simp [null_thread, State.apply, hfate]
      | ret raw_ds ds => simp [null_thread, State.apply, hfate]
    omega

end left

/-- It is a rank, whatever calls fail. -/
theorem null_ranked (x : Worker) : Ranked (null_pingpong x) Any State.Same
    (fun s => ∃ h, Run (null_pingpong x) Any h s) (null_left x.n.toNat) where
  keep := by
    rintro s a t es ⟨h, hrun⟩ hok hstep
    exact ⟨_, hrun.tail hok hstep⟩
  idle := by
    intro s a t es _ _ _ hsame
    exact le_of_eq (null_left_same hsame)
  drop := by
    rintro s a t es ⟨h, hrun⟩ hok hstep hne
    have hinv := null_inv hrun
    have ha := null_alive hstep
    obtain ⟨c, rfl, hm, -⟩ | ⟨w, c, o, rfl, hr, ho, rfl, -⟩ :=
      null_step_cases hstep
    · exact null_left_main hinv.uncreated ha (mainStep_cases hm)
    · exact (null_left_worker hinv hr ho).resolve_left hne

/-! ## §2 Something is left to do

A thread that has been created can always go on, except at the gate, and the
main thread opens that before it joins. So while the process goes on somebody
has a step that changes something. -/

/-- Whom the main thread is to join it has created, and the gate is open. -/
structure Joining (s : State Unit NullAt) : Prop where
  created : ∀ w, s.main.created w → (∀ code, s.main ≠ .exited code) →
    (s.thr w).status ≠ .absent
  opened : ∀ w, s.main = .join w → s.start_work = true

/-- The main thread joins in order. -/
theorem Joining.main {c : Choice} {s t : State Unit NullAt} (h : Joining s)
    (hstep : MainCase nullBody c s t) : Joining t := by
  have hgiveUp : ∀ msg, Joining (s.giveUp msg) := fun msg =>
    ⟨fun w _ hne => absurd rfl (hne 1), fun w hw => by cases hw⟩
  have hkeep : ∀ {w}, s.main.created w → (∀ code, s.main ≠ .exited code) →
      (s.thr w).status ≠ .absent := fun hw hne => h.created _ hw hne
  cases hstep with
  | @setup i mem hm =>
    refine ⟨fun w hw _ => hkeep ?_ (by simp [hm]), fun w hw => by cases hw⟩
    cases i <;> cases w <;> simp [hm, Main.created] at hw ⊢
  | setupFails => exact hgiveUp _
  | @create i hm =>
    refine ⟨fun w hw _ => ?_, fun w hw => by cases i <;> cases hw⟩
    by_cases hwi : w = i
    · subst hwi
      simp
    · have hthr : Function.update s.thr i { status := .running } w = s.thr w :=
        Function.update_of_ne hwi _ _
      dsimp only
      rw [hthr]
      refine hkeep ?_ (by simp [hm])
      cases i <;> cases w <;> simp [hm, Main.created] at hw hwi ⊢
  | start hm =>
    exact ⟨fun w _ _ => hkeep (by simp [hm, Main.created]) (by simp [hm]),
      fun w _ => rfl⟩
  | @join i hm =>
    exact ⟨fun w _ _ => hkeep (by simp [hm, Main.created]) (by simp [hm]),
      fun w _ => h.opened i hm⟩
  | report hm =>
    split
    · exact hgiveUp _
    · exact ⟨fun w _ hne => absurd rfl (hne 0), fun w hw => by cases hw⟩
  | fails => exact hgiveUp _

/-- A thread does not join anybody. -/
theorem Joining.worker {s : State Unit NullAt} {w : Tid}
    {o : WorkerOut Unit NullAt} (h : Joining s) : Joining (s.apply w o) := by
  refine ⟨fun v hv hne => ?_, fun v hv => by simpa using h.opened v (by simpa using hv)⟩
  by_cases hvw : v = w
  · subst hvw
    cases hf : o.fate <;> simp [State.apply, hf]
  · rw [State.apply_status s hvw]
    exact h.created v (by simpa using hv) (by simpa using hne)

/-- In every run, whatever calls fail. -/
theorem null_joining {x : Worker} {ok : State Unit NullAt → Label → Prop}
    {h : List Event} {s : State Unit NullAt}
    (hrun : Run (null_pingpong x) ok h s) : Joining s := by
  refine Steps.invariant (I := Joining) ?_ hrun ?_
  · intro s a t es hs _ hstep
    obtain ⟨c, -, hm, -⟩ | ⟨w, c, o, -, -, -, rfl, -⟩ := null_step_cases hstep
    · exact hs.main (mainStep_cases hm)
    · exact hs.worker
  · refine ⟨fun w hw => ?_, fun w hw => ?_⟩
    · cases w <;> cases hw
    · cases hw

/-- The process takes a step that changes something, and no call fails in it. -/
def NullGoes (x : Worker) (s : State Unit NullAt) : Prop :=
  ∃ a t es, NoFail s a ∧ (null_pingpong x).step s a = some (t, es) ∧ ¬ t.Same s

/-- A thread that has passed the gate, or has it before it and finds it open. -/
theorem spin_null_main_goes (x : Worker) (w : Tid) (l : Local NullAt) :
    ∃ o, spin_null_main x w {} true l = some o ∧
      (o.loc.ctl ≠ l.ctl ∨ o.fate ≠ .run) := by
  unfold spin_null_main
  cases hctl : l.ctl with
  | calloc | gate => exact ⟨_, rfl, .inl (by simp)⟩
  | head =>
    dsimp only
    split
    · exact ⟨_, rfl, .inl (by simp)⟩
    · exact ⟨_, rfl, .inl (by simp)⟩
  | body b => cases b <;> exact ⟨_, rfl, .inl (by simp [Out.landing])⟩
  | finalize =>
    refine ⟨_, rfl, .inr ?_⟩
    dsimp only [spin_main_finalize]
    split <;> exact Fate.noConfusion

/-- **No deadlock**: while the process has not ended something is left to do. -/
theorem null_goes {x : Worker} {h : List Event} {s : State Unit NullAt}
    (hrun : Run (null_pingpong x) Any h s) :
    (∃ code, s.main = .exited code) ∨ NullGoes x s := by
  have hinv := null_inv hrun
  have hjoin := null_joining hrun
  by_cases hexit : ∃ code, s.main = .exited code
  · exact .inl hexit
  have ha : s.alive = true := by
    unfold State.alive
    cases hm : s.main with
    | exited code => exact absurd ⟨code, hm⟩ hexit
    | _ => simp [hinv.alive]
  have hmain : ∀ {t}, mainStep nullBody {} s = some t → t.main ≠ s.main →
      NullGoes x s :=
    fun {t} ht hne => ⟨.main {}, t, [], rfl, by simp [null_pingpong, ha, ht],
      fun hsame => hne hsame.main⟩
  right
  cases hm : s.main with
  | exited code => exact absurd ⟨code, hm⟩ hexit
  | setup | create | start =>
    obtain ⟨t, ht, hne⟩ :=
      mainStep_early (B := nullBody) (s := s) (by simp [hm])
    exact hmain ht hne
  | report =>
    cases he : s.error_in_thread with
    | true =>
      exact hmain (t := s.giveUp errorMsg) (by simp [mainStep, hm, he])
        (by simp [State.giveUp, hm])
    | false =>
      exact hmain (t := { s with main := .exited 0 })
        (by simp [mainStep, hm, he]) (by simp [hm])
  | join i =>
    by_cases hstop : (s.thr i).status.stopped = true
    · exact hmain (t := { s with
          error_in_thread := s.error_in_thread || (s.thr i).status == .failed
          main := if i then .report else .join true })
        (by simp [mainStep, hm, hstop]) (by cases i <;> simp [hm])
    · -- the thread runs, and the gate is open
      have hr : (s.thr i).status = .running := by
        cases hs : (s.thr i).status with
        | running => rfl
        | absent =>
          exact absurd hs (hjoin.created i (by simp [hm, Main.created]) (by simp [hm]))
        | returned | failed => simp [hs, Status.stopped] at hstop
      obtain ⟨o, ho, hmoves⟩ := spin_null_main_goes x i (s.loc i)
      refine ⟨.worker i {}, s.apply i o, o.ev, rfl, ?_, not_same_of_moves ha hr hmoves⟩
      have hopen := hjoin.opened i hm
      simp only [null_pingpong, ha, hr, hopen, and_self, if_true]
      exact congrArg (Option.map _) ho

/-- **`--null` comes to its end** under every scheduler and whatever calls fail: a
run has at most `6 (n / 2) + 16` steps that are not spent waiting, and until the
process has ended there is always one more. -/
theorem null_comes_to_end (x : Worker) :
    (∀ k s, Counted (null_pingpong x) Any State.Same (null_pingpong x).init k s →
      k ≤ 6 * (x.n.toNat / 2) + 16) ∧
    ∀ h s, Run (null_pingpong x) Any h s → (∃ code, s.main = .exited code) ∨
      NullGoes x s := by
  refine ⟨fun k s hcount => ?_, fun h s hrun => null_goes hrun⟩
  have hle := ((null_ranked x).count_le hcount ⟨[], .refl⟩).2
  have hinit : null_left x.n.toNat (null_pingpong x).init =
      16 + 6 * (x.n.toNat / 2) := by
    simp only [null_left, null_thread, null_pingpong, Main.rank]
    omega
  omega

end Osjitter.Pingpong
