/-
Osjitter.Pingpong.Bounds — the writes to `ds`.

`ds` has `n / 2` entries and `spin_main_finalize` asserts `j <= n / 2`. For
odd `n` thread 1 has one receive turn more than that. That it never has more
follows from the relay (`leg_message`) and from the worker's own count; that
it has as many needs a run that gets there, one cycle a method.

  §1 Complete runs: for each method what the memory is like before a message,
     and the calls with which one worker hands it over and the other takes it
     (`spinCycle` to `cvCycle`, for `Complete`).
  §2 `DsWithin` says of a worker that it writes below `n / 2` only and that
     the assertion holds. `Protocol.dsWithin_iff` is the condition for one
     method with a cycle, and `ds_within_iff` the result for all seven, over
     all runs and failing calls: thread 0 always, thread 1 for even `n`.
     `spin_odd_outside` is the shortest run in which it does not.

What a write behind the array does to the rest of the heap is not modelled.
-/
import Osjitter.Pingpong.Complete
import Osjitter.Pingpong.CondVarTheorems
import Osjitter.Pingpong.FutexTheorems
import Osjitter.Pingpong.Methods
import Osjitter.Pingpong.PipeTheorems
import Osjitter.Pingpong.SemaphoreTheorems
import Osjitter.Pingpong.SpinTheorems

namespace Osjitter.Pingpong

open Machines Relay

/-! ## §1 Complete runs

That an array is written to its end is shown by a run that does so, and a run is
put together of cycles, one for each message. A `Cycle` gives the memory between
messages and the steps that hand one over, with the clock values as parameters.
-/

/-- The two parties are different. -/
theorem not_turn (m : Nat) : turn m ≠ !turn m := by simp

/-- The receiver's variables after message `i` with timestamp `t`. -/
def Regs.received (r : Regs) (t : UInt64) : Regs :=
  { Regs.record { r with t := t } 0 with i := r.i + 1 }

/-- The sender's. -/
def Regs.sent (r : Regs) (t : UInt64) : Regs := { r with i := r.i + 1, t := t }

/-- A cell is stored and read. -/
def spinCycle (p : Nat) (x : Worker) : Cycle (spinBody p x) x where
  Rest _ _ := True
  Sent m t mem := mem (!turn m) = t
  start := ⟨_, _, rfl, rfl, trivial⟩
  send {t mem r} _ hi ht := by
    refine ⟨Function.update mem (!turn r.i) t, r.sent t, ?_, by simp, rfl, rfl⟩
    refine .send hi rfl (.pause rfl (.rdtsc (fun _ => rfl) ht ?_))
    exact .ended (c := {}) ⟨rfl, rfl⟩ rfl rfl .done
  recv {t mem r} hs hi ht := by
    subst hs
    refine ⟨mem, r.received (mem (!turn r.i)), ?_, trivial, rfl, rfl⟩
    refine .recv hi (not_turn _) (.goto (c := {}) ⟨rfl, rfl⟩ (if_pos ht) rfl ?_)
    exact .ended (c := {}) ⟨rfl, rfl⟩ rfl rfl .done

/-- A message is written and read. -/
def pipeCycle (x : Worker) : Cycle (pipe_main x) x where
  Rest m mem := ∀ v, mem v = some []
  Sent m t mem := mem (turn m) = some [] ∧ mem (!turn m) = some [t]
  start := by
    refine ⟨_, _, rfl, rfl, fun v => ?_⟩
    cases v <;> simp [Function.update]
  send {t mem r} hrest hi ht := by
    refine ⟨Function.update mem (!turn r.i) (some [t]), r.sent t, ?_,
      by simp [hrest], rfl, rfl⟩
    refine .send hi rfl (.pause rfl (.rdtsc (fun _ => rfl) ht ?_))
    exact .ended (c := {}) ⟨rfl, rfl⟩ (by simp [pipe_main, hrest]; rfl) rfl .done
  recv {t mem r} hs hi _ := by
    refine ⟨Function.update mem (!turn r.i) (some []), r.received t, ?_,
      fun v => ?_, rfl, rfl⟩
    · refine .recv hi (not_turn _)
        (.goto (c := {}) ⟨rfl, rfl⟩ (by simp [pipe_main, hs.2]; rfl) rfl ?_)
      exact .ended (c := {}) ⟨rfl, rfl⟩ rfl rfl .done
    · by_cases hv : v = turn r.i
      · simp [hv, hs.1]
      · obtain rfl : v = !turn r.i := by simpa [Bool.eq_not] using hv
        simp

/-- Both threads wait for a semaphore and post one. -/
def semCycle (x : Worker) : Cycle (semaphore_main x) x where
  Rest m mem := mem.sem (turn m) = some 1 ∧ mem.sem (!turn m) = some 0
  Sent m t mem := mem.sem (turn m) = some 0 ∧ mem.sem (!turn m) = some 1 ∧
    mem.tsc (!turn m) = t
  start := ⟨_, _, rfl, rfl, by simp [Function.update]⟩
  send {t mem r} hrest hi ht := by
    refine ⟨⟨Function.update (Function.update mem.sem (turn r.i) (some 0))
      (!turn r.i) (some 1), Function.update mem.tsc (!turn r.i) t⟩, r.sent t,
      ?_, by simp, rfl, rfl⟩
    refine .send hi rfl
      (.goto (c := {}) ⟨rfl, rfl⟩
        (by simp [semaphore_main, sem_wait, hrest.1]; rfl) rfl ?_)
    refine .pause rfl (.rdtsc (fun _ => rfl) ht ?_)
    refine .goto (c := {}) ⟨rfl, rfl⟩ rfl rfl ?_
    exact .ended (c := {}) ⟨rfl, rfl⟩
      (by simp [semaphore_main, sem_post, hrest.2]; rfl) rfl .done
  recv {t mem r} hs hi _ := by
    obtain ⟨hS, hR, rfl⟩ := hs
    refine ⟨⟨Function.update mem.sem (!turn r.i) (some 1), mem.tsc⟩,
      r.received (mem.tsc (!turn r.i)), ?_, by simp [hS], rfl, rfl⟩
    refine .recv hi (not_turn _)
      (.goto (c := {}) ⟨rfl, rfl⟩ (by simp [semaphore_main, sem_wait, hR]; rfl) rfl ?_)
    refine .goto (c := {}) ⟨rfl, rfl⟩ rfl rfl (.goto (c := {}) ⟨rfl, rfl⟩ rfl rfl ?_)
    exact .ended (c := {}) ⟨rfl, rfl⟩
      (by simp [semaphore_main, sem_post]; rfl) rfl .done

/-- FUTEX_WAKE with nobody asleep. -/
theorem futex_wake_idle {w : Tid} {mem : Follicles} {r : Regs} {role : Role}
    (hq : mem.queue (role.target w) = []) :
    futex_wake w {} mem r role = { mem, regs := r, next := .next } := by
  have hsame : Function.update mem.queue (role.target w) [] = mem.queue := by
    simp [hq]
  simp [futex_wake, hq, hsame]

/-- Both threads lock a futex and unlock one; nobody sleeps. -/
def futexCycle (x : Worker) : Cycle (futex_main x) x where
  Rest m mem :=
    mem.futex (turn m) = 0 ∧ mem.futex (!turn m) = 1 ∧ ∀ v, mem.queue v = []
  Sent m t mem :=
    mem.futex (turn m) = 1 ∧ mem.futex (!turn m) = 0 ∧ mem.tsc (!turn m) = t ∧
    ∀ v, mem.queue v = []
  start := ⟨_, _, rfl, rfl, by simp [futex_main, Function.update]⟩
  send {t mem r} hrest hi ht := by
    obtain ⟨hS, hR, hq⟩ := hrest
    refine ⟨⟨Function.update (Function.update mem.futex (turn r.i) 1) (!turn r.i) 0,
      Function.update mem.tsc (!turn r.i) t, mem.queue⟩, r.sent t, ?_,
      by simp [hq], rfl, rfl⟩
    refine .send hi rfl
      (.goto (c := {}) ⟨rfl, rfl⟩ (by simp [futex_main, futex_cas, hS]; rfl) rfl ?_)
    refine .pause rfl (.rdtsc (fun _ => rfl) ht (.goto (c := {}) ⟨rfl, rfl⟩ rfl rfl ?_))
    refine .goto (c := {}) ⟨rfl, rfl⟩
      (by simp [futex_main, futex_unlock, Role.target, hR]; rfl) rfl ?_
    exact .ended (c := {}) ⟨rfl, rfl⟩ (congrArg some (futex_wake_idle (hq _))) rfl .done
  recv {t mem r} hs hi _ := by
    obtain ⟨hS, hR, rfl, hq⟩ := hs
    refine ⟨⟨Function.update mem.futex (!turn r.i) 0, mem.tsc, mem.queue⟩,
      r.received (mem.tsc (!turn r.i)), ?_, by simp [hS, hq], rfl, rfl⟩
    refine .recv hi (not_turn _)
      (.goto (c := {}) ⟨rfl, rfl⟩ (by simp [futex_main, futex_cas, hR]; rfl) rfl ?_)
    refine .goto (c := {}) ⟨rfl, rfl⟩ rfl rfl (.goto (c := {}) ⟨rfl, rfl⟩ rfl rfl ?_)
    refine .goto (c := {}) ⟨rfl, rfl⟩
      (by simp [futex_main, futex_unlock, Role.target]; rfl) rfl ?_
    exact .ended (c := {}) ⟨rfl, rfl⟩ (congrArg some (futex_wake_idle (hq _))) rfl .done

/-- A signal with nobody asleep. -/
theorem pthread_cond_signal_idle {mem : Items} {r : Regs} {v : Tid}
    (hq : mem.queue v = []) :
    pthread_cond_signal {} mem r v = { mem, regs := r, next := .next } := by
  have hsame : Function.update mem.queue v [] = mem.queue := by simp [hq]
  simp [pthread_cond_signal, hq, hsame]

/-- A free mutex, locked and unlocked, is free. -/
theorem pthread_mutex_unlock_locked {w : Tid} {mem : Items} {r : Regs} {v : Tid}
    {msg : String} {b : CvAt} (hv : mem.mutex v = none) (tsc : Tid → UInt64) :
    pthread_mutex_unlock {} ⟨Function.update mem.mutex v (some w), mem.queue,
      tsc⟩ r v msg b =
      { mem := ⟨mem.mutex, mem.queue, tsc⟩, regs := r, next := .goto b } := by
  simp [pthread_mutex_unlock, hv]

/-- A cell is stored and read under its mutex; nobody sleeps. -/
def cvCycle (x : Worker) : Cycle (cv_main x) x where
  Rest _ mem := ∀ v, mem.mutex v = none ∧ mem.queue v = []
  Sent m t mem :=
    mem.tsc (!turn m) = t ∧ ∀ v, mem.mutex v = none ∧ mem.queue v = []
  start := ⟨_, _, rfl, rfl, fun _ => ⟨rfl, rfl⟩⟩
  send {t mem r} hrest hi ht := by
    refine ⟨⟨mem.mutex, mem.queue, Function.update mem.tsc (!turn r.i) t⟩, r.sent t, ?_,
      by simpa using hrest, rfl, rfl⟩
    refine .send hi rfl (.pause rfl (.rdtsc (fun _ => rfl) ht ?_))
    refine .goto (c := {}) ⟨rfl, rfl⟩
      (by simp [cv_main, pthread_mutex_lock, (hrest _).1]; rfl) rfl ?_
    refine .goto (c := {}) ⟨rfl, rfl⟩ rfl rfl ?_
    refine .goto (c := {}) ⟨rfl, rfl⟩
      (congrArg some (pthread_mutex_unlock_locked (hrest _).1 _)) rfl ?_
    exact .ended (c := {}) ⟨rfl, rfl⟩
      (congrArg some (pthread_cond_signal_idle (hrest _).2)) rfl
      .done
  recv {t mem r} hs hi ht := by
    obtain ⟨rfl, hrest⟩ := hs
    refine ⟨mem, r.received (mem.tsc (!turn r.i)), ?_, hrest, rfl, rfl⟩
    refine .recv hi (not_turn _) (.goto (c := {}) ⟨rfl, rfl⟩
      (by simp [cv_main, pthread_mutex_lock, (hrest _).1]; rfl) rfl ?_)
    refine .goto (c := {}) ⟨rfl, rfl⟩ (by simp [cv_main, not_le.mpr ht]; rfl) rfl ?_
    refine .goto (c := {}) ⟨rfl, rfl⟩ rfl rfl ?_
    refine .goto (c := {}) ⟨rfl, rfl⟩
      (congrArg some (pthread_mutex_unlock_locked (hrest _).1 _)) rfl ?_
    exact .ended (c := {}) ⟨rfl, rfl⟩ rfl rfl .done

/-! ## §2 The array

The relay gives the bound, since a worker has no more turns than there are
messages for it, and a complete run shows that the bound is reached. `DsWithin`
holds for both threads exactly if the number of messages is even. -/

/-- Worker `w` writes `ds[k]` with `k < n / 2` only, and when it leaves its
loop the assertion of `spin_main_finalize` holds. -/
def DsWithin {Mem At : Type} (B : Body Mem At) (x : Worker) (w : Tid) : Prop :=
  ∀ h s, Run (spin_pingpong B x) Any h s →
    (∀ k v now, .leg w k v now ∈ h → k < x.n.toNat / 2) ∧
      ((s.loc w).ctl = .finalize →
        (s.loc w).regs.ds.length ≤ x.n.toNat / 2 ∧
        ∀ fails msg,
          spin_main_finalize x.n.toNat (s.loc w).regs.ds fails ≠ .abort msg)

section DsWithin

variable {Mem At : Type} {B : Body Mem At} {x : Worker} {w : Tid}
  {h : List Event} {s : State Mem At}

/-- A worker that has left its loop has done its receive turns. -/
theorem Protocol.finalize_length (P : Protocol B)
    {ok : State Mem At → Label → Prop} (hrun : Run (spin_pingpong B x) ok h s)
    (hf : (s.loc w).ctl = .finalize) :
    (s.loc w).regs.ds.length = (x.n.toNat + w.toNat) / 2 := by
  obtain ⟨a, -, hH⟩ := P.refines hrun
  have hok := hH.good.ok w
  simp only [Local.view, hf, Ctl.stand] at hok
  rw [hok.2, hok.1, recvs]

/-- Every index is half the number of its message, which thread 0 receives
when it is odd. -/
theorem Protocol.leg_lt (P : Protocol B) {ok : State Mem At → Label → Prop}
    (hrun : Run (spin_pingpong B x) ok h s) {k : Nat} {v now : UInt64}
    (hleg : .leg w k v now ∈ h) : k < (x.n.toNat + w.toNat) / 2 := by
  obtain ⟨a, ha, -⟩ := P.refines hrun
  have hmem : (⟨w, k, v, now⟩ : Leg UInt64) ∈ legs h :=
    List.mem_filterMap.mpr ⟨_, hleg, rfl⟩
  obtain ⟨m, hm, hw, hk⟩ := leg_message ha hmem
  have hturn : turn m ≠ w := by
    rw [show w = !turn m from hw]
    simp
  have hpar := mt (turn_eq_iff m w).mpr hturn
  obtain rfl : k = m / 2 := hk
  cases w <;> (simp at hpar ⊢; omega)

/-- The bounds hold of a method exactly when the two halves are equal or the
worker starts with a send. -/
theorem Protocol.dsWithin_iff (P : Protocol B) (C : Cycle B x) :
    DsWithin B x w ↔ x.n.toNat % 2 = 0 ∨ w = false := by
  constructor
  · intro hwithin
    obtain ⟨h, s, hrun, hfin⟩ := C.complete
    have hany : Run (spin_pingpong B x) Any h s :=
      hrun.mono fun _ _ _ => trivial
    have hle := ((hwithin h s hany).2 (hfin w)).1
    rw [P.finalize_length hrun (hfin w)] at hle
    cases w with
    | false => exact .inr rfl
    | true => exact .inl (by simp at hle; omega)
  · intro hcond h s hrun
    have hhalf : (x.n.toNat + w.toNat) / 2 = x.n.toNat / 2 := by
      rcases hcond with hn | rfl
      · cases w <;> simp
        omega
      · simp
    refine ⟨fun k v now hleg => hhalf ▸ P.leg_lt hrun hleg, fun hfin => ?_⟩
    have hlen := P.finalize_length hrun hfin
    have hle : (s.loc w).regs.ds.length ≤ x.n.toNat / 2 := by rw [hlen, hhalf]
    refine ⟨hle, fun fails msg => ?_⟩
    rw [spin_main_finalize, if_pos hle]
    cases fails <;> simp

end DsWithin

/-- **When the writes to `ds` stay inside.** For every method, worker and
iteration count: exactly when the count is even or the worker is thread 0. -/
theorem ds_within_iff (m : Method) (x : Worker) (w : Tid) :
    DsWithin (m.main x).body x w ↔ x.n.toNat % 2 = 0 ∨ w = false := by
  cases m with
  | METHOD_SPIN => exact (spinProtocol _ x).dsWithin_iff (spinCycle _ x)
  | METHOD_SPIN_PAUSE => exact (spinProtocol _ x).dsWithin_iff (spinCycle _ x)
  | METHOD_SPIN_PAUSE_MORE =>
    exact (spinProtocol _ x).dsWithin_iff (spinCycle _ x)
  | METHOD_COND_VAR => exact (cvProtocol x).dsWithin_iff (cvCycle x)
  | METHOD_PIPE => exact (pipeProtocol x).dsWithin_iff (pipeCycle x)
  | METHOD_FUTEX => exact (futexProtocol x).dsWithin_iff (futexCycle x)
  | METHOD_SEMAPHORE => exact (semProtocol x).dsWithin_iff (semCycle x)

/-- Three iterations of `spin_main`: thread 1 receives twice and aborts. -/
def spinOdd : List Label :=
  List.flatten
    [List.replicate 5 (.main {}), List.replicate 4 (.worker false {}),
      [.worker false { clock := 5 }, .worker false {}],
      List.replicate 4 (.worker true {}), [.worker true { clock := 7 }],
      List.replicate 2 (.worker true {}),
      [.worker true { clock := 8 }, .worker true {}],
      List.replicate 2 (.worker false {}), [.worker false { clock := 9 }],
      List.replicate 2 (.worker false {}),
      [.worker false { clock := 10 }, .worker false {}],
      List.replicate 2 (.worker true {}), [.worker true { clock := 12 }],
      [.worker true {}, .worker true {}]]

/-- Three messages, of which the second thread receives two. -/
def spinOddEvents : List Event :=
  [.clock false 5, .send false 5, .recv true 5, .leg true 0 5 7,
    .clock true 8, .send true 8, .recv false 8, .leg false 0 8 9,
    .clock false 10, .send false 10, .recv true 10, .leg true 1 10 12]

/-- With three iterations thread 1 writes `ds[1]`, and `ds` has one entry. -/
theorem spin_odd_outside : ¬ DsWithin (spin_main ⟨3, 0, 0⟩) ⟨3, 0, 0⟩ true := by
  intro hwithin
  obtain ⟨s, hrun⟩ : ∃ s,
    Run (spin_pingpong (spin_main ⟨3, 0, 0⟩) ⟨3, 0, 0⟩) Any
      spinOddEvents s := Machine.run_of_exec spinOdd (by decide +kernel)
  have hlt := (hwithin _ s hrun).1 1 10 12 (by decide)
  exact absurd hlt (by decide)

end Osjitter.Pingpong
