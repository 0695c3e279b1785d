/-
Osjitter.Pingpong.Termination — the workers finish, under every scheduler.

  §1 The ranks of the seven methods. Only those of `futex_main` and `cv_main`
     see the memory: a lock that is taken, or a sleeper that is awake, has a
     longer way ahead. `FutexAt.rank_wake` and `CvAt.rank_signal` are the steps
     where one worker makes the way of the other longer, and its own by more
     shorter.
  §2 `terminates`: the number of steps that are not spent waiting is bounded by
     a linear function of `n`, and while the process has not ended there is one.
     No branch has a rank above 12 (`Method.ranking_bound`), so the bound is 26
     steps a message, and 16 for the main thread.

Calls that fail are left out, as they can leave a worker waiting
(`Pingpong.Failure`); so are wake-ups without a reason, of which there may be
any number, and clocks that stand still. The end may be the assertion on an odd
`n`.
-/
import Osjitter.Pingpong.Ranking
import Osjitter.Pingpong.Replay

namespace Osjitter.Pingpong

open Machines Relay

variable {Mem At : Type}

/-! ## §1 The methods

Each rank counts the steps to the end of a branch. Where a branch can go back,
in `futex_main` and `cv_main`, it does so after a step of the other worker, and
the rank is higher in a memory in which it still has to. -/

/-- A reading above the last timestamp ends the loop around the clock. -/
theorem fenced_rdtsc_goes {w : Tid} {c : Choice} {mem : Mem} {r : Regs}
    {again b : At} (h : ∀ v t,
      .clock v t ∈ (fenced_rdtsc w c mem r again b).ev → r.tsc < t) :
    (fenced_rdtsc w c mem r again b).next = .goto b := by
  have hlt : r.tsc < c.clock := h w c.clock (by simp)
  simp [fenced_rdtsc, not_le.mpr hlt]

/-- A step down the worker's rank, which adds at most `d` to the other's. -/
theorem Next.drop {rank rank' other other' : At → Nat} {b : At}
    {k n : Next At} (d : Nat) (l : Ctl At) (hn : n = k)
    (h : k.rank rank' + d < rank b) (hother : ∀ b, other' b ≤ other b + d) :
    n.rank rank' + l.rank other' < rank b + l.rank other := by
  have hle : l.rank other' ≤ l.rank other + d := by
    cases l with
    | body b => exact hother b
    | calloc | gate | head | finalize => exact Nat.zero_le _
  rw [hn]
  omega

/-- A step down a rank that does not see the memory. -/
theorem Next.drop_const {rank : At → Nat} {b : At} {k n : Next At} (l : Ctl At)
    (hn : n = k) (h : k.rank rank < rank b) :
    n.rank rank + l.rank rank < rank b + l.rank rank :=
  Next.drop 0 l hn h fun _ => le_refl _

/-- Steps to the end of a branch; a test that fails is a wait. -/
def SpinAt.rank : SpinAt → Nat
  | .pause => 3
  | .rdtsc | .load => 2
  | .store | .rdtscp => 1

/-- The ranks of the loops that spin. -/
def spinRanking (p : Nat) (x : Worker) : Ranking (spinProtocol p x) where
  bound := 3
  rank _ _ := SpinAt.rank
  le _ _ b := by cases b <;> decide
  rdtsc := .rdtsc
  store := .store
  clock := (spinReplay p x).clock
  only {w c mem r b o v t} ho hv := by
    cases b with
    | rdtsc => rfl
    | load =>
      simp only [spinBody] at ho
      split at ho <;> (cases ho; simp at hv)
    | pause | store | rdtscp => cases ho; simp [pause, fenced_rdtscp] at hv
  drop {n c mem loc a w b o} _ _ _ _ ho hclock := by
    cases b with
    | pause =>
      cases ho; exact .inr (Next.drop_const (k := .goto .rdtsc) _ rfl (by decide))
    | rdtsc =>
      cases ho; exact .inr (Next.drop_const _ (fenced_rdtsc_goes hclock) (by decide))
    | store =>
      cases ho; exact .inr (Next.drop_const (k := .next) _ rfl (by decide))
    | load =>
      simp only [spinBody] at ho
      split at ho
      · cases ho
        exact .inr (Next.drop_const (k := .goto .rdtscp) _ rfl (by decide))
      · cases ho
        exact .inl ⟨rfl, rfl, rfl, rfl⟩
    | rdtscp =>
      cases ho; exact .inr (Next.drop_const (k := .next) _ rfl (by decide))

/-- Steps to the end of a branch. -/
def PipeAt.rank : PipeAt → Nat
  | .pause => 3
  | .rdtsc | .read => 2
  | .write | .rdtscp => 1

/-- The rank of the pipes. -/
def pipeRanking (x : Worker) : Ranking (pipeProtocol x) where
  bound := 3
  rank _ _ := PipeAt.rank
  le _ _ b := by cases b <;> decide
  rdtsc := .rdtsc
  store := .write
  clock := (pipeReplay x).clock
  only {w c mem r b o v t} ho hv := by
    cases b with
    | rdtsc => rfl
    | write => cases pipe_write_cases ho <;> simp [failing] at hv
    | read => cases pipe_read_cases ho <;> simp [failing] at hv
    | pause | rdtscp => cases ho; simp [pause, fenced_rdtscp] at hv
  drop {n c mem loc a w b o} _ h _ hc ho hclock := by
    have hopen : ∀ v, mem v ≠ none := by
      intro v hv
      obtain ⟨q, hq⟩ := PipeInv.created h v
      rw [hv] at hq
      cases hq
    cases b with
    | pause =>
      cases ho; exact .inr (Next.drop_const (k := .goto .rdtsc) _ rfl (by decide))
    | rdtsc =>
      cases ho; exact .inr (Next.drop_const _ (fenced_rdtsc_goes hclock) (by decide))
    | write =>
      cases pipe_write_cases ho with
      | fails hf => rw [hc.1] at hf; cases hf
      | closed hv => exact absurd hv (hopen _)
      | write => exact .inr (Next.drop_const (k := .next) _ rfl (by decide))
    | read =>
      cases pipe_read_cases ho with
      | fails hf => rw [hc.1] at hf; cases hf
      | closed hv => exact absurd hv (hopen _)
      | read =>
        exact .inr (Next.drop_const (k := .goto .rdtscp) _ rfl (by decide))
    | rdtscp =>
      cases ho; exact .inr (Next.drop_const (k := .next) _ rfl (by decide))

/-- Steps to the end of a branch. -/
def SemAt.rank : SemAt → Nat
  | .sendWait => 5
  | .pause | .recvWait => 4
  | .rdtsc | .read => 3
  | .write | .rdtscp => 2
  | .sendPost | .recvPost => 1

/-- With its calls succeeding and its semaphores initialised, a thread goes on. -/
theorem SemFails.not_quiet {c : Choice} {mem : Stripes} {r : Regs} {v : Tid}
    {o : Out Stripes SemAt} (hmem : ∀ v, (mem.sem v).isSome = true)
    (hc : c.Quiet) : ¬ SemFails c mem r v o := by
  rintro ⟨msg, -, hf | hn⟩
  · rw [hc.1] at hf
    cases hf
  · have hsome := hmem v
    rw [hn] at hsome
    cases hsome

/-- The rank of the semaphores. -/
def semRanking (x : Worker) : Ranking (semProtocol x) where
  bound := 5
  rank _ _ := SemAt.rank
  le _ _ b := by cases b <;> decide
  rdtsc := .rdtsc
  store := .write
  clock := (semReplay x).clock
  only {w c mem r b o v t} ho hv := by
    cases b with
    | rdtsc => rfl
    | sendWait | recvWait =>
      rcases sem_wait_cases ho
        with ⟨msg, rfl, -⟩ | ⟨k, -, rfl⟩ <;> simp [failing] at hv
    | sendPost =>
      cases ho
      rcases sem_post_cases c mem r (!w) with ⟨msg, hf, -⟩ | ⟨k, -, hp⟩
      · simp [hf, failing] at hv
      · simp [hp] at hv
    | recvPost =>
      cases ho
      rcases sem_post_cases c mem r w with ⟨msg, hf, -⟩ | ⟨k, -, hp⟩
      · simp [hf, failing] at hv
      · simp [hp] at hv
    | pause | write | read | rdtscp =>
      cases ho; simp [pause, fenced_rdtscp] at hv
  drop {n c mem loc a w b o} _ h _ hc ho hclock := by
    have hquiet : ∀ {v o}, ¬ SemFails c mem (loc w).regs v o :=
      SemFails.not_quiet (SemInv.created h) hc
    cases b with
    | sendWait =>
      obtain ⟨k, -, rfl⟩ := (sem_wait_cases ho).resolve_left hquiet
      exact .inr (Next.drop_const (k := .goto .pause) _ rfl (by decide))
    | pause =>
      cases ho; exact .inr (Next.drop_const (k := .goto .rdtsc) _ rfl (by decide))
    | rdtsc =>
      cases ho; exact .inr (Next.drop_const _ (fenced_rdtsc_goes hclock) (by decide))
    | write =>
      cases ho; exact .inr (Next.drop_const (k := .goto .sendPost) _ rfl (by decide))
    | sendPost =>
      cases ho
      obtain ⟨k, -, hp⟩ :=
        (sem_post_cases c mem (loc w).regs (!w)).resolve_left hquiet
      exact .inr (Next.drop_const (k := .next) _ (by rw [hp]) (by decide))
    | recvWait =>
      obtain ⟨k, -, rfl⟩ := (sem_wait_cases ho).resolve_left hquiet
      exact .inr (Next.drop_const (k := .goto .read) _ rfl (by decide))
    | read =>
      cases ho; exact .inr (Next.drop_const (k := .goto .rdtscp) _ rfl (by decide))
    | rdtscp =>
      cases ho; exact .inr (Next.drop_const (k := .goto .recvPost) _ rfl (by decide))
    | recvPost =>
      cases ho
      obtain ⟨k, -, hp⟩ :=
        (sem_post_cases c mem (loc w).regs w).resolve_left hquiet
      exact .inr (Next.drop_const (k := .next) _ (by rw [hp]) (by decide))

/-- A locked futex takes two steps more, and so does one that is unlocked
between the compare-exchange and FUTEX_WAIT. A sleeper has all that ahead of it
once it is awake. -/
def FutexAt.rank (w : Tid) (mem : Follicles) : FutexAt → Nat
  | .cas _ => if mem.futex w = 0 then 9 else 11
  | .wait _ => 10
  | .asleep _ => if w ∈ mem.queue w then 9 else 12
  | .pause => 8
  | .rdtsc | .read => 7
  | .write | .rdtscp => 6
  | .unlock _ => 5
  | .wake _ => 4

/-- The longest way of a compare-exchange, which fails and sleeps before. -/
theorem FutexAt.rank_cas_le (w : Tid) (mem : Follicles) (role : Role) :
    FutexAt.rank w mem (.cas role) ≤ 11 := by
  simp only [FutexAt.rank]
  split <;> omega

/-- The rank of the other thread, whose futex may be unlocked. -/
theorem FutexAt.rank_mono {v : Tid} {mem mem' : Follicles}
    (hq : mem'.queue v = mem.queue v)
    (hf : mem'.futex v = mem.futex v ∨ mem'.futex v = 0) (b : FutexAt) :
    FutexAt.rank v mem' b ≤ FutexAt.rank v mem b := by
  cases b with
  | cas role =>
    simp only [FutexAt.rank]
    rcases hf with hf | hf
    · rw [hf]
    · rw [if_pos hf]
      split <;> decide
  | asleep role => simp only [FutexAt.rank, hq, le_refl]
  | _ => exact le_refl _

/-- Waking a sleeper puts what it has still to do back in front of it. -/
theorem FutexAt.rank_wake {v : Tid} {mem mem' : Follicles}
    (hf : mem'.futex = mem.futex) (b : FutexAt) :
    FutexAt.rank v mem' b ≤ FutexAt.rank v mem b + 3 := by
  cases b with
  | cas role =>
    simp only [FutexAt.rank, hf]
    omega
  | asleep role =>
    simp only [FutexAt.rank]
    split <;> split <;> omega
  | _ => exact Nat.le_add_right _ _

/-- The rank of the futexes. -/
def futexRanking (x : Worker) : Ranking (futexProtocol x) where
  bound := 12
  rank := FutexAt.rank
  le w mem b := by
    cases b with
    | cas role | asleep role =>
      simp only [FutexAt.rank]
      split <;> omega
    | _ => simp [FutexAt.rank]
  rdtsc := .rdtsc
  store := .write
  clock := (futexReplay x).clock
  only {w c mem r b o v t} ho hv := by
    cases b with
    | rdtsc => rfl
    | cas role | wait role | asleep role | unlock role | wake role =>
      rw [futex_silent ho ⟨role, by simp⟩] at hv
      cases hv
    | pause | write | read | rdtscp =>
      cases ho; simp [pause, fenced_rdtscp] at hv
  drop {n c mem loc a w b o} _ h hb hc ho hclock := by
    -- the rank of the peer sees its own queue and futex only
    have hsame : ∀ {mem' : Follicles}, mem'.queue (!w) = mem.queue (!w) →
        mem'.futex (!w) = mem.futex (!w) →
            ∀ b, FutexAt.rank (!w) mem' b ≤ FutexAt.rank (!w) mem b :=
      fun hq hf => FutexAt.rank_mono hq (.inl hf)
    cases b with
    | cas role =>
      cases ho
      unfold futex_cas
      by_cases hz : mem.futex w = 0
      · rw [if_pos ⟨hz, hc.2⟩]
        refine .inr (Next.drop 0 _ rfl ?_ (hsame rfl (by simp)))
        cases role <;> simp [Next.rank, Role.locked, FutexAt.rank, hz]
      · rw [if_neg (fun h => hz h.1)]
        exact .inr (Next.drop 0 _ rfl (by simp [Next.rank, FutexAt.rank, hz])
          (hsame rfl rfl))
    | wait role =>
      cases ho
      simp only [futex_wait, hc.1, Bool.false_eq_true, if_false]
      split
      · refine .inr (Next.drop 0 _ rfl ?_ (hsame (by simp) rfl))
        simp [Next.rank, FutexAt.rank]
      · next hne =>
        -- the futex was unlocked in between: back to a compare-exchange that
        -- will succeed
        have hz := (FutexInv.bit h w).resolve_right hne
        exact .inr (Next.drop 0 _ rfl (by simp [Next.rank, FutexAt.rank, hz])
          (hsame rfl rfl))
    | asleep role =>
      simp only [futex_main, futex_return, hc.1, hc.2, Bool.false_eq_true,
        if_false] at ho
      split at ho
      · next hq =>
        cases ho
        have hcas := FutexAt.rank_cas_le w mem role
        refine .inr (Next.drop 0 _ rfl ?_ (hsame rfl rfl))
        simp only [Next.rank, show FutexAt.rank w mem (.asleep role) = 12
          from if_neg hq]
        omega
      · cases ho
    | pause =>
      cases ho
      refine .inr (Next.drop 0 (k := .goto .rdtsc) _ rfl ?_ (hsame rfl rfl))
      simp [Next.rank, FutexAt.rank]
    | rdtsc =>
      cases ho
      refine .inr (Next.drop 0 _ (fenced_rdtsc_goes hclock) ?_
        (hsame (by simp) (by simp)))
      simp [Next.rank, FutexAt.rank]
    | write =>
      cases ho
      refine .inr (Next.drop 0 (k := .goto (.unlock .send)) _ rfl ?_ (hsame rfl rfl))
      simp [Next.rank, FutexAt.rank]
    | read =>
      cases ho
      refine .inr (Next.drop 0 (k := .goto .rdtscp) _ rfl ?_ (hsame rfl rfl))
      simp [Next.rank, FutexAt.rank]
    | rdtscp =>
      cases ho
      refine .inr (Next.drop 0 (k := .goto (.unlock .recv)) _ rfl ?_ (hsame rfl rfl))
      simp [Next.rank, FutexAt.rank]
    | unlock role =>
      cases ho
      unfold futex_unlock
      -- the abort is excluded, since this worker has the token
      rw [if_pos (FutexInv.locked h hb _)]
      refine .inr (Next.drop 0 (k := .goto (.wake role)) _ rfl ?_
        (FutexAt.rank_mono rfl ?_))
      · simp [Next.rank, FutexAt.rank]
      · cases role <;> simp [Role.target]
    | wake role =>
      cases ho
      simp only [futex_wake, hc.1, Bool.false_eq_true, if_false]
      -- the peer may be woken, which gives it 3 steps more at most
      refine .inr (Next.drop 3 (k := .next) _ rfl ?_ (FutexAt.rank_wake rfl))
      simp [Next.rank, FutexAt.rank]

/-- The rank of `cv_main`. A sleeper that is awake takes the mutex and tests
again. -/
def CvAt.rank (w : Tid) (mem : Items) : CvAt → Nat
  | .pause => 11
  | .rdtsc => 10
  | .sendLock => 9
  | .write => 8
  | .sendUnlock => 7
  | .signal => 6
  | .asleep => if w ∈ mem.queue w then 1 else 6
  | .recvLock | .relock => 5
  | .test => 4
  | .take => 3
  | .condWait | .recvUnlock => 2
  | .rdtscp => 1

/-- The rank depends on the worker's own queue. -/
theorem CvAt.rank_congr {v : Tid} {mem mem' : Items}
    (hq : mem'.queue v = mem.queue v) (b : CvAt) :
    CvAt.rank v mem' b ≤ CvAt.rank v mem b := by
  cases b with
  | asleep => simp only [CvAt.rank, hq, le_refl]
  | _ => exact le_refl _

/-- A signal makes the way of the sleeper longer by five steps at most. -/
theorem CvAt.rank_signal {v : Tid} {mem mem' : Items} (b : CvAt) :
    CvAt.rank v mem' b ≤ CvAt.rank v mem b + 5 := by
  cases b with
  | asleep =>
    simp only [CvAt.rank]
    split <;> split <;> omega
  | _ => exact Nat.le_add_right _ _

/-- The rank of the condition variables. -/
def cvRanking (x : Worker) : Ranking (cvProtocol x) where
  bound := 11
  rank := CvAt.rank
  le w mem b := by
    cases b with
    | asleep =>
      simp only [CvAt.rank]
      split <;> omega
    | _ => simp [CvAt.rank]
  rdtsc := .rdtsc
  store := .sendLock
  clock := (cvReplay x).clock
  only {w c mem r b o v t} ho hv := by
    cases b with
    | rdtsc => rfl
    | write | take | rdtscp => cases ho; simp [fenced_rdtscp] at hv
    | _ =>
      rw [(cv_call ho (by simp)).1] at hv
      cases hv
  drop {n c mem loc a w b o} _ h hb hc ho hclock := by
    -- all steps but the signal leave the queue of the peer, and so its rank
    have hsame : ∀ {mem' : Items}, mem'.queue (!w) = mem.queue (!w) →
        ∀ b, CvAt.rank (!w) mem' b ≤ CvAt.rank (!w) mem b := CvAt.rank_congr
    cases b with
    | pause =>
      cases ho
      refine .inr (Next.drop 0 (k := .goto .rdtsc) _ rfl ?_ (hsame rfl))
      simp [Next.rank, CvAt.rank]
    | rdtsc =>
      cases ho
      refine .inr (Next.drop 0 _ (fenced_rdtsc_goes hclock) ?_ (hsame (by simp)))
      simp [Next.rank, CvAt.rank]
    | sendLock =>
      rcases lock_cases ho with ⟨hf, -⟩ | ⟨-, rfl⟩
      · rw [hc.1] at hf
        cases hf
      refine .inr (Next.drop 0 (k := .goto .write) _ rfl ?_ (hsame rfl))
      simp [Next.rank, CvAt.rank]
    | write =>
      cases ho
      refine .inr (Next.drop 0 (k := .goto .sendUnlock) _ rfl ?_ (hsame rfl))
      simp [Next.rank, CvAt.rank]
    | sendUnlock =>
      cases ho
      simp only [pthread_mutex_unlock, hc.1, Bool.false_eq_true, if_false]
      refine .inr (Next.drop 0 (k := .goto .signal) _ rfl ?_ (hsame rfl))
      simp [Next.rank, CvAt.rank]
    | signal =>
      cases ho
      simp only [pthread_cond_signal, hc.1, Bool.false_eq_true, if_false]
      -- the peer may be woken, which gives it 5 steps more at most
      refine .inr (Next.drop 5 (k := .next) _ rfl ?_ CvAt.rank_signal)
      simp [Next.rank, CvAt.rank]
    | recvLock =>
      rcases lock_cases ho with ⟨hf, -⟩ | ⟨-, rfl⟩
      · rw [hc.1] at hf
        cases hf
      refine .inr (Next.drop 0 (k := .goto .test) _ rfl ?_ (hsame rfl))
      simp [Next.rank, CvAt.rank]
    | test =>
      simp only [cv_main] at ho
      split at ho
      · cases ho
        refine .inr (Next.drop 0 (k := .goto .condWait) _ rfl ?_ (hsame rfl))
        simp [Next.rank, CvAt.rank]
      · cases ho
        refine .inr (Next.drop 0 (k := .goto .take) _ rfl ?_ (hsame rfl))
        simp [Next.rank, CvAt.rank]
    | condWait =>
      cases ho
      simp only [pthread_cond_wait, hc.1, Bool.false_eq_true, if_false]
      refine .inr (Next.drop 0 (k := .goto .asleep) _ rfl ?_ (hsame (by simp)))
      simp [Next.rank, CvAt.rank]
    | asleep =>
      simp only [cv_main, pthread_cond_wakeup, hc.2, Bool.false_eq_true, if_false] at ho
      split at ho
      · next hq =>
        cases ho
        refine .inr (Next.drop 0 (k := .goto .relock) _ rfl ?_ (hsame rfl))
        simp [Next.rank, CvAt.rank, hq]
      · cases ho
    | relock =>
      obtain ⟨-, rfl⟩ := relock_cases ho
      refine .inr (Next.drop 0 (k := .goto .test) _ rfl ?_ (hsame rfl))
      simp [Next.rank, CvAt.rank]
    | take =>
      cases ho
      refine .inr (Next.drop 0 (k := .goto .recvUnlock) _ rfl ?_ (hsame rfl))
      simp [Next.rank, CvAt.rank]
    | recvUnlock =>
      cases ho
      simp only [pthread_mutex_unlock, hc.1, Bool.false_eq_true, if_false]
      refine .inr (Next.drop 0 (k := .goto .rdtscp) _ rfl ?_ (hsame rfl))
      simp [Next.rank, CvAt.rank]
    | rdtscp =>
      cases ho
      refine .inr (Next.drop 0 (k := .next) _ rfl ?_ (hsame rfl))
      simp [Next.rank, CvAt.rank]

/-- What each method has left of its branches. -/
def Method.ranking (x : Worker) : (m : Method) → Ranking (m.protocol x)
  | .METHOD_SPIN => spinRanking _ x
  | .METHOD_SPIN_PAUSE => spinRanking _ x
  | .METHOD_SPIN_PAUSE_MORE => spinRanking _ x
  | .METHOD_COND_VAR => cvRanking x
  | .METHOD_PIPE => pipeRanking x
  | .METHOD_FUTEX => futexRanking x
  | .METHOD_SEMAPHORE => semRanking x

/-- No control point has a rank above 12. -/
theorem Method.ranking_bound (x : Worker) (m : Method) :
    (m.ranking x).bound ≤ 12 := by
  cases m <;>
    simp [Method.ranking, spinRanking, cvRanking, pipeRanking, futexRanking, semRanking]

/-! ## §2 Every run comes to an end

Bound and progress are put together here, for all seven methods. The run of the
witness goes to the end, and its steps are counted. -/

/-- **The workers finish, under every scheduler.** While no call fails, nothing
is spurious and each reading of a sender's clock is above the last timestamp: a
run has at most `26 * n + 16` steps that are not spent waiting, and in every
state that it reaches the process has ended with code 0, has been stopped by the
assertion on an odd `n`, or has such a step ahead, as long as there are
timestamps left. -/
theorem terminates (m : Method) (x : Worker) :
    (∀ k s, Counted (spin_pingpong (m.main x).body x)
      (Timely (m.main x).body x) State.Same
      (spin_pingpong (m.main x).body x).init k s → k ≤ 26 * x.n.toNat + 16) ∧
    ∀ h s, Run (spin_pingpong (m.main x).body x) (Timely (m.main x).body x) h s →
      (∀ w, ∃ t, (s.loc w).regs.tsc < t) →
      s.main = .exited 0 ∨ s.aborted = true ∧ x.n.toNat % 2 = 1 ∨
        Goes (m.main x).body x s := by
  refine ⟨fun k s hcount => ?_,
    fun h s hrun htsc => (m.live x).goes (m.ranking x) hrun htsc⟩
  have hle := ((m.ranking x).ranked x).count_le hcount ⟨[], .refl⟩
  have hinit := (m.ranking x).state_init x
  have hbound : x.n.toNat * ((m.ranking x).bound + 1) ≤ x.n.toNat * 13 :=
    Nat.mul_le_mul_left _ (Nat.succ_le_succ (m.ranking_bound x))
  omega

/-- Two iterations of `spin_main`, up to the return. -/
def spinWhole : List Label :=
  spinRound ++ List.flatten
    [List.replicate 2 (.worker false {}), List.replicate 2 (.worker true {}),
      List.replicate 3 (.main {})]

/-- The labels make a run to the return of 0. -/
theorem spinWhole_run : ∃ s, Run (spin_pingpong (spin_main ⟨2, 0, 0⟩) ⟨2, 0, 0⟩)
    (Timely (spin_main ⟨2, 0, 0⟩) ⟨2, 0, 0⟩) spinRoundEvents s ∧
      s.main = .exited 0 :=
  Machine.run_of_exec_where _ spinWhole (by decide +kernel)

/-- It has no more steps than the bound says. -/
theorem terminates_spin : ∃ k s, s.main = .exited 0 ∧ k ≤ 68 ∧
    Counted (spin_pingpong (spin_main ⟨2, 0, 0⟩) ⟨2, 0, 0⟩)
      (Timely (spin_main ⟨2, 0, 0⟩) ⟨2, 0, 0⟩) State.Same
      (spin_pingpong (spin_main ⟨2, 0, 0⟩) ⟨2, 0, 0⟩).init k s := by
  obtain ⟨s, hrun, hm⟩ := spinWhole_run
  obtain ⟨k, hk⟩ := Steps.counted hrun
  exact ⟨k, s, hm, (terminates .METHOD_SPIN ⟨2, 0, 0⟩).1 k s hk, hk⟩

end Osjitter.Pingpong
