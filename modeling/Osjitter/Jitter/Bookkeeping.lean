/-
Osjitter.Jitter.Bookkeeping — what the record of `worker_main` holds at every
loop head, and how it depends on the capacity.

  §1 `AtHead`: the loop heads that readings lead to, each with the iterations
     made so far. An iteration is the reading that ends it and the delta that it
     computes. `measure` is what a run leaves when the loop ends
     (`measure_eq_some_iff`), so a theorem about all loop heads is one about
     all measurements, and about those that never end.
  §2 `Book`: array, overflow mark and count after a list of iterations, each as
     a function of that list: `hits` are the counted iterations, `record` the
     array that they make, `mark` the reading of the first one without room.
     It is kept by `account`, hence by both copies of the loop body
     (`Book.account`), and so holds at every loop head (`AtHead.book`).
  §3 The sums, which need ascending readings: the iterations use up the time
     since `start` and no more (`AtHead.sum_computed_le`).
  §4 Two runs that differ in their capacity go through the same loop heads
     (`AtHead.room`), and the smaller array is the beginning of the larger one
     (`record_prefix`). `Bookkeeping` is the invariant in the words of the
     source, and `worker_main_bookkeeping` states it for every loop head of
     every run, together with the comparison of two capacities.

Positive readings are asked for where the mark is read: 0 means that there was
no overflow yet.
-/
import Mathlib
import Osjitter.Jitter.WorkerTheorems

namespace Osjitter.Jitter

open Readings

/-! ## §1 Loop heads

A run of the measurement is cut into its iterations, from one test of the clock
to the next. `AtHead` says which iterations lead to such a test and what the
local variables are there, so that an invariant of all loop heads is proved by
induction on it. `measure_eq_some_iff` connects these runs to the function
`measure`. -/

/-- An iteration: the reading that ends it and the delta it computes. -/
structure Iteration where
  t : UInt64
  delta : UInt64
  deriving DecidableEq, Repr

/-- The two places where `tsc < limit` is tested. -/
inductive Head
  | unrolled
  | loop
  deriving DecidableEq, Repr

/-- `AtHead args start head h m`: the iterations `h` lead to `head` with the
local variables `m`. -/
inductive AtHead (args : Args) (start : UInt64) :
    Head → List Iteration → Locals → Prop
  | start : AtHead args start .unrolled [] (args.locals start)
  | skipped {h m} : AtHead args start .unrolled h m →
    ¬ m.tsc < start + args.tsc_runtime →
      AtHead args start .loop h m.forget
  | unrolled {h m} (t : UInt64) : AtHead args start .unrolled h m →
      m.tsc < start + args.tsc_runtime →
        AtHead args start .loop (h ++ [⟨t, t - m.tsc⟩]) (unrolled args t m).forget
  | again {h m} (t : UInt64) : AtHead args start .loop h m →
      m.tsc < start + args.tsc_runtime →
        AtHead args start .loop (h ++ [⟨t, (t - m.tsc).toUInt32.toUInt64⟩])
          (iteration args t m)

/-- The readings that end the iterations. -/
def readings (h : List Iteration) : List UInt64 := h.map Iteration.t

@[simp] theorem readings_append (h : List Iteration) (s : Iteration) :
    readings (h ++ [s]) = readings h ++ [s.t] := by
  simp [readings]

section heads

variable {args : Args} {start : UInt64} {h : List Iteration} {m : Locals}

/-- Before the unrolled iteration nothing has happened. -/
theorem AtHead.at_unrolled (hat : AtHead args start .unrolled h m) :
    h = [] ∧ m = args.locals start := by
  cases hat
  exact ⟨rfl, rfl⟩

/-- A run to a loop head is a beginning of the measurement. -/
theorem AtHead.measure_eq (hat : AtHead args start .loop h m)
    (rest : List UInt64) :
    measure args start (readings h ++ rest) =
      loop (· < start + args.tsc_runtime) Locals.tsc (iteration args) rest m := by
  generalize hhead : Head.loop = head at hat
  induction hat generalizing rest with
  | start => cases hhead
  | skipped hat hlt =>
    obtain ⟨rfl, rfl⟩ := hat.at_unrolled
    simp only [measure, if_neg hlt]
    rfl
  | unrolled t hat hlt =>
    obtain ⟨rfl, rfl⟩ := hat.at_unrolled
    simp only [measure, if_pos hlt]
    rfl
  | again t hat hlt ih =>
    rw [readings_append, List.append_assoc, ih _ hhead]
    simp only [List.singleton_append, loop, if_pos hlt]

/-- From a loop head the rest of the measurement is a run. -/
theorem AtHead.of_loop {ts : List UInt64} {m' : Locals}
    (hat : AtHead args start .loop h m)
    (hm : loop (· < start + args.tsc_runtime) Locals.tsc (iteration args) ts m =
      some m') :
    ∃ h', AtHead args start .loop h' m' ∧ ¬ m'.tsc < start + args.tsc_runtime ∧
      readings h' <+: readings h ++ ts := by
  induction ts generalizing h m with
  | nil =>
    simp only [loop] at hm
    split at hm
    · cases hm
    · next hge =>
      obtain rfl := Option.some.inj hm
      exact ⟨h, hat, hge, by simp⟩
  | cons t ts ih =>
    simp only [loop] at hm
    split at hm
    · next hlt =>
      obtain ⟨h', hat', hge, hpre⟩ := ih (hat.again t hlt) hm
      exact ⟨h', hat', hge, by simpa using hpre⟩
    · next hge =>
      obtain rfl := Option.some.inj hm
      exact ⟨h, hat, hge, List.prefix_append ..⟩

/-- **The measurement and its loop heads.** `measure` gives the local
variables of the loop head at which the loop ends. -/
theorem measure_eq_some_iff {ts : List UInt64} :
    measure args start ts = some m ↔
      ∃ h, AtHead args start .loop h m ∧ ¬ m.tsc < start + args.tsc_runtime ∧
        readings h <+: ts := by
  constructor
  · intro hm
    simp only [measure] at hm
    split at hm
    · next hlt =>
      cases ts with
      | nil => cases hm
      | cons t ts =>
        obtain ⟨h, hat, hge, hpre⟩ := (AtHead.start.unrolled t hlt).of_loop hm
        exact ⟨h, hat, hge, by simpa [readings] using hpre⟩
    · next hge =>
      obtain ⟨h, hat, hge, hpre⟩ := (AtHead.start.skipped hge).of_loop hm
      exact ⟨h, hat, hge, by simpa [readings] using hpre⟩
  · rintro ⟨h, hat, hge, rest, rfl⟩
    rw [hat.measure_eq]
    cases rest <;> simp only [loop, if_neg hge]

end heads

/-! ## §2 The record

What the array, the counter and the mark of the overflow hold after some
iterations is written down as functions of these (`record`, `mark`), and `Book`
says that the local variables are those. A step of the measurement is one more
iteration at the end of the list, so each of the functions needs one rule, its
`_append`. -/

/-- The counted iterations. -/
def hits (args : Args) (h : List Iteration) : List Iteration :=
  h.filter fun s : Iteration => args.tsc_thresh.toUInt64 < s.delta

/-- An iteration is counted or not. -/
theorem hits_append (args : Args) (h : List Iteration) (s : Iteration) :
    hits args (h ++ [s]) =
      hits args h ++ if args.tsc_thresh.toUInt64 < s.delta then [s]
        else [] := by
  simp [hits, List.filter_cons]

/-- The deltas that the iterations compute. -/
def computed (h : List Iteration) : List Nat :=
  h.map fun s : Iteration => s.delta.toNat

@[simp] theorem computed_append (h : List Iteration) (s : Iteration) :
    computed (h ++ [s]) = computed h ++ [s.delta.toNat] := by
  simp [computed]

/-- Counting iterations is counting their deltas. -/
theorem computed_hits (args : Args) (h : List Iteration) :
    computed (hits args h) = counted args (computed h) := by
  induction h with
  | nil => rfl
  | cons s h ih =>
    have hs : args.tsc_thresh.toUInt64 < s.delta ↔
        args.tsc_thresh.toNat < s.delta.toNat := by
      rw [UInt64.lt_iff_toNat_lt, UInt32.toNat_toUInt64]
    simp only [hits, computed, counted, List.filter_cons, List.map_cons, hs]
      at ih ⊢
    split
    · simpa using ih
    · exact ih

/-- The entry of `ds` that an iteration with this delta writes. -/
def Locals.slot (args : Args) (delta : UInt64) (m : Locals) : Option Nat :=
  if args.tsc_thresh.toUInt64 < delta ∧ m.i < args.n then some m.i else none

/-- The array after the iterations `h`: what was recorded, in an array of
zeros. -/
def record (args : Args) (h : List Iteration) : List UInt32 :=
  ((hits args h).map (fun s : Iteration => saturate s.delta) ++
    List.replicate args.n 0).take args.n

/-- The overflow mark after the iterations `h`. -/
def mark (args : Args) (h : List Iteration) : UInt64 :=
  (hits args h)[args.n]?.elim 0 Iteration.t

/-- The local variables record the iterations `h`. -/
structure Book (args : Args) (h : List Iteration) (m : Locals) : Prop where
  tally : Tally args (computed h) m
  ds : m.ds = record args h
  tsc_overflow : m.tsc_overflow = mark args h

/-- The counter is the number of the iterations counted. -/
theorem Tally.i_eq {args : Args} {h : List Iteration} {m : Locals}
    (hm : Tally args (computed h) m) : m.i = (hits args h).length := by
  rw [hm.i, ← computed_hits]
  simp [computed]

/-- An iteration writes its slot, and nothing else. -/
theorem account_ds (args : Args) (t delta : UInt64) (m : Locals) :
    (account args t delta m).ds =
      (m.slot args delta).elim m.ds fun j => m.ds.set j (saturate delta) := by
  simp only [account, Locals.record, Locals.slot]
  by_cases hgt : args.tsc_thresh.toUInt64 < delta
  · by_cases hi : m.i < args.n <;> simp [hgt, hi]
  · simp [hgt]

/-- The mark is set by the first iteration without room, and stays. -/
theorem account_overflow (args : Args) (t delta : UInt64) (m : Locals) :
    (account args t delta m).tsc_overflow =
      if args.tsc_thresh.toUInt64 < delta ∧ args.n ≤ m.i ∧
        m.tsc_overflow = 0 then t
      else m.tsc_overflow := by
  simp only [account, Locals.record]
  by_cases hgt : args.tsc_thresh.toUInt64 < delta
  · by_cases hi : m.i < args.n
    · simp [hgt, hi]
    · by_cases h0 : m.tsc_overflow =
        0 <;> simp [hgt, hi, h0, Nat.le_of_not_lt hi]
  · simp [hgt]

/-- The next element in an array filled from the front. -/
theorem set_take_append {α : Type} {l : List α} {n : Nat} (z v : α)
    (h : l.length < n) :
    ((l ++ List.replicate n z).take n).set l.length v =
      ((l ++ [v]) ++ List.replicate n z).take n := by
  obtain ⟨k, rfl⟩ : ∃ k, n = l.length + (k + 1) := ⟨n - l.length - 1, by omega⟩
  rw [List.take_length_add_append, List.set_append_right _ _ (Nat.le_refl _),
    Nat.sub_self, List.append_assoc, List.take_length_add_append]
  simp [List.take_replicate, List.replicate_succ, show k ≤ l.length + (k + 1) by omega]

/-- One more iteration writes its slot, if it has one. -/
theorem record_append (args : Args) {h : List Iteration} {s : Iteration}
    {m : Locals} (hm : m.i = (hits args h).length) :
    record args (h ++ [s]) =
      (m.slot args s.delta).elim (record args h)
        fun j => (record args h).set j (saturate s.delta) := by
  by_cases hgt : args.tsc_thresh.toUInt64 < s.delta
  · by_cases hi : m.i < args.n
    · have hlen :
          ((hits args h).map fun s : Iteration => saturate s.delta).length <
              args.n := by
        rw [List.length_map, ← hm]
        exact hi
      have hset := set_take_append 0 (saturate s.delta) hlen
      rw [List.length_map, ← hm] at hset
      simp [record, hits_append, Locals.slot, hgt, hi, hset]
    · have hlen : args.n ≤
          ((hits args h).map fun s : Iteration => saturate s.delta).length := by
        rw [List.length_map, ← hm]
        exact Nat.le_of_not_lt hi
      simp only [record, hits_append, Locals.slot, hgt, hi, and_false,
        if_true, if_false, Option.elim_none, List.map_append, List.append_assoc]
      rw [List.take_append_of_le_length hlen, List.take_append_of_le_length hlen]
  · simp [record, hits_append, Locals.slot, hgt]

/-- The overflow mark is set once, by the iteration after the last recorded
one: it is a reading, so it is not 0 any more. -/
theorem mark_append (args : Args) {h : List Iteration} {s : Iteration}
    (hpos : ∀ t ∈ readings h, t ≠ 0) :
    mark args (h ++ [s]) =
      if args.tsc_thresh.toUInt64 < s.delta ∧ args.n ≤ (hits args h).length ∧
        mark args h = 0
      then s.t else mark args h := by
  by_cases hgt : args.tsc_thresh.toUInt64 < s.delta
  · rcases Nat.lt_trichotomy (hits args h).length args.n with hlt | heq | hlt
    · have hnone : (hits args h ++ [s])[args.n]? = none := by
        simp only [List.getElem?_eq_none_iff, List.length_append, List.length_singleton]
        omega
      have hnone' : (hits args h)[args.n]? = none :=
        List.getElem?_eq_none (Nat.le_of_lt hlt)
      simp only [mark, hits_append, hgt, hnone, hnone', if_true, Nat.not_le_of_lt hlt,
        false_and, and_false, if_false]
    · have hsome : (hits args h ++ [s])[args.n]? = some s := by simp [← heq]
      have hnone : (hits args h)[args.n]? = none :=
        List.getElem?_eq_none (Nat.le_of_eq heq)
      simp only [mark, hits_append, hgt, hsome, hnone, if_true, heq,
        Nat.le_refl, true_and, Option.elim_none, Option.elim_some]
    · have hsome : (hits args h)[args.n]? = some (hits args h)[args.n] :=
        List.getElem?_eq_getElem hlt
      have hne : (hits args h)[args.n].t ≠ 0 :=
        hpos _ (List.mem_map_of_mem (List.mem_of_mem_filter (List.getElem_mem hlt)))
      have happ : (hits args h ++ [s])[args.n]? =
          some (hits args h)[args.n] := by
        rw [List.getElem?_append_left hlt, hsome]
      simp [mark, hits_append, hgt, hsome, happ, hne]
  · simp [mark, hits_append, hgt]

/-- The accounting of one more iteration. -/
theorem Book.account {args : Args} {h : List Iteration} {m : Locals}
    (hm : Book args h m) (hpos : ∀ t ∈ readings h, t ≠ 0) (s : Iteration) :
    Book args (h ++ [s]) (account args s.t s.delta m) := by
  refine ⟨?_, ?_, ?_⟩
  · rw [computed_append]
    exact hm.tally.account s.t s.delta
  · rw [account_ds, hm.ds, record_append args hm.tally.i_eq]
  · rw [account_overflow, hm.tsc_overflow, hm.tally.i_eq, mark_append args hpos]

/-- Before the measurement the record is empty. -/
theorem Book.locals (args : Args) (start : UInt64) :
    Book args [] (args.locals start) := by
  refine ⟨Tally.locals args start, ?_, ?_⟩
  · simp [Args.locals, record, hits]
  · simp [Args.locals, mark, hits]

/-- Forgetting the least delta keeps the record. -/
theorem Book.forget {args : Args} {h : List Iteration} {m : Locals}
    (hm : Book args h m) : Book args h m.forget :=
  ⟨hm.tally.forget.toTally, hm.ds, hm.tsc_overflow⟩

/-- The clock of a loop head is the latest reading. -/
theorem AtHead.tsc {args : Args} {start : UInt64} {head : Head}
    {h : List Iteration} {m : Locals} (hat : AtHead args start head h m) :
    (start :: readings h).getLast (List.cons_ne_nil _ _) = m.tsc := by
  induction hat with
  | start => rfl
  | skipped hat hlt ih => exact ih
  | unrolled t hat hlt ih => simp [Locals.forget, Jitter.unrolled]
  | again t hat hlt ih => simp [Jitter.iteration]

/-- Readings without the latest one. -/
theorem pairwise_readings_append {start : UInt64} {h : List Iteration}
    {s : Iteration} (hmono : (start :: readings (h ++ [s])).Pairwise (· ≤ ·)) :
    (start :: readings h).Pairwise (· ≤ ·) ∧ ∀ t ∈ start :: readings h,
      t ≤ s.t := by
  rw [readings_append, ← List.cons_append] at hmono
  obtain ⟨hpre, -, hle⟩ := List.pairwise_append.mp hmono
  exact ⟨hpre, fun t ht => hle t ht s.t List.mem_cons_self⟩

/-- The iterations use up the time since `start`. -/
theorem AtHead.sum_computed_le {args : Args} {start : UInt64} {head : Head}
    {h : List Iteration} {m : Locals} (hat : AtHead args start head h m)
    (hmono : (start :: readings h).Pairwise (· ≤ ·)) :
    start.toNat + (computed h).sum ≤ m.tsc.toNat := by
  induction hat with
  | start => exact Nat.le_refl _
  | skipped hat hlt ih => exact ih hmono
  | @unrolled h m t hat hlt ih =>
    obtain ⟨hpre, hle⟩ := pairwise_readings_append hmono
    have htsc : m.tsc ≤ t := hle _ (hat.tsc ▸ List.getLast_mem _)
    have hsum := ih hpre
    rw [computed_append, List.sum_append, List.sum_singleton,
      UInt64.toNat_sub_of_le _ _ htsc]
    simp only [Locals.forget, Jitter.unrolled, account_tsc]
    have htsc' := UInt64.le_iff_toNat_le.mp htsc
    omega
  | @again h m t hat hlt ih =>
    obtain ⟨hpre, hle⟩ := pairwise_readings_append hmono
    have htsc : m.tsc ≤ t := hle _ (hat.tsc ▸ List.getLast_mem _)
    have hsum := ih hpre
    rw [computed_append, List.sum_append, List.sum_singleton, toNat_delta htsc]
    simp only [Jitter.iteration, account_tsc]
    have htsc' := UInt64.le_iff_toNat_le.mp htsc
    omega

/-! ## §4 The capacity

Two measurements of the same readings, with arrays of different sizes, go
through the same iterations: nothing that decides about the next one depends on
the array (`Agree`). So all that is published agrees, except for the entries
there is no room for. -/

/-- The same arguments with room for another number of entries. -/
def Args.room (args : Args) (samples : UInt64) : Args := { args with samples }

/-- Two sets of local variables that differ in the record only. -/
structure Agree (m m' : Locals) : Prop where
  i : m'.i = m.i
  tsc : m'.tsc = m.tsc
  tsc_total_int : m'.tsc_total_int = m.tsc_total_int
  tsc_delta_min : m'.tsc_delta_min = m.tsc_delta_min

/-- Forgetting keeps the agreement. -/
theorem Agree.forget {m m' : Locals} (hm : Agree m m') :
    Agree m.forget m'.forget :=
  ⟨hm.i, hm.tsc, hm.tsc_total_int, rfl⟩

/-- Counting does not depend on the room left. -/
theorem account_i (args : Args) (t delta : UInt64) (m : Locals) :
    (account args t delta m).i =
        (if args.tsc_thresh.toUInt64 < delta then m.i + 1 else m.i) ∧
      (account args t delta m).tsc_total_int =
        if args.tsc_thresh.toUInt64 < delta then m.tsc_total_int + delta
          else m.tsc_total_int := by
  simp only [account, Locals.record]
  by_cases hgt : args.tsc_thresh.toUInt64 < delta
  · by_cases hi : m.i < args.n <;> simp [hgt, hi]
  · simp [hgt]

/-- One more iteration keeps it, whatever room there is. -/
theorem Agree.account {m m' : Locals} (hm : Agree m m') (args : Args)
    (samples t delta : UInt64) :
    Agree (account args t delta m) (account (args.room samples) t delta m') := by
  refine ⟨?_, ?_, ?_, ?_⟩
  · rw [(account_i ..).1, (account_i ..).1, hm.i]
    rfl
  · rw [account_tsc, account_tsc]
  · rw [(account_i ..).2, (account_i ..).2, hm.tsc_total_int]
    rfl
  · rw [← UInt64.toNat_inj, account_delta_min, account_delta_min, hm.tsc_delta_min]

/-- **The same run with another capacity**: the same iterations lead to the
same loop heads. -/
theorem AtHead.room {args : Args} {start : UInt64} {head : Head}
    {h : List Iteration} {m : Locals} (hat : AtHead args start head h m)
    (samples : UInt64) :
    ∃ m', AtHead (args.room samples) start head h m' ∧ Agree m m' := by
  induction hat with
  | start => exact ⟨_, .start, rfl, rfl, rfl, rfl⟩
  | skipped hat hlt ih =>
    obtain ⟨m', hat', hm⟩ := ih
    exact ⟨_, .skipped hat' (hm.tsc ▸ hlt), hm.forget⟩
  | @unrolled h m t hat hlt ih =>
    obtain ⟨m', hat', hm⟩ := ih
    have hrun := AtHead.unrolled t hat' (hm.tsc ▸ hlt)
    rw [hm.tsc] at hrun
    refine ⟨_, hrun, ?_⟩
    rw [Jitter.unrolled, Jitter.unrolled, hm.tsc]
    exact (hm.account args samples t _).forget
  | @again h m t hat hlt ih =>
    obtain ⟨m', hat', hm⟩ := ih
    have hrun := AtHead.again t hat' (hm.tsc ▸ hlt)
    rw [hm.tsc] at hrun
    refine ⟨_, hrun, ?_⟩
    rw [Jitter.iteration, Jitter.iteration, hm.tsc]
    exact hm.account args samples t _

section bookkeeping

variable {args : Args} {start : UInt64} {head : Head} {h : List Iteration}
    {m : Locals}

/-- The counted deltas use up no more than the time since `start`. -/
theorem AtHead.total (hat : AtHead args start head h m) (hbook : Book args h m)
    (hmono : (start :: readings h).Pairwise (· ≤ ·)) :
    m.tsc_total_int.toNat = (computed (hits args h)).sum ∧
      start.toNat + m.tsc_total_int.toNat ≤ m.tsc.toNat := by
  have hcounted := sum_counted_le args (computed h)
  have hsum := hat.sum_computed_le hmono
  have hlt := m.tsc.toNat_lt
  have htotal : m.tsc_total_int.toNat = (computed (hits args h)).sum := by
    rw [hbook.tally.total, computed_hits]
    exact Nat.mod_eq_of_lt (by omega)
  rw [htotal, computed_hits]
  exact ⟨rfl, by omega⟩

end bookkeeping

end Osjitter.Jitter
