/-
Osjitter.Pingpong.Elapsed — the deltas of a run and the time that it takes.

On a synchronised clock a message is under way, or the thread that has it turns
around and sends the next one. So what the threads record and the turnarounds
add up to the time from the first timestamp to the last receipt, for every
method; what is missing was cut off where a delta has more than 32 bits.

`turnarounds` are the cycles between a receipt and the next timestamp. The sum
of the recorded deltas is that of `Protocol.sum_ds_eq`; `sum_mod_eq_iff` says
when cutting loses nothing, and the span of the legs is `sum_gaps_turnaround`
of the relay. `elapsed_iff` has the bound and the exact condition, for every
method and every run, whatever calls fail and wherever it stands.
-/
import Osjitter.Pingpong.Failure

namespace Osjitter.Pingpong

open Machines Relay

/-- Cycles from the receipt of a message to the timestamp of the next. -/
def turnarounds (h : List Event) : Nat :=
  turnaround (fun l => l.v.toNat) (fun l => l.now.toNat) (legs h)

/-- Nothing is lost exactly if all of them fit. -/
theorem sum_mod_eq_iff {α : Type} (f : α → Nat) {m : Nat} (hm : 0 < m) :
    ∀ xs : List α,
      (xs.map fun x => f x % m).sum = (xs.map f).sum ↔ ∀ x ∈ xs, f x < m
  | [] => iff_of_true rfl (List.forall_mem_nil _)
  | x :: xs => by
      have ih := sum_mod_eq_iff f hm xs
      have hrest := sum_mod_le f m xs
      have hx := Nat.mod_le (f x) m
      have hfits : f x % m = f x ↔ f x < m := Nat.mod_eq_iff_lt hm.ne'
      rw [List.forall_mem_cons, ← ih, ← hfits, List.map_cons, List.map_cons,
        List.sum_cons, List.sum_cons]
      omega

/-- **Where the time goes**, for every method, whatever calls fail: recorded
deltas and turnarounds never exceed the time that has passed, and make it up
unless a message was under way for 2^32 cycles or more. -/
theorem elapsed_iff (m : Method) (x : Worker)
    {ok : State (m.main x).Mem (m.main x).At → Label → Prop} {h : List Event}
    {s : State (m.main x).Mem (m.main x).At}
    (hrun : Run (spin_pingpong (m.main x).body x) ok h s)
    (hclock : (clocks h).Pairwise (· ≤ ·)) {first : Leg UInt64}
    {rest : List (Leg UInt64)} (hlegs : legs h = first :: rest) :
    sum_ds s + turnarounds h ≤ (rest.getLastD first).now.toNat - first.v.toNat ∧
      (sum_ds s + turnarounds h = (rest.getLastD first).now.toNat - first.v.toNat ↔
        ∀ l ∈ legs h, latency l < 2 ^ 32) := by
  obtain ⟨a, ha, -⟩ := (m.protocol x).refines hrun
  obtain ⟨-, -, hup, hapart⟩ := legs_ordered ha hclock
  have hsum := (m.protocol x).sum_ds_eq hrun hup
  have hle := sum_mod_le latency (2 ^ 32) (legs h)
  have hiff := sum_mod_eq_iff latency (Nat.two_pow_pos 32) (legs h)
  have hspan :=
    sum_gaps_turnaround (fun l => l.v.toNat) (fun l => l.now.toNat) first rest
    (fun l hl => UInt64.le_iff_toNat_le.mp (hup l (hlegs ▸ hl)))
    ((hlegs ▸ hapart).imp fun hnext => UInt64.le_iff_toNat_le.mp hnext)
  have hlat : (legs h).map latency =
      (first :: rest).map fun l => l.now.toNat - l.v.toNat := by
    rw [hlegs]
    rfl
  rw [List.getLastD_cons, ← hlat, ← hlegs] at hspan
  rw [hsum, ← hiff, turnarounds]
  omega

/-- Two messages, from 5 to 9. -/
theorem elapsed_iff_two : ∃ s : State Cells SpinAt,
    Run (spin_pingpong (spin_main ⟨2, 0, 0⟩) ⟨2, 0, 0⟩) NoFail spinRoundEvents s ∧
      sum_ds s + turnarounds spinRoundEvents = 4 := by
  obtain ⟨s, hrun⟩ := spinRound_run
  have htime := (elapsed_iff .METHOD_SPIN ⟨2, 0, 0⟩ hrun (by decide) rfl).2
  exact ⟨s, hrun, htime.mpr (by decide)⟩

end Osjitter.Pingpong
