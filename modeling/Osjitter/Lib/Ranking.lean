/-
Osjitter.Lib.Ranking — runs that cannot go on for ever.

A step may change nothing that matters: a thread that waits steps on the spot.
`same` says which states are to be told apart, and `Counted` is a run with the
number of its steps that lead to another state. A rank (`Ranked`) that such
steps decrease, and that no step increases, bounds their number, for every
scheduler (`Ranked.count_le`).

A bound on the steps is one half of termination. The other, that some step to
another state can be made as long as the end is not reached, depends on the
program and is left to it; no fairness is assumed, so a scheduler may let a
thread wait for ever while others could go on.

`Counted.steps` forgets the number, and `Steps.counted` finds it, so that a
property of all counted runs is one of all runs.
-/
import Mathlib
import Osjitter.Lib.Machine

namespace Machines

variable {σ α ε : Type} {M : Machine σ α ε} {ok : σ → α → Prop}
  {same : σ → σ → Prop} {s t : σ} {k : ℕ}

/-- `Counted M ok same s k t`: a run from `s` to `t` by steps that meet `ok`, of
which `k` lead to a state that is not the same. -/
inductive Counted (M : Machine σ α ε) (ok : σ → α → Prop)
    (same : σ → σ → Prop) (s : σ) : ℕ → σ → Prop
  | refl : Counted M ok same s 0 s
  | idle {k t a u es} : Counted M ok same s k t → ok t a →
    M.step t a = some (u, es) →
      same u t → Counted M ok same s k u
  | tail {k t a u es} : Counted M ok same s k t → ok t a →
    M.step t a = some (u, es) →
      ¬ same u t → Counted M ok same s (k + 1) u

/-- A counted run is a run. -/
theorem Counted.steps (h : Counted M ok same s k t) :
    ∃ es, Steps M ok s es t := by
  induction h with
  | refl => exact ⟨[], .refl⟩
  | idle _ hok hstep _ ih =>
    obtain ⟨es, hes⟩ := ih
    exact ⟨_, hes.tail hok hstep⟩
  | tail _ hok hstep _ ih =>
    obtain ⟨es, hes⟩ := ih
    exact ⟨_, hes.tail hok hstep⟩

/-- Every run can be counted. -/
theorem Steps.counted {es : List ε} (h : Steps M ok s es t) :
    ∃ k, Counted M ok same s k t := by
  induction h with
  | refl => exact ⟨0, .refl⟩
  | @tail h t a u es _ hok hstep ih =>
    obtain ⟨k, hk⟩ := ih
    by_cases hs : same u t
    · exact ⟨k, hk.idle hok hstep hs⟩
    · exact ⟨k + 1, hk.tail hok hstep hs⟩

/-- A rank of the states that meet `I`. -/
structure Ranked (M : Machine σ α ε) (ok : σ → α → Prop) (same : σ → σ → Prop)
    (I : σ → Prop) (rank : σ → ℕ) : Prop where
  keep : ∀ {s a t es}, I s → ok s a → M.step s a = some (t, es) → I t
  idle : ∀ {s a t es}, I s → ok s a → M.step s a = some (t, es) → same t s →
    rank t ≤ rank s
  drop : ∀ {s a t es}, I s → ok s a → M.step s a = some (t, es) → ¬ same t s →
    rank t < rank s

/-- **A rank bounds the number of steps that lead to another state.** -/
theorem Ranked.count_le {I : σ → Prop} {rank : σ → ℕ}
    (hR : Ranked M ok same I rank) (h : Counted M ok same s k t) (hI : I s) :
    I t ∧ rank t + k ≤ rank s := by
  induction h with
  | refl => exact ⟨hI, le_refl _⟩
  | idle _ hok hstep hs ih =>
    obtain ⟨hIt, hle⟩ := ih
    have hidle := hR.idle hIt hok hstep hs
    exact ⟨hR.keep hIt hok hstep, by omega⟩
  | tail _ hok hstep hs ih =>
    obtain ⟨hIt, hle⟩ := ih
    have hdrop := hR.drop hIt hok hstep hs
    exact ⟨hR.keep hIt hok hstep, by omega⟩

end Machines
