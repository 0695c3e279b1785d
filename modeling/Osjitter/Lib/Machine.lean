/-
Osjitter.Lib.Machine — machines with computed steps, their conditioned
runs, and monitors that read what a run shows.

A `Machine` computes its step: a label (what the scheduler and the
environment choose) is either not enabled, or gives the next state and
the list of events an observer sees. `Steps M ok s h t` is a run from `s`
to `t` that shows the events `h` and whose every step meets `ok`, a
condition on the state BEFORE the step and on the label. The condition is
a parameter because a development wants several of them over one machine:
every step, steps in which no call fails, steps in which a failure does no
harm. `Run` is such a run from the first state, `Steps.mono` weakens the
condition, and `Steps.invariant` and `Steps.history_invariant` are the two
inductions: what every step keeps holds in every state reached, of the
state alone or of the state and the events shown so far.

A `Monitor` is a partial automaton over events. `Steps.monitor` is the
forward-simulation rule: a relation between machine states and monitor
states that every step keeps, the monitor reading that step's events,
makes the monitor accept the whole history. `Monitor.read_invariant` then
gives facts about histories by induction over the monitor alone, with the
machine out of sight. The two together are how a concurrent machine is
shown to look, from outside, like a sequential one. `Monitor.shown` is the
rule for the converse: the machine can show all that the monitor reads.

`Legal P h` says of a history that each event was allowed by `P` after the
events before it; `Steps.legal` is its rule, and `Legal.split` reads it at
one event.

`Machine.exec` runs a list of labels, and `run_of_exec` makes a `Run` of
what it computes, so that an example of a run is a list and a `decide`.
-/
import Mathlib

namespace Machines

/-- A machine whose steps are computed. `step s a = none` says that the
label `a` is not enabled in `s`. -/
structure Machine (σ α ε : Type) where
  init : σ
  step : σ → α → Option (σ × List ε)

variable {σ α ε τ : Type}

/-- `Steps M ok s h t`: `M` goes from `s` to `t` showing `h`, by steps that
all meet `ok`. -/
inductive Steps (M : Machine σ α ε) (ok : σ → α → Prop) (s : σ) :
    List ε → σ → Prop
  | refl : Steps M ok s [] s
  | tail {h t a u es} : Steps M ok s h t → ok t a → M.step t a = some (u, es) →
      Steps M ok s (h ++ es) u

/-- A run of the machine from its initial state. -/
def Run (M : Machine σ α ε) (ok : σ → α → Prop) (h : List ε) (s : σ) : Prop :=
  Steps M ok M.init h s

namespace Steps

variable {M : Machine σ α ε} {ok ok' : σ → α → Prop} {s t u : σ} {h h' : List ε}

/-- Steps after steps show both histories. -/
theorem trans (hst : Steps M ok s h t) (htu : Steps M ok t h' u) :
    Steps M ok s (h ++ h') u := by
  induction htu with
  | refl => simpa using hst
  | tail _ hok hstep ih => simpa using ih.tail hok hstep

/-- One step is a sequence of steps. -/
theorem single {a : α} {es : List ε} (hok : ok s a)
    (hstep : M.step s a = some (t, es)) : Steps M ok s es t := by
  simpa using Steps.tail .refl hok hstep

/-- A run under a condition is a run under any weaker one. -/
theorem mono (hle : ∀ s a, ok s a → ok' s a) (hst : Steps M ok s h t) :
    Steps M ok' s h t := by
  induction hst with
  | refl => exact .refl
  | tail _ hok hstep ih => exact ih.tail (hle _ _ hok) hstep

/-- **Invariant rule.** What holds at the start and is kept by every step
that meets the condition holds at the end. -/
theorem invariant {I : σ → Prop}
    (hkeep : ∀ {s a t es}, I s → ok s a → M.step s a = some (t, es) → I t)
    (hst : Steps M ok s h t) (h0 : I s) : I t := by
  induction hst with
  | refl => exact h0
  | tail _ hok hstep ih => exact hkeep ih hok hstep

/-- The invariant rule for facts about the history and the state. -/
theorem history_invariant {I : List ε → σ → Prop}
    (hkeep : ∀ {h s a t es}, I h s → ok s a → M.step s a = some (t, es) → I (h ++ es) t)
    (hst : Steps M ok s h t) (h0 : I [] s) : I h t := by
  induction hst with
  | refl => exact h0
  | tail _ hok hstep ih => exact hkeep ih hok hstep

end Steps

/-! ## Legal histories

A history is legal if each event of it is allowed after those in front. The
property of an event may speak of all of them, so an order between any two
events can be stated of a program and derived from one lemma about its steps. -/

/-- Each of the events `es` is allowed by `P` after those before it, the first
of them after `h`. -/
def LegalAfter (P : List ε → ε → Prop) (h : List ε) : List ε → Prop
  | [] => True
  | e :: es => P h e ∧ LegalAfter P (h ++ [e]) es

/-- A history of allowed events. -/
def Legal (P : List ε → ε → Prop) (h : List ε) : Prop := LegalAfter P [] h

section legal

variable {P : List ε → ε → Prop} {h : List ε}

/-- Legal histories after one another are one. -/
theorem LegalAfter.append {es fs : List ε} (hes : LegalAfter P h es)
    (hfs : LegalAfter P (h ++ es) fs) : LegalAfter P h (es ++ fs) := by
  induction es generalizing h with
  | nil => simpa using hfs
  | cons e es ih =>
    refine ⟨hes.1, ih hes.2 ?_⟩
    simpa using hfs

/-- An event in the middle is allowed after what is in front of it. -/
theorem LegalAfter.split {es fs : List ε} {e : ε}
    (hl : LegalAfter P h (es ++ e :: fs)) : P (h ++ es) e := by
  induction es generalizing h with
  | nil => simpa using hl.1
  | cons d es ih => simpa using ih hl.2

/-- Every event of a legal history was allowed when it was shown. -/
theorem Legal.split {h₁ h₂ : List ε} {e : ε} (hl : Legal P (h₁ ++ e :: h₂)) :
    P h₁ e :=
  LegalAfter.split hl

/-- The beginning of a legal history is legal. -/
theorem LegalAfter.left {es fs : List ε} (hl : LegalAfter P h (es ++ fs)) :
    LegalAfter P h es := by
  induction es generalizing h with
  | nil => trivial
  | cons e es ih => exact ⟨hl.1, ih hl.2⟩

/-- An event of a legal history is allowed where it stands. -/
theorem Legal.of_mem {e : ε} (hl : Legal P h) (he : e ∈ h) :
    ∃ h₁ h₂, h = h₁ ++ e :: h₂ ∧ Legal P h₁ ∧ P h₁ e := by
  obtain ⟨h₁, h₂, rfl⟩ := List.mem_iff_append.mp he
  exact ⟨h₁, h₂, rfl, LegalAfter.left hl, hl.split⟩

/-- **Legality rule.** If an invariant of the history and the state is kept,
and allows the events that a step shows, every history is legal. -/
theorem Steps.legal {M : Machine σ α ε} {ok : σ → α → Prop}
    {I : List ε → σ → Prop}
    (hkeep : ∀ {h s a t es}, I h s → ok s a → M.step s a = some (t, es) →
      I (h ++ es) t ∧ LegalAfter P h es)
    {s t : σ} (hst : Steps M ok s h t) (h0 : I [] s) : I h t ∧ Legal P h := by
  induction hst with
  | refl => exact ⟨h0, trivial⟩
  | tail _ hok hstep ih =>
    obtain ⟨hinv, hlegal⟩ := ih
    obtain ⟨hinv', hes⟩ := hkeep hinv hok hstep
    exact ⟨hinv', hlegal.append (by simpa using hes)⟩

end legal

/-! ## Executing a list of labels

Where the step function computes, a run on given labels is an evaluation. The
checks of a restriction on the labels are made along the way, so that a run
under a condition is had from one evaluation too. -/

/-- Run a list of labels, checking the condition at every step. -/
def Machine.exec (M : Machine σ α ε) (ok : σ → α → Prop)
    [∀ s a, Decidable (ok s a)] : List α → σ → Option (σ × List ε)
  | [], s => some (s, [])
  | a :: as, s =>
      if ok s a then
        match M.step s a with
        | none => none
        | some (t, es) => (M.exec ok as t).map fun r => (r.1, es ++ r.2)
      else none

/-- An executed list of labels is a run. -/
theorem Machine.steps_of_exec {M : Machine σ α ε} {ok : σ → α → Prop}
    [∀ s a, Decidable (ok s a)] :
    ∀ {as : List α} {s t : σ} {es : List ε},
      M.exec ok as s = some (t, es) → Steps M ok s es t
  | [], s, t, es, hx => by
      simp only [Machine.exec, Option.some.injEq, Prod.mk.injEq] at hx
      obtain ⟨rfl, rfl⟩ := hx
      exact .refl
  | a :: as, s, t, es, hx => by
      simp only [Machine.exec] at hx
      split at hx
      · next hok =>
        split at hx
        · cases hx
        · next u fs hstep =>
          obtain ⟨r, hr, he⟩ := Option.map_eq_some_iff.mp hx
          cases he
          exact (Steps.single hok hstep).trans (steps_of_exec hr)
      · cases hx

/-- An executed list of labels is a run that shows what it showed. -/
theorem Machine.run_of_exec {M : Machine σ α ε} {ok : σ → α → Prop}
    [∀ s a, Decidable (ok s a)] (as : List α) {h : List ε}
    (hx : (M.exec ok as M.init).map Prod.snd = some h) : ∃ s, Run M ok h s := by
  obtain ⟨⟨s, es⟩, hs, rfl⟩ := Option.map_eq_some_iff.mp hx
  exact ⟨s, steps_of_exec hs⟩

/-- The same for a state with a property that can be checked. -/
theorem Machine.run_of_exec_where {M : Machine σ α ε} {ok : σ → α → Prop}
    [∀ s a, Decidable (ok s a)] (Q : σ → Prop) [DecidablePred Q] (as : List α)
    {h : List ε} (hx : (M.exec ok as M.init).map
      (fun p => (decide (Q p.1), p.2)) = some (true, h)) :
    ∃ s, Run M ok h s ∧ Q s := by
  obtain ⟨⟨s, es⟩, hs, he⟩ := Option.map_eq_some_iff.mp hx
  obtain ⟨hQ, rfl⟩ := Prod.mk.inj he
  exact ⟨s, steps_of_exec hs, of_decide_eq_true hQ⟩

/-! ## Monitors

A monitor is an automaton that reads events and gets stuck at one it refuses. A
machine whose steps it follows shows accepted histories only (`Steps.monitor`),
which is a simulation with the monitor's state as the abstract one. -/

/-- A partial automaton over events: `none` rejects the event. -/
abbrev Monitor (τ ε : Type) := τ → ε → Option τ

/-- The monitor state after a history, `none` once an event is rejected. -/
def Monitor.read (m : Monitor τ ε) : List ε → τ → Option τ
  | [], t => some t
  | e :: es, t => (m t e).bind (m.read es)

namespace Monitor

variable {m : Monitor τ ε}

@[simp] theorem read_nil (t : τ) : m.read [] t = some t := rfl

@[simp] theorem read_cons (e : ε) (es : List ε) (t : τ) :
    m.read (e :: es) t = (m t e).bind (m.read es) := rfl

@[simp] theorem read_singleton (e : ε) (t : τ) : m.read [e] t = m t e := by
  cases h : m t e <;> simp [h]

/-- Reading two histories after one another. -/
theorem read_append (es fs : List ε) (t : τ) :
    m.read (es ++ fs) t = (m.read es t).bind (m.read fs) := by
  induction es generalizing t with
  | nil => rfl
  | cons e es ih =>
    cases h : m t e with
    | none => simp [h]
    | some t' => simpa [h] using ih t'

/-- **Histories by induction over the monitor.** -/
theorem read_invariant {I : List ε → τ → Prop} {t₀ : τ} (h0 : I [] t₀)
    (hkeep : ∀ {h t e t'}, I h t → m t e = some t' → I (h ++ [e]) t') :
    ∀ {h t}, m.read h t₀ = some t → I h t := by
  intro h
  induction h using List.reverseRecOn with
  | nil =>
    intro t ht
    cases ht
    exact h0
  | append_singleton h e ih =>
    intro t ht
    rw [read_append] at ht
    obtain ⟨t', ht', he⟩ := Option.bind_eq_some_iff.mp ht
    have hstep : m t' e = some t := by rwa [read_singleton] at he
    exact hkeep (ih ht') hstep

/-- A monitor that accepts a history accepts every prefix of it. -/
theorem read_prefix {h₁ h₂ : List ε} {t t' : τ}
    (hr : m.read (h₁ ++ h₂) t = some t') :
    ∃ u, m.read h₁ t = some u ∧ m.read h₂ u = some t' := by
  rw [read_append] at hr
  exact Option.bind_eq_some_iff.mp hr

end Monitor

/-- **Forward simulation.** A relation that every step keeps, with the
monitor reading that step's events, makes the monitor accept the history. -/
theorem Steps.monitor {M : Machine σ α ε} {ok : σ → α → Prop} {m : Monitor τ ε}
    {R : σ → τ → Prop}
    (hkeep : ∀ {s a t es x}, R s x → ok s a → M.step s a = some (t, es) →
      ∃ y, m.read es x = some y ∧ R t y)
    {s t : σ} {h : List ε} {x : τ} (hst : Steps M ok s h t) (h0 : R s x) :
    ∃ y, m.read h x = some y ∧ R t y := by
  induction hst with
  | refl => exact ⟨x, rfl, h0⟩
  | tail _ hok hstep ih =>
    obtain ⟨y, hy, hR⟩ := ih
    obtain ⟨z, hz, hR'⟩ := hkeep hR hok hstep
    exact ⟨z, by rw [Monitor.read_append, hy]; exact hz, hR'⟩

/-- **Completeness rule.** If the machine can show whatever the monitor reads
next, and is related to it again then, it can show every history that the
monitor reads. -/
theorem Monitor.shown {M : Machine σ α ε} {ok : σ → α → Prop} {m : Monitor τ ε}
    {R : τ → σ → Prop}
    (hshow : ∀ {x e y s}, R x s → m x e = some y → ∃ t, Steps M ok s [e] t ∧ R y t)
    {x y : τ} {s : σ} {h : List ε} (h0 : R x s) (hread : m.read h x = some y) :
    ∃ t, Steps M ok s h t ∧ R y t := by
  induction h generalizing x s with
  | nil =>
    cases hread
    exact ⟨s, .refl, h0⟩
  | cons e h ih =>
    obtain ⟨z, hz, hrest⟩ := Option.bind_eq_some_iff.mp hread
    obtain ⟨t, ht, hR⟩ := hshow h0 hz
    obtain ⟨u, hu, hRu⟩ := ih hR hrest
    exact ⟨u, ht.trans hu, hRu⟩

end Machines
