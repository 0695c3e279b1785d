/-
Osjitter.Lib.Wakeup — locks with an owner, and two parties that sleep until
the other wakes them.

`Owned` says that the owner a lock names is inside it and nobody else is. It is
kept when a free lock is taken and when its owner gives it back, and
`Owned.exclusive` is what it is for: two parties that are inside are one.

Party `v` sleeps in `queue v`. It should be woken once `due v` holds, and the
other party does so in two steps: it makes `due v` true and becomes a
`waker`, then it empties the queue. `Sleepers` says that no wake-up is lost:
whoever sleeps although it is due has a waker. The lemmas are the steps that
keep it: `Sleepers.move` for a party that is neither asleep nor a waker,
`Sleepers.arm` for the one that makes the other due, `Sleepers.wake` for the
one that empties the queue, and `Sleepers.eraseIdx` for a sleeper that wakes
up by itself. `Sleepers.awake` is read off where a party runs: nobody has put
it to sleep.

A queue is a list, as a woken party may be any of it.
-/
import Mathlib

namespace Wakeup

/-! ## Locks

Which locks have an owner, and which party is inside which, are told by two
functions that must agree. Recursive locks are not among them: a party that is
inside one cannot take another. -/

/-- The lock `v` is owned by exactly the party that is inside it. -/
def Owned {ι κ : Type} (owner : ι → Option κ) (inside : κ → Option ι) : Prop :=
  ∀ v u, owner v = some u ↔ inside u = some v

section Owned

variable {ι κ : Type} [DecidableEq ι] [DecidableEq κ] {owner : ι → Option κ}
  {inside : κ → Option ι} {v : ι} {u : κ}

/-- A party that is outside takes a lock that is free. -/
theorem Owned.lock (h : Owned owner inside) (hv : owner v = none)
    (hu : inside u = none) :
    Owned (Function.update owner v (some u)) (Function.update inside u (some v)) := by
  intro v' u'
  by_cases h1 : v' = v <;> by_cases h2 : u' = u
  · simp [h1, h2]
  · have hno : inside u' ≠ some v := by
      rw [Ne, ← h, hv]
      simp
    simp [h1, Function.update_of_ne h2, hno, Ne.symm h2]
  · have hno : owner v' ≠ some u := by
      rw [Ne, h, hu]
      simp
    simp [h2, Function.update_of_ne h1, hno, Ne.symm h1]
  · simpa [Function.update_of_ne h1, Function.update_of_ne h2] using h v' u'

/-- A party gives back the lock that it is inside of. -/
theorem Owned.unlock (h : Owned owner inside) (hu : inside u = some v) :
    Owned (Function.update owner v none) (Function.update inside u none) := by
  have hv : owner v = some u := (h v u).mpr hu
  intro v' u'
  by_cases h1 : v' = v <;> by_cases h2 : u' = u
  · simp [h1, h2]
  · have hno : inside u' ≠ some v := by
      rw [Ne, ← h, hv]
      simpa using Ne.symm h2
    simp [h1, Function.update_of_ne h2, hno]
  · have hno : owner v' ≠ some u := by
      rw [Ne, h, hu]
      simpa using Ne.symm h1
    simp [h2, Function.update_of_ne h1, hno]
  · simpa [Function.update_of_ne h1, Function.update_of_ne h2] using h v' u'

omit [DecidableEq ι] [DecidableEq κ] in
/-- Two parties are never inside one lock. -/
theorem Owned.exclusive (h : Owned owner inside) {u' : κ}
    (hu : inside u = some v) (hu' : inside u' = some v) : u = u' := by
  rw [← h] at hu hu'
  rw [hu] at hu'
  exact Option.some.inj hu'

end Owned

/-! ## Sleepers

What a step does to the queues, the sleepers and the wakers is given to each
lemma as a hypothesis, for the party that acts and for the other. A program that
keeps these in one record has only to read them off. -/

variable {queue queue' : Bool → List Bool}
  {asleep asleep' due due' waker waker' : Bool → Prop} {w : Bool}

/-- Only a party itself sleeps in its queue, and one that is due has a waker. -/
structure Sleepers (queue : Bool → List Bool)
    (asleep due waker : Bool → Prop) : Prop where
  queued : ∀ v, queue v = [] ∨ queue v = [v] ∧ asleep v
  pending : ∀ v, queue v ≠ [] → due v → waker (!v)

namespace Sleepers

/-- A party that is not asleep is in no queue. -/
theorem awake (h : Sleepers queue asleep due waker) (hw : ¬ asleep w) :
    queue w = [] := by
  rcases h.queued w with hq | ⟨-, ha⟩
  · exact hq
  · exact absurd ha hw

/-- A step of a party that is no waker, and is not queued or goes to sleep
before it is due. -/
theorem move (h : Sleepers queue asleep due waker) (hwaker : ¬ waker w)
    (hself : queue' w = [] ∨ queue' w = [w] ∧ asleep' w ∧ ¬ due' w)
    (hq : queue' (!w) = queue (!w)) (ha : asleep (!w) → asleep' (!w))
    (hd : due' (!w) → due (!w)) : Sleepers queue' asleep' due' waker' := by
  constructor
  · intro v
    by_cases hv : v = w
    · subst hv
      exact hself.imp id fun hs => ⟨hs.1, hs.2.1⟩
    · obtain rfl : v = !w := by simpa [Bool.eq_not] using hv
      rw [hq]
      exact (h.queued _).imp id fun hs => ⟨hs.1, ha hs.2⟩
  · intro v hne hdue
    by_cases hv : v = w
    · subst hv
      rcases hself with hs | ⟨-, -, hs⟩
      · exact absurd hs hne
      · exact absurd hdue hs
    · obtain rfl : v = !w := by simpa [Bool.eq_not] using hv
      have hp := h.pending _ (hq ▸ hne) (hd hdue)
      rw [Bool.not_not] at hp
      exact absurd hp hwaker

/-- A step after which the party is a waker. -/
theorem arm (h : Sleepers queue asleep due waker) (hwaker : waker' w)
    (hself : queue' w = []) (hq : queue' (!w) = queue (!w))
    (ha : asleep (!w) → asleep' (!w)) :
    Sleepers queue' asleep' due' waker' := by
  constructor
  · intro v
    by_cases hv : v = w
    · exact .inl (hv ▸ hself)
    · obtain rfl : v = !w := by simpa [Bool.eq_not] using hv
      rw [hq]
      exact (h.queued _).imp id fun hs => ⟨hs.1, ha hs.2⟩
  · intro v hne _
    by_cases hv : v = w
    · exact absurd (hv ▸ hself) hne
    · obtain rfl : v = !w := by simpa [Bool.eq_not] using hv
      simpa using hwaker

/-- Waking whoever sleeps. -/
theorem wake (hq : ∀ v, queue' v = []) : Sleepers queue' asleep' due' waker' :=
  ⟨fun v => .inl (hq v), fun v hne _ => absurd (hq v) hne⟩

/-- Taking any one out of the queue empties it. -/
theorem eraseIdx (h : Sleepers queue asleep due waker) (v : Bool) (k : Nat) :
    (queue v).eraseIdx (k % (queue v).length) = [] := by
  rcases h.queued v with hq | ⟨hq, -⟩ <;> simp [hq, Nat.mod_one]

end Sleepers

end Wakeup
