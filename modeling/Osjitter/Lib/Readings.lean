/-
Osjitter.Lib.Readings — loops that read a clock until it is late enough.

  §1 `taken`: the readings such a loop takes, of those that are to come, and
     `loop` itself. `loop_eq` is the rule: once a reading is late enough, the
     loop ends and is a fold over the readings taken. Where they run out
     before, it has no result.
  §2 The gaps between readings. `sum_gaps` adds those of ascending readings up
     to the time between the first and the last.
  §3 Recording some of the values of a list: `recorded_iff` says when two ways
     to choose and to store give the same count and the same first `n`
     entries. It is where a loop that computes with narrower words is compared
     with exact numbers, by `forall_split_cons`, an element with all those
     before it.
  §4 The minimum of a list as a fold, as a loop computes it: `le_foldl_min` and
     `foldl_min_mem`.

The clock is any type with a decidable condition; it may go backwards, except
where a theorem asks for ascending readings.
-/
import Mathlib

namespace Readings

/-! ## §1 The loop

The readings to come are a list, which is as much as a finite run can see of a
clock. The loop tests the last reading, takes the next one and gives it to its
body, so its result depends on the readings alone. -/

section loop

variable {τ σ : Type} (p : τ → Prop) [DecidablePred p]

/-- The readings taken while the latest one satisfies `p`. -/
def taken : τ → List τ → List τ
  | _, [] => []
  | a, t :: ts => if p a then t :: taken t ts else []

/-- `while (p(now)) { t = read(); body }` over the readings to come; none if
they run out. -/
def loop (now : σ → τ) (body : τ → σ → σ) : List τ → σ → Option σ
  | [], s => if p (now s) then none else some s
  | t :: ts, s => if p (now s) then loop now body ts (body t s) else some s

variable {p} {now : σ → τ} {body : τ → σ → σ}

/-- **The loop ends.** Once a reading does not satisfy `p`, the loop has gone
through the readings taken. -/
theorem loop_eq (hnow : ∀ t s, now (body t s) = t) : ∀ {ts : List τ} {s : σ},
    (∃ t ∈ now s :: ts, ¬ p t) →
      loop p now body ts s = some ((taken p (now s) ts).foldl (fun s t => body t s) s)
  | [], s, hend => by
      have hp : ¬ p (now s) := by simpa using hend
      simp [loop, taken, hp]
  | t :: ts, s, hend => by
      by_cases hp : p (now s)
      · have hrest : ∃ u ∈ now (body t s) :: ts, ¬ p u := by
          obtain ⟨u, hu, hn⟩ := hend
          rcases List.mem_cons.mp hu with rfl | hu
          · exact absurd hp hn
          · exact ⟨u, (hnow t s).symm ▸ hu, hn⟩
        simp only [loop, taken, if_pos hp, List.foldl_cons]
        rw [loop_eq hnow hrest, hnow]
      · simp [loop, taken, hp]

/-- No reading is taken twice or out of order. -/
theorem taken_sublist : ∀ (a : τ) (ts : List τ), (taken p a ts).Sublist ts
  | _, [] => .slnil
  | a, t :: ts => by
      unfold taken
      split
      · exact (taken_sublist t ts).cons_cons t
      · exact List.nil_sublist _

end loop

/-! ## §2 Gaps

A gap is the time between a reading and the next. The first gap starts at a
reading that is not in the list, the one before the loop. -/

/-- The differences of neighbours. -/
def gaps : Nat → List Nat → List Nat
  | _, [] => []
  | a, t :: ts => (t - a) :: gaps t ts

/-- The gaps of ascending readings add up to the whole time. -/
theorem sum_gaps : ∀ {a : Nat} {ts : List Nat}, (a :: ts).Pairwise (· ≤ ·) →
    a + (gaps a ts).sum = ts.getLastD a
  | a, [], _ => rfl
  | a, t :: ts, h => by
      obtain ⟨ha, ht⟩ := List.pairwise_cons.mp h
      have ih := sum_gaps ht
      have hle := ha t List.mem_cons_self
      rw [List.getLastD_cons, ← ih, gaps, List.sum_cons]
      omega

/-! ## §3 Recording

A loop that filters its values and stores the first `n` of them is compared with
another that filters the same list by a stronger or weaker test. They differ as
soon as one value is chosen by one of them only, and in the entries as soon as
one is stored differently while there is room. -/

section recording

variable {α β : Type}

/-- A property of every element with those before it. -/
theorem forall_split_cons {Q : List α → α → Prop} {a : α} {l : List α} :
    (∀ pre x post, a :: l = pre ++ x :: post → Q pre x) ↔
      Q [] a ∧ ∀ pre x post, l = pre ++ x :: post → Q (a :: pre) x := by
  constructor
  · intro h
    exact ⟨h [] a l rfl, fun pre x post hl => h (a :: pre) x post (by rw [hl]; rfl)⟩
  · rintro ⟨h0, h⟩ pre x post hl
    cases pre with
    | nil => cases hl; exact h0
    | cons b pre => cases hl; exact h pre x post rfl

/-- **Two ways to record.** If one way chooses only what the other chooses,
they agree on the count and on the first `n` entries exactly when the first
chooses all that the second does and stores the same while there is room. -/
theorem recorded_iff {P Q : α → Bool} (hPQ : ∀ x, P x = true → Q x = true)
    (u v : α → β) :
    ∀ (l : List α) (n : Nat),
      ((l.filter P).length = (l.filter Q).length ∧
          ((l.filter P).take n).map u = ((l.filter Q).take n).map v) ↔
        ∀ pre x post, l = pre ++ x :: post → Q x = true →
          P x = true ∧ ((pre.filter Q).length < n → u x = v x)
  | [], n => by simp
  | a :: l, n => by
      have hle : (l.filter P).length ≤ (l.filter Q).length := by
        rw [← List.countP_eq_length_filter, ← List.countP_eq_length_filter]
        exact List.countP_mono_left fun x _ => hPQ x
      have ih := recorded_iff hPQ u v l
      rw [forall_split_cons]
      cases hQ : Q a with
      | false =>
        have hP : P a = false :=
          Bool.eq_false_iff.mpr fun h => by simp [hPQ a h] at hQ
        simpa [hP, hQ] using ih n
      | true =>
        cases hP : P a with
        | false =>
          -- the count of `P` is behind by one, and does not catch up
          simp only [List.filter_cons, hP, hQ, Bool.false_eq_true, if_false, if_true,
            List.length_cons, false_and, forall_const, iff_false]
          rintro ⟨hlen, -⟩
          omega
        | true =>
          cases n with
          | zero => simpa [hP, hQ] using ih 0
          | succ n =>
            have ih' := ih n
            simp only [List.filter_cons, hP, hQ, if_true, List.length_cons,
              Nat.add_right_cancel_iff, List.take_succ_cons, List.map_cons,
              List.cons.injEq, Nat.add_lt_add_iff_right, forall_const, true_and,
              List.filter_nil, List.length_nil, Nat.zero_lt_succ]
            rw [← ih']
            exact ⟨fun h => ⟨h.2.1, h.1, h.2.2⟩, fun h => ⟨h.2.1, h.1, h.2.2⟩⟩

end recording

/-! ## §4 The minimum

A loop that keeps the least value so far is a fold with `min`. Its result is a
lower bound, and is one of the values or the one it began with. -/

section minimum

variable {α : Type} [LinearOrder α]

/-- A lower bound of the result is one of all the values. -/
theorem le_foldl_min {c : α} : ∀ {l : List α} {a : α},
    c ≤ l.foldl min a ↔ c ≤ a ∧ ∀ x ∈ l, c ≤ x
  | [], a => by simp
  | b :: l, a => by
      rw [List.foldl_cons, le_foldl_min, le_min_iff, List.forall_mem_cons, and_assoc]

/-- The result is one of them. -/
theorem foldl_min_mem :
    ∀ {l : List α} {a : α}, l.foldl min a = a ∨ l.foldl min a ∈ l
  | [], a => .inl rfl
  | b :: l, a => by
      rw [List.foldl_cons]
      rcases foldl_min_mem (l := l) (a := min a b) with h | h
      · rcases min_choice a b with hm | hm
        · exact .inl (h.trans hm)
        · exact .inr (by rw [h, hm]; exact List.mem_cons_self)
      · exact .inr (List.mem_cons_of_mem _ h)

end minimum

end Readings
