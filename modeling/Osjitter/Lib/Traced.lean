/-
Osjitter.Lib.Traced — computations that may die, with a record of the calls
they make of one function.

A function with assertions has a result or none; a theorem that it has one says
nothing about a call whose result is not used. So the calls are recorded as
they are made, and a theorem can speak of each of them. `call` makes one,
`lift` is a computation that makes none, and `result` and `calls` are the two
projections, with rules for every construct (`result_bind`, `calls_bind`).

`Meets P Q` is a triple without a precondition: every call satisfies `P`, and
there is a result, which satisfies `Q`. Its rules follow the constructs of the
monad: `Meets.pure`, `Meets.call`, `Meets.lift` and `Meets.bind`, so that a
proof about a function has the shape of the function.
-/
import Mathlib

/-- The calls up to the result, or up to where it dies. -/
structure Traced (κ α : Type) where
  calls : List κ
  result : Option α

namespace Traced

variable {κ α β : Type}

instance : Monad (Traced κ) where
  pure a := ⟨[], some a⟩
  bind x f :=
    match x.result with
    | none => ⟨x.calls, none⟩
    | some a => ⟨x.calls ++ (f a).calls, (f a).result⟩

/-- A call that is recorded. -/
def call (k : κ) (o : Option α) : Traced κ α := ⟨[k], o⟩

/-- A step that makes no such call. -/
def lift (o : Option α) : Traced κ α := ⟨[], o⟩

@[simp] theorem result_pure (a : α) :
    (pure a : Traced κ α).result = some a := rfl

@[simp] theorem result_call (k : κ) (o : Option α) :
    (call k o).result = o := rfl

@[simp] theorem result_lift (o : Option α) :
    (lift o : Traced κ α).result = o := rfl

/-- Without the calls, the steps are those of `Option`. -/
@[simp] theorem result_bind (x : Traced κ α) (f : α → Traced κ β) :
    (x >>= f).result = x.result.bind fun a => (f a).result := by
  show (match x.result with
    | none => (⟨x.calls, none⟩ : Traced κ β)
    | some a => ⟨x.calls ++ (f a).calls, (f a).result⟩).result = _
  cases x.result <;> rfl

/-- The calls of a sequence are those of its parts, once the first has a result.
-/
theorem calls_bind {x : Traced κ α} {a : α} (h : x.result = some a)
    (f : α → Traced κ β) : (x >>= f).calls = x.calls ++ (f a).calls := by
  show (match x.result with
    | none => (⟨x.calls, none⟩ : Traced κ β)
    | some a => ⟨x.calls ++ (f a).calls, (f a).result⟩).calls = _
  rw [h]

/-! ## Triples

A triple has no precondition, since a function is taken with its arguments. Its
rules are one for each construct, with the property of the calls fixed along the
way. A step that dies has no rule, as no triple holds of it. -/

/-- Every call satisfies `P`, and there is a result that satisfies `Q`. -/
def Meets (P : κ → Prop) (Q : α → Prop) (x : Traced κ α) : Prop :=
  (∀ k ∈ x.calls, P k) ∧ ∃ a, x.result = some a ∧ Q a

section rules

variable {P : κ → Prop} {Q : α → Prop} {R : β → Prop}

/-- A value makes no calls. -/
theorem Meets.pure {a : α} (h : Q a) : Meets P Q (Pure.pure a : Traced κ α) :=
  ⟨fun _ hk => absurd hk List.not_mem_nil, a, rfl, h⟩

/-- A call that is as it should be, and has a result. -/
theorem Meets.call {k : κ} {o : Option α} {a : α} (hk : P k) (ho : o = some a)
    (h : Q a) : Meets P Q (call k o) :=
  ⟨fun _ hk' => List.mem_singleton.mp hk' ▸ hk, a, ho, h⟩

/-- A step without calls, which has a result. -/
theorem Meets.lift {o : Option α} {a : α} (ho : o = some a) (h : Q a) :
    Meets P Q (lift o : Traced κ α) :=
  ⟨fun _ hk => absurd hk List.not_mem_nil, a, ho, h⟩

/-- **Sequencing.** -/
theorem Meets.bind {x : Traced κ α} {f : α → Traced κ β} (hx : Meets P Q x)
    (hf : ∀ a, Q a → Meets P R (f a)) : Meets P R (x >>= f) := by
  obtain ⟨hcalls, a, ha, hQ⟩ := hx
  obtain ⟨hcalls', b, hb, hR⟩ := hf a hQ
  refine ⟨fun k hk => ?_, b, by rw [result_bind, ha, Option.bind_some, hb], hR⟩
  rw [calls_bind ha] at hk
  rcases List.mem_append.mp hk with hk | hk
  · exact hcalls k hk
  · exact hcalls' k hk

end rules

end Traced
