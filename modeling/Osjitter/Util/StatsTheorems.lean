/-
Osjitter.Util.StatsTheorems — percentiles and the median absolute deviation.

  §1 The comparator orders as `≤` does, so `qsort` sorts: `qsort_u32_pairwise`,
     `qsort_u32_eq`, and `map_qsort_u32` for the numbers of the array.
     `is_sorted_iff` says that the assertion tests just that.
  §2 `percentile_u32` is `OrderStat.value`, less 2^31 where the sum of the
     two neighbours wraps (`percentile_u32_eq`). It never wraps for an odd
     number of elements, and with an index every later one wraps too
     (`Wraps.mono`). The exact percentiles ascend.
  §3 When percentiles ascend in spite of that: `ordered_iff`. `shown` is what a
     percentile is converted to, `Keeps` the condition for two of them and
     `KeepsFirst` that for the first element and one of them.
  §4 `mad_u32`. The deviations from the median fit 32 bits, and the two middle
     ones never add up to 2^32, as half of the elements lie on one side
     (`middle_deviations_lt`); so the result is the median of the exact
     deviations wherever the median is exact (`mad_u32_exact`).

`MiddleFits` is that condition: the sum of the two middle elements fits. What
`mad_u32` gives where the median wraps is left out.
-/
import Mathlib
import Osjitter.Lib.OrderStat
import Osjitter.Util.Stats

namespace Osjitter.Util

open OrderStat

/-! ## §1 Sorting

The array is sorted by a comparator on 32-bit words; as numbers it is then in
ascending order. Most facts are easier to state of the numbers, so both are tied
here once, together with the assertion that walks through the array. -/

/-- The comparator compares the numbers. -/
theorem cmp_u32_le_zero (x y : UInt32) :
    cmp_u32 x y ≤ 0 ↔ x.toNat ≤ y.toNat := by
  unfold cmp_u32
  split
  · next h =>
    have := UInt32.lt_iff_toNat_lt.mp h
    omega
  · next h =>
    split
    · next h' =>
      have := UInt32.lt_iff_toNat_lt.mp h'
      omega
    · next h' =>
      have := mt UInt32.lt_iff_toNat_lt.mpr h'
      omega

/-- Nothing is lost or added by sorting. -/
theorem qsort_u32_perm (xs : List UInt32) : (qsort_u32 xs).Perm xs :=
  List.perm_insertionSort _ xs

@[simp] theorem length_qsort_u32 (xs : List UInt32) :
    (qsort_u32 xs).length = xs.length :=
  (qsort_u32_perm xs).length_eq

/-- Sorting sorts the values. -/
theorem qsort_u32_pairwise (xs : List UInt32) :
    ((qsort_u32 xs).map UInt32.toNat).Pairwise (· ≤ ·) := by
  have htotal : Std.Total fun x y : UInt32 => cmp_u32 x y ≤ 0 :=
    ⟨fun x y => by simpa only [cmp_u32_le_zero] using Nat.le_total x.toNat y.toNat⟩
  have htrans : IsTrans UInt32 fun x y => cmp_u32 x y ≤ 0 :=
    ⟨fun x y z => by simpa only [cmp_u32_le_zero] using Nat.le_trans⟩
  rw [List.pairwise_map]
  exact (List.pairwise_insertionSort _ xs).imp fun h => (cmp_u32_le_zero _ _).mp h

/-- Ascending deltas and their values. -/
theorem pairwise_toNat {xs : List UInt32} :
    (xs.map UInt32.toNat).Pairwise (· ≤ ·) ↔ xs.Pairwise (· ≤ ·) := by
  simp only [List.pairwise_map, UInt32.le_iff_toNat_le]

/-- Ascending lists with the same values are the same. -/
theorem map_qsort_u32 (xs : List UInt32) :
    (qsort_u32 xs).map UInt32.toNat =
      (xs.map UInt32.toNat).insertionSort (· ≤ ·) :=
  List.Perm.eq_of_pairwise' (qsort_u32_pairwise xs) (List.pairwise_insertionSort _ _)
    (((qsort_u32_perm xs).map _).trans (List.perm_insertionSort _ _).symm)

/-- Sorting by the comparator is sorting by `≤`. -/
theorem qsort_u32_eq (xs : List UInt32) :
    qsort_u32 xs = xs.insertionSort (· ≤ ·) := by
  have hrel : (fun x y => cmp_u32 x y ≤ 0) = fun x y : UInt32 => x ≤ y := by
    funext x y
    exact propext ((cmp_u32_le_zero x y).trans UInt32.le_iff_toNat_le.symm)
  unfold qsort_u32
  congr!

/-- The loop of the assertion compares neighbours, which is enough. -/
theorem ascends_iff (a : UInt32) (xs : List UInt32) :
    ascends a xs = true ↔ (a :: xs).Pairwise (· ≤ ·) := by
  induction xs generalizing a with
  | nil => simp [ascends]
  | cons x xs ih =>
    unfold ascends
    split
    · next h =>
      simp only [Bool.false_eq_true, false_iff]
      intro hp
      exact UInt32.not_le.mpr h ((List.pairwise_cons.mp hp).1 x List.mem_cons_self)
    · next h =>
      rw [ih, List.pairwise_cons (l := x :: xs)]
      have hle := UInt32.not_lt.mp h
      constructor
      · intro hp
        refine ⟨fun y hy => ?_, hp⟩
        rcases List.mem_cons.mp hy with rfl | hy
        · exact hle
        · exact UInt32.le_trans hle ((List.pairwise_cons.mp hp).1 y hy)
      · exact fun hp => hp.2

/-- The assertion holds for ascending arrays. -/
theorem is_sorted_iff (xs : List UInt32) :
    is_sorted xs = true ↔ xs.Pairwise (· ≤ ·) := by
  cases xs with
  | nil => simp [is_sorted]
  | cons a xs => exact ascends_iff a xs

/-! ## §2 Percentiles

The sum of two 32-bit words is cut to 32 bits before it is halved. Where that
loses a bit the result is less by half of 2^32, and it is exact everywhere else,
so `Wraps` is all that a statement about percentiles has to ask. -/

/-- The entry at an index, as a number. -/
def entry (x : List UInt32) (i : Nat) : Nat := (x.map UInt32.toNat).getD i 0

/-- The 32-bit sum of the two neighbours wraps. -/
def Wraps (x : List UInt32) (i : Nat) : Prop :=
  x.length % 2 = 0 ∧ 0 < i ∧ 2 ^ 32 ≤ entry x (i - 1) + entry x i

instance decidableWraps (x : List UInt32) (i : Nat) : Decidable (Wraps x i) :=
  inferInstanceAs (Decidable (_ ∧ _ ∧ _))

/-- The exact percentile. -/
def exact_percentile (x : List UInt32) (i : Nat) : Nat :=
  value (x.map UInt32.toNat) i

/-- An entry inside the array is the element there. -/
theorem entry_eq {x : List UInt32} {i : Nat} (hi : i < x.length) :
    entry x i = x[i].toNat := by
  rw [entry, List.getD_eq_getElem _ _ (by simpa using hi), List.getElem_map]

/-- **What `percentile_u32` returns** for an ascending array. -/
theorem percentile_u32_eq {x : List UInt32} {a b : Nat}
    (hs : x.Pairwise (· ≤ ·)) (hfit : x.length * a < 2 ^ 64)
    (hi : x.length * a / b < x.length) :
    ∃ p, percentile_u32 x a b = some p ∧
      p.toNat = if Wraps x (x.length * a / b)
        then exact_percentile x (x.length * a / b) - 2 ^ 31
        else exact_percentile x (x.length * a / b) := by
  have hsorted : is_sorted x ≠ false := by
    rw [(is_sorted_iff x).mpr hs]
    decide
  have hne : x.length ≠ 0 := Nat.ne_zero_of_lt hi
  unfold percentile_u32
  simp only [if_neg hsorted, if_neg hne, Nat.mod_eq_of_lt hfit]
  generalize x.length * a / b = i at hi ⊢
  have hprev : i - 1 < x.length := by omega
  have hu := entry_eq hi
  have hv := entry_eq hprev
  have hult := x[i].toNat_lt
  have hvlt := x[i - 1].toNat_lt
  split
  · next h =>
    have hw : ¬ Wraps x i := by
      rintro ⟨heven, hpos, -⟩
      omega
    refine ⟨x[i], List.getElem?_eq_getElem hi, ?_⟩
    rw [if_neg hw, exact_percentile, value, List.length_map, if_pos (by omega),
      ← hu, entry]
  · next h =>
    have heven : x.length % 2 = 0 := by omega
    have hpos : 0 < i := by omega
    refine ⟨(x[i] + x[i - 1]) / 2, ?_, ?_⟩
    · rw [List.getElem?_eq_getElem hi, List.getElem?_eq_getElem hprev]
      rfl
    · have hsum : ((x[i] + x[i - 1]) / 2).toNat =
          (entry x i + entry x (i - 1)) % 2 ^ 32 / 2 := by
        rw [UInt32.toNat_div, UInt32.toNat_add, hu, hv]
        rfl
      have hvalue : exact_percentile x i =
          (entry x (i - 1) + entry x i) / 2 := by
        rw [exact_percentile, value, List.length_map, if_neg (by omega)]
        rfl
      rw [hsum, hvalue]
      split
      · next hw =>
        obtain ⟨-, -, hle⟩ := hw
        omega
      · next hw =>
        have hlt : entry x (i - 1) + entry x i < 2 ^ 32 := by
          by_contra hge
          exact hw ⟨heven, hpos, Nat.le_of_not_lt hge⟩
        omega

/-- An odd number of elements: the percentile is one of them. -/
theorem percentile_u32_odd {x : List UInt32} {a b : Nat}
    (hs : x.Pairwise (· ≤ ·)) (hfit : x.length * a < 2 ^ 64)
    (hodd : x.length % 2 = 1) :
    percentile_u32 x a b = x[x.length * a / b]? := by
  have hsorted : is_sorted x ≠ false := by
    rw [(is_sorted_iff x).mpr hs]
    decide
  simp only [percentile_u32, if_neg hsorted, Nat.mod_eq_of_lt hfit]
  rw [if_neg (by omega), if_pos (by omega)]

section ascending

variable {x : List UInt32} (hs : x.Pairwise (· ≤ ·)) {i j : Nat}

include hs

/-- Once a sum wraps, the sums of larger indices do. -/
theorem Wraps.mono (hij : i ≤ j) (hj : j < x.length) (hw : Wraps x i) :
    Wraps x j := by
  obtain ⟨heven, hpos, hle⟩ := hw
  have hs' := pairwise_toNat.mpr hs
  have hlen : (x.map UInt32.toNat).length = x.length := List.length_map _
  have hprev : entry x (i - 1) ≤ entry x (j - 1) :=
    getD_le_getD hs' (by omega) (by omega)
  have hcur : entry x i ≤ entry x j := getD_le_getD hs' hij (by omega)
  exact ⟨heven, by omega, by omega⟩

/-- Exact percentiles ascend with the index. -/
theorem exact_mono (hij : i ≤ j) (hj : j < x.length) :
    exact_percentile x i ≤ exact_percentile x j :=
  value_mono (pairwise_toNat.mpr hs) hij (by simpa using hj)

/-- They are not below the first element. -/
theorem first_le_exact (hi : i < x.length) : entry x 0 ≤ exact_percentile x i :=
  first_le_value (pairwise_toNat.mpr hs) (by simpa using hi)

/-- They are not above the last one. -/
theorem exact_le_last (hi : i < x.length) :
    exact_percentile x i ≤ entry x (x.length - 1) := by
  have hle := value_le_last (pairwise_toNat.mpr hs) (i := i) (by simpa using hi)
  rwa [List.length_map] at hle

end ascending

/-! ## §3 The order of percentiles

With a sum that wraps a percentile can fall below a smaller one, or below the
least element. When it does is stated for any monotone function of the values,
since the columns of a table show them converted to nanoseconds. `Keeps` is the
condition for two of them, `KeepsFirst` for one and the first element. -/

/-- The percentile that the code computes at an index. -/
def shown (x : List UInt32) (i : Nat) : Nat :=
  if Wraps x i then exact_percentile x i - 2 ^ 31 else exact_percentile x i

/-- A sum that wraps loses half of 2^32. -/
theorem shown_of_wraps {x : List UInt32} {i : Nat} (h : Wraps x i) :
    shown x i = exact_percentile x i - 2 ^ 31 := if_pos h

/-- Every other percentile is exact. -/
theorem shown_of_not_wraps {x : List UInt32} {i : Nat} (h : ¬ Wraps x i) :
    shown x i = exact_percentile x i := if_neg h

/-- The percentiles at two indices stay in order under `f`: no wrap, or both
wrap, or the wrap leaves the second large enough. -/
def Keeps (f : Nat → Nat) (x : List UInt32) (i j : Nat) : Prop :=
  Wraps x j → Wraps x i ∨
    f (exact_percentile x i) ≤ f (exact_percentile x j - 2 ^ 31)

/-- The first element and a percentile stay in order under `f`. -/
def KeepsFirst (f : Nat → Nat) (x : List UInt32) (i : Nat) : Prop :=
  Wraps x i → f (entry x 0) ≤ f (exact_percentile x i - 2 ^ 31)

section order

variable {x : List UInt32} (hs : x.Pairwise (· ≤ ·)) {f : Nat → Nat}
    (hf : Monotone f) {i j : Nat}

include hs hf

/-- When two percentiles are in order. -/
theorem shown_le_shown_iff (hij : i ≤ j) (hj : j < x.length) :
    f (shown x i) ≤ f (shown x j) ↔ Keeps f x i j := by
  have hmono := exact_mono hs hij hj
  by_cases hwj : Wraps x j
  · by_cases hwi : Wraps x i
    · rw [shown_of_wraps hwi, shown_of_wraps hwj]
      exact iff_of_true (hf (Nat.sub_le_sub_right hmono _)) fun _ => .inl hwi
    · rw [shown_of_not_wraps hwi, shown_of_wraps hwj]
      exact ⟨fun h _ => .inr h, fun h => (h hwj).resolve_left hwi⟩
  · have hwi : ¬ Wraps x i := fun h => hwj (h.mono hs hij hj)
    rw [shown_of_not_wraps hwi, shown_of_not_wraps hwj]
    exact iff_of_true (hf hmono) fun h => absurd h hwj

/-- When a percentile is not below the first element. -/
theorem first_le_shown_iff (hi : i < x.length) :
    f (entry x 0) ≤ f (shown x i) ↔ KeepsFirst f x i := by
  by_cases hw : Wraps x i
  · rw [shown_of_wraps hw]
    exact ⟨fun h _ => h, fun h => h hw⟩
  · rw [shown_of_not_wraps hw]
    exact iff_of_true (hf (first_le_exact hs hi)) fun h => absurd h hw

/-- No percentile is above the last element, with a wrap or without. -/
theorem shown_le_last (hi : i < x.length) :
    f (shown x i) ≤ f (entry x (x.length - 1)) := by
  refine hf (le_trans ?_ (exact_le_last hs hi))
  unfold shown
  split
  · exact Nat.sub_le ..
  · exact Nat.le_refl _

end order

/-- Two percentiles lie in order between the first and the last element. -/
def Ordered (x : List UInt32) (a b c d : Nat) : Prop :=
  ∃ p q, percentile_u32 x a b = some p ∧ percentile_u32 x c d = some q ∧
    entry x 0 ≤ p.toNat ∧ p.toNat ≤ q.toNat ∧ q.toNat ≤ entry x (x.length - 1)

/-- **When two percentiles are ordered.** -/
theorem ordered_iff {x : List UInt32} {a b c d : Nat} (hs : x.Pairwise (· ≤ ·))
    (hx : x ≠ []) (hb : 0 < b) (hle : a * d ≤ c * b) (hlt : c < d)
    (ha : x.length * a < 2 ^ 64) (hc : x.length * c < 2 ^ 64) :
    Ordered x a b c d ↔ KeepsFirst id x (x.length * a / b) ∧
      Keeps id x (x.length * a / b) (x.length * c / d) := by
  have hlen := List.length_pos_iff.mpr hx
  have hj := index_lt hlen hlt
  have hij := index_le_index (n := x.length) hb (Nat.zero_lt_of_lt hlt) hle
  obtain ⟨p, hp, hpv⟩ := percentile_u32_eq (b := b) hs ha (hij.trans_lt hj)
  obtain ⟨q, hq, hqv⟩ := percentile_u32_eq (b := d) hs hc hj
  have hpv' : p.toNat = shown x (x.length * a / b) := hpv
  have hqv' : q.toNat = shown x (x.length * c / d) := hqv
  rw [← first_le_shown_iff hs monotone_id (hij.trans_lt hj),
    ← shown_le_shown_iff hs monotone_id hij hj, Ordered]
  have hlast := shown_le_last hs monotone_id hj
  simp only [hp, hq, Option.some.injEq, exists_and_left, exists_eq_left', hpv',
    hqv', id_eq]
    at hlast ⊢
  exact ⟨fun h => ⟨h.1, h.2.1⟩, fun h => ⟨h.1, h.2, hlast⟩⟩

/-! ## §4 The median absolute deviation

A deviation is an absolute value and fits a word again. The sum of the two
middle ones always fits: half of the values lie below the median and half above,
so half of the deviations are at most the median and half at most what is left
above it. -/

/-- The absolute value of a difference of two words fits a word. -/
theorem toNat_deviation (median u : UInt32) :
    (deviation median u).toNat = ((u.toNat : Int) - median.toNat).natAbs := by
  have hm := median.toNat_lt
  have hu := u.toNat_lt
  rw [deviation, UInt32.toNat_ofNat', Nat.mod_eq_of_lt (by omega)]

/-- The loop overwrites the first `n` entries. -/
theorem fill_deviations_eq (median : UInt32) {x y : List UInt32}
    (h : x.length ≤ y.length) :
    fill_deviations median x y =
      some (x.map (deviation median) ++ y.drop x.length) := by
  induction x generalizing y with
  | nil => rfl
  | cons u x ih =>
    cases y with
    | nil => exact absurd h (by simp)
    | cons v y =>
      have hlen : x.length ≤ y.length := Nat.le_of_succ_le_succ h
      simp [fill_deviations, ih hlen]

/-- What `mad_u32` computes, whatever `y` held. -/
theorem mad_u32_eq {x y : List UInt32} (h : x.length ≤ y.length) (hx : x ≠ []) :
    (mad_u32 x y).map Prod.fst = (percentile_u32 x 1 2).bind fun median =>
      percentile_u32 (qsort_u32 (x.map (deviation median))) 1 2 := by
  have hlen : x.length ≠ 0 := mt List.length_eq_zero_iff.mp hx
  unfold mad_u32
  simp only [if_neg hlen]
  cases percentile_u32 x 1 2 with
  | none => rfl
  | some median =>
    have htake : ∀ l r : List UInt32, l.length = x.length →
        (l ++ r).take x.length = l :=
      fun l r hl => hl ▸ List.take_left
    simp only [fill_deviations_eq median h, Option.bind_eq_bind, Option.bind_some]
    rw [htake _ _ (by simp), htake _ _ (by simp)]
    cases percentile_u32 (qsort_u32 (x.map (deviation median))) 1 2 <;> rfl

/-- No assertion of `mad_u32` fails. -/
theorem exists_mad_u32 {x y : List UInt32} (hs : x.Pairwise (· ≤ ·))
    (hlen : x.length < 2 ^ 64) (h : x.length ≤ y.length) :
    ∃ mad, mad_u32 x y = some mad := by
  by_cases hx : x = []
  · subst hx
    exact ⟨_, rfl⟩
  · have hpos := List.length_pos_iff.mpr hx
    obtain ⟨median, hmedian, -⟩ :=
      percentile_u32_eq (a := 1) (b := 2) hs (by omega) (by omega)
    have hlen' : (qsort_u32 (x.map (deviation median))).length = x.length := by
      simp
    obtain ⟨mad, hmad, -⟩ := percentile_u32_eq (a := 1) (b := 2)
      (pairwise_toNat.mp (qsort_u32_pairwise (x.map (deviation median))))
        (by omega) (by omega)
    have heq := mad_u32_eq h hx
    rw [hmedian, Option.bind_some, hmad] at heq
    obtain ⟨r, hr, -⟩ := Option.map_eq_some_iff.mp heq
    exact ⟨r, hr⟩

/-- The deviations from a value, as numbers. -/
def deviations (m : Nat) (x : List UInt32) : List Nat :=
  x.map fun u => ((u.toNat : Int) - m).natAbs

/-- A deviation from a word fits a word. -/
theorem deviations_lt {m : Nat} (hm : m < 2 ^ 32) {x : List UInt32} :
    ∀ d ∈ deviations m x, d < 2 ^ 32 := by
  intro d hd
  obtain ⟨u, -, rfl⟩ := List.mem_map.mp hd
  have hu := u.toNat_lt
  omega

/-- Half of the values lie on each side of the median, so half of the
deviations fit below it and half of them above. -/
theorem middle_deviations_lt {x : List UInt32}
    (hs : x.Pairwise (· ≤ ·)) {h : Nat} (hpos : 0 < h) (hlen : x.length = 2 * h)
    {m : Nat} (hlow : entry x (h - 1) ≤ m) (hhigh : m ≤ entry x h) :
    ((deviations m x).insertionSort (· ≤ ·)).getD (h - 1) 0 +
      ((deviations m x).insertionSort (· ≤ ·)).getD h 0 < 2 ^ 32 := by
  have hperm := List.perm_insertionSort (· ≤ ·) (deviations m x)
  have hs' := pairwise_toNat.mpr hs
  have hm : m < 2 ^ 32 := by
    rw [entry_eq (by omega)] at hhigh
    exact hhigh.trans_lt x[h].toNat_lt
  -- the lower half deviates by at most `m`, the upper half by the rest
  have hbelow : ∀ u ∈ x.take h, u.toNat ≤ m := by
    intro u hu
    obtain ⟨i, hi, rfl⟩ := List.mem_take_iff_getElem.mp hu
    have hle : entry x i ≤ entry x (h - 1) :=
      getD_le_getD hs' (by omega) (by simp; omega)
    rw [entry_eq (by omega)] at hle
    exact hle.trans hlow
  have habove : ∀ u ∈ x.drop h, m ≤ u.toNat := by
    intro u hu
    obtain ⟨i, hi, rfl⟩ := List.mem_drop_iff_getElem.mp hu
    have hle : entry x h ≤ entry x (h + i) :=
      getD_le_getD hs' (by omega) (by simp; omega)
    rw [entry_eq (i := h + i) (by omega)] at hle
    exact hhigh.trans hle
  have hsplit : deviations m x =
      deviations m (x.take h) ++ deviations m (x.drop h) := by
    rw [deviations, deviations, deviations, ← List.map_append, List.take_append_drop]
  have hlower : ∀ d ∈ deviations m (x.take h), d ≤ m := by
    intro d hd
    obtain ⟨u, hu, rfl⟩ := List.mem_map.mp hd
    have := hbelow u hu
    omega
  have hupper : ∀ d ∈ deviations m (x.drop h), d ≤ 2 ^ 32 - 1 - m := by
    intro d hd
    obtain ⟨u, hu, rfl⟩ := List.mem_map.mp hd
    have := habove u hu
    have := u.toNat_lt
    omega
  have hcount : ∀ {l : List Nat} {c : Nat}, (∀ d ∈ l, d ≤ c) →
      l.countP (· ≤ c) = l.length := by
    intro l c hl
    rw [List.countP_eq_length]
    simpa using hl
  have hlast : ∀ d ∈ (deviations m x).insertionSort (· ≤ ·),
      d ≤ m ∨ d ≤ 2 ^ 32 - 1 - m := by
    intro d hd
    rw [hperm.mem_iff, hsplit, List.mem_append] at hd
    exact hd.imp (hlower d) (hupper d)
  have hsum :=
    middle_add_le (List.pairwise_insertionSort (· ≤ ·) (deviations m x)) hpos
    (by rw [hperm.length_eq]; simp [deviations, hlen])
    (by rw [hperm.countP_eq, hsplit, List.countP_append, hcount hlower]; simp [deviations]; omega)
    (by rw [hperm.countP_eq, hsplit, List.countP_append, hcount hupper]; simp [deviations]; omega)
    hlast
  omega

/-- The neighbours of the middle do not wrap. -/
def MiddleFits (x : List UInt32) : Prop :=
  x.length % 2 = 1 ∨
    entry x (x.length / 2 - 1) + entry x (x.length / 2) < 2 ^ 32

/-- The middle percentile, where its sum fits. -/
theorem percentile_u32_half {x : List UInt32} (hx : x ≠ [])
    (hlen : x.length < 2 ^ 64) (hs : x.Pairwise (· ≤ ·)) (hfit : MiddleFits x) :
    ∃ p, percentile_u32 x 1 2 = some p ∧
      p.toNat = median (x.map UInt32.toNat) := by
  have hpos := List.length_pos_iff.mpr hx
  obtain ⟨p, hp, hpv⟩ :=
    percentile_u32_eq (a := 1) (b := 2) hs (by omega) (by omega)
  have hw : ¬ Wraps x (x.length * 1 / 2) := by
    rw [Nat.mul_one]
    rintro ⟨heven, -, hle⟩
    rcases hfit with hodd | hlt <;> omega
  rw [if_neg hw, Nat.mul_one, exact_percentile] at hpv
  refine ⟨p, hp, ?_⟩
  rw [hpv, median, List.length_map]

/-- The sorted deviations, as numbers. -/
theorem map_sorted_deviations (p : UInt32) (x : List UInt32) :
    (qsort_u32 (x.map (deviation p))).map UInt32.toNat =
      (deviations p.toNat x).insertionSort (· ≤ ·) := by
  rw [map_qsort_u32, List.map_map, deviations]
  congr 1
  exact List.map_congr_left fun u _ => toNat_deviation p u

/-- **`mad_u32` is exact** where the median is: the deviations fit 32 bits,
their middle sum does not wrap, and the result is the median of the
deviations from the median. What `y` held never matters. -/
theorem mad_u32_exact :
    (∀ x : List UInt32, x ≠ [] → x.length < 2 ^ 64 → x.Pairwise (· ≤ ·) → MiddleFits x →
      let devs := deviations (median (x.map UInt32.toNat)) x
      let sorted := devs.insertionSort (· ≤ ·)
      (∀ d ∈ devs, d < 2 ^ 32) ∧
      (x.length % 2 = 0 →
        sorted.getD (x.length / 2 - 1) 0 + sorted.getD (x.length / 2) 0 < 2 ^ 32) ∧
      ∀ y, x.length ≤ y.length →
        (mad_u32 x y).map (fun r => r.1.toNat) = some (median sorted)) ∧
    ∀ x y y' : List UInt32, x.length ≤ y.length → x.length ≤ y'.length →
      (mad_u32 x y).map Prod.fst = (mad_u32 x y').map Prod.fst := by
  constructor
  · intro x hx hlen hs hfit devs sorted
    obtain ⟨p, hp, hpv⟩ := percentile_u32_half hx hlen hs hfit
    have hpos := List.length_pos_iff.mpr hx
    have hs' := pairwise_toNat.mpr hs
    have hmap : (qsort_u32 (x.map (deviation p))).map UInt32.toNat =
        sorted := by
      rw [map_sorted_deviations, hpv]
    have hmiddle : x.length % 2 = 0 →
        sorted.getD (x.length / 2 - 1) 0 + sorted.getD (x.length / 2) 0 <
            2 ^ 32 := by
      intro heven
      -- the median lies between the two entries in the middle
      have hhalf : median (x.map UInt32.toNat) =
          value (x.map UInt32.toNat) (x.length / 2) := by
        rw [median, List.length_map]
      refine middle_deviations_lt hs (by omega) (by omega) ?_ ?_
      · rw [hhalf]
        exact le_value hs' (by simp; omega)
      · rw [hhalf]
        exact value_le hs' (by simp; omega)
    refine ⟨deviations_lt (hpv ▸ p.toNat_lt), hmiddle, fun y hy => ?_⟩
    have hlen' : (qsort_u32 (x.map (deviation p))).length = x.length := by simp
    -- the second call of `percentile_u32`, for the sorted deviations
    obtain ⟨q, hq, hqv⟩ :=
      percentile_u32_half (x := qsort_u32 (x.map (deviation p)))
      (List.ne_nil_of_length_pos (by omega)) (by omega)
      (pairwise_toNat.mp (qsort_u32_pairwise _)) <| by
        rw [MiddleFits, hlen', entry, entry, hmap]
        rcases Nat.mod_two_eq_zero_or_one x.length with heven | hodd
        · exact .inr (hmiddle heven)
        · exact .inl hodd
    have hmad := mad_u32_eq hy hx
    rw [hp, Option.bind_some, hq] at hmad
    have hcomp : (mad_u32 x y).map (fun r => r.1.toNat) =
        ((mad_u32 x y).map Prod.fst).map UInt32.toNat := by
      rw [Option.map_map]
      rfl
    rw [hcomp, hmad, Option.map_some, hqv, hmap]
  · intro x y y' hy hy'
    by_cases hx : x = []
    · subst hx
      rfl
    · rw [mad_u32_eq hy hx, mad_u32_eq hy' hx]

/-- The deviations of 1, 4, 7, 20 from the median 5. -/
theorem mad_u32_exact_four :
    (mad_u32 [1, 4, 7, 20] [9, 9, 9, 9]).map (fun r => r.1.toNat) =
    some (median ((deviations 5 [1, 4, 7, 20]).insertionSort (· ≤ ·))) := by
  have h :=
    mad_u32_exact.1 [1, 4, 7, 20] (by decide) (by decide) (by decide) (.inr (by decide))
  exact h.2.2 [9, 9, 9, 9] (by decide)

end Osjitter.Util
