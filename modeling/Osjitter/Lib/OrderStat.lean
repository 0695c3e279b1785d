/-
Osjitter.Lib.OrderStat — percentiles of ascending lists.

The general facts about order statistics that the tables rest on, in natural
numbers and over linear orders: no word is narrower than its value here.

  §1 The index of a fraction of a length. `index_le_index` compares two
     fractions of one length, `index_lt` keeps one inside the list.
  §2 Elements of an ascending list, and how many elements lie below one:
     `getD_le_of_lt_countP` bounds the element at an index by any number that
     more elements do not exceed.
  §3 `value s i`: the element at an index, or the mean of it and its
     predecessor where the length is even. `value_mono` says that it does not
     decrease with the index, and `mean_mem` that a mean lies between its two
     elements; so every percentile lies between the first element and the
     last. `median` is the value at the middle.
  §4 `middle_add_le`: the two middle elements of a list of deviations add up to
     no more than twice a bound that half of them keep.

Interpolated percentiles and other definitions of a quantile are left out.
-/
import Mathlib

namespace OrderStat

/-! ## §1 Fractions

A percentile is asked for as a fraction, with a numerator and a denominator. The
index it stands for is monotone in the fraction and stays inside the list. -/

/-- A larger fraction has a larger index. -/
theorem index_le_index {n a b c d : ℕ} (hb : 0 < b) (hd : 0 < d)
    (h : a * d ≤ c * b) : n * a / b ≤ n * c / d := by
  rw [Nat.le_div_iff_mul_le hd]
  have hfloor : n * a / b * b ≤ n * a := Nat.div_mul_le_self _ _
  refine Nat.le_of_mul_le_mul_right ?_ hb
  calc n * a / b * d * b = n * a / b * b * d := by ring
    _ ≤ n * a * d := Nat.mul_le_mul_right d hfloor
    _ = n * (a * d) := Nat.mul_assoc n a d
    _ ≤ n * (c * b) := Nat.mul_le_mul_left n h
    _ = n * c * b := (Nat.mul_assoc n c b).symm

/-- A proper fraction has an index inside. -/
theorem index_lt {n a b : ℕ} (hn : 0 < n) (h : a < b) : n * a / b < n :=
  (Nat.div_lt_iff_lt_mul (Nat.zero_lt_of_lt h)).mpr (Nat.mul_lt_mul_of_pos_left h hn)

/-! ## §2 Ascending lists

Two facts about lists in ascending order: later elements are not less, and where
enough elements are at most a number the one at a given index is. -/

section order

variable {α : Type} [LinearOrder α]

/-- Later elements are not less. -/
theorem getD_le_getD {s : List α} {z : α} (hs : s.Pairwise (· ≤ ·)) {i j : ℕ}
    (hij : i ≤ j) (hj : j < s.length) : s.getD i z ≤ s.getD j z := by
  have hi : i < s.length := hij.trans_lt hj
  rw [List.getD_eq_getElem _ _ hi, List.getD_eq_getElem _ _ hj]
  rcases Nat.eq_or_lt_of_le hij with rfl | hlt
  · exact le_rfl
  · exact List.pairwise_iff_getElem.mp hs i j hi hj hlt

/-- Where more than `k` elements are at most `c`, so is the one at `k`. -/
theorem getD_le_of_lt_countP {s : List α} {z c : α}
    (hs : s.Pairwise (· ≤ ·)) {k : ℕ} (hk : k < s.countP (· ≤ c)) :
    s.getD k z ≤ c := by
  by_contra hlt
  have hlen : k < s.length := hk.trans_le List.countP_le_length
  have hdrop : (s.drop k).countP (· ≤ c) = 0 := by
    rw [List.countP_eq_zero]
    intro x hx
    obtain ⟨j, hj, rfl⟩ := List.mem_drop_iff_getElem.mp hx
    have hle := getD_le_getD (z := z) hs (Nat.le_add_right k j) (by omega)
    rw [List.getD_eq_getElem _ _ (by omega : k + j < s.length)] at hle
    simpa using lt_of_lt_of_le (not_le.mp hlt) hle
  have htake : (s.take k).countP (· ≤ c) ≤ k :=
    List.countP_le_length.trans (List.length_take_le k s)
  have hsplit : s.countP (· ≤ c) =
      (s.take k).countP (· ≤ c) + (s.drop k).countP (· ≤ c) := by
    rw [← List.countP_append, List.take_append_drop]
  omega

end order

/-! ## §3 Percentiles

The value at an index is the element there, or the mean of it and the one before
where the length is even. Either way it is between these two, and that is what
the comparison of two percentiles rests on. -/

/-- The value at index `i`, as percentiles take it. -/
def value (s : List ℕ) (i : ℕ) : ℕ :=
  if s.length % 2 = 1 ∨ i = 0 then s.getD i 0
    else (s.getD (i - 1) 0 + s.getD i 0) / 2

/-- The value in the middle. -/
def median (s : List ℕ) : ℕ := value s (s.length / 2)

section value

variable {s : List ℕ} (hs : s.Pairwise (· ≤ ·)) {i j : ℕ}

include hs

/-- Two elements of an ascending list with the mean between them. -/
theorem mean_mem (hi : i < s.length) :
    s.getD (i - 1) 0 ≤ (s.getD (i - 1) 0 + s.getD i 0) / 2 ∧
    (s.getD (i - 1) 0 + s.getD i 0) / 2 ≤ s.getD i 0 := by
  have hle := getD_le_getD (z := 0) hs (Nat.sub_le i 1) hi
  omega

/-- A percentile is not above the element at its index. -/
theorem value_le (hi : i < s.length) : value s i ≤ s.getD i 0 := by
  unfold value
  split
  · exact le_rfl
  · exact (mean_mem hs hi).2

/-- A percentile is not below the element before its index. -/
theorem le_value (hi : i < s.length) : s.getD (i - 1) 0 ≤ value s i := by
  unfold value
  split
  · exact getD_le_getD hs (Nat.sub_le i 1) hi
  · exact (mean_mem hs hi).1

/-- A percentile is not below the least element. -/
theorem first_le_value (hi : i < s.length) : s.getD 0 0 ≤ value s i :=
  (getD_le_getD hs (Nat.zero_le _) (by omega)).trans (le_value hs hi)

/-- A percentile is not above the greatest element. -/
theorem value_le_last (hi : i < s.length) :
    value s i ≤ s.getD (s.length - 1) 0 :=
  (value_le hs hi).trans (getD_le_getD hs (by omega) (by omega))

/-- **Percentiles ascend** with the index. -/
theorem value_mono (hij : i ≤ j) (hj : j < s.length) :
    value s i ≤ value s j := by
  rcases Nat.eq_or_lt_of_le hij with rfl | hlt
  · exact le_rfl
  · exact (value_le hs (hij.trans_lt hj)).trans
      ((getD_le_getD hs (by omega) (by omega)).trans (le_value hs hj))

end value

/-! ## §4 Two middle elements

A bound on a median of even length is one on the sum of the two middle elements.
Half of the elements may keep one bound and half another, as the distances to
the left and to the right of a number do. -/

/-- **Middle elements that add up to little.** If half the elements are at
most `a`, half are at most `b` and every one is at most one of the two, the
two middle elements add up to at most `a + b`. -/
theorem middle_add_le {s : List ℕ} (hs : s.Pairwise (· ≤ ·)) {h a b : ℕ}
    (hpos : 0 < h) (hlen : s.length = 2 * h) (ha : h ≤ s.countP (· ≤ a))
    (hb : h ≤ s.countP (· ≤ b)) (hall : ∀ x ∈ s, x ≤ a ∨ x ≤ b) :
    s.getD (h - 1) 0 + s.getD h 0 ≤ a + b := by
  have hlow : s.getD (h - 1) 0 ≤ a ∧ s.getD (h - 1) 0 ≤ b :=
    ⟨getD_le_of_lt_countP hs (by omega), getD_le_of_lt_countP hs (by omega)⟩
  have hhigh : s.getD h 0 ≤ a ∨ s.getD h 0 ≤ b := by
    rw [List.getD_eq_getElem _ _ (by omega : h < s.length)]
    exact hall _ (List.getElem_mem _)
  omega

end OrderStat
