/-
Osjitter.Lib.Qsort — what a program may rely on when it calls `qsort`: for a
comparator that orders, the result is a permutation in order.

`Comparator` says of a comparison function what the C standard asks of it,
`IsQsort` what it promises in return: a permutation, ascending for the
comparator. No algorithm is fixed by that, and elements that compare equal may
come in any order.

If the comparator tells all elements apart (`Separates`), the result is
determined: `Comparator.unique` says that two permutations of a list that are
both ascending are the same list. So one sort may stand for another, and
`isQsort_insertionSort` provides the one that can be computed here.
-/
import Mathlib

namespace Qsort

variable {α : Type*}

/-- The sign of `cmp x y` orders: it flips with its arguments, and `≤` is
transitive. -/
structure Comparator (cmp : α → α → ℤ) : Prop where
  flip : ∀ x y, cmp x y ≤ 0 ↔ 0 ≤ cmp y x
  trans : ∀ x y z, cmp x y ≤ 0 → cmp y z ≤ 0 → cmp x z ≤ 0

/-- The comparator tells the elements apart. -/
def Separates (cmp : α → α → ℤ) : Prop := ∀ x y, cmp x y = 0 → x = y

/-- An implementation of `qsort`. -/
structure IsQsort (qsort : (α → α → ℤ) → List α → List α) : Prop where
  perm : ∀ {cmp}, Comparator cmp → ∀ xs, (qsort cmp xs).Perm xs
  ordered : ∀ {cmp}, Comparator cmp →
    ∀ xs, (qsort cmp xs).Pairwise fun x y => cmp x y ≤ 0

section comparator

variable {cmp : α → α → ℤ} (hcmp : Comparator cmp)

include hcmp

/-- Of two elements one is not above the other. -/
theorem Comparator.total (x y : α) : cmp x y ≤ 0 ∨ cmp y x ≤ 0 := by
  rcases le_total (cmp x y) 0 with h | h
  · exact .inl h
  · exact .inr ((hcmp.flip y x).mpr h)

/-- Where the comparison separates elements, none of two is above the other only
if they are the same. -/
theorem Comparator.eq_of_le_of_le (hsep : Separates cmp) {x y : α}
    (hxy : cmp x y ≤ 0) (hyx : cmp y x ≤ 0) : x = y :=
  hsep x y (le_antisymm hxy ((hcmp.flip y x).mp hyx))

/-- **One result**: two ordered permutations of a list are the same. -/
theorem Comparator.unique (hsep : Separates cmp) {xs ys : List α}
    (hperm : xs.Perm ys) (hxs : xs.Pairwise fun x y => cmp x y ≤ 0)
    (hys : ys.Pairwise fun x y => cmp x y ≤ 0) : xs = ys :=
  hperm.eq_of_pairwise (fun _ _ _ _ hxy hyx => hcmp.eq_of_le_of_le hsep hxy hyx) hxs hys

end comparator

/-- Insertion sort is an implementation. -/
theorem isQsort_insertionSort :
    IsQsort fun (cmp : α → α → ℤ) (xs : List α) =>
      xs.insertionSort fun x y => cmp x y ≤ 0 where
  perm _ xs := List.perm_insertionSort _ xs
  ordered {cmp} hcmp xs := by
    have htotal : Std.Total fun x y => cmp x y ≤ 0 := ⟨hcmp.total⟩
    have htrans : IsTrans α fun x y => cmp x y ≤ 0 := ⟨hcmp.trans⟩
    exact List.pairwise_insertionSort _ xs

end Qsort
