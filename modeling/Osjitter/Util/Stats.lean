/-
Osjitter.Util.Stats — `percentile_u32` and `mad_u32` of `util.c`.

An array with its length `n` is a list. A failed assertion and an access
outside an array give `none`; `n * a` is a product of 64 bits, and the sum of
two neighbours one of 32, as in the source, so both may wrap.

`mad_u32` fills a scratch array that its caller provides, sorts it, and takes
its median; it gives the array back with the result. `qsort` with `cmp_u32` is
an insertion sort here: that any other gives the same array is in `Util.Calls`.
-/
import Mathlib

namespace Osjitter.Util

/-! ## Sorting

`qsort` is any stable sort by the comparator here. Which one it is makes no
difference, as `Util.Calls` shows: equal numbers cannot be told apart. -/

/-- The comparator of `util.h`. -/
def cmp_u32 (x y : UInt32) : Int :=
  if x < y then -1
  else if y < x then 1
  else 0

/-- `qsort` by `cmp_u32`. -/
def qsort_u32 (xs : List UInt32) : List UInt32 :=
  xs.insertionSort fun x y => cmp_u32 x y ≤ 0

/-- `for (size_t i = 1; i < n; ++i) { if (a > xs[i]) return false; a = xs[i]; }` -/
def ascends (a : UInt32) : List UInt32 → Bool
  | [] => true
  | x :: xs => if x < a then false else ascends x xs

/-! ## Percentiles

An assertion that fails ends the program, and an index outside the array is
undefined, so both are no result. The element that the index names is averaged
with the one before it if the number of elements is even. -/

/-- The assertion of `percentile_u32`, from the first element on. -/
def is_sorted : List UInt32 → Bool
  | [] => true
  | a :: xs => ascends a xs

/-- `percentile_u32` of `util.c`: the index is computed in 64 bits, the sum of
the two elements in 32. -/
def percentile_u32 (x : List UInt32) (a b : Nat) : Option UInt32 :=
  let n := x.length
  if is_sorted x = false then none
  else if n = 0 then some 0
  else
    let i := n * a % 2 ^ 64 / b
    if n % 2 ≠ 0 ∨ i = 0 then x[i]?
    else do
      let u ← x[i]?
      let v ← x[i - 1]?
      some ((u + v) / 2)

/-! ## Deviations

`mad_u32` writes the deviations from the median to a second array, sorts as many
of them as there are values, and takes the median again. -/

/-- `labs((long)x[i] - (long)median)`, stored in 32 bits. -/
def deviation (median u : UInt32) : UInt32 :=
  UInt32.ofNat ((u.toNat : Int) - median.toNat).natAbs

/-- `for (size_t i = 0; i < n; ++i) y[i] = …;` -/
def fill_deviations (median : UInt32) :
    List UInt32 → List UInt32 → Option (List UInt32)
  | [], y => some y
  | _ :: _, [] => none
  | u :: x, _ :: y => (fill_deviations median x y).map (deviation median u :: ·)

/-- The result, and what is left in `y`. -/
def mad_u32 (x y : List UInt32) : Option (UInt32 × List UInt32) :=
  let n := x.length
  if n = 0 then some (0, y)
  else do
    let median ← percentile_u32 x 1 2
    let y ← fill_deviations median x y
    let y := qsort_u32 (y.take n) ++ y.drop n
    let mad ← percentile_u32 (y.take n) 1 2
    some (mad, y)

end Osjitter.Util
