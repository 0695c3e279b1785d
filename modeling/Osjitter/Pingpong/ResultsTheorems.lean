/-
Osjitter.Pingpong.ResultsTheorems — the table and the JSON output of
`pingpong.c` show the same measurement.

  §1 The arrays of `spin_main_finalize`: the copy is taken before the sort, so
     one is a permutation of the other (`Finalized`).
  §2 A row of the table: where it exists (`exists_row`), what it shows
     (`row_eq_some`), and when its percentiles ascend (`row_ascend_iff`).
  §3 `print_json` writes the converted deltas in the order measured
     (`print_json_eq`). The conversion is monotone, so it commutes with sorting
     and selection: a row agrees with the list of its thread (`Agrees`,
     `row_agrees`) in number, minimum and maximum, and for an odd number of
     deltas in the percentiles. `table_agrees_json` says it of both threads, for
     any factors of the conversion.

For an even number a percentile is the mean of two deltas, and the conversion of
a mean is not the mean of two conversions. The reader of the text is in
`Pingpong.Json`.
-/
import Mathlib
import Osjitter.Pingpong.Results

namespace Osjitter.Pingpong

open Util CString

/-! ## §1 The arrays

`Finalized` is what `spin_main_finalize` makes of the deltas of a thread. The
sorted array has no more than 2^31 entries, as there is one for every second
message. -/

/-- `w` holds what `spin_main_finalize` leaves of the deltas `ds`. -/
def Finalized (n : UInt32) (ds : List UInt32) (w : Result) : Prop :=
  spin_main_finalize n.toNat ds false = .ret w.raw_ds w.ds

section finalized

variable {n : UInt32} {ds : List UInt32} {w : Result} (h : Finalized n ds w)

include h

/-- The two arrays, and their length. -/
theorem Finalized.eq :
    w.raw_ds = ds ∧ w.ds = qsort_u32 ds ∧ ds.length ≤ n.toNat / 2 := by
  unfold Finalized spin_main_finalize at h
  split at h
  · next hlen =>
    simp only [Bool.false_eq_true, if_false, Fate.ret.injEq] at h
    exact ⟨h.1.symm, by rw [qsort_u32_eq]; exact h.2.symm, hlen⟩
  · cases h

/-- Sorting keeps the number. -/
theorem Finalized.ds_size : w.ds_size = ds.length := by
  rw [Result.ds_size, h.eq.2.1, length_qsort_u32]

/-- The one array ascends. -/
theorem Finalized.sorted : w.ds.Pairwise (· ≤ ·) := by
  rw [h.eq.2.1]
  exact pairwise_toNat.mp (qsort_u32_pairwise ds)

/-- It is a permutation of the other. -/
theorem Finalized.perm : w.ds.Perm w.raw_ds := by
  rw [h.eq.1, h.eq.2.1]
  exact qsort_u32_perm ds

/-- Its length fits 32 bits, with room. -/
theorem Finalized.fits : w.ds.length < 2 ^ 31 := by
  have hn := n.toNat_lt
  have hlen := h.eq.2.2
  have hsize := h.ds_size
  rw [Result.ds_size] at hsize
  omega

end finalized

/-! ## §2 A row

Rows of this table have the columns of `Util.Table`, from the least to the
greatest delta; a row exists exactly if there are deltas. -/

/-- The columns of a row by the array they are computed from. -/
theorem row_eq_some {args : Args} {i : Nat} {w : Result}
    {mad : UInt32} {r : Row} (h : row args i w mad = some r) :
    r.thread = i ∧ r.delta = w.ds_size ∧
      (w.ds[0]?).map (to_ns args.mult args.shift) = some r.min_ns ∧
      (w.ds[w.ds_size - 1]?).map (to_ns args.mult args.shift) = some r.max_ns ∧
      percentiles args.mult args.shift w.ds = some r.toPercentiles := by
  simp only [row, Option.bind_eq_bind, Option.bind_eq_some_iff] at h
  obtain ⟨min, hmin, max, hmax, p, hp, h⟩ := h
  obtain rfl := Option.some.inj h
  simp only [hmin, hmax, hp, Option.map_some, and_self]

/-- A printed row is that of its worker. -/
theorem row_of_mem {args : Args} {ws : Nat → Result}
    {ys : Nat → Option (List UInt32)} {r : Row}
    (h : r ∈ (pp_results args ws ys).rows) :
    r.thread < 2 ∧ ∃ mad, row args r.thread (ws r.thread) mad = some r := by
  obtain ⟨i, hi, hturn⟩ := exists_turn_of_mem h
  simp only [row_turn] at hturn
  split at hturn
  · cases hturn
  · split at hturn
    · cases hturn
    · next mad hmad =>
      split at hturn
      · cases hturn
      · split at hturn
        · cases hturn
        · next r' hrow =>
          obtain rfl : r' = r := by simpa using hturn
          rw [(row_eq_some hrow).1]
          exact ⟨by simp at hi; omega, mad.1, hrow⟩

/-- The row has its columns where the array is not empty. -/
theorem exists_row (args : Args) (i : Nat) {w : Result}
    (hs : w.ds.Pairwise (· ≤ ·)) (hpos : 0 < w.ds_size)
    (hfit : w.ds_size * 999 < 2 ^ 64) (mad : UInt32) :
    ∃ r, row args i w mad = some r := by
  have hne : w.ds ≠ [] := List.ne_nil_of_length_pos hpos
  obtain ⟨p, hp, -⟩ := percentiles_eq hs hne hfit args.mult args.shift
  have hmin := List.getElem?_eq_getElem (l := w.ds) hpos
  have hmax := List.getElem?_eq_getElem (l := w.ds) (i := w.ds_size - 1)
    (Nat.sub_lt hpos Nat.one_pos)
  simp only [row, hmin, hmax, hp, Option.bind_eq_bind, Option.bind_some]
  exact ⟨_, rfl⟩

/-- **When a row ascends**, from its minimum. -/
theorem row_ascend_iff {args : Args} {i : Nat} {w : Result}
    {mad : UInt32} {r : Row} (hs : w.ds.Pairwise (· ≤ ·))
    (hfit : w.ds_size * 999 < 2 ^ 64) (h : row args i w mad = some r) :
    (r.min_ns ≤ r.p20_ns ∧ Ascend r.toPercentiles r.max_ns) ↔
      KeepsFirst (Scale.scaled · args.mult.toNat args.shift.toNat) w.ds
          (w.ds_size * 1 / 5) ∧
        KeepsRow (Scale.scaled · args.mult.toNat args.shift.toNat) w.ds := by
  have hf : Monotone (Scale.scaled · args.mult.toNat args.shift.toNat) :=
    fun a b hab => Scale.scaled_mono _ _ hab
  obtain ⟨-, -, hmin, hmax, hp⟩ := row_eq_some h
  obtain ⟨min, hmin, hminv⟩ := Option.map_eq_some_iff.mp hmin
  obtain ⟨max, hmax, hmaxv⟩ := Option.map_eq_some_iff.mp hmax
  obtain ⟨hpos, hmin⟩ := List.getElem?_eq_some_iff.mp hmin
  obtain ⟨hlast, hmax⟩ := List.getElem?_eq_some_iff.mp hmax
  have hne : w.ds ≠ [] := List.ne_nil_of_length_pos hpos
  obtain ⟨p, hp', hcol⟩ := percentiles_eq hs hne hfit args.mult args.shift
  obtain rfl : p = r.toPercentiles := Option.some.inj (hp'.symm.trans hp)
  refine and_congr ?_ (ascend_iff hf hs hne hcol ?_)
  · rw [← first_le_shown_iff hs hf (by rw [Result.ds_size]; omega),
      UInt64.le_iff_toNat_le, hcol.p20, ← hminv, toNat_to_ns, entry_eq hpos,
      hmin, Result.ds_size]
  · have hlast' : w.ds.length - 1 < w.ds.length := hlast
    rw [← hmaxv, toNat_to_ns, entry_eq hlast', ← hmax]
    rfl

/-! ## §3 JSON

The two outputs convert the same deltas, one before and one after sorting. A
monotone conversion of a sorted list is the sorted list of the conversions, so
positions can be compared; only where a percentile is a mean of two does the
comparison stop. -/

/-- The list that JSON shows of a worker. -/
def json (args : Args) (w : Result) : List UInt64 :=
  w.raw_ds.map (to_ns args.mult args.shift)

/-- Numbers between commas. -/
def items_text : List UInt64 → List Char
  | [] => []
  | v :: vs => " ".toList ++ decimal v.toNat ++ vs.flatMap fun v =>
      ", ".toList ++ decimal v.toNat

/-- A JSON array of numbers, indented. -/
def array_line (vs : List UInt64) : List Char :=
  "    [".toList ++ items_text vs ++ "]".toList

/-- The elements behind the first. -/
theorem json_rest_eq (args : Args) (ds : List UInt32) :
    json_rest args ds = (ds.map (to_ns args.mult args.shift)).flatMap fun v =>
      ", ".toList ++ decimal v.toNat := by
  induction ds with
  | nil => rfl
  | cons d ds ih =>
    rw [json_rest, ih, List.map_cons, List.flatMap_cons, List.append_assoc]

/-- All elements, as a text. -/
theorem json_items_eq (args : Args) (ds : List UInt32) :
    json_items args ds = items_text (ds.map (to_ns args.mult args.shift)) := by
  cases ds with
  | nil => rfl
  | cons d ds => simp only [json_items, items_text, json_rest_eq, List.map_cons]

/-- **The text of `print_json`**: an array of the two lists. -/
theorem print_json_eq (args : Args) (ws : Nat → Result) :
    print_json args ws =
      "[\n".toList ++ array_line (json args (ws 0)) ++ ",\n".toList ++
      array_line (json args (ws 1)) ++ "\n]\n".toList := by
  unfold print_json json_list array_line json
  rw [json_items_eq, json_items_eq]

/-- The conversion commutes with sorting. -/
theorem sorted_json {args : Args} {n : UInt32} {ds : List UInt32} {w : Result}
    (h : Finalized n ds w) :
    (json args w).insertionSort (· ≤ ·) =
      w.ds.map (to_ns args.mult args.shift) := by
  refine List.Perm.eq_of_pairwise' (List.pairwise_insertionSort (· ≤ ·) _) ?_
    ((List.perm_insertionSort _ _).trans (h.perm.symm.map _))
  rw [List.pairwise_map]
  exact h.sorted.imp fun hle => UInt64.le_iff_toNat_le.mpr
    (to_ns_mono _ _ (UInt32.le_iff_toNat_le.mp hle))

/-- A row and the JSON list of its worker. -/
structure Agrees (args : Args) (w : Result) (r : Row) : Prop where
  delta : r.delta = (json args w).length
  min : r.min_ns ∈ json args w ∧ ∀ v ∈ json args w, r.min_ns ≤ v
  max : r.max_ns ∈ json args w ∧ ∀ v ∈ json args w, v ≤ r.max_ns
  odd : w.ds_size % 2 = 1 →
    let sorted := (json args w).insertionSort (· ≤ ·)
    sorted[w.ds_size * 1 / 2]? = some r.median_ns ∧
      sorted[w.ds_size * 1 / 5]? = some r.p20_ns ∧
      sorted[w.ds_size * 4 / 5]? = some r.p80_ns ∧
      sorted[w.ds_size * 90 / 100]? = some r.p90_ns ∧
      sorted[w.ds_size * 99 / 100]? = some r.p99_ns ∧
      sorted[w.ds_size * 999 / 1000]? = some r.p99_9_ns

/-- The JSON list has the elements of the sorted array, converted. -/
theorem mem_json {args : Args} {n : UInt32} {ds : List UInt32} {w : Result}
    (h : Finalized n ds w) {v : UInt64} :
    v ∈ json args w ↔ ∃ d ∈ w.ds, to_ns args.mult args.shift d = v := by
  rw [json, List.mem_map]
  simp only [h.perm.mem_iff]

/-- A row shows what the list of its thread has. -/
theorem row_agrees {args : Args} {n : UInt32} {ds : List UInt32}
    {w : Result} {i : Nat} {mad : UInt32} {r : Row} (h : Finalized n ds w)
    (hrow : row args i w mad = some r) : Agrees args w r := by
  have hs := h.sorted
  have hfits := h.fits
  obtain ⟨-, hdelta, hmin, hmax, hp⟩ := row_eq_some hrow
  obtain ⟨min, hmin, hminv⟩ := Option.map_eq_some_iff.mp hmin
  obtain ⟨max, hmax, hmaxv⟩ := Option.map_eq_some_iff.mp hmax
  obtain ⟨hpos, hmin⟩ := List.getElem?_eq_some_iff.mp hmin
  obtain ⟨hlast, hmax⟩ := List.getElem?_eq_some_iff.mp hmax
  -- the conversion to nanoseconds keeps the order of the deltas
  have hle : ∀ {i j : Nat} {d e : UInt32}, w.ds[i]? = some d →
      w.ds[j]? = some e → i ≤ j →
      to_ns args.mult args.shift d ≤ to_ns args.mult args.shift e := by
    intro i j d e hd he hij
    obtain ⟨hi, rfl⟩ := List.getElem?_eq_some_iff.mp hd
    obtain ⟨hj, rfl⟩ := List.getElem?_eq_some_iff.mp he
    have hentry :=
      OrderStat.getD_le_getD (z := 0) (pairwise_toNat.mpr hs) hij (by simpa using hj)
    rw [UInt64.le_iff_toNat_le]
    refine to_ns_mono _ _ ?_
    rw [← entry_eq hi, ← entry_eq hj]
    exact hentry
  refine ⟨?_, ⟨?_, fun v hv => ?_⟩, ⟨?_, fun v hv => ?_⟩, fun hodd => ?_⟩
  · rw [hdelta, h.ds_size, json, List.length_map, h.eq.1]
  · rw [mem_json h]
    exact ⟨min, hmin ▸ List.getElem_mem hpos, hminv⟩
  · obtain ⟨d, hd, rfl⟩ := (mem_json h).mp hv
    obtain ⟨j, hj⟩ := List.mem_iff_getElem?.mp hd
    rw [← hminv]
    exact hle (List.getElem?_eq_some_iff.mpr ⟨hpos, hmin⟩) hj (Nat.zero_le j)
  · rw [mem_json h]
    exact ⟨max, hmax ▸ List.getElem_mem hlast, hmaxv⟩
  · obtain ⟨d, hd, rfl⟩ := (mem_json h).mp hv
    obtain ⟨j, hj⟩ := List.mem_iff_getElem?.mp hd
    have hjlt := (List.getElem?_eq_some_iff.mp hj).1
    rw [← hmaxv]
    exact hle hj (List.getElem?_eq_some_iff.mpr ⟨hlast, hmax⟩)
      (by rw [Result.ds_size]; omega)
  -- of an odd number of deltas every percentile is one
  · have hcols := percentiles_eq_some hp
    have hodd' : ∀ {a b : Nat}, a ≤ 999 →
        percentile_u32 w.ds a b = w.ds[w.ds_size * a / b]? :=
      fun ha => percentile_u32_odd hs
        (lt_of_le_of_lt (Nat.mul_le_mul hfits.le ha) (by norm_num)) hodd
    simp only [hodd' (a := 1) (by omega), hodd' (a := 4) (by omega),
      hodd' (a := 90) (by omega), hodd' (a := 99) (by omega),
      hodd' (a := 999) (by omega)] at hcols
    simp only [sorted_json h, List.getElem?_map]
    exact hcols

/-- A turn with room in `ys` does not fail. -/
theorem row_turn_ok (args : Args) {n : UInt32} {ds : List UInt32}
    {ws : Nat → Result} {i : Nat} {ys : Nat → Option (List UInt32)}
    (h : Finalized n ds (ws i))
    (hroom : ∃ y, ys i = some y ∧ (ws i).ds_size ≤ y.length) :
    if (ws i).ds_size = 0 then row_turn args ws ys i = .skip
    else ∃ r, row_turn args ws ys i = .row r ∧ r.thread = i := by
  obtain ⟨y, hy, hlen⟩ := hroom
  have hfits := h.fits
  obtain ⟨mad, hmad⟩ := exists_mad_u32 h.sorted (by omega) hlen
  split
  · next hzero => simp only [row_turn, hy, hmad, if_pos hzero]
  · next hpos =>
    have hfit : (ws i).ds_size * 999 < 2 ^ 64 :=
      lt_of_le_of_lt (Nat.mul_le_mul_right 999 hfits.le) (by norm_num)
    obtain ⟨r, hrow⟩ := exists_row args i h.sorted (Nat.pos_of_ne_zero hpos)
      hfit mad.1
    refine ⟨r, ?_, (row_eq_some hrow).1⟩
    simp only [row_turn, hy, hmad, if_neg hpos, hrow]

/-- **Table and JSON agree.** `print_json` writes the deltas converted in the
order measured, every row of the table agrees with the list of its thread,
and a thread with deltas has its row where memory can be had. -/
theorem table_agrees_json (args : Args) (n : Nat → UInt32)
    (ds : Nat → List UInt32) (ws : Nat → Result)
    (hws : ∀ i < 2, Finalized (n i) (ds i) (ws i))
    (ys : Nat → Option (List UInt32)) :
    (print_json args ws =
      "[\n".toList ++ array_line (json args (ws 0)) ++ ",\n".toList ++
        array_line (json args (ws 1)) ++ "\n]\n".toList ∧
      ∀ i < 2, json args (ws i) = (ds i).map (to_ns args.mult args.shift)) ∧
    (∀ r ∈ (pp_results args ws ys).rows, r.thread < 2 ∧ Agrees args (ws r.thread) r) ∧
    ∀ i < 2, 0 < (ws i).ds_size →
      (∀ j ≤ i, ∃ y, ys j = some y ∧ (ws j).ds_size ≤ y.length) →
        ∃ r ∈ (pp_results args ws ys).rows, r.thread = i := by
  refine ⟨⟨print_json_eq args ws, fun i hi => ?_⟩,
    fun r hr => ?_, fun i hi hpos hroom => ?_⟩
  · rw [json, (hws i hi).eq.1]
  · obtain ⟨hthread, mad, hrow⟩ := row_of_mem hr
    exact ⟨hthread, row_agrees (hws _ hthread) hrow⟩
  · have hturn := row_turn_ok args (hws i hi) (hroom i (Nat.le_refl i))
    rw [if_neg (by omega)] at hturn
    obtain ⟨r, hr, hthread⟩ := hturn
    have hcases : i = 0 ∨ i = 1 := by omega
    rcases hcases with rfl | rfl
    · exact ⟨r, mem_rows_of_turn [] hr (by simp), hthread⟩
    · refine ⟨r, mem_rows_of_turn [0] hr ?_, hthread⟩
      intro j hj
      obtain rfl := List.mem_singleton.mp hj
      have hfirst := row_turn_ok args (hws 0 (by omega)) (hroom 0 (by omega))
      split at hfirst
      · exact .inl hfirst
      · obtain ⟨r', hr', -⟩ := hfirst
        exact .inr ⟨r', hr'⟩

/-- Three deltas of one thread, one of the other, at one cycle a nanosecond. -/
theorem table_agrees_json_three : ∃ r ∈ (pp_results ⟨1000000, 2147483648, 31⟩
      (fun i => if i = 0 then ⟨[7, 2, 5], [2, 5, 7]⟩ else ⟨[4], [4]⟩)
      fun _ => some [0, 0, 0]).rows, r.thread = 0 ∧
    Agrees ⟨1000000, 2147483648, 31⟩ ⟨[7, 2, 5], [2, 5, 7]⟩ r := by
  have hws : ∀ i < 2, Finalized 6 (if i = 0 then [7, 2, 5] else [4])
      (if i = 0 then ⟨[7, 2, 5], [2, 5, 7]⟩ else ⟨[4], [4]⟩) := by
    intro i hi
    have hcases : i = 0 ∨ i = 1 := by omega
    unfold Finalized
    rcases hcases with rfl | rfl <;> decide
  obtain ⟨-, hrows, hexists⟩ :=
    table_agrees_json ⟨1000000, 2147483648, 31⟩ (fun _ => 6)
    (fun i => if i = 0 then [7, 2, 5] else [4])
    (fun i => if i = 0 then ⟨[7, 2, 5], [2, 5, 7]⟩ else ⟨[4], [4]⟩) hws
      fun _ => some [0, 0, 0]
  obtain ⟨r, hr, hthread⟩ :=
    hexists 0 (by omega) (by decide) (by simp [Result.ds_size])
  have hagrees := (hrows r hr).2
  rw [hthread] at hagrees
  exact ⟨r, hr, hthread, hagrees⟩

end Osjitter.Pingpong
