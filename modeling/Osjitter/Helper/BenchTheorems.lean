/-
Osjitter.Helper.BenchTheorems — which measurements keep their host.

  §1 The host that a file's name gives is what stands behind the last `-` of
     the host's name: `host_of_hyphen`, `host_of_plain`, and `host_kept_iff`,
     that it is the host's own name only without one.
  §2 The files of `bench_playbook.py`: those of different hosts are different
     (`bench_csv_injective`), so each holds what its host has reported
     (`playbook_main_of_mem`).
  §3 The rows of `bench2tidy.py`, each under the host that its file's name
     gives. `rows_of_host` gathers those of one name from all files.
     `hosts_kept_iff` says that the table has every measurement under its own
     host, and under no other, exactly if no host's name has a hyphen.

`hyphen_merged` is a run with two hosts that become one. Host names are those
that `short_hostname` yields: not empty, and without a dot or a slash.
-/
import Mathlib
import Osjitter.Helper.Bench

namespace Osjitter.Helper

open PyText

/-! ## §1 The name of a file

The name of a file is put together by one script and taken apart by the other.
That gives the hostname back unless it has a hyphen in it, as the search is for
the last one. -/

/-- `bench` returns a name without a point, and each such name. -/
theorem short_hostname_range (h : List Char) :
    (∃ node, short_hostname node = h) ↔ '.' ∉ h := by
  constructor
  · rintro ⟨node, rfl⟩ hmem
    simpa using List.mem_takeWhile_imp hmem
  · intro hdot
    refine ⟨h, List.takeWhile_eq_self_iff.mpr fun c hc => ?_⟩
    have hne : c ≠ '.' := by
      rintro rfl
      exact hdot hc
    simpa using hne

/-- What stands behind the last hyphen, without the extension. -/
theorem host_of_append {as bs : List Char} (h : '-' ∉ bs) :
    host_of (as ++ '-' :: (bs ++ ".csv".toList)) = some bs := by
  have hlast : '-' ∉ bs ++ ".csv".toList := by
    rw [List.mem_append, not_or]
    exact ⟨h, by decide⟩
  rw [host_of, rindex_append hlast, Option.map_some]
  exact congrArg some (slice_append as bs ".csv".toList)

/-- **The host of a file** is what stands behind the last `-` of the name. -/
theorem host_of_hyphen (out_dir as : List Char) {bs : List Char}
    (h : '-' ∉ bs) :
    host_of (bench_csv out_dir (as ++ '-' :: bs)) = some bs := by
  have hname : bench_csv out_dir (as ++ '-' :: bs) =
      (out_dir ++ "/bench-".toList ++ as) ++ '-' :: (bs ++ ".csv".toList) := by
    simp [bench_csv]
  rw [hname, host_of_append h]

/-- Without one in it, the name's own prefix ends the search. -/
theorem host_of_plain (out_dir : List Char) {h : List Char} (hdash : '-' ∉ h) :
    host_of (bench_csv out_dir h) = some h := by
  have hname : bench_csv out_dir h =
      (out_dir ++ "/bench".toList) ++ '-' :: (h ++ ".csv".toList) := by
    simp [bench_csv]
  rw [hname, host_of_append hdash]

/-- A hostname is given back just if it has no hyphen. -/
theorem host_kept_iff (out_dir h : List Char) :
    host_of (bench_csv out_dir h) = some h ↔ '-' ∉ h := by
  constructor
  · intro hhost hmem
    obtain ⟨as, bs, rfl, hbs⟩ := exists_last hmem
    have heq : as ++ '-' :: bs = bs :=
      Option.some.inj (hhost.symm.trans (host_of_hyphen out_dir as hbs))
    have hlen := congrArg List.length heq
    rw [List.length_append, List.length_cons] at hlen
    omega
  · exact host_of_plain out_dir

/-! ## §2 The files

Files are a function of their paths, and writing one changes it at one path.
Different hosts have different paths, so no file is written over. -/

/-- Different hostnames have different files. -/
theorem bench_csv_injective (out_dir : List Char) :
    Function.Injective (bench_csv out_dir) := by
  intro h h' heq
  simpa [bench_csv] using heq

/-- A file that is not written again stays. -/
theorem written_of_notMem (out_dir : List Char) (rs : List Report)
    (files : Files) (path : List Char)
    (h : path ∉ rs.map fun r => bench_csv out_dir r.hostname) :
    rs.foldl (fun files r => Function.update files
      (bench_csv out_dir r.hostname) (some r.csv))
      files path = files path := by
  induction rs generalizing files with
  | nil => rfl
  | cons r rs ih =>
    rw [List.map_cons, List.mem_cons, not_or] at h
    rw [List.foldl_cons, ih _ h.2, Function.update_of_ne h.1]

/-- **What each host has written** is there at the end. -/
theorem playbook_main_of_mem (out_dir : List Char) {rs : List Report}
    (files : Files) (hnodup : (rs.map Report.hostname).Nodup) {r : Report}
    (hr : r ∈ rs) :
    playbook_main out_dir rs files (bench_csv out_dir r.hostname) =
      some r.csv := by
  unfold playbook_main
  generalize Function.update files (hosts_csv out_dir) _ = files'
  induction rs generalizing files' with
  | nil => cases hr
  | cons s rs ih =>
    rw [List.map_cons, List.nodup_cons] at hnodup
    rw [List.foldl_cons]
    rcases List.mem_cons.mp hr with rfl | hr
    · rw [written_of_notMem, Function.update_self]
      intro hmem
      obtain ⟨s, hs, heq⟩ := List.mem_map.mp hmem
      exact hnodup.1 (List.mem_map.mpr ⟨s, hs, bench_csv_injective out_dir heq⟩)
    · exact ih hnodup.2 hr _

/-! ## §3 The rows

A row has the host of its file. So the rows under a host are those of its file
as long as no other file yields the same host. -/

/-- The rows of a file are under its host, in either state of the loop. -/
theorem host_of_mem_dump {host : List Char} (ls : List (List Char)) :
    ∀ (state : ℕ) (rows : List Row), dump_lines host state ls = some rows →
      ∀ row ∈ rows, row.host = host := by
  induction ls with
  | nil =>
    intro state rows h row hrow
    have hnil : rows = [] := by cases state <;> exact (Option.some.inj h).symm
    rw [hnil] at hrow
    cases hrow
  | cons line ls ih =>
    intro state rows h row hrow
    cases state with
    | zero =>
      rw [dump_lines] at h
      split at h
      · exact ih 1 rows h row hrow
      · exact ih 0 rows h row hrow
    | succ state =>
      rw [dump_lines] at h
      · split at h
        · exact ih _ rows h row hrow
        · simp only [Option.bind_eq_bind, Option.bind_eq_some_iff] at h
          obtain ⟨i, -, rest, hrest, h⟩ := h
          obtain rfl := Option.some.inj h
          rcases List.mem_cons.mp hrow with rfl | hrow
          · rfl
          · exact ih _ rest hrest row hrow
      · intro hzero
        cases hzero

/-- The rows of one file, and those of the others. -/
theorem tidy_rows_cons {files : Files} {fn : List Char} {fns : List (List Char)}
    {rows : List Row} (h : tidy_rows files (fn :: fns) = some rows) :
    ∃ host own rest, host_of fn = some host ∧
      dump_csv files fn host = some own ∧ tidy_rows files fns = some rest ∧
        rows = own ++ rest := by
  simp only [tidy_rows, Option.bind_eq_bind, Option.bind_eq_some_iff] at h
  obtain ⟨host, hhost, own, hown, rest, hrest, h⟩ := h
  exact ⟨host, own, rest, hhost, hown, hrest, (Option.some.inj h).symm⟩

/-- The rows of a file are under its host. -/
theorem host_of_mem_csv {files : Files} {fn host : List Char} {rows : List Row}
    (h : dump_csv files fn host = some rows) :
    ∀ row ∈ rows, row.host = host := by
  simp only [dump_csv, Option.bind_eq_bind, Option.bind_eq_some_iff] at h
  obtain ⟨text, -, h⟩ := h
  exact host_of_mem_dump _ _ _ h

/-- Each row is under the host of one of the files. -/
theorem host_of_mem_tidy {files : Files} {fns : List (List Char)} :
    ∀ {rows : List Row},
    tidy_rows files fns = some rows →
      ∀ row ∈ rows, ∃ fn ∈ fns, host_of fn = some row.host := by
  induction fns with
  | nil =>
    intro rows h row hrow
    obtain rfl := Option.some.inj h
    cases hrow
  | cons fn fns ih =>
    intro rows h row hrow
    obtain ⟨host, own, rest, hhost, hown, hrest, rfl⟩ := tidy_rows_cons h
    rcases List.mem_append.mp hrow with hrow | hrow
    · exact ⟨fn, List.mem_cons_self, by rw [hhost, host_of_mem_csv hown row hrow]⟩
    · obtain ⟨fn', hfn', hhost'⟩ := ih hrest row hrow
      exact ⟨fn', List.mem_cons_of_mem _ hfn', hhost'⟩

section tidy

variable {out_dir : List Char} {files : Files}

/-- **The rows of a host** are those of its own file, by induction on the
files: the rows of each are under a host of their own. -/
theorem rows_of_host {ts : List Report} (hdash : ∀ t ∈ ts, '-' ∉ t.hostname)
    (hnodup : (ts.map Report.hostname).Nodup)
    (hfiles : ∀ t ∈ ts, files (bench_csv out_dir t.hostname) = some t.csv)
    {rows : List Row} (h : tidy_rows files
      (ts.map fun t => bench_csv out_dir t.hostname) = some rows) :
    ∀ t ∈ ts, dump_lines t.hostname 0 (lines t.csv) =
      some (rows.filter fun row => row.host = t.hostname) := by
  induction ts generalizing rows with
  | nil =>
    intro t ht
    cases ht
  | cons t ts ih =>
    rw [List.map_cons] at h hnodup
    obtain ⟨hnotmem, hnodup⟩ := List.nodup_cons.mp hnodup
    obtain ⟨hdash, hdashes⟩ := List.forall_mem_cons.mp hdash
    obtain ⟨hfile, hfiles⟩ := List.forall_mem_cons.mp hfiles
    obtain ⟨host, own, rest, hhost, hown, hrest, rfl⟩ := tidy_rows_cons h
    obtain rfl : t.hostname = host :=
      Option.some.inj ((host_of_plain out_dir hdash).symm.trans hhost)
    -- the hostnames differ, so no later file gives a row of this host
    have hothers : ∀ row ∈ rest, row.host ≠ t.hostname := by
      intro row hrow heq
      obtain ⟨fn, hfn, hhost'⟩ := host_of_mem_tidy hrest row hrow
      obtain ⟨u, hu, rfl⟩ := List.mem_map.mp hfn
      rw [host_of_plain out_dir (hdashes u hu), heq] at hhost'
      exact hnotmem (List.mem_map.mpr ⟨u, hu, Option.some.inj hhost'⟩)
    have hself := host_of_mem_csv hown
    rw [dump_csv, hfile] at hown
    intro u hu
    rw [List.filter_append]
    rcases List.mem_cons.mp hu with rfl | hu
    · have hkeep : own.filter (fun row => row.host = u.hostname) = own :=
        List.filter_eq_self.mpr fun row hrow => by simpa using hself row hrow
      have hdrop : rest.filter (fun row => row.host = u.hostname) = [] :=
        List.filter_eq_nil_iff.mpr fun row hrow => by simpa using hothers row hrow
      rw [hkeep, hdrop, List.append_nil]
      exact hown
    · have hne : t.hostname ≠ u.hostname := by
        intro heq
        exact hnotmem (List.mem_map.mpr ⟨u, hu, heq.symm⟩)
      have hdrop : own.filter (fun row => row.host = u.hostname) = [] :=
        List.filter_eq_nil_iff.mpr fun row hrow => by simp [hself row hrow, hne]
      rw [hdrop, List.nil_append]
      exact ih hdashes hnodup hfiles hrest u hu

end tidy

/-- The reports of a run of `bench_playbook.py` keep their hosts: each file's
name gives its host back, and the table for any of the files, in any order,
has under each host the rows of its own file. -/
structure HostsKept (out_dir : List Char) (rs : List Report)
    (files : Files) : Prop where
  derived : ∀ r ∈ rs, host_of (bench_csv out_dir r.hostname) = some r.hostname
  rows : (rs.map Report.hostname).Nodup →
    ∀ ts ⊆ rs, (ts.map Report.hostname).Nodup →
    ∀ rows, tidy_rows (playbook_main out_dir rs files)
        (ts.map fun t => bench_csv out_dir t.hostname) = some rows →
      ∀ t ∈ ts, dump_lines t.hostname 0 (lines t.csv) =
        some (rows.filter fun row => row.host = t.hostname)

/-- **When hosts are kept**: no name has a `-` in it. -/
theorem hosts_kept_iff (out_dir : List Char) (rs : List Report)
    (files : Files) :
    HostsKept out_dir rs files ↔ ∀ r ∈ rs, '-' ∉ r.hostname := by
  constructor
  · intro h r hr
    exact (host_kept_iff out_dir r.hostname).mp (h.derived r hr)
  · intro h
    constructor
    · intro r hr
      exact host_of_plain out_dir (h r hr)
    · intro hnodup ts hts hnodup' rows hrows
      have hfiles : ∀ t ∈ ts,
        playbook_main out_dir rs files (bench_csv out_dir t.hostname) =
          some t.csv := by
        intro t ht
        exact playbook_main_of_mem out_dir files hnodup (hts ht)
      exact rows_of_host (fun t ht => h t (hts ht)) hnodup' hfiles hrows

/-- A report with one measurement. -/
def one_point (hostname : String) : Report :=
  { hostname := hostname.toList
    cpuinfo := []
    cmdline := []
    tuned := []
    csv :=
      "name,iterations,real_time,cpu_time,time_unit\nnop,1,2,3,ns,\n".toList }

/-- The names `web-1` and `db-1` give the host `1`, which the measurements of
both are merged under. -/
theorem hyphen_merged :
    short_hostname "web-1.example".toList = "web-1".toList ∧
      host_of (bench_csv "out".toList "web-1".toList) = some "1".toList ∧
      (tidy_rows (playbook_main "out".toList [one_point "web-1",
        one_point "db-1"] fun _ => none)
          [bench_csv "out".toList "web-1".toList,
            bench_csv "out".toList "db-1".toList]).map
        (·.map Row.host) = some ["1".toList, "1".toList] ∧
      ¬ ∀ out_dir h : List Char, h ≠ [] → '/' ∉ h → '.' ∉ h →
        host_of (bench_csv out_dir h) = some h := by
  have hweb : host_of (bench_csv "out".toList "web-1".toList) =
      some "1".toList := by decide
  refine ⟨by decide, hweb, by decide +kernel, ?_⟩
  intro hall
  have hhost :=
    hall "out".toList "web-1".toList (by decide) (by decide) (by decide)
  rw [hweb] at hhost
  exact absurd hhost (by decide)

end Osjitter.Helper
