/-
Osjitter.Helper.Bench — the benchmark scripts under `helper/`.

`bench_playbook.py` runs a benchmark on many hosts and writes one CSV file for
each, with the host in the file's name. `bench2tidy.py` reads these files,
takes the host from the name, and writes all the measurements to one table.
A script that dies of an exception has no result here.

The files are a function from their names to their texts, so that a file that
is written twice keeps the last text. The reports of the hosts are given in the
order in which they arrive; what the benchmark itself has printed is one of
their fields.

Left out are the transport to the hosts, the temporary directories, the logging,
and how a host gathers its report.
-/
import Mathlib
import Osjitter.Lib.PyText

namespace Osjitter.Helper

open PyText

/-- What is under a path, if it exists. -/
abbrev Files := List Char → Option (List Char)

/-! ## `bench_playbook.py`

The playbook runs a benchmark on each host and writes what comes back to files
named after the hosts, all in one directory. A file that exists is replaced. -/

/-- `hostname = platform.node().split('.', 1)[0]` -/
def short_hostname (node : List Char) : List Char := split_head '.' node

/-- The tuple that `bench` returns. -/
structure Report where
  hostname : List Char
  cpuinfo : List Char
  cmdline : List Char
  tuned : List Char
  csv : List Char
  deriving DecidableEq

/-- `f'{out_dir}/bench-{r[0]}.csv'` -/
def bench_csv (out_dir hostname : List Char) : List Char :=
  out_dir ++ "/bench-".toList ++ hostname ++ ".csv".toList

/-- `f'{out_dir}/hosts.csv'` -/
def hosts_csv (out_dir : List Char) : List Char :=
  out_dir ++ "/hosts.csv".toList

/-- `f'{r[0]},{r[1]},"{r[2]}",{r[3]}\n'` -/
def hosts_line (r : Report) : List Char :=
  r.hostname ++ ",".toList ++ r.cpuinfo ++ ",\"".toList ++ r.cmdline ++
    "\",".toList ++ r.tuned ++
    "\n".toList

/-- The files of `main`, from those that exist. -/
def playbook_main (out_dir : List Char) (rs : List Report) (files : Files) :
    Files :=
  let files := Function.update files (hosts_csv out_dir)
    (some ("hostname,cpuinfo,cmdline,tuned\n".toList ++ rs.flatMap hosts_line))
  rs.foldl (fun files r => Function.update files (bench_csv out_dir r.hostname)
    (some r.csv)) files

/-! ## `bench2tidy.py`

The second script gets the names of such files and writes one table of all rows.
The host of a row is taken out of the name of its file, from the last hyphen to
the extension; an exception of Python is no result. -/

/-- Lines of aggregates, which are left out. -/
def is_not_a_point (line : List Char) : Bool :=
  ["_mean\"", "_median\"", "_stddev\""].any fun k => decide (k.toList <:+: line)

/-- A line of the table, `f'{host},{line[:i]}\n'`. -/
structure Row where
  host : List Char
  fields : List Char
  deriving DecidableEq

/-- The line that is written for a row. -/
def Row.text (r : Row) : List Char :=
  r.host ++ ",".toList ++ r.fields ++ "\n".toList

/-- The loop of `dump_csv`, in `state`. -/
def dump_lines (host : List Char) : ℕ → List (List Char) → Option (List Row)
  | _, [] => some []
  | 0, line :: ls =>
      if "name,iterations,real_time,cpu_time,time_unit".toList <+: line
        then dump_lines host 1 ls
      else dump_lines host 0 ls
  | state, line :: ls =>
      if is_not_a_point line then dump_lines host state ls
      else do
        let i ← rindex ",ns,".toList line
        let rows ← dump_lines host state ls
        some (⟨host, line.take i⟩ :: rows)

/-- `dump_csv` of one file. -/
def dump_csv (files : Files) (filename host : List Char) :
    Option (List Row) := do
  let text ← files filename
  dump_lines host 0 (lines text)

/-- `fn[fn.rindex('-')+1:-4]` -/
def host_of (fn : List Char) : Option (List Char) :=
  (rindex ['-'] fn).map fun i => slice fn (i + 1) 4

/-- The rows of `main`. -/
def tidy_rows (files : Files) : List (List Char) → Option (List Row)
  | [] => some []
  | fn :: fns => do
      let host ← host_of fn
      let rows ← dump_csv files fn host
      let rest ← tidy_rows files fns
      some (rows ++ rest)

/-- The table that `main` writes. -/
def tidy_main (files : Files) (filenames : List (List Char)) :
    Option (List Char) :=
  (tidy_rows files filenames).map fun rows =>
    "host,name,iterations,real_ns,cpu_ns\n".toList ++ rows.flatMap Row.text

end Osjitter.Helper
