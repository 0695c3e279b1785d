/-
Osjitter.Util.TscKhz — the frequency of the TSC: `get_tsc_khz` of `util.c` and
its sources.

What a source yields is given: the file under `/sys` may be missing, fail, or
have a text, and a command may fail to start, give no line, or a line. The
pipelines behind the commands are not modelled. `buf` is what is in the arrays
before they are written.

The two functions for the journal and for dmesg differ in their command only,
so `get_tsc_khz_cmd` is both. A result of none is an access outside an array.
-/
import Mathlib
import Osjitter.Lib.CString

namespace Osjitter.Util

open CString

/-! ## Sources

What a file and a command can yield, with every call that may fail. Texts have
any length and any characters; a newline stands at the end only if it was there.
-/

/-- What reading the file under `/sys` yields. -/
inductive Proc where
  | noent
  | open_fails
  | read_fails
  | contents (s : List Char) (close_fails : Bool)
  deriving DecidableEq, Repr

/-- What a command yields: `getline` gives a line with its newline, the end of
the file, or an error. -/
inductive Cmd where
  | popen_fails
  | eof
  | error
  | line (s : List Char) (pclose_fails : Bool)
  deriving DecidableEq, Repr

/-! ## The functions

Each gets a buffer of its caller with any contents. Offsets are computed in the
source from the length of the line, and an access outside an array has no result
here, so it is a theorem that there is one. -/

/-- The return value, and `*tsc_khz`. `buf` is the array before it is
written. -/
def get_tsc_khz_proc (buf : List Char) (proc : Proc) (tsc_khz : UInt32) :
    Option (Int × UInt32) :=
  match proc with
  | .noent => some (1, tsc_khz)
  | .open_fails => some (-1, tsc_khz)
  | .read_fails => some (-1, tsc_khz)
  | .contents s close_fails => do
      -- `read` of up to 15 bytes
      let r := min s.length 15
      let (buf, _) ← mempcpy buf 0 s 0 r
      let buf ← store buf r NUL
      let buf ← if 0 < r ∧ buf[r - 1]? = some '\n' then store buf (r - 1) NUL
        else some buf
      let n ← cstring buf 0
      some (if close_fails then -1 else 0, UInt32.ofInt (atoi n))

/-- At the end of the file `l` is -1, so less than 11. -/
def get_tsc_khz_cmd (buf : List Char) (cmd : Cmd) (tsc_khz : UInt32) :
    Option (Int × UInt32) :=
  match cmd with
  | .popen_fails => some (1, tsc_khz)
  | .error => some (-1, tsc_khz)
  | .eof => some (0, tsc_khz)
  | .line s pclose_fails =>
      let l := s.length
      if 15 + 7 < l then some (-1, tsc_khz)
      else if l < 11 then some (0, tsc_khz)
      else do
        let (buf, t) ← mempcpy buf 0 s 1 (l - 1 - 8 - 1)
        let (buf, t) ← mempcpy buf t s (l - 7 - 1) 3
        let buf ← store buf t NUL
        let n ← cstring buf 0
        some (if pclose_fails then -1 else 0, UInt32.ofInt (atoi n))

/-- The sources of a run. -/
structure Sources where
  proc : Proc
  journal : Cmd
  dmesg : Cmd

/-- A source that is asked while the frequency is not known. -/
def ask (source : UInt32 → Option (Int × UInt32)) (tsc_khz : UInt32) :
    Option (Int × UInt32) :=
  if tsc_khz = 0 then source tsc_khz else some (0, tsc_khz)

/-- The sources in turn, as long as the frequency is 0 and no one has failed. -/
def get_tsc_khz (buf : List Char) (sources : Sources) :
    Option (Int × UInt32) := do
  let (r, tsc_khz) ← get_tsc_khz_proc buf sources.proc 0
  if r < 0 then some (r, tsc_khz)
  else do
    let (r, tsc_khz) ← ask (get_tsc_khz_cmd buf sources.journal) tsc_khz
    if r < 0 then some (r, tsc_khz)
    else do
      let (r, tsc_khz) ← ask (get_tsc_khz_cmd buf sources.dmesg) tsc_khz
      if r < 0 then some (r, tsc_khz)
      else if tsc_khz = 0 then some (-1, tsc_khz)
      else some (0, tsc_khz)

end Osjitter.Util
