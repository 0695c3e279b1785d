/-
Osjitter.Jitter.Selection — on which CPUs `osjitter` starts threads.

An argument of `--cpu` is any text. Two readings of it are set side by side:
what it denotes to the user who writes it, and what the parser makes of it.

  §1 `Denotes`: a text that is a number, with a sign or none, denotes that CPU;
     one that is a range of two such numbers, in any order, those between. Other
     texts denote none. `Selects`: the parser takes the first dash for that of a
     range, and reads both sides with `atoi`, cut to 32 bits; without a dash it
     adds the one number. The two agree on plain texts (`denotes_of_selects`):
     numbers that fit 32 bits, and no dash but that of the range. A minus sign,
     a larger number and a text that is neither can part them.
  §2 The set that `parse_args` leaves: `mem_parse_args`, for every accepted
     command line. It is empty if no argument selects a CPU below 1024.
  §3 The set that `set_params` leaves, which for an empty one is that of all
     online CPUs, and the threads of `create_workers` (`mem_started`,
     `mem_started_quiet`).
  §4 When every thread runs on a CPU that was named. `Respects` is the exact
     condition on the command line and the machine, `started_named_iff` the
     result. `reversed_range_widens` is a range that selects nothing, so that
     all CPUs are measured.

Whether a thread can be pinned to its CPU is up to the system.
-/
import Mathlib
import Osjitter.Jitter.ParseArgs

namespace Osjitter.Jitter

open CString

/-! ## §1 Arguments of `--cpu`

An argument is read twice here: as its text denotes it, in `Denotes`, and as the
parser adds it to the set, in `Selects`. They differ for numbers that are cut to
32 bits, for signs, whose dash is taken for the one of a range, for ranges that
run backwards, and for texts that are no number at all. `Plain` arguments are
those for which the parser adds nothing else than the text says. -/

/-- The number that a text denotes: digits behind a sign or none, with blanks
around them. -/
def number (t : List Char) : Option Int :=
  match (t.dropWhile isspace).rdropWhile isspace with
  | '-' :: ds => if IsNumeral ds then some (-(value ds : Int)) else none
  | '+' :: ds => if IsNumeral ds then some (value ds) else none
  | ds => if IsNumeral ds then some (value ds) else none

/-- The ways to read a text as `X-Y`. The dash may be any of its dashes, as
others may be signs. -/
def ranges (v : List Char) : List (Int × Int) :=
  (List.range v.length).filterMap fun p =>
    if v[p]? = some '-' then do
      some (← number (v.take p), ← number (v.drop (p + 1)))
    else none

/-- The CPUs that an argument `X` or `X-Y` denotes, the bounds of a range in any
order. Any other text denotes none. -/
def Denotes (v : List Char) (c : Nat) : Prop :=
  number v = some (c : Int) ∨
    ∃ r ∈ ranges v, min r.1 r.2 ≤ c ∧ (c : Int) ≤ max r.1 r.2

instance (v : List Char) (c : Nat) : Decidable (Denotes v c) :=
  inferInstanceAs (Decidable (_ ∨ _))

/-- `(unsigned) atoi(t)` -/
def unsigned (t : List Char) : Nat := (UInt32.ofInt (atoi t)).toNat

/-- The CPUs that the parser adds to the set. It takes the first dash for that
of a range. -/
def Selects (v : List Char) (c : Nat) : Prop :=
  match memchr '-' v with
  | some p => unsigned (v.take p) ≤ c ∧ c ≤ unsigned (v.drop (p + 1))
  | none => atoi v = c

instance (v : List Char) (c : Nat) : Decidable (Selects v c) :=
  match h : memchr '-' v with
  | some p =>
      decidable_of_iff (unsigned (v.take p) ≤ c ∧ c ≤ unsigned (v.drop (p + 1)))
        (by rw [Selects, h])
  | none => decidable_of_iff (atoi v = c) (by rw [Selects, h])

/-- The text denotes a number of 32 bits. -/
def Fits (t : List Char) : Prop := ∃ x ∈ number t, 0 ≤ x ∧ x < 2 ^ 32

/-- An argument `X` or `X-Y` of such numbers, whose first dash is that of the
range. -/
def Plain (v : List Char) : Prop :=
  match memchr '-' v with
  | some p => Fits (v.take p) ∧ Fits (v.drop (p + 1))
  | none => Fits v

/-- **What `strtol` makes of a number** that is not negative. -/
theorem strtol_of_number {t : List Char} {x : Int} (h : number t = some x)
    (h0 : 0 ≤ x) : strtol t = min x (2 ^ 63 - 1) := by
  have hsplit := rdropWhile_append_rtakeWhile isspace (t.dropWhile isspace)
  have hend : ∀ c ∈ ((t.dropWhile isspace).rtakeWhile isspace).head?,
      c.isDigit = false := fun c hc =>
    not_isDigit_of_isspace (List.mem_rtakeWhile_imp (List.mem_of_mem_head? hc))
  unfold number at h
  rw [← strtol_dropWhile, ← hsplit]
  split at h
  · next ds heq =>
    split at h
    · next hds =>
      have hx := Option.some.inj h
      rw [heq, List.cons_append, strtol_minus, digits_append hds.2 hend]
      omega
    · cases h
  · next ds heq =>
    split at h
    · next hds =>
      rw [heq, List.cons_append, strtol_plus, digits_append hds.2 hend,
        ← Option.some.inj h]
    · cases h
  · split at h
    · next hds => rw [strtol_numeral hds hend, ← Option.some.inj h]
    · cases h

/-- A number of 32 bits is read as it is. -/
theorem unsigned_of_number {t : List Char} {x : Int} (h : number t = some x)
    (h0 : 0 ≤ x) (hlt : x < 2 ^ 32) : (unsigned t : Int) = x := by
  have hread : strtol t = x :=
    (strtol_of_number h h0).trans (min_eq_left (by omega))
  have hmod : atoi t % 2 ^ 32 = x := by
    rw [atoi, hread]
    exact Int.bmod_emod.trans (Int.emod_eq_of_lt h0 (by omega))
  have htoNat : x.toNat < 2 ^ 32 := by omega
  rw [unsigned, UInt32.ofInt, hmod, UInt32.toNat_ofNat',
    Nat.mod_eq_of_lt htoNat, Int.toNat_of_nonneg h0]

/-- What `atoi` reads as a number of 32 bits is that number. -/
theorem unsigned_of_atoi {t : List Char} {c : Nat} (hc : c < 2 ^ 32)
    (h : atoi t = c) : unsigned t = c := by
  have hmod : (c : Int) % 2 ^ 32 = c := Int.emod_eq_of_lt (by omega) (by omega)
  rw [unsigned, UInt32.ofInt, h, hmod, Int.toNat_natCast, UInt32.toNat_ofNat',
    Nat.mod_eq_of_lt hc]

/-- The parser's dash is one of the ways to read a range. -/
theorem mem_ranges {v : List Char} {p : Nat} {x y : Int}
    (hp : memchr '-' v = some p) (hx : number (v.take p) = some x)
    (hy : number (v.drop (p + 1)) = some y) : (x, y) ∈ ranges v := by
  obtain ⟨hlt, hdash, -⟩ := List.findIdx?_eq_some_iff_getElem.mp hp
  have hget : v[p]? = some '-' :=
    (List.getElem?_eq_getElem hlt).trans (congrArg some (of_decide_eq_true hdash))
  refine List.mem_filterMap.mpr ⟨p, List.mem_range.mpr hlt, ?_⟩
  simp [hget, hx, hy]

/-- **Plain arguments select only what they denote.** -/
theorem denotes_of_selects {v : List Char} (h : Plain v) {c : Nat}
    (hc : c < 1024) (hsel : Selects v c) : Denotes v c := by
  unfold Plain at h
  unfold Selects at hsel
  cases hp : memchr '-' v with
  | none =>
    simp only [hp] at h hsel
    obtain ⟨x, hx, h0, hlt⟩ := h
    have hread := unsigned_of_number hx h0 hlt
    rw [unsigned_of_atoi (by omega) hsel] at hread
    rw [← hread] at hx
    exact .inl hx
  | some p =>
    simp only [hp] at h hsel
    obtain ⟨⟨x, hx, hx0, hxlt⟩, y, hy, hy0, hylt⟩ := h
    have hlow := unsigned_of_number hx hx0 hxlt
    have hhigh := unsigned_of_number hy hy0 hylt
    refine .inr ⟨(x, y), mem_ranges hp hx hy, ?_, ?_⟩
    · exact (min_le_left x y).trans (by omega)
    · exact le_trans (by omega) (le_max_right x y)

/-- `CPU_SET` adds its CPU and nothing else. -/
theorem mem_CPU_SET {set : cpu_set_t} {cpu : Int} {c : Fin 1024} :
    c ∈ CPU_SET cpu set ↔ cpu = c.val ∨ c ∈ set := by
  unfold CPU_SET
  split
  · next h =>
    rw [Finset.mem_insert, Fin.ext_iff]
    refine or_congr_left ?_
    dsimp only
    omega
  · next h =>
    have hne : ¬ cpu = c.val := by
      have := c.isLt
      omega
    simp [hne]

/-- The loop adds the CPUs between its bounds, none if they are in the wrong
order. -/
theorem mem_set_range {b e : Nat} {set : cpu_set_t} {c : Fin 1024} :
    c ∈ set_range b e set ↔ (b ≤ c.val ∧ c.val ≤ e) ∨ c ∈ set := by
  have hfold : ∀ (l : List Nat) (set : cpu_set_t),
      c ∈ l.foldl (fun (set : cpu_set_t) (k : Nat) => CPU_SET k set) set ↔
        c.val ∈ l ∨ c ∈ set := by
    intro l
    induction l with
    | nil => simp
    | cons k l ih =>
      intro set
      rw [List.foldl_cons, ih, mem_CPU_SET, List.mem_cons, Nat.cast_inj,
        eq_comm (a := k)]
      exact or_left_comm.trans or_assoc.symm
  rw [set_range, hfold, List.mem_range'_1]
  refine or_congr_left ?_
  omega

/-- **The argument of `--cpu`**, where it is accepted. -/
theorem mem_select_cpus {v : List Char} {set set' : cpu_set_t}
    (h : select_cpus v set = .ok set') (c : Fin 1024) :
    c ∈ set' ↔ Selects v c ∨ c ∈ set := by
  unfold select_cpus at h
  unfold Selects
  cases hp : memchr '-' v with
  | none =>
    simp only [hp, Except.ok.injEq] at h ⊢
    rw [← h, mem_CPU_SET]
  | some p =>
    simp only [hp] at h ⊢
    split at h
    · cases h
    · rw [← Except.ok.inj h, mem_set_range]
      rfl

/-! ## §2 The set of the arguments

The options are read in order, and every option takes an argument, so the
arguments of `--cpu` are found without knowing what the others do. The set is
the union of what they select. -/

/-- The arguments of the `--cpu` options; every option takes an argument. -/
def cpu_args : List String → List (List Char)
  | [] => []
  | opt :: rest =>
      match rest with
      | [] => []
      | v :: rest =>
        if opt = "--cpu" then v.toList :: cpu_args rest else cpu_args rest

/-- The options but `--cpu` leave the set alone. -/
theorem parse_option_cpu_set {opt : String} {set v} {args args' : GlobalArgs}
    (hopt : parse_option opt = some set) (hne : opt ≠ "--cpu")
    (h : set v args = .ok args') : args'.cpu_set = args.cpu_set := by
  simp only [parse_option, if_neg hne] at hopt
  split_ifs at hopt
  all_goals
    cases hopt
    cases h
    rfl

/-- **What the options select.** -/
theorem mem_parse_options : ∀ {argv : List String} {args args' : GlobalArgs},
    parse_options argv args = .ok args' →
      ∀ c : Fin 1024, c ∈ args'.cpu_set ↔
        (∃ v ∈ cpu_args argv, Selects v c) ∨ c ∈ args.cpu_set
  | [], args, args', h, c => by
      cases h
      simp [cpu_args]
  | [opt], args, args', h, c => by
      simp only [parse_options] at h
      split at h
      · cases h
      · split at h <;> cases h
  | opt :: v :: rest, args, args', h, c => by
      simp only [parse_options] at h
      split at h
      · next set hset =>
        split at h
        · next args₁ hargs =>
          by_cases hcpu : opt = "--cpu"
          · simp only [parse_option, if_pos hcpu, Option.some.injEq] at hset
            subst hset
            dsimp only at hargs
            obtain ⟨set₁, hsel, rfl⟩ : ∃ set₁,
                select_cpus v.toList args.cpu_set = .ok set₁ ∧
                  args₁ = { args with cpu_set := set₁ } := by
              cases hsel : select_cpus v.toList args.cpu_set with
              | error e =>
                rw [hsel] at hargs
                cases hargs
              | ok set₁ =>
                rw [hsel] at hargs
                exact ⟨set₁, rfl, (Except.ok.inj hargs).symm⟩
            rw [mem_parse_options h c]
            simp only [cpu_args, if_pos hcpu, mem_select_cpus hsel,
              List.exists_mem_cons_iff]
            exact or_left_comm.trans or_assoc.symm
          · rw [mem_parse_options h c, parse_option_cpu_set hset hcpu hargs]
            simp only [cpu_args, if_neg hcpu]
        · cases h
      · split at h <;> cases h

/-- The defaults leave the set alone. -/
theorem defaults_cpu_set (args : GlobalArgs) :
    args.defaults.cpu_set = args.cpu_set := by
  simp only [GlobalArgs.defaults, apply_ite GlobalArgs.cpu_set, ite_self]

/-- The set that `parse_args` leaves. -/
theorem mem_parse_args {argv : List String} {args : GlobalArgs}
    (h : parse_args argv = .ok args) (c : Fin 1024) :
    c ∈ args.cpu_set ↔ ∃ v ∈ cpu_args argv, Selects v c := by
  unfold parse_args at h
  cases hparse : parse_options argv .zero with
  | error e =>
    rw [hparse] at h
    cases h
  | ok args₀ =>
    rw [hparse] at h
    obtain rfl := Except.ok.inj h
    rw [defaults_cpu_set, mem_parse_options hparse c]
    simp [GlobalArgs.zero]

/-- Some option selects a CPU. -/
def SelectsSome (argv : List String) : Prop :=
  ∃ v ∈ cpu_args argv, ∃ c : Fin 1024, Selects v c

/-- The set is empty if no argument selects a CPU below 1024. -/
theorem cpu_set_eq_empty_iff {argv : List String} {args : GlobalArgs}
    (h : parse_args argv = .ok args) :
    args.cpu_set = ∅ ↔ ¬ SelectsSome argv := by
  rw [Finset.eq_empty_iff_forall_notMem]
  simp only [mem_parse_args h, SelectsSome, not_exists, not_and]
  exact ⟨fun h v hv c hc => h c v hv hc, fun h c v hv hc => h v hv c hc⟩

/-! ## §3 The threads

The set of the arguments becomes that of the threads in two steps: an empty set
is replaced by the CPUs online, and CPUs beyond the number configured are
dropped. Calls that fail can only leave threads out. -/

section threads

variable {host : Host} {calls : Calls} {set set' : cpu_set_t}

/-- The loop adds the CPUs that are online. -/
theorem mem_set_online {ks : List Nat}
    (h : set_online host calls ks set = some set') (c : Fin 1024) :
    c ∈ set' ↔ (c.val ∈ ks ∧ host.online c.val = true) ∨ c ∈ set := by
  induction ks generalizing set with
  | nil =>
    cases h
    simp
  | cons k ks ih =>
    simp only [set_online] at h
    split at h
    · cases h
    · rw [ih h, List.mem_cons, or_and_right, or_assoc, or_left_comm]
      by_cases hk : c.val = k
      · subst hk
        by_cases hon : host.online c.val = true <;> simp [hon, mem_CPU_SET]
      · have hk' : ¬ k = c.val := fun heq => hk heq.symm
        by_cases hon : host.online k = true <;> simp [hon, hk, hk', mem_CPU_SET]

/-- A set that is not empty is kept. -/
theorem default_cpu_set_of_ne (hne : set ≠ ∅) :
    default_cpu_set host calls set = some set := by
  rw [default_cpu_set, if_neg hne]

/-- An empty set becomes all online CPUs. -/
theorem mem_default_cpu_set (h : default_cpu_set host calls ∅ = some set')
    (c : Fin 1024) :
    c ∈ set' ↔ c.val ≤ host.cpus.toNat ∧ host.online c.val = true := by
  simp only [default_cpu_set, if_true] at h
  split at h
  · cases h
  · rw [mem_set_online h, List.mem_range, Nat.lt_succ_iff]
    simp

/-- Threads are created for CPUs of the set only. -/
theorem mem_create_workers {cpus : List Nat} {c : Nat}
    (h : c ∈ (create_workers set calls cpus).1) :
    c ∈ cpus ∧ CPU_ISSET c set = true := by
  induction cpus with
  | nil => cases h
  | cons cpu cpus ih =>
    simp only [create_workers] at h
    split at h
    · next hset =>
      split at h
      · rcases List.mem_cons.mp h with rfl | h
        · exact ⟨List.mem_cons_self, hset⟩
        · exact ⟨List.mem_cons_of_mem _ (ih h).1, (ih h).2⟩
      · cases h
      · obtain rfl : c = cpu := by simpa using h
        exact ⟨List.mem_cons_self, hset⟩
    · exact ⟨List.mem_cons_of_mem _ (ih h).1, (ih h).2⟩

/-- No call fails. -/
def Calls.quiet : Calls where
  is_cpu_online_fails := fun _ => false
  get_tsc_khz := some 1000000
  unspecified32 := 0
  unspecified64 := 0
  pid := 0
  tid_off := 0
  create := fun _ => .ok

/-- Then every selected CPU gets its thread. -/
theorem create_workers_quiet (set : cpu_set_t) (cpus : List Nat) :
    (create_workers set .quiet cpus).1 =
      cpus.filter fun cpu => CPU_ISSET cpu set := by
  induction cpus with
  | nil => rfl
  | cons cpu cpus ih =>
    simp only [create_workers, List.filter_cons, Calls.quiet]
    split
    · exact congrArg (cpu :: ·) ih
    · exact ih

/-- Without failures the loop comes to its end. -/
theorem set_online_quiet (host : Host) (ks : List Nat) (set : cpu_set_t) :
    ∃ set', set_online host .quiet ks set = some set' := by
  induction ks generalizing set with
  | nil => exact ⟨set, rfl⟩
  | cons k ks ih => exact ih _

/-- `CPU_ISSET` is membership. -/
theorem CPU_ISSET_iff {c : Nat} :
    CPU_ISSET c set = true ↔ ∃ h : c < 1024, ⟨c, h⟩ ∈ set := by
  unfold CPU_ISSET
  split
  · next h => simp [h]
  · next h => simp [h]

/-- What `set_params` leaves. -/
theorem set_params_eq {args args' : GlobalArgs}
    (h : set_params host calls args = some args') :
    args'.cpus = host.cpus ∧ default_cpu_set host calls args.cpu_set =
        some args'.cpu_set ∧
      args'.samples = args.samples ∧ args'.runtime_s = args.runtime_s := by
  simp only [set_params, Option.bind_eq_bind] at h
  obtain ⟨set, hset, h⟩ := Option.bind_eq_some_iff.mp h
  obtain ⟨khz, -, h⟩ := Option.bind_eq_some_iff.mp h
  cases h
  exact ⟨rfl, hset, rfl, rfl⟩

/-- **The CPUs with a thread**: those below the configured count that
`set_params` leaves in the set. -/
theorem mem_started {argv : List String} {args : GlobalArgs} {c : Nat}
    (hparse : parse_args argv = .ok args) (h : c ∈ started argv host calls) :
    c < host.cpus.toNat ∧
      ∃ set hc, default_cpu_set host calls args.cpu_set = some set ∧
      (⟨c, hc⟩ : Fin 1024) ∈ set := by
  simp only [started, hparse] at h
  split at h
  · cases h
  · next args' hparams =>
    obtain ⟨hcpus, hset, -, -⟩ := set_params_eq hparams
    obtain ⟨hrange, hisset⟩ := mem_create_workers h
    obtain ⟨hc, hmem⟩ := CPU_ISSET_iff.mp hisset
    rw [hcpus] at hrange
    exact ⟨List.mem_range.mp hrange, _, hc, hset, hmem⟩

/-- Where no call fails, these are all of them. -/
theorem mem_started_quiet {argv : List String} {args : GlobalArgs} {c : Nat}
    {hc : c < 1024} (hparse : parse_args argv = .ok args)
    (hlt : c < host.cpus.toNat)
    (hset : default_cpu_set host .quiet args.cpu_set = some set)
    (hmem : ⟨c, hc⟩ ∈ set) : c ∈ started argv host .quiet := by
  obtain ⟨khz, hkhz⟩ : ∃ khz, tsc_rate Calls.quiet args.tsc_khz = some khz := by
    unfold tsc_rate
    split <;> exact ⟨_, rfl⟩
  simp only [started, hparse, set_params, hset, hkhz, Option.bind_eq_bind,
    Option.bind_some]
  rw [create_workers_quiet, List.mem_filter]
  exact ⟨List.mem_range.mpr hlt, CPU_ISSET_iff.mpr ⟨hc, hmem⟩⟩

end threads

/-! ## §4 Threads on other CPUs

A thread on a CPU that no option names comes about in two ways: an argument adds
more than its text denotes, or nothing is added, so that every CPU online gets a
thread. `Respects` excludes both, and is exact. -/

/-- The CPU is named by one of the `--cpu` options. -/
def Named (argv : List String) (c : Nat) : Prop :=
  ∃ v ∈ cpu_args argv, Denotes v c

instance (argv : List String) (c : Nat) : Decidable (Named argv c) :=
  inferInstanceAs (Decidable (∃ v ∈ _, _))

/-- Some option selects a CPU, and those that are not plain select only named
ones; or none does, and every online CPU is named. -/
def Respects (host : Host) (argv : List String) : Prop :=
  (SelectsSome argv ∧ ∀ v ∈ cpu_args argv, ¬ Plain v →
      ∀ c < host.cpus.toNat, c < 1024 → Selects v c → Named argv c) ∨
    (¬ SelectsSome argv ∧ (host.cpus.toNat = 2 ^ 32 - 1 ∨
      ∀ c < host.cpus.toNat, c < 1024 → host.online c = true → Named argv c))

/-- **Whether threads run only on named CPUs**, whatever calls fail, for every
accepted command line and whatever stands behind `--cpu`. -/
theorem started_named_iff (argv : List String) (args : GlobalArgs) (host : Host)
    (hparse : parse_args argv = .ok args) :
    (∀ calls, ∀ c ∈ started argv host calls, Named argv c) ↔
      Respects host argv := by
  have hmem := mem_parse_args hparse
  have hempty := cpu_set_eq_empty_iff hparse
  constructor
  · intro h
    by_cases hsel : SelectsSome argv
    · have hne : args.cpu_set ≠ ∅ := fun heq => hempty.mp heq hsel
      refine .inl ⟨hsel, fun v hv _ c hlt hc hs => ?_⟩
      exact h .quiet c (mem_started_quiet hparse hlt (default_cpu_set_of_ne hne)
        ((hmem ⟨c, hc⟩).mpr ⟨v, hv, hs⟩))
    · refine .inr ⟨hsel, ?_⟩
      -- with `UINT_MAX` CPUs the loop over them does not end, and nothing is
      -- started
      by_cases hcpus : host.cpus.toNat = 2 ^ 32 - 1
      · exact .inl hcpus
      · refine .inr fun c hlt hc hon => ?_
        obtain ⟨set, hset⟩ :=
          set_online_quiet host (List.range (host.cpus.toNat + 1)) ∅
        have hdefault : default_cpu_set host .quiet ∅ = some set := by
          rw [default_cpu_set, if_pos rfl, if_neg hcpus, hset]
        have hin :=
          (mem_default_cpu_set hdefault ⟨c, hc⟩).mpr ⟨Nat.le_of_lt hlt, hon⟩
        rw [← hempty.mpr hsel] at hdefault
        exact h .quiet c (mem_started_quiet hparse hlt hdefault hin)
  · intro h calls c hc
    obtain ⟨hlt, set, hc', hset, hin⟩ := mem_started hparse hc
    rcases h with ⟨hsel, hplain⟩ | ⟨hsel, hall⟩
    · have hne : args.cpu_set ≠ ∅ := fun heq => hempty.mp heq hsel
      rw [default_cpu_set_of_ne hne] at hset
      obtain rfl := Option.some.inj hset
      -- the CPU comes from some argument; only a plain one names what it
      -- selects
      obtain ⟨v, hv, hs⟩ := (hmem ⟨c, hc'⟩).mp hin
      by_cases hv' : Plain v
      · exact ⟨v, hv, denotes_of_selects hv' hc' hs⟩
      · exact hplain v hv hv' c hlt hc' hs
    · rw [hempty.mpr hsel] at hset
      have hon := (mem_default_cpu_set hset ⟨c, hc'⟩).mp hin
      rcases hall with hcpus | hall
      · simp [default_cpu_set, hcpus] at hset
      · exact hall c hlt hc' hon.2

/-- The arguments `--cpu 1-2` on four CPUs. -/
theorem started_named_one_two : ∃ args, parse_args ["--cpu", "1-2"] = .ok args ∧
    ∀ calls, ∀ c ∈ started ["--cpu", "1-2"] ⟨4, fun _ => true⟩ calls,
      Named ["--cpu", "1-2"] c := by
  have hplain : Plain "1-2".toList :=
    ⟨⟨1, by decide +kernel, by decide⟩, 2, by decide +kernel, by decide⟩
  refine ⟨_, rfl, (started_named_iff ["--cpu", "1-2"] _ ⟨4, fun _ => true⟩ rfl).mpr ?_⟩
  refine .inl ⟨⟨"1-2".toList, List.mem_cons_self, 1, by decide +kernel⟩, ?_⟩
  intro v hv hnot
  obtain rfl := List.mem_singleton.mp hv
  exact absurd hplain hnot

/-- The reversed range `--cpu 5-3` selects nothing, so every CPU gets a
thread. -/
theorem reversed_range_widens :
    ∃ args, parse_args ["--cpu", "5-3"] = .ok args ∧
      cpu_args ["--cpu", "5-3"] = ["5-3".toList] ∧
      ∃ c ∈ started ["--cpu", "5-3"] ⟨4, fun _ => true⟩ .quiet,
        ¬ Named ["--cpu", "5-3"] c := by
  refine ⟨_, rfl, rfl, 0, ?_, by decide +kernel⟩
  have hset : default_cpu_set ⟨4, fun _ => true⟩ .quiet ∅ =
      some {0, 1, 2, 3, 4} := by decide
  have hmem : (⟨0, by decide⟩ : Fin 1024) ∈ ({0, 1, 2, 3, 4} : cpu_set_t) := by
    decide
  exact mem_started_quiet rfl (by decide) hset hmem

/-- The dash of `--cpu -3` is a sign, and is taken for that of a range. -/
example : 2 ∈ started ["--cpu", "5", "--cpu", "-3"] ⟨8, fun _ => true⟩ .quiet ∧
    ¬ Named ["--cpu", "5", "--cpu", "-3"] 2 := by decide +kernel

end Osjitter.Jitter
