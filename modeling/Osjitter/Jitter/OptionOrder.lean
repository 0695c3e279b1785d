/-
Osjitter.Jitter.OptionOrder — when the order of the options of `osjitter`
does not matter.

  §1 An accepted command line is a list of pairs of an option and its value,
     and each pair has an effect on the fields of `Args` that does not depend
     on the others being there: `parse_options_pair` for one pair,
     `parse_options_words` for all of them. `words_option_pairs` says that every
     accepted command line is of this kind.
  §2 Effects on one field commute if only one of them sets it. The CPUs are
     joined, so `--cpu` commutes with itself. The priority has a default, which
     `--sched` sets where it stands and not behind the loop, so it goes over a
     priority of 0 that was given before and is itself gone over by one that is
     given later. `Clash` is such a pair, and `effect_comm` says that all
     others commute.
  §3 All orders of the pairs. `AtMostOnce` asks that each option but `--cpu`
     occurs once, as the last of several would win. `parse_args_perm`: without a
     clash every order gives the same arguments; `clash_orders`: with one, two
     orders give different ones. `option_order_iff` says both of every accepted
     command line, and `prio_lost` is the smallest clash.

Command lines that are refused are left out: which message comes first depends
on the order.
-/
import Mathlib
import Osjitter.Jitter.Selection

namespace Osjitter.Jitter

open CString

/-! ## §1 Pairs and their effects

Every option but the help has an argument, so an accepted command line is a list
of pairs. Each pair has an effect on the settings that is total: it does what
the parser does where the pair is accepted. `parse_options_words` makes parsing
a fold of effects. -/

/-- The options with their values. -/
def option_pairs : List String → List (String × String)
  | opt :: v :: rest => (opt, v) :: option_pairs rest
  | _ => []

/-- The words of a command line. -/
def words (ps : List (String × String)) : List String :=
  ps.flatMap fun p => [p.1, p.2]

/-- The words of one more pair. -/
theorem words_cons (p : String × String) (ps : List (String × String)) :
    words (p :: ps) = p.1 :: p.2 :: words ps := rfl

/-- The options that set a field. -/
def setters : List String := ["-t", "-d", "--sched", "--prio", "--khz"]

/-- The CPUs that a value of `--cpu` adds. -/
def added_cpus (v : List Char) : cpu_set_t :=
  match select_cpus v ∅ with
  | .ok set => set
  | .error _ => ∅

/-- The effect on the priority, the one field that two options write. -/
def prio_effect (p : String × String) (prio : Int) : Int :=
  if p.1 = "--prio" then atoi p.2.toList
  else if p.1 = "--sched" then (if prio = 0 then 1 else prio)
  else prio

/-- What a pair does, field by field. -/
def effect (args : GlobalArgs) (p : String × String) : GlobalArgs :=
  { args with
    cpu_set := if p.1 = "--cpu" then added_cpus p.2.toList ∪ args.cpu_set
      else args.cpu_set
    runtime_s :=
      if p.1 = "-t" then UInt32.ofInt (atoi p.2.toList) else args.runtime_s
    thresh_ns :=
      if p.1 = "-d" then UInt32.ofInt (atoi p.2.toList) else args.thresh_ns
    sched_policy :=
      if p.1 = "--sched" then atoi p.2.toList else args.sched_policy
    sched_prio := prio_effect p args.sched_prio
    tsc_khz :=
      if p.1 = "--khz" then UInt32.ofInt (atoi p.2.toList) else args.tsc_khz }

/-- A pair that is accepted, whatever the arguments are so far. -/
def Accepted (p : String × String) : Prop :=
  p.1 ∈ setters ∨ p.1 = "--cpu" ∧
    select_cpus p.2.toList ∅ = .ok (added_cpus p.2.toList)

/-- A CPU is added to whatever is in the set. -/
theorem CPU_SET_eq_union (cpu : Int) (set : cpu_set_t) :
    CPU_SET cpu set = CPU_SET cpu ∅ ∪ set := by
  ext c
  simp [mem_CPU_SET]

/-- So is a range. -/
theorem set_range_eq_union (b e : Nat) (set : cpu_set_t) :
    set_range b e set = set_range b e ∅ ∪ set := by
  ext c
  simp [mem_set_range]

/-- `--cpu` adds the same CPUs to every set. -/
theorem select_cpus_eq (v : List Char) (set : cpu_set_t) :
    select_cpus v set = (select_cpus v ∅).map (· ∪ set) := by
  unfold select_cpus
  split
  · dsimp only
    split
    · rfl
    · rw [set_range_eq_union]
      rfl
  · rw [CPU_SET_eq_union]
    rfl

/-- An option that sets a field takes any value. -/
theorem parse_option_of_mem {opt : String} (h : opt ∈ setters) : ∃ set,
    parse_option opt = some set ∧
      ∀ v args, set v.toList args = .ok (effect args (opt, v)) := by
  simp only [setters, List.mem_cons, List.not_mem_nil, or_false] at h
  obtain rfl | rfl | rfl | rfl | rfl := h
  all_goals exact ⟨_, rfl, fun v args => rfl⟩

/-- The parser knows no other options. -/
theorem parse_option_of_notMem {opt : String} (h : opt ∉ setters)
    (hcpu : opt ≠ "--cpu") : parse_option opt = none := by
  simp only [setters, List.mem_cons, List.not_mem_nil, or_false, not_or] at h
  obtain ⟨ht, hd, hsched, hprio, hkhz⟩ := h
  simp only [parse_option, if_neg hcpu, if_neg ht, if_neg hd, if_neg hsched,
    if_neg hprio, if_neg hkhz]

/-- The effect of `--cpu` is a union, so it does not depend on the order. -/
theorem effect_cpu (args : GlobalArgs) (v : String) : effect args ("--cpu", v) =
    { args with cpu_set := added_cpus v.toList ∪ args.cpu_set } := rfl

/-- **One turn of the loop.** -/
theorem parse_options_pair (p : String × String) (rest : List String)
    (args a : GlobalArgs) :
    parse_options (p.1 :: p.2 :: rest) args = .ok a ↔
      Accepted p ∧ parse_options rest (effect args p) = .ok a := by
  obtain ⟨opt, v⟩ := p
  by_cases hmem : opt ∈ setters
  · obtain ⟨set, hopt, hset⟩ := parse_option_of_mem hmem
    simp only [parse_options, hopt, hset, Accepted, hmem, true_or, true_and]
  · by_cases hcpu : opt = "--cpu"
    · subst hcpu
      have hopt : parse_option "--cpu" = some fun v args =>
          (select_cpus v args.cpu_set).map
            fun set => { args with cpu_set := set } := rfl
      simp only [parse_options, hopt, Accepted, hmem, false_or, true_and,
        effect_cpu, added_cpus]
      rw [select_cpus_eq]
      cases select_cpus v.toList ∅ with
      | ok set => simp [Except.map]
      | error stop => simp [Except.map]
    · have hopt := parse_option_of_notMem hmem hcpu
      have hnot : ¬ Accepted (opt, v) := by
        rintro (h | h)
        · exact hmem h
        · exact hcpu h.1
      simp only [parse_options, hopt, hnot, false_and, iff_false]
      split <;> intro h <;> cases h

/-- **The loop** over accepted pairs. -/
theorem parse_options_words (ps : List (String × String))
    (args a : GlobalArgs) :
    parse_options (words ps) args = .ok a ↔ (∀ p ∈ ps, Accepted p) ∧
      ps.foldl effect args = a := by
  induction ps generalizing args with
  | nil => simp [words, parse_options]
  | cons p ps ih =>
    rw [words_cons, parse_options_pair, ih, List.forall_mem_cons,
      List.foldl_cons, and_assoc]

/-- **A command line that is accepted** is one of pairs. -/
theorem words_option_pairs : ∀ {argv : List String} {args a : GlobalArgs},
    parse_options argv args = .ok a → words (option_pairs argv) = argv
  | [], _, _, _ => rfl
  | [opt], args, a, h => by
      simp only [parse_options] at h
      split at h
      · cases h
      · split at h <;> cases h
  | opt :: v :: rest, args, a, h => by
      have hrest := ((parse_options_pair (opt, v) rest args a).mp h).2
      rw [option_pairs, words_cons, words_option_pairs hrest]

/-! ## §2 Two pairs

Two pairs commute if they write different fields, or add to the same set. The
exception is a policy beside a priority of zero (`Clash`): the policy sets the
priority to 1 if it is zero at that time. -/

/-- The default of the priority stands between the two orders. -/
def Clash (x y : String × String) : Prop :=
  x.1 = "--sched" ∧ y.1 = "--prio" ∧ atoi y.2.toList = 0

/-- The other options leave the priority alone. -/
theorem prio_effect_other {p : String × String} (hprio : p.1 ≠ "--prio")
    (hsched : p.1 ≠ "--sched") (prio : Int) : prio_effect p prio = prio := by
  rw [prio_effect, if_neg hprio, if_neg hsched]

/-- The default does not replace a priority that is given. -/
theorem prio_effect_sched {x y : String × String} (hclash : ¬ Clash x y)
    (hx : x.1 = "--sched") (hy : y.1 = "--prio") (prio : Int) :
    prio_effect x (prio_effect y prio) =
      prio_effect y (prio_effect x prio) := by
  have hne : atoi y.2.toList ≠ 0 := by
    intro hzero
    exact hclash ⟨hx, hy, hzero⟩
  simp [prio_effect, hx, hy, hne]

/-- The effects on the priority commute where the pairs do not clash. -/
theorem prio_effect_comm {x y : String × String} (hxy : ¬ Clash x y)
    (hyx : ¬ Clash y x) (honce : x.1 = y.1 → x.1 ∈ setters → x = y)
    (prio : Int) :
    prio_effect y (prio_effect x prio) =
      prio_effect x (prio_effect y prio) := by
  by_cases hx : x.1 = "--prio"
  · by_cases hy : y.1 = "--prio"
    · rw [honce (hx.trans hy.symm) (hx ▸ by decide)]
    · by_cases hy' : y.1 = "--sched"
      · exact prio_effect_sched hyx hy' hx prio
      · rw [prio_effect_other hy hy', prio_effect_other hy hy']
  · by_cases hx' : x.1 = "--sched"
    · by_cases hy : y.1 = "--prio"
      · exact (prio_effect_sched hxy hx' hy prio).symm
      · by_cases hy' : y.1 = "--sched"
        · rw [honce (hx'.trans hy'.symm) (hx' ▸ by decide)]
        · rw [prio_effect_other hy hy', prio_effect_other hy hy']
    · rw [prio_effect_other hx hx', prio_effect_other hx hx']

/-- **Two effects commute**, field by field. -/
theorem effect_comm {x y : String × String} (hxy : ¬ Clash x y)
    (hyx : ¬ Clash y x) (honce : x.1 = y.1 → x.1 ∈ setters → x = y)
    (args : GlobalArgs) :
    effect (effect args x) y = effect (effect args y) x := by
  -- an option that sets a field: the two arguments are equal if both are its
  have hset : ∀ {α : Type} (opt : String) (f : String × String → α) (a : α),
    opt ∈ setters →
      (if y.1 = opt then f y else if x.1 = opt then f x else a) =
        if x.1 = opt then f x else if y.1 = opt then f y else a := by
    intro α opt f a hopt
    by_cases hx : x.1 = opt
    · by_cases hy : y.1 = opt
      · rw [honce (hx.trans hy.symm) (hx ▸ hopt)]
      · simp only [if_neg hy, if_pos hx]
    · simp only [if_neg hx]
  -- `--cpu` collects its arguments in a set, so both may be given
  have hcpu : ∀ set : cpu_set_t,
      (if y.1 = "--cpu" then
          added_cpus y.2.toList ∪ if x.1 = "--cpu"
            then added_cpus x.2.toList ∪ set else set
        else if x.1 = "--cpu" then added_cpus x.2.toList ∪ set else set) =
      if x.1 = "--cpu" then
          added_cpus x.2.toList ∪ if y.1 = "--cpu"
            then added_cpus y.2.toList ∪ set else set
        else if y.1 = "--cpu" then added_cpus y.2.toList ∪ set else set := by
    intro set
    by_cases hx : x.1 = "--cpu"
    · by_cases hy : y.1 = "--cpu"
      · simp only [if_pos hx, if_pos hy, Finset.union_left_comm]
      · simp only [if_pos hx, if_neg hy]
    · simp only [if_neg hx]
  simp only [effect, GlobalArgs.mk.injEq, true_and, and_true]
  exact ⟨hcpu _, hset "--sched" (fun p => atoi p.2.toList) _ (by decide),
    prio_effect_comm hxy hyx honce _,
    hset "-t" (fun p => UInt32.ofInt (atoi p.2.toList)) _ (by decide),
    hset "-d" (fun p => UInt32.ofInt (atoi p.2.toList)) _ (by decide),
    hset "--khz" (fun p => UInt32.ofInt (atoi p.2.toList)) _ (by decide)⟩

/-! ## §3 All orders

A permutation is reached by exchanging neighbours, so commuting effects give the
same settings in every order. Where two pairs clash, two orders give different
priorities. -/

/-- Each option but `--cpu` occurs at most once. -/
def AtMostOnce (ps : List (String × String)) : Prop :=
  ∀ opt ∈ setters, ps.countP (fun p => p.1 = opt) ≤ 1

instance decidableAtMostOnce (ps : List (String × String)) :
    Decidable (AtMostOnce ps) :=
  inferInstanceAs (Decidable (∀ opt ∈ setters, _))

/-- The condition does not depend on the order. -/
theorem AtMostOnce.perm {ps qs : List (String × String)} (h : AtMostOnce ps)
    (hperm : qs.Perm ps) : AtMostOnce qs := by
  intro opt hopt
  rw [hperm.countP_eq]
  exact h opt hopt

/-- An option with a single value is given by one pair. -/
theorem AtMostOnce.eq {ps : List (String × String)} (h : AtMostOnce ps)
    {x y : String × String} (hx : x ∈ ps) (hy : y ∈ ps) (hxy : x.1 = y.1)
    (hset : x.1 ∈ setters) : x = y := by
  have hlen := h x.1 hset
  rw [List.countP_eq_length_filter] at hlen
  have hxf : x ∈ ps.filter fun p => p.1 = x.1 :=
    List.mem_filter.mpr ⟨hx, by simp⟩
  have hyf : y ∈ ps.filter fun p => p.1 = x.1 :=
    List.mem_filter.mpr ⟨hy, by simp [hxy]⟩
  obtain ⟨z, hz⟩ :=
    List.length_eq_one_iff.mp (le_antisymm hlen (List.length_pos_of_mem hxf))
  rw [hz, List.mem_singleton] at hxf hyf
  rw [hxf, hyf]

/-- What stands beside a pair has another option. -/
theorem AtMostOnce.tail_ne {x : String × String} {ps : List (String × String)}
    (h : AtMostOnce (x :: ps)) (hset : x.1 ∈ setters) :
    ∀ p ∈ ps, p.1 ≠ x.1 := by
  intro p hp heq
  have hcount := h x.1 hset
  have hpos : 0 < ps.countP (fun p => p.1 = x.1) :=
    List.countP_pos_iff.mpr ⟨p, hp, by simpa using heq⟩
  rw [List.countP_cons_of_pos (by simp)] at hcount
  omega

/-- Parsing is the fold, with the defaults behind it. -/
theorem parse_args_words (ps : List (String × String)) (args : GlobalArgs) :
    parse_args (words ps) = .ok args ↔
      (∀ p ∈ ps, Accepted p) ∧ (ps.foldl effect .zero).defaults = args := by
  have hwords := parse_options_words ps .zero
  unfold parse_args
  cases hparse : parse_options (words ps) .zero with
  | ok a =>
    obtain ⟨haccept, hfold⟩ := (hwords a).mp hparse
    simp only [Except.map, Except.ok.injEq, hfold]
    exact ⟨fun h => ⟨haccept, h⟩, fun h => h.2⟩
  | error stop =>
    have hnot : ¬ ∀ p ∈ ps, Accepted p := by
      intro haccept
      have hok := (hwords _).mpr ⟨haccept, rfl⟩
      rw [hparse] at hok
      cases hok
    simp only [Except.map, hnot, false_and, iff_false]
    intro h
    cases h

/-- `--sched` occurs, and `--prio` with a value that is read as 0. -/
def Clashes (ps : List (String × String)) : Prop :=
  ∃ x ∈ ps, ∃ y ∈ ps, Clash x y

/-- **The same arguments in every order**, without a clash. -/
theorem parse_args_perm {ps qs : List (String × String)} {args : GlobalArgs}
    (h : parse_args (words ps) = .ok args) (honce : AtMostOnce ps)
    (hclash : ¬ Clashes ps) (hperm : qs.Perm ps) :
    parse_args (words qs) = .ok args := by
  have hno : ∀ x ∈ ps, ∀ y ∈ ps, ¬ Clash x y := by
    intro x hx y hy hxy
    exact hclash ⟨x, hx, y, hy, hxy⟩
  have hswap : ∀ x ∈ ps,
      ∀ y ∈ ps, ∀ args, effect (effect args x) y = effect (effect args y) x := by
    intro x hx y hy args
    exact effect_comm (hno x hx y hy) (hno y hy x hx) (honce.eq hx hy) args
  have hfold := hperm.symm.foldl_eq' hswap .zero
  obtain ⟨haccept, hargs⟩ := (parse_args_words ps args).mp h
  exact (parse_args_words qs args).mpr
    ⟨fun p hp => haccept p (hperm.mem_iff.mp hp), by rw [← hfold, hargs]⟩

/-- Any number of other options. -/
theorem foldl_sched_prio {ps : List (String × String)}
    (h : ∀ p ∈ ps, p.1 ≠ "--sched" ∧ p.1 ≠ "--prio") (args : GlobalArgs) :
    (ps.foldl effect args).sched_prio = args.sched_prio := by
  induction ps generalizing args with
  | nil => rfl
  | cons p ps ih =>
    obtain ⟨hp, hps⟩ := List.forall_mem_cons.mp h
    rw [List.foldl_cons, ih hps]
    exact prio_effect_other hp.2 hp.1 _

/-- The defaults leave the priority alone. -/
theorem defaults_sched_prio (args : GlobalArgs) :
    args.defaults.sched_prio = args.sched_prio := by
  simp only [GlobalArgs.defaults]
  split_ifs <;> rfl

/-- **Two orders with different priorities**, where the options clash. -/
theorem clash_orders {ps : List (String × String)} (honce : AtMostOnce ps)
    (hclash : Clashes ps) :
    ∃ qs qs' : List (String × String), qs.Perm ps ∧ qs'.Perm ps ∧
      (qs.foldl effect .zero).sched_prio = 0 ∧
        (qs'.foldl effect .zero).sched_prio = 1 := by
  obtain ⟨x, hx, y, hy, hsched, hprio, hzero⟩ := hclash
  have hne : y ≠ x := by
    rintro rfl
    rw [hsched] at hprio
    exact absurd hprio (by decide)
  generalize hrest : (ps.erase x).erase y = rest
  have hperm : (x :: y :: rest).Perm ps := by
    rw [← hrest]
    exact ((List.perm_cons_erase ((List.mem_erase_of_ne hne).mpr hy)).symm.cons x).trans
      (List.perm_cons_erase hx).symm
  have hswap : (y :: x :: rest).Perm ps := (List.Perm.swap x y rest).trans hperm
  have hother : ∀ p ∈ rest, p.1 ≠ "--sched" ∧ p.1 ≠ "--prio" := by
    intro p hp
    have hx' :=
      (honce.perm hperm).tail_ne (by rw [hsched]; decide) p (List.mem_cons_of_mem _ hp)
    have hy' :=
      (honce.perm hswap).tail_ne (by rw [hprio]; decide) p (List.mem_cons_of_mem _ hp)
    exact ⟨hsched ▸ hx', hprio ▸ hy'⟩
  refine ⟨x :: y :: rest, y :: x :: rest, hperm, hswap, ?_, ?_⟩
  · rw [List.foldl_cons, List.foldl_cons, foldl_sched_prio hother]
    simp [effect, prio_effect, hprio, hzero]
  · rw [List.foldl_cons, List.foldl_cons, foldl_sched_prio hother]
    simp [effect, prio_effect, hprio, hzero, hsched]

/-- **When the order does not matter**: `--sched` does not occur together with
a `--prio` whose value is read as 0. -/
theorem option_order_iff (argv : List String) (args : GlobalArgs)
    (haccept : parse_args argv = .ok args)
    (honce : AtMostOnce (option_pairs argv)) :
    words (option_pairs argv) = argv ∧
      ((∀ qs : List (String × String), qs.Perm (option_pairs argv) →
          parse_args (words qs) = .ok args) ↔
            ¬ Clashes (option_pairs argv)) := by
  have hargv : words (option_pairs argv) = argv := by
    unfold parse_args at haccept
    cases hparse : parse_options argv .zero with
    | ok a => exact words_option_pairs hparse
    | error stop =>
      rw [hparse] at haccept
      cases haccept
  refine ⟨hargv, ?_, ?_⟩
  · intro hall hclash
    obtain ⟨qs, qs', hperm, hperm', hzero, hone⟩ := clash_orders honce hclash
    have hqs := ((parse_args_words qs args).mp (hall qs hperm)).2
    have hqs' := ((parse_args_words qs' args).mp (hall qs' hperm')).2
    have hprio := congrArg GlobalArgs.sched_prio (hqs.trans hqs'.symm)
    rw [defaults_sched_prio, defaults_sched_prio, hzero, hone] at hprio
    exact absurd hprio (by decide)
  · intro hclash qs hperm
    exact parse_args_perm (by rw [hargv, haccept]) honce hclash hperm

/-- A command line with every option, and a priority of its own. -/
theorem option_order_iff_six :
    let argv := ["--cpu", "2-3", "--prio", "7", "-t", "0", "--sched", "1",
      "-d", "200", "--cpu", "5", "--khz", "3000000"]
    ∃ args, words (option_pairs argv) = argv ∧
      ((∀ qs : List (String × String), qs.Perm (option_pairs argv) →
          parse_args (words qs) = .ok args) ↔ ¬ Clashes (option_pairs argv)) :=
  ⟨_, option_order_iff _ _ rfl (by decide)⟩

/-- `--prio 0` counts behind `--sched`, and not in front of it. -/
theorem prio_lost :
    (parse_args ["--sched", "1", "--prio", "0"]).map GlobalArgs.sched_prio = .ok 0 ∧
      (parse_args ["--prio", "0", "--sched", "1"]).map GlobalArgs.sched_prio = .ok 1 ∧
      ¬ ∀ (argv : List String) (args : GlobalArgs), parse_args argv = .ok args →
        AtMostOnce (option_pairs argv) → ∀ qs : List (String × String),
          qs.Perm (option_pairs argv) → parse_args (words qs) = .ok args := by
  have hzero :
      (parse_args ["--sched", "1", "--prio", "0"]).map GlobalArgs.sched_prio =
        .ok 0 := rfl
  have hone :
      (parse_args ["--prio", "0", "--sched", "1"]).map GlobalArgs.sched_prio =
        .ok 1 := rfl
  refine ⟨hzero, hone, ?_⟩
  intro hall
  have hperm := hall ["--sched", "1", "--prio", "0"] _ rfl (by decide)
    [("--prio", "0"), ("--sched", "1")] (List.Perm.swap _ _ _)
  have hwords : words [("--prio", "0"), ("--sched", "1")] =
      ["--prio", "0", "--sched", "1"] := rfl
  rw [hwords] at hperm
  rw [hperm] at hone
  cases hone

end Osjitter.Jitter
