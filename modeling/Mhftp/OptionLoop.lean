import Mhftp.AdmittedChunkSize

/-! # The options of mhclient

`main` walks over the arguments from the second one on as long as they start with a minus.
One turn of its loop looks for `-v` and then for `-c`, at an argument that the first of the
two may have moved past already, and an argument that is neither moves nothing.
-/

namespace Mhftp

/-- The bytes of an argument, without the NUL that ends it. -/
abbrev Arg := List UInt8

/-- What `argv[index_param][0] == '-'` says of an argument. -/
def IsOption (arg : Arg) : Prop := arg.head? = some 45

instance (arg : Arg) : Decidable (IsOption arg) := inferInstanceAs (Decidable (_ = _))

/-- "-v" -/
def verboseArg : Arg := [45, 118]

/-- "-c" -/
def chunkSizeArg : Arg := [45, 99]

/-- The variables of the loop. -/
structure OptionVars where
  hosts_index : Nat
  index_param : Nat
  chunk_size : Int
  verbose : Bool
deriving DecidableEq, Repr

namespace OptionVars

/-- The values before the first turn. -/
def start : OptionVars := { hosts_index := 3, index_param := 2, chunk_size := 0, verbose := false }

/-- What the branch of `-v` does. -/
def takeVerbose (s : OptionVars) : OptionVars :=
  { s with hosts_index := s.hosts_index + 1, index_param := s.index_param + 1, verbose := true }

/-- What the branch of `-c` does, with the number that `SuffixToInt` has returned. -/
def takeChunkSize (s : OptionVars) (chunk_size : Int) : OptionVars :=
  { s with
    hosts_index := s.hosts_index + 2
    index_param := s.index_param + 2
    chunk_size }

end OptionVars

/-- How a stretch of the loop ends. -/
inductive OptionEnd where
  /-- The loop is left with these values. -/
  | done (s : OptionVars)
  /-- The loop reads `argv` where it has no argument. -/
  | outside
  /-- `SuffixToInt` leaves its argument or its array. -/
  | undefined
  /-- The loop is still running. -/
  | running
deriving DecidableEq, Repr

/-- The second `if` of the loop's body, which goes on with what follows it. -/
def chunkSizeBranch (argv : List Arg) (s : OptionVars) (next : OptionVars → OptionEnd) :
    OptionEnd :=
  match argv[s.index_param]? with
  | none => .outside
  | some arg =>
    if arg = chunkSizeArg then
      match argv[s.index_param + 1]? with
      | none => .outside
      | some str_number =>
        match suffixToInt str_number with
        | none => .undefined
        | some chunk_size => next (s.takeChunkSize chunk_size)
    else next s

/-- So many turns of the loop in `main`. -/
def optionLoop (argv : List Arg) : Nat → OptionVars → OptionEnd
  | 0, _ => .running
  | fuel + 1, s =>
    match argv[s.index_param]? with
    | none => .outside
    | some arg =>
      if IsOption arg then
        chunkSizeBranch argv (if arg = verboseArg then s.takeVerbose else s)
          (optionLoop argv fuel)
      else .done s

/-- An option that `main` knows; the argument of `-c` is one that `SuffixToInt` can read. -/
inductive ClientOption where
  | verbose
  | chunkSize (str_number : Arg) (chunk_size : Int)
      (reads : suffixToInt str_number = some chunk_size)

namespace ClientOption

/-- The arguments that write the option. -/
def args : ClientOption → List Arg
  | verbose => [verboseArg]
  | chunkSize str_number _ _ => [chunkSizeArg, str_number]

/-- What the option does to the variables of the loop. -/
def take (s : OptionVars) : ClientOption → OptionVars
  | verbose => s.takeVerbose
  | chunkSize _ chunk_size _ => s.takeChunkSize chunk_size

end ClientOption

/-- The arguments from the second one on are options that `main` knows, a file that does not
look like one, and the hosts. -/
def Written (argv : List Arg) (opts : List ClientOption) (file : Arg) (hosts : List Arg) : Prop :=
  argv.drop 2 = opts.flatMap ClientOption.args ++ file :: hosts ∧ ¬ IsOption file

/-- The loop is left without a read outside of `argv`, one behind the file, and whatever the
arguments say, `argv[hosts_index-1]` is their file and the rest from `hosts_index` on are
their hosts. -/
def FindsFile (argv : List Arg) : Prop :=
  ∃ fuel s, optionLoop argv fuel .start = .done s ∧ s.hosts_index = s.index_param + 1 ∧
    ∀ opts file hosts, Written argv opts file hosts →
      argv[s.hosts_index - 1]? = some file ∧ argv.drop s.hosts_index = hosts

section Loop
variable {argv : List Arg} {s t : OptionVars} {fuel : Nat} {opts : List ClientOption}
  {file : Arg} {hosts : List Arg}

theorem isOption_verboseArg : IsOption verboseArg := by decide

theorem isOption_chunkSizeArg : IsOption chunkSizeArg := by decide

theorem ClientOption.take_index (o : ClientOption) :
    (o.take s).index_param = s.index_param + o.args.length ∧
      (o.take s).hosts_index = s.hosts_index + o.args.length := by
  cases o <;> exact ⟨rfl, rfl⟩

/-- Both counters go on by as many arguments as the options have. -/
theorem foldl_take_index (opts : List ClientOption) (s : OptionVars) :
    (opts.foldl ClientOption.take s).index_param =
        s.index_param + (opts.flatMap ClientOption.args).length ∧
      (opts.foldl ClientOption.take s).hosts_index =
        s.hosts_index + (opts.flatMap ClientOption.args).length := by
  induction opts generalizing s with
  | nil => exact ⟨rfl, rfl⟩
  | cons o opts ih =>
    obtain ⟨hindex, hhosts⟩ := o.take_index (s := s)
    rw [List.foldl_cons, List.flatMap_cons, List.length_append, (ih _).1, (ih _).2, hindex, hhosts]
    omega

/-- What lies at an index and behind it. -/
theorem getElem?_of_drop {i : Nat} {arg : Arg} {rest : List Arg}
    (h : argv.drop i = arg :: rest) :
    argv[i]? = some arg ∧ argv.drop (i + 1) = rest := by
  refine ⟨?_, ?_⟩
  · rw [← List.head?_drop, h, List.head?_cons]
  · rw [← List.tail_drop, h, List.tail_cons]

theorem drop_of_getElem? {i : Nat} {arg : Arg} (h : argv[i]? = some arg) :
    argv.drop i = arg :: argv.drop (i + 1) := by
  obtain ⟨hi, hget⟩ := List.getElem?_eq_some_iff.mp h
  rw [List.drop_eq_getElem_cons hi, hget]

/-- The second `if` at an argument that is not `-c`. -/
theorem chunkSizeBranch_of_ne {arg : Arg} {next : OptionVars → OptionEnd}
    (harg : argv[s.index_param]? = some arg) (hne : arg ≠ chunkSizeArg) :
    chunkSizeBranch argv s next = next s := by
  unfold chunkSizeBranch
  rw [harg]
  exact if_neg hne

/-- The second `if` at `-c`. -/
theorem chunkSizeBranch_of_eq {str_number : Arg} {n : Int} {next : OptionVars → OptionEnd}
    (harg : argv[s.index_param]? = some chunkSizeArg)
    (hnext : argv[s.index_param + 1]? = some str_number) (hn : suffixToInt str_number = some n) :
    chunkSizeBranch argv s next = next (s.takeChunkSize n) := by
  unfold chunkSizeBranch
  rw [harg, hnext]
  dsimp only
  rw [if_pos rfl, hn]

/-- One turn, in which the argument is an option. -/
theorem optionLoop_succ {arg : Arg} (harg : argv[s.index_param]? = some arg)
    (hopt : IsOption arg) :
    optionLoop argv (fuel + 1) s =
      chunkSizeBranch argv (if arg = verboseArg then s.takeVerbose else s)
        (optionLoop argv fuel) := by
  rw [optionLoop, harg]
  exact if_pos hopt

/-- The turn that leaves the loop. -/
theorem optionLoop_of_not_isOption {arg : Arg} (harg : argv[s.index_param]? = some arg)
    (hopt : ¬ IsOption arg) : optionLoop argv (fuel + 1) s = .done s := by
  rw [optionLoop, harg]
  exact if_neg hopt

/-- A turn at `-c`. -/
theorem optionLoop_chunkSize {str_number : Arg} {n : Int}
    (harg : argv[s.index_param]? = some chunkSizeArg)
    (hnext : argv[s.index_param + 1]? = some str_number) (hn : suffixToInt str_number = some n) :
    optionLoop argv (fuel + 1) s = optionLoop argv fuel (s.takeChunkSize n) := by
  rw [optionLoop_succ harg isOption_chunkSizeArg, if_neg (by decide)]
  exact chunkSizeBranch_of_eq harg hnext hn

/-- After `-v` the second `if` does what the next turn would do, where there is one. -/
theorem optionLoop_verbose (harg : argv[s.index_param]? = some verboseArg)
    (hend : ∃ k, optionLoop argv k s.takeVerbose = .done t) :
    ∃ k, optionLoop argv k s = .done t := by
  obtain ⟨k, hk⟩ := hend
  cases k with
  | zero => exact OptionEnd.noConfusion hk
  | succ k =>
    have hturn : ∀ m, optionLoop argv (m + 1) s =
        chunkSizeBranch argv s.takeVerbose (optionLoop argv m) := by
      intro m
      rw [optionLoop_succ harg isOption_verboseArg, if_pos rfl]
    cases hnext : argv[s.takeVerbose.index_param]? with
    | none =>
      rw [optionLoop, hnext] at hk
      exact OptionEnd.noConfusion hk
    | some arg =>
      by_cases hc : arg = chunkSizeArg
      · -- the turn at `-c` belongs to this one
        subst hc
        refine ⟨k + 1, ?_⟩
        rw [optionLoop_succ hnext isOption_chunkSizeArg, if_neg (by decide)] at hk
        rw [hturn k, hk]
      · refine ⟨k + 2, ?_⟩
        rw [hturn (k + 1), chunkSizeBranch_of_ne hnext hc, hk]

/-- Known options in front of a file are walked through, in any number and order. -/
theorem optionLoop_of_written (opts : List ClientOption) (hfile : ¬ IsOption file)
    (s : OptionVars)
    (hargv : argv.drop s.index_param = opts.flatMap ClientOption.args ++ file :: hosts) :
    ∃ k, optionLoop argv k s = .done (opts.foldl ClientOption.take s) := by
  induction opts generalizing s with
  | nil => exact ⟨1, optionLoop_of_not_isOption (getElem?_of_drop hargv).1 hfile⟩
  | cons o opts ih =>
    cases o with
    | verbose =>
      obtain ⟨harg, hrest⟩ := getElem?_of_drop hargv
      exact optionLoop_verbose harg (ih s.takeVerbose hrest)
    | chunkSize str_number n hn =>
      obtain ⟨harg, hnumber⟩ := getElem?_of_drop hargv
      obtain ⟨hnext, hrest⟩ := getElem?_of_drop hnumber
      obtain ⟨k, hk⟩ := ih (s.takeChunkSize n) hrest
      exact ⟨k + 1, (optionLoop_chunkSize harg hnext hn).trans hk⟩

/-- What the second `if` has gone on with, where the loop is left afterwards. -/
theorem chunkSizeBranch_cases {next : OptionVars → OptionEnd}
    (h : chunkSizeBranch argv s next = .done t) :
    (∃ str_number n, argv[s.index_param]? = some chunkSizeArg ∧
        argv[s.index_param + 1]? = some str_number ∧ suffixToInt str_number = some n ∧
        next (s.takeChunkSize n) = .done t) ∨
      next s = .done t := by
  unfold chunkSizeBranch at h
  split at h
  · cases h
  next arg harg =>
  split at h
  · next heq =>
    split at h
    · cases h
    next str_number hnext =>
    split at h
    · cases h
    next n hn => exact .inl ⟨str_number, n, heq ▸ harg, hnext, hn, h⟩
  · exact .inr h

/-- Where the loop is left, it has walked through known options to a file. -/
theorem written_of_optionLoop (h : optionLoop argv fuel s = .done t) :
    ∃ opts file hosts,
      argv.drop s.index_param = List.flatMap ClientOption.args opts ++ file :: hosts ∧
        ¬ IsOption file ∧ t = opts.foldl ClientOption.take s := by
  induction fuel generalizing s with
  | zero => cases h
  | succ fuel ih =>
    rw [optionLoop] at h
    split at h
    · cases h
    next arg harg =>
    split at h
    · -- `-v`, if it is one, and `-c`, if that follows
      next hopt =>
      have hchunkSize : ∀ r : OptionVars,
          chunkSizeBranch argv r (optionLoop argv fuel) = .done t →
          ∃ opts file hosts,
            argv.drop r.index_param = List.flatMap ClientOption.args opts ++ file :: hosts ∧
              ¬ IsOption file ∧ t = opts.foldl ClientOption.take r := by
        intro r hr
        obtain ⟨str_number, n, hc, hnext, hn, hdone⟩ | hdone := chunkSizeBranch_cases hr
        · obtain ⟨opts, file, hosts, hrest, hfile, ht⟩ := ih hdone
          refine ⟨.chunkSize str_number n hn :: opts, file, hosts, ?_, hfile, ht⟩
          rw [drop_of_getElem? hc, drop_of_getElem? hnext]
          exact congrArg (chunkSizeArg :: str_number :: ·) hrest
        · exact ih hdone
      split at h
      · next hv =>
        obtain ⟨opts, file, hosts, hrest, hfile, ht⟩ := hchunkSize _ h
        refine ⟨.verbose :: opts, file, hosts, ?_, hfile, ht⟩
        rw [drop_of_getElem? harg, hv]
        exact congrArg (verboseArg :: ·) hrest
      · exact hchunkSize _ h
    · next hfile =>
      cases h
      exact ⟨[], arg, _, drop_of_getElem? harg, hfile, rfl⟩

/-- What follows the second `if` follows it at the same values, whatever it is. -/
theorem chunkSizeBranch_at {next next' : OptionVars → OptionEnd} {u : OptionVars}
    (h : chunkSizeBranch argv s next = .done t) (h' : chunkSizeBranch argv s next' = .done u) :
    ∃ r, next r = .done t ∧ next' r = .done u := by
  unfold chunkSizeBranch at h h'
  cases harg : argv[s.index_param]? with
  | none =>
    rw [harg] at h
    cases h
  | some arg =>
    simp only [harg] at h h'
    by_cases hc : arg = chunkSizeArg
    · rw [if_pos hc] at h h'
      cases hnext : argv[s.index_param + 1]? with
      | none =>
        rw [hnext] at h
        cases h
      | some str_number =>
        simp only [hnext] at h h'
        cases hn : suffixToInt str_number with
        | none =>
          rw [hn] at h
          cases h
        | some n =>
          simp only [hn] at h h'
          exact ⟨_, h, h'⟩
    · rw [if_neg hc] at h h'
      exact ⟨s, h, h'⟩

/-- An argument that is neither `-v` nor `-c` moves nothing. -/
theorem optionLoop_unknown {arg : Arg} (harg : argv[s.index_param]? = some arg)
    (hopt : IsOption arg) (hv : arg ≠ verboseArg) (hc : arg ≠ chunkSizeArg) (fuel : Nat) :
    optionLoop argv fuel s = .running := by
  induction fuel with
  | zero => rfl
  | succ fuel ih => rw [optionLoop_succ harg hopt, if_neg hv, chunkSizeBranch_of_ne harg hc, ih]

/-- The loop is left in one way only. -/
theorem optionLoop_det {k m : Nat} {s t u : OptionVars} (hk : optionLoop argv k s = .done t)
    (hm : optionLoop argv m s = .done u) : t = u := by
  induction k generalizing m s with
  | zero => cases hk
  | succ k ih =>
    cases m with
    | zero => cases hm
    | succ m =>
      rw [optionLoop] at hk hm
      split at hk
      · cases hk
      next arg harg =>
      rw [harg] at hm
      dsimp only at hm
      split at hk
      · next hopt =>
        rw [if_pos hopt] at hm
        obtain ⟨r, hr, hr'⟩ := chunkSizeBranch_at hk hm
        exact ih hr hr'
      · next hfile =>
        rw [if_neg hfile] at hm
        cases hk
        cases hm
        rfl

end Loop

example : optionLoop [[109], [117], verboseArg, chunkSizeArg, [56, 107], [102], [104, 58, 49]] 3
    .start = .done { hosts_index := 6, index_param := 5, chunk_size := 8192, verbose := true } := by
  decide

end Mhftp
