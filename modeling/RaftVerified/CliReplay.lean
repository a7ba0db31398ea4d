import RaftVerified.Cli

/-! Replaying a violation from its hint. Everything that decides a run survives the trip through
the shell and the parser, except the step budget. -/
namespace RaftVerified.Cli
open CommandLine

variable {json : Json} {runs : ClusterRuns} {nodes seed : ℤ} {faults : Str} {membership : Bool}
  {nemesis : Option NemesisSchedule}

/-! ### The words of the hint -/

theorem plain_intStr (z : ℤ) : Plain (intStr z) :=
  ⟨intStr_free z '\'' (by decide) (by decide), intStr_free z ' ' (by decide) (by decide)⟩

theorem plain_profile (h : faults ∈ PROFILES) : Plain faults ∧ faults ≠ [] := by
  unfold PROFILES at h
  rw [List.mem_cons, List.mem_cons, List.mem_singleton] at h
  rcases h with rfl | rfl | rfl <;> exact ⟨⟨by decide, by decide⟩, by decide⟩

/-- The schedule a hint names: one without patterns is left out. -/
def effective (nemesis : Option NemesisSchedule) : Option NemesisSchedule :=
  nemesis.filter fun s => s.ops ≠ []

def membershipWords (membership : Bool) : List Str :=
  if membership then ["--membership".toList] else []

def nemesisWords (json : Json) (nemesis : Option NemesisSchedule) : List Str :=
  match effective nemesis with
  | some s => ["--nemesis".toList, s.toJson json]
  | none => []

theorem plain_lit {w : Str} (h : w.all fun c => c ≠ '\'' ∧ c ≠ ' ') : Plain w := by
  rw [List.all_eq_true] at h
  exact ⟨fun hmem => (of_decide_eq_true (h _ hmem)).1 rfl,
    fun hmem => (of_decide_eq_true (h _ hmem)).2 rfl⟩

theorem continues_nemesisHint
    (hjson : ∀ s, nemesis = some s → json.Faithful (s.ops.map (·.encode))) :
    Continues (nemesisHint json nemesis) (nemesisWords json nemesis) := by
  cases nemesis with
  | none => exact .nil
  | some s =>
    unfold nemesisWords effective nemesisHint
    by_cases hops : s.ops = []
    · rw [Option.filter_some, if_neg (by simp [hops])]
      dsimp only
      rw [if_neg (not_not.mpr hops)]
      exact .nil
    · rw [Option.filter_some, if_pos (by simp [hops])]
      dsimp only
      rw [if_pos hops]
      have hline : " --nemesis '".toList ++ s.toJson json ++ "'".toList =
          ' ' :: ("--nemesis".toList ++ ' ' :: '\'' :: (s.toJson json ++ ['\''])) := rfl
      rw [hline]
      exact .word (plain_lit (by decide)) (by decide) (.quoted (hjson s rfl).unquoted)

theorem continues_membership {more : Str} {ws : List Str} (h : Continues more ws) :
    Continues ((if membership then " --membership".toList else []) ++ more)
      (membershipWords membership ++ ws) := by
  cases membership with
  | false => exact h
  | true =>
    have hline : " --membership".toList ++ more = ' ' :: ("--membership".toList ++ more) := rfl
    rw [if_pos rfl, hline]
    exact .word (plain_lit (by decide)) (by decide) h

/-- The words of a line that gives the nodes, the seed and the profile of a run and goes on with
the words `ws`. -/
theorem shellWords_replay {more : Str} {ws : List Str} (hfaults : faults ∈ PROFILES)
    (h : Continues more ws) :
    shellWords ("raftverified replay --nodes ".toList ++ intStr nodes ++ " --seed ".toList ++
      intStr seed ++ " --faults ".toList ++ faults ++ more) =
      some ("raftverified".toList :: "replay".toList :: "--nodes".toList :: intStr nodes ::
        "--seed".toList :: intStr seed :: "--faults".toList :: faults :: ws) := by
  obtain ⟨hplain, hne⟩ := plain_profile hfaults
  -- the line as words and blanks
  have hline : "raftverified replay --nodes ".toList ++ intStr nodes ++ " --seed ".toList ++
      intStr seed ++ " --faults ".toList ++ faults ++ more =
      "raftverified".toList ++ ' ' :: ("replay".toList ++ ' ' :: ("--nodes".toList ++ ' ' ::
        (intStr nodes ++ ' ' :: ("--seed".toList ++ ' ' :: (intStr seed ++ ' ' ::
          ("--faults".toList ++ ' ' :: (faults ++ more))))))) := by
    simp only [List.append_assoc]
    rfl
  have hseed := Continues.word (plain_intStr seed) (intStr_ne_nil seed)
    (.word (w := "--faults".toList) (plain_lit (by decide)) (by decide) (.word hplain hne h))
  have hnodes := Continues.word (plain_intStr nodes) (intStr_ne_nil nodes)
    (.word (w := "--seed".toList) (plain_lit (by decide)) (by decide) hseed)
  rw [hline]
  exact shellWords_word (plain_lit (by decide)) (by decide)
    (.word (plain_lit (by decide)) (by decide) (.word (plain_lit (by decide)) (by decide) hnodes))

theorem shellWords_replayHint (hfaults : faults ∈ PROFILES)
    (hjson : ∀ s, nemesis = some s → json.Faithful (s.ops.map (·.encode))) :
    shellWords (replayHint json nodes seed faults membership nemesis) =
      some ("raftverified".toList :: "replay".toList :: "--nodes".toList :: intStr nodes ::
        "--seed".toList :: intStr seed :: "--faults".toList :: faults ::
          (membershipWords membership ++ nemesisWords json nemesis)) := by
  have hflags : Continues ((if membership then " --membership".toList else []) ++
      nemesisHint json nemesis) (membershipWords membership ++ nemesisWords json nemesis) :=
    continues_membership (continues_nemesisHint hjson)
  unfold replayHint
  rw [List.append_assoc]
  exact shellWords_replay hfaults hflags

/-! ### What the parser makes of them -/

/-- The arguments of a `replay` with the parameters of a run and the budget `replay` has. -/
def replayArgs (nodes seed : ℤ) (faults : Str) (membership : Bool)
    (nemesis : Option NemesisSchedule) : Args :=
  { command := .replay, nodes := nodes, seed := some seed, faults := faults, steps := 20000,
    membership := membership, nemesis := effective nemesis }

theorem classify_intStr (z : ℤ) : classify (options json .replay) (intStr z) = .argument := by
  cases z with
  | ofNat n =>
    apply classify_word
    intro hhead
    have hmem : '-' ∈ natStr n := List.mem_of_head? hhead
    exact absurd (natStr_digits n _ hmem) (by decide)
  | negSucc n =>
    have hdigits := natStr_digits (n+1)
    cases hs : natStr (n+1) with
    | nil => exact absurd hs Nat.toDigits_ne_nil
    | cons d ds =>
      rw [hs] at hdigits
      rw [intStr, hs]
      apply classify_negative (hdigits d List.mem_cons_self)
        fun c hc => hdigits c (List.mem_cons_of_mem _ hc)
      -- the second character of every option is a letter or another dash
      have hnames : ∀ t ∈ (options json .replay).map (·.1), (t.drop 1).head?.all (!·.isDigit) := by
        show ∀ t ∈ ["--seed".toList, "-h".toList, "--help".toList, "--nodes".toList,
          "--faults".toList, "--steps".toList, "--membership".toList, "--nemesis".toList],
            (t.drop 1).head?.all (!·.isDigit)
        decide
      intro o ho c hc
      have hname := hnames o.1 (List.mem_map_of_mem ho)
      rw [List.head?_drop, hc] at hname
      simpa using hname

theorem option_nodes : classify (options json .replay) "--nodes".toList =
    .option (intOption fun z args => { args with nodes := z }) none :=
  classify_option rfl (by decide) rfl

theorem option_seed : classify (options json .replay) "--seed".toList =
    .option (intOption fun z args => { args with seed := some z }) none :=
  classify_option rfl (by decide) rfl

theorem option_faults : classify (options json .replay) "--faults".toList =
    .option faultsOption none :=
  classify_option rfl (by decide) rfl

theorem option_membership : classify (options json .replay) "--membership".toList =
    .option (.storeTrue fun args => { args with membership := true }) none :=
  classify_option rfl (by decide) rfl

theorem option_nemesis : classify (options json .replay) "--nemesis".toList =
    .option (nemesisOption json) none :=
  classify_option rfl (by decide) rfl

/-- An integer option reads back what `str` wrote. -/
theorem parse_int {set : ℤ → Args → Args} {t : Str} {ws : List Str}
    (ht : classify (options json .replay) t = .option (intOption set) none) (z : ℤ) (a : Args) :
    parse (options json .replay) (t :: intStr z :: ws) a =
      parse (options json .replay) ws (set z a) := by
  refine parse_store ht (classify_intStr z) ?_
  rw [pyInt_intStr]
  rfl

theorem parse_faults {ws : List Str} (h : faults ∈ PROFILES) (a : Args) :
    parse (options json .replay) ("--faults".toList :: faults :: ws) a =
      parse (options json .replay) ws { a with faults := faults } := by
  have hword : classify (options json .replay) faults = .argument := by
    apply classify_word
    unfold PROFILES at h
    rw [List.mem_cons, List.mem_cons, List.mem_singleton] at h
    rcases h with rfl | rfl | rfl <;> decide
  exact parse_store option_faults hword (if_pos h)

theorem parse_membershipWords {ws : List Str} (a : Args) (h : a.membership = false) :
    parse (options json .replay) (membershipWords membership ++ ws) a =
      parse (options json .replay) ws { a with membership := membership } := by
  cases membership with
  | false =>
    have ha : { a with membership := false } = a := by rw [← h]
    rw [ha]
    rfl
  | true => exact parse_flag option_membership

theorem effective_some {s : NemesisSchedule} (h : effective nemesis = some s) :
    nemesis = some s := (Option.filter_eq_some_iff.mp h).1

theorem parse_nemesisWords (a : Args) (h : a.nemesis = none)
    (hjson : ∀ s, nemesis = some s → json.Faithful (s.ops.map (·.encode))) :
    parse (options json .replay) (nemesisWords json nemesis) a =
      some { a with nemesis := effective nemesis } := by
  unfold nemesisWords
  cases hs : effective nemesis with
  | none =>
    have ha : { a with nemesis := none } = a := by rw [← h]
    rw [ha]
    rfl
  | some s =>
    have hfaithful := hjson s (effective_some hs)
    -- the text of a list does not look like an option
    have hword : (s.toJson json).head? ≠ some '-' := by
      rw [NemesisSchedule.toJson, hfaithful.bracket]
      decide
    refine parse_store option_nemesis (classify_word hword) ?_
    rw [NemesisSchedule.fromJson_toJson hfaithful]
    rfl

/-- The options every hint begins with. -/
theorem parse_run {ws : List Str} (hfaults : faults ∈ PROFILES) (a : Args) :
    parse (options json .replay) ("--nodes".toList :: intStr nodes :: "--seed".toList ::
      intStr seed :: "--faults".toList :: faults :: ws) a =
      parse (options json .replay) ws
        { a with nodes := nodes, seed := some seed, faults := faults } := by
  rw [parse_int option_nodes, parse_int option_seed, parse_faults hfaults]

/-- `replay` returns the values it has parsed when they have a seed. -/
theorem parseArgs_replay {ws : List Str} {a : Args}
    (h : parse (options json .replay) ws (defaults .replay) = some a) (hseed : a.seed ≠ none) :
    parseArgs json ("replay".toList :: ws) = some a := by
  have hcommand : command "replay".toList = some .replay := by decide
  rw [parseArgs, hcommand]
  show (parse _ _ _).bind _ = _
  rw [h]
  exact if_neg fun hmissing => hseed hmissing.2

theorem parseArgs_hint (hfaults : faults ∈ PROFILES)
    (hjson : ∀ s, nemesis = some s → json.Faithful (s.ops.map (·.encode))) :
    parseArgs json ("replay".toList :: "--nodes".toList :: intStr nodes :: "--seed".toList ::
      intStr seed :: "--faults".toList :: faults ::
        (membershipWords membership ++ nemesisWords json nemesis)) =
      some (replayArgs nodes seed faults membership nemesis) := by
  refine parseArgs_replay ?_ (Option.some_ne_none seed)
  rw [parse_run hfaults, parse_membershipWords _ rfl, parse_nemesisWords _ rfl hjson]
  rfl

/-! ### The run that is replayed -/

theorem injections_effective :
    ((effective nemesis).map (·.injections)).getD [] = (nemesis.map (·.injections)).getD [] := by
  cases nemesis with
  | none => rfl
  | some s =>
    unfold effective
    by_cases hops : s.ops = []
    · rw [Option.filter_some, if_neg (by simp [hops])]
      show [] = s.injections
      rw [NemesisSchedule.injections, hops]
      rfl
    · rw [Option.filter_some, if_pos (by simp [hops])]

theorem maxNode_effective :
    ((effective nemesis).map (·.maxNode)).getD (-1) = (nemesis.map (·.maxNode)).getD (-1) := by
  cases nemesis with
  | none => rfl
  | some s =>
    unfold effective
    by_cases hops : s.ops = []
    · rw [Option.filter_some, if_neg (by simp [hops])]
      show -1 = s.maxNode
      rw [NemesisSchedule.maxNode, hops]
      rfl
    · rw [Option.filter_some, if_pos (by simp [hops])]

theorem checker_hint : (InvariantChecker.new seed
    (replayHint json nodes seed faults membership nemesis)).replayHint =
      replayHint json nodes seed faults membership nemesis := by
  have hhead : "raftverified replay --nodes ".toList ≠ [] := by decide
  have hne : replayHint json nodes seed faults membership nemesis ≠ [] := by
    unfold replayHint
    simp only [List.append_assoc]
    exact fun heq => hhead (List.append_eq_nil_iff.mp heq).1
  unfold InvariantChecker.new
  dsimp only
  rw [if_neg hne]

/-- What a run that raises a violation has been, and what the run is with another budget and the
schedule of the hint. -/
theorem execute_violation {steps : ℤ} {v : InvariantViolation}
    (h : execute json runs nodes seed faults steps membership nemesis = .ok (some v)) :
    faults ∈ PROFILES ∧
      v.replay = replayHint json nodes seed faults membership nemesis ∧
      ∀ steps', ∃ v', v'.violation = v.violation ∧ v'.step = v.step ∧
        execute json runs nodes seed faults steps' membership (effective nemesis) =
          .ok (if (v.step : ℤ) ≤ steps' then some v' else none) := by
  -- a run that raises has passed every check of the constructor
  unfold execute at h
  dsimp only at h
  split at h
  next => cases h
  next hnodes =>
    split at h
    next => cases h
    next hfaults =>
      split at h
      next => cases h
      next hmembership =>
        split at h
        next => cases h
        next hmax =>
          split at h
          next violation step hrun =>
            have hsome := Except.ok.inj h
            split at hsome
            next =>
              cases hsome
              have hfaults' := not_not.mp hfaults
              refine ⟨hfaults', checker_hint, fun steps' => ⟨⟨violation, seed, step,
                (InvariantChecker.new seed (replayHint json nodes seed faults membership
                  (effective nemesis))).replayHint⟩, rfl, rfl, ?_⟩⟩
              -- the replayed run passes them too and finds the same violation
              unfold execute
              dsimp only
              rw [if_neg hnodes, if_neg hfaults, if_neg hmembership, maxNode_effective, if_neg hmax,
                injections_effective, hrun]
            next => cases hsome
          next => cases h

theorem mem_of_map_toList {x : Except Str (Option InvariantViolation)}
    {vs : List InvariantViolation} {v : InvariantViolation}
    (h : x.map Option.toList = .ok vs) (hv : v ∈ vs) : x = .ok (some v) := by
  obtain ⟨found, rfl, rfl⟩ := map_ok.mp h
  rw [Option.mem_toList] at hv
  exact congrArg Except.ok hv

/-- Each violation an invocation raises is the violation of one of its runs. -/
theorem main_violation {args : Args} {vs : List InvariantViolation} {v : InvariantViolation}
    (h : main json runs args = .ok vs) (hv : v ∈ vs) :
    ∃ seed, executeArgs json runs args seed = .ok (some v) := by
  unfold main at h
  cases hcommand : args.command with
  | run =>
    rw [hcommand] at h
    exact ⟨_, mem_of_map_toList h hv⟩
  | report =>
    rw [hcommand] at h
    exact ⟨_, mem_of_map_toList h hv⟩
  | check =>
    rw [hcommand] at h
    obtain ⟨found, hfound, heq⟩ := bind_ok.mp h
    cases heq
    -- one of the seeds has raised it
    obtain ⟨x, hx, hxv⟩ := List.mem_filterMap.mp hv
    obtain ⟨seed, -, hseed⟩ := mem_of_mapM_ok hfound hx
    exact ⟨seed, hxv ▸ hseed⟩
  | replay =>
    rw [hcommand] at h
    obtain ⟨found, hfound, hnext⟩ := bind_ok.mp h
    cases found with
    | some v' =>
      cases hnext
      rw [List.mem_singleton.mp hv]
      exact ⟨_, hfound⟩
    | none => exact ⟨_, mem_of_map_toList hnext hv⟩

/-- The line, given to a shell, replays the violation: the same invariant at the same step. -/
def Reproduces (json : Json) (runs : ClusterRuns) (v : InvariantViolation) : Prop :=
  ∃ argv args v', shellWords v.replay = some ("raftverified".toList :: argv) ∧
    parseArgs json argv = some args ∧ args.command = .replay ∧
      main json runs args = .ok [v'] ∧ v'.violation.invariant = v.violation.invariant ∧
        v'.step = v.step

/-- An invocation of `run`, `check` or `report` one of whose runs raises `v`. -/
structure Raises (json : Json) (runs : ClusterRuns) (argv : List Str) (args : Args)
    (v : InvariantViolation) : Prop where
  parsed : parseArgs json argv = some args
  command : args.command ≠ .replay
  raised : ∃ vs, main json runs args = .ok vs ∧ v ∈ vs

/-- The second attempt of a replay is made when the first has run clean. -/
theorem main_replay {found : Option InvariantViolation}
    (h : executeArgs json runs (replayArgs nodes seed faults membership nemesis) seed =
      .ok found) :
    main json runs (replayArgs nodes seed faults membership nemesis) = .ok found.toList := by
  have hseed : (replayArgs nodes seed faults membership nemesis).seed.getD 0 = seed := rfl
  show cmdReplay json runs (replayArgs nodes seed faults membership nemesis) = _
  unfold cmdReplay
  rw [hseed, h]
  cases found with
  | some v => rfl
  | none => rfl

/-- The hint of a run reproduces its violation exactly when the budget of `replay` reaches it. -/
theorem reproduces_of_execute {steps : ℤ} {v : InvariantViolation}
    (h : execute json runs nodes seed faults steps membership nemesis = .ok (some v))
    (hjson : ∀ s, nemesis = some s → json.Faithful (s.ops.map (·.encode))) :
    Reproduces json runs v ↔ v.step ≤ 20000 := by
  obtain ⟨hfaults, hhint, hreplay⟩ := execute_violation h
  obtain ⟨v', hviolation, hstep, hrun⟩ := hreplay 20000
  have hwords := (congrArg shellWords hhint).trans (shellWords_replayHint hfaults hjson)
  have hargs : parseArgs json _ = some (replayArgs nodes seed faults membership nemesis) :=
    parseArgs_hint hfaults hjson
  -- the replay is the same run under another budget
  have hmain : main json runs (replayArgs nodes seed faults membership nemesis) =
      .ok (if (v.step : ℤ) ≤ 20000 then some v' else none).toList := main_replay hrun
  constructor
  · rintro ⟨argv, args, v'', hw, hp, -, hm, -, -⟩
    -- the shell and the parser leave no choice
    rw [hwords] at hw
    obtain rfl := (List.cons.inj (Option.some.inj hw)).2
    rw [hargs] at hp
    obtain rfl := Option.some.inj hp
    rw [hmain] at hm
    by_contra hlate
    rw [if_neg (by omega)] at hm
    cases hm
  · intro hle
    rw [if_pos (by omega)] at hmain
    exact ⟨_, _, v', hwords, hargs, rfl, hmain, congrArg Violation.invariant hviolation, hstep⟩

/-- The hint of a violation reproduces it if and only if the violation comes within the 20000
steps that `replay` runs when it is not told otherwise. -/
theorem replay_reproduces_iff {argv : List Str} {args : Args} {v : InvariantViolation}
    (h : Raises json runs argv args v)
    (hjson : ∀ s, args.nemesis = some s → json.Faithful (s.ops.map (·.encode))) :
    Reproduces json runs v ↔ v.step ≤ 20000 := by
  obtain ⟨vs, hmain, hv⟩ := h.raised
  obtain ⟨seed, hexec⟩ := main_violation hmain hv
  exact reproduces_of_execute hexec hjson

/-- Two leaders of one term, found at the given step of every run. -/
def twoLeaders (step : ℕ) : ClusterRuns := fun _ => some (.electionSafety 1 0 1, step)

def halves : NemesisOp := .partitionHalves 0 50

def halvesText : Str := "[\x7b\"pattern\":\"partition_halves\",\"at\":0,\"duration\":50\x7d]".toList

/-- The `json` module, as far as one schedule goes. -/
def halvesJson : Json where
  dumps _ := halvesText
  loads text := if text = halvesText then some (.list [halves.encode]) else none
  repr _ := []

def halvesSchedule : NemesisSchedule where
  ops := [halves]
  valid := by decide

theorem halvesJson_faithful : halvesJson.Faithful (halvesSchedule.ops.map (·.encode)) := by
  have hloads : halvesJson.loads halvesText = some (.list [halves.encode]) := by
    show (if halvesText = halvesText then some (Value.list [halves.encode]) else none) = _
    rw [if_pos rfl]
  exact ⟨hloads, by decide +kernel, by decide +kernel⟩

def checkArgs : Args :=
  { defaults .check with nodes := 3, seeds := 1, nemesis := some halvesSchedule }

def earlyViolation : InvariantViolation where
  violation := .electionSafety 1 0 1
  seed := 0
  step := 3
  replay := replayHint halvesJson 3 0 "none".toList false (some halvesSchedule)

theorem early_violation_reproduced : Reproduces halvesJson (twoLeaders 3) earlyViolation := by
  have hraises : Raises halvesJson (twoLeaders 3) ["check".toList, "--nodes".toList, "3".toList,
      "--seeds=1".toList, "--nemesis".toList, halvesText] checkArgs earlyViolation := by
    refine ⟨by decide +kernel, by decide, [earlyViolation], by decide +kernel, ?_⟩
    exact List.mem_singleton_self _
  refine (replay_reproduces_iff hraises ?_).mpr (by decide)
  intro s hs
  cases hs
  exact halvesJson_faithful

def lateViolation : InvariantViolation where
  violation := .electionSafety 1 0 1
  seed := 0
  step := 25000
  replay := replayHint halvesJson 5 0 "none".toList false none

/-- A run with a budget of its own that fails after 25000 steps. -/
theorem late_violation_not_reproduced : ¬ ∀ (json : Json) (runs : ClusterRuns) (argv : List Str)
    (args : Args) (v : InvariantViolation), Raises json runs argv args v →
      (∀ s, args.nemesis = some s → json.Faithful (s.ops.map (·.encode))) →
        Reproduces json runs v := by
  intro hall
  have hraises : Raises halvesJson (twoLeaders 25000) ["run".toList, "--steps".toList,
      "30000".toList] { defaults .run with steps := 30000 } lateViolation := by
    refine ⟨by decide +kernel, by decide, [lateViolation], by decide +kernel, ?_⟩
    exact List.mem_singleton_self _
  have hreplayed := hall _ _ _ _ _ hraises nofun
  obtain ⟨vs, hmain, hv⟩ := hraises.raised
  obtain ⟨seed, hexec⟩ := main_violation hmain hv
  have hle := (reproduces_of_execute hexec nofun).mp hreplayed
  exact absurd hle (by decide)

end RaftVerified.Cli
