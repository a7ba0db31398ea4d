import RaftVerified.CliReplay
import RaftVerified.Shrink

/-! The replay command of a scenario (`shrink.py`), read back by the command line: every field
that decides the run arrives, except the suppression mask. -/
namespace RaftVerified
open CommandLine

/-- What a call of `Cluster` is given. -/
structure ClusterArgs where
  numNodes : ℤ
  seed : ℤ
  faults : Str
  bugs : Bugs := NO_BUGS
  suppressed : Finset ℕ := ∅
  membership : Bool := false
  nemesis : Option NemesisSchedule := none
  deriving DecidableEq

/-- The same call without a schedule that has no patterns. -/
def ClusterArgs.effective (c : ClusterArgs) : ClusterArgs :=
  { c with nemesis := Cli.effective c.nemesis }

namespace Scenario

/-- `_cluster`. -/
def cluster (s : Scenario) : ClusterArgs where
  numNodes := s.nodes
  seed := s.seed
  faults := s.faults
  bugs := s.bugs
  suppressed := s.suppressed
  membership := s.membership
  nemesis := s.nemesis

def replayCommand (json : Json) (s : Scenario) : Str :=
  "raftverified replay --nodes ".toList ++ intStr s.nodes ++ " --seed ".toList ++ intStr s.seed ++
    " --faults ".toList ++ s.faults ++ " --steps ".toList ++ intStr s.steps ++
    (if s.membership then " --membership".toList else []) ++ nemesisHint json s.nemesis

end Scenario

namespace Cli

/-- The cluster `cmd_replay` has `_execute` construct. -/
def Args.cluster (args : Args) : ClusterArgs where
  numNodes := args.nodes
  seed := args.seed.getD 0
  faults := args.faults
  membership := args.membership
  nemesis := args.nemesis

/-- The replay command of the scenario, given to a shell, runs the cluster of the scenario for as
many steps. -/
def Replays (json : Json) (s : Scenario) : Prop :=
  ∃ argv args, shellWords (s.replayCommand json) = some ("raftverified".toList :: argv) ∧
    parseArgs json argv = some args ∧ args.command = .replay ∧
      args.cluster.effective = s.cluster.effective ∧ args.steps = s.steps

variable {json : Json} {s : Scenario}

/-- The words of the command after its name. -/
def replayWords (json : Json) (s : Scenario) : List Str :=
  "--nodes".toList :: intStr s.nodes :: "--seed".toList :: intStr s.seed :: "--faults".toList ::
    s.faults :: "--steps".toList :: intStr s.steps ::
      (membershipWords s.membership ++ nemesisWords json s.nemesis)

theorem shellWords_replayCommand (hfaults : s.faults ∈ PROFILES)
    (hjson : ∀ n, s.nemesis = some n → json.Faithful (n.ops.map (·.encode))) :
    shellWords (s.replayCommand json) =
      some ("raftverified".toList :: "replay".toList :: replayWords json s) := by
  have hflags : Continues ((if s.membership then " --membership".toList else []) ++
      nemesisHint json s.nemesis) (membershipWords s.membership ++ nemesisWords json s.nemesis) :=
    continues_membership (continues_nemesisHint hjson)
  have hsteps := Continues.word (w := "--steps".toList) (plain_lit (by decide)) (by decide)
    (.word (plain_intStr s.steps) (intStr_ne_nil s.steps) hflags)
  have hline : s.replayCommand json = "raftverified replay --nodes ".toList ++ intStr s.nodes ++
      " --seed ".toList ++ intStr s.seed ++ " --faults ".toList ++ s.faults ++
        (' ' :: ("--steps".toList ++ ' ' :: (intStr s.steps ++
          ((if s.membership then " --membership".toList else []) ++
            nemesisHint json s.nemesis)))) := by
    unfold Scenario.replayCommand
    simp only [List.append_assoc]
    rfl
  rw [hline]
  exact shellWords_replay hfaults hsteps

theorem option_steps : classify (options json .replay) "--steps".toList =
    .option (intOption fun z args => { args with steps := z }) none :=
  classify_option rfl (by decide) rfl

/-- What the parser makes of the words. -/
def parsedArgs (s : Scenario) : Args :=
  { command := .replay, nodes := s.nodes, seed := some s.seed, faults := s.faults,
    steps := s.steps, membership := s.membership, nemesis := effective s.nemesis }

theorem parseArgs_replayWords (hfaults : s.faults ∈ PROFILES)
    (hjson : ∀ n, s.nemesis = some n → json.Faithful (n.ops.map (·.encode))) :
    parseArgs json ("replay".toList :: replayWords json s) = some (parsedArgs s) := by
  refine parseArgs_replay ?_ (Option.some_ne_none s.seed)
  rw [replayWords, parse_run hfaults, parse_int option_steps, parse_membershipWords _ rfl,
    parse_nemesisWords _ rfl hjson]
  rfl

/-! ### The profile the parser returns -/

def Args.KnownProfile (args : Args) : Prop := args.faults ∈ PROFILES

theorem intOption_keeps {set : ℤ → Args → Args}
    (hset : ∀ z args, (set z args).faults = args.faults) :
    (intOption set).Preserves Args.KnownProfile := by
  intro v args args' h hargs
  obtain ⟨z, -, rfl⟩ := Option.map_eq_some_iff.mp h
  unfold Args.KnownProfile
  rw [hset]
  exact hargs

theorem faultsOption_keeps : faultsOption.Preserves Args.KnownProfile := by
  intro v args args' h hargs
  dsimp only at h
  split at h
  · rename_i hv
    cases h
    exact hv
  · cases h

theorem nemesisOption_keeps : (nemesisOption json).Preserves Args.KnownProfile := by
  intro v args args' h hargs
  obtain ⟨n, -, rfl⟩ := Option.map_eq_some_iff.mp h
  exact hargs

/-- `--timeline` and `--out`. -/
theorem textOption_keeps {set : Str → Args → Args}
    (hset : ∀ v args, (set v args).faults = args.faults) :
    (Action.store fun v args => some (set v args)).Preserves Args.KnownProfile := by
  intro v args args' h hargs
  cases h
  unfold Args.KnownProfile
  rw [hset]
  exact hargs

theorem common_keeps : ∀ o ∈ common json, o.2.Preserves Args.KnownProfile := by
  unfold common
  simp only [List.forall_mem_cons]
  exact ⟨trivial, trivial, intOption_keeps fun _ _ => rfl, faultsOption_keeps,
    intOption_keeps fun _ _ => rfl, fun _ h => h, nemesisOption_keeps, nofun⟩

/-- No option sets a profile that is not one of the choices. -/
theorem options_keep (cmd : Command) :
    ∀ o ∈ options json cmd, o.2.Preserves Args.KnownProfile := by
  have hseed : seedOption.Preserves Args.KnownProfile := intOption_keeps fun _ _ => rfl
  cases cmd with
  | run =>
    refine List.forall_mem_cons.mpr ⟨hseed, List.forall_mem_append.mpr ⟨common_keeps, ?_⟩⟩
    exact List.forall_mem_singleton.mpr (textOption_keeps fun _ _ => rfl)
  | check => exact List.forall_mem_cons.mpr ⟨intOption_keeps fun _ _ => rfl, common_keeps⟩
  | replay => exact List.forall_mem_cons.mpr ⟨hseed, common_keeps⟩
  | report =>
    refine List.forall_mem_cons.mpr ⟨hseed, List.forall_mem_append.mpr ⟨common_keeps, ?_⟩⟩
    exact List.forall_mem_singleton.mpr (textOption_keeps fun _ _ => rfl)

theorem knownProfile_of_parseArgs {argv : List Str} {args : Args}
    (h : parseArgs json argv = some args) : args.KnownProfile := by
  unfold parseArgs at h
  split at h
  · cases h
  · obtain ⟨cmd, -, h⟩ := Option.bind_eq_some_iff.mp h
    obtain ⟨args', hparse, h⟩ := Option.bind_eq_some_iff.mp h
    have hdefault : (defaults cmd).KnownProfile := by cases cmd <;> exact List.mem_cons_self
    have hknown := parse_preserves (options_keep cmd) hparse hdefault
    split at h
    · cases h
    · cases h
      exact hknown

/-- Without injected bugs a scenario can be replayed by its command if and only if it suppresses
no fault and its profile is known. -/
theorem replays_iff (hbugs : s.bugs = NO_BUGS)
    (hjson : ∀ n, s.nemesis = some n → json.Faithful (n.ops.map (·.encode))) :
    Replays json s ↔ s.suppressed = ∅ ∧ s.faults ∈ PROFILES := by
  constructor
  · rintro ⟨argv, args, -, hargs, -, hcluster, -⟩
    -- the command line has no option for the mask
    have hmask : ∅ = s.suppressed := congrArg ClusterArgs.suppressed hcluster
    have hfaults : args.faults = s.faults := congrArg ClusterArgs.faults hcluster
    exact ⟨hmask.symm, hfaults ▸ knownProfile_of_parseArgs hargs⟩
  · rintro ⟨hmask, hfaults⟩
    refine ⟨_, _, shellWords_replayCommand hfaults hjson, parseArgs_replayWords hfaults hjson, rfl,
      ?_, rfl⟩
    have heffective : effective (effective s.nemesis) = effective s.nemesis := by
      unfold effective
      rw [Option.filter_filter]
      simp only [Bool.and_self]
    unfold ClusterArgs.effective Args.cluster parsedArgs Scenario.cluster
    dsimp only
    rw [heffective, hmask, hbugs]
    rfl

/-- A run on three nodes under a schedule of one pattern. -/
def scheduledScenario : Scenario :=
  { nodes := 3, seed := 7, faults := "chaos".toList, steps := 4000, membership := true,
    nemesis := some halvesSchedule }

theorem scheduledScenario_replays : Replays halvesJson scheduledScenario := by
  refine (replays_iff rfl ?_).mpr ⟨rfl, by decide⟩
  intro n hn
  cases hn
  exact halvesJson_faithful

/-- The same run without its first fault. -/
def shrunkScenario : Scenario := { scheduledScenario with suppressed := {0} }

theorem shrunkScenario_not_replayed : ¬ ∀ (json : Json) (s : Scenario), s.bugs = NO_BUGS →
    (∀ n, s.nemesis = some n → json.Faithful (n.ops.map (·.encode))) → Replays json s := by
  intro hall
  have hreplays : Replays halvesJson shrunkScenario := by
    refine hall halvesJson shrunkScenario rfl fun n hn => ?_
    cases hn
    exact halvesJson_faithful
  obtain ⟨argv, args, -, -, -, hcluster, -⟩ := hreplays
  have hmask : ∅ = ({0} : Finset ℕ) := congrArg ClusterArgs.suppressed hcluster
  exact absurd hmask (by decide)

end Cli
end RaftVerified
