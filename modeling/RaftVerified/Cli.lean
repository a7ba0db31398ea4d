import RaftVerified.CommandLine
import RaftVerified.NemesisJson
import RaftVerified.RaftChecker

/-! The commands (`cli.py`), and the replay hint a cluster gives its checker (`cluster.py`). -/
namespace RaftVerified
open CommandLine

/-- The names in `PROFILES`. -/
def PROFILES : List Str := ["none".toList, "light".toList, "chaos".toList]

/-- What a run depends on. The schedule enters a run by its injections alone. -/
structure ClusterSetup where
  numNodes : ℤ
  seed : ℤ
  faults : Str
  membership : Bool
  injections : List Injection
  deriving DecidableEq

/-- The runs of clusters: the first violation of each, if there is one, and the step that finds
it. -/
abbrev ClusterRuns := ClusterSetup → Option (Violation × ℕ)

/-- The end of a hint: a schedule without patterns is left out. -/
def nemesisHint (json : Json) : Option NemesisSchedule → Str
  | some s => if s.ops ≠ [] then " --nemesis '".toList ++ s.toJson json ++ "'".toList else []
  | none => []

/-- The hint of `Cluster.__init__`. -/
def replayHint (json : Json) (nodes seed : ℤ) (faults : Str) (membership : Bool)
    (nemesis : Option NemesisSchedule) : Str :=
  "raftverified replay --nodes ".toList ++ intStr nodes ++ " --seed ".toList ++ intStr seed ++
    " --faults ".toList ++ faults ++ (if membership then " --membership".toList else []) ++
    nemesisHint json nemesis

namespace Cli

/-- `_execute`: a `ValueError` of the constructor, or the violation the run raises within its
steps. -/
def execute (json : Json) (runs : ClusterRuns) (nodes seed : ℤ) (faults : Str) (steps : ℤ)
    (membership : Bool) (nemesis : Option NemesisSchedule) :
    Except Str (Option InvariantViolation) :=
  if nodes < 1 then .error "need at least one node".toList
  else if faults ∉ PROFILES then
    .error ("unknown fault profile: ".toList ++ json.repr (.str faults))
  else if membership ∧ nodes < 3 then
    .error "membership mode needs at least three nodes".toList
  else
    let maxNode := (nemesis.map (·.maxNode)).getD (-1)
    if nodes ≤ maxNode then
      .error ("nemesis schedule names node n".toList ++ intStr maxNode ++
        "; this cluster only has n0..n".toList ++ intStr (nodes-1))
    else
      let checker := InvariantChecker.new seed
        (replayHint json nodes seed faults membership nemesis)
      -- no schedule and one without patterns give the same run
      let injections := (nemesis.map (·.injections)).getD []
      match runs ⟨nodes, seed, faults, membership, injections⟩ with
      | some (violation, step) =>
        .ok (if (step : ℤ) ≤ steps then some ⟨violation, seed, step, checker.replayHint⟩ else none)
      | none => .ok none

/-! ### The parser -/

inductive Command
  | run
  | check
  | replay
  | report
  deriving DecidableEq

/-- The namespace `parse_args` returns. `replay` has no seed until it is given one. -/
structure Args where
  command : Command
  nodes : ℤ := 5
  seed : Option ℤ
  seeds : ℤ := 300
  faults : Str := "none".toList
  steps : ℤ
  membership : Bool := false
  nemesis : Option NemesisSchedule := none
  timeline : Option Str := none
  out : Str := "raftverified-report.html".toList
  deriving DecidableEq

/-- An option with `type=int`. -/
def intOption (set : ℤ → Args → Args) : Action Args :=
  .store fun text args => (pyInt text).map fun z => set z args

/-- `_nemesis_arg`. -/
def nemesisOption (json : Json) : Action Args :=
  .store fun text args =>
    (NemesisSchedule.fromJson json text).toOption.map fun s => { args with nemesis := some s }

/-- `choices=["none", "light", "chaos"]`. -/
def faultsOption : Action Args :=
  .store fun text args => if text ∈ PROFILES then some { args with faults := text } else none

def seedOption : Action Args := intOption fun z args => { args with seed := some z }

/-- `common`, and the options every parser has. -/
def common (json : Json) : Options Args :=
  [("-h".toList, .exit), ("--help".toList, .exit),
    ("--nodes".toList, intOption fun z args => { args with nodes := z }),
    ("--faults".toList, faultsOption),
    ("--steps".toList, intOption fun z args => { args with steps := z }),
    ("--membership".toList, .storeTrue fun args => { args with membership := true }),
    ("--nemesis".toList, nemesisOption json)]

def options (json : Json) : Command → Options Args
  | .run => ("--seed".toList, seedOption) :: common json ++
    [("--timeline".toList, .store fun text args => some { args with timeline := some text })]
  | .check => ("--seeds".toList, intOption fun z args => { args with seeds := z }) :: common json
  | .replay => ("--seed".toList, seedOption) :: common json
  | .report => ("--seed".toList, seedOption) :: common json ++
    [("--out".toList, .store fun text args => some { args with out := text })]

def defaults : Command → Args
  | .run => { command := .run, seed := some 0, steps := 20000 }
  | .check => { command := .check, seed := none, steps := 5000 }
  | .replay => { command := .replay, seed := none, steps := 20000 }
  | .report => { command := .report, seed := some 0, steps := 20000 }

def command (name : Str) : Option Command :=
  if name = "run".toList then some .run
  else if name = "check".toList then some .check
  else if name = "replay".toList then some .replay
  else if name = "report".toList then some .report
  else none

/-- `build_parser().parse_args`; `none` when it exits. -/
def parseArgs (json : Json) : List Str → Option Args
  | [] => none
  | name :: rest => do
    let cmd ← command name
    let args ← parse (options json cmd) rest (defaults cmd)
    if cmd = .replay ∧ args.seed = none then none else some args

/-! ### The commands -/

/-- A run with the given arguments and a seed. -/
def executeArgs (json : Json) (runs : ClusterRuns) (args : Args) (seed : ℤ) :
    Except Str (Option InvariantViolation) :=
  execute json runs args.nodes seed args.faults args.steps args.membership args.nemesis

/-- `cmd_run` and `cmd_report`: the violation they print, if there is one. -/
def cmdRun (json : Json) (runs : ClusterRuns) (args : Args) :
    Except Str (List InvariantViolation) :=
  (executeArgs json runs args (args.seed.getD 0)).map Option.toList

/-- `cmd_check`: the violations of all the seeds. -/
def cmdCheck (json : Json) (runs : ClusterRuns) (args : Args) :
    Except Str (List InvariantViolation) := do
  let found ← (List.range args.seeds.toNat).mapM fun seed =>
    executeArgs json runs args (Int.ofNat seed)
  .ok (found.filterMap id)

/-- `cmd_replay`: two attempts, of which the first violation is the last. -/
def cmdReplay (json : Json) (runs : ClusterRuns) (args : Args) :
    Except Str (List InvariantViolation) := do
  match ← executeArgs json runs args (args.seed.getD 0) with
  -- the first attempt returns at once
  | some violation => .ok [violation]
  | none => (executeArgs json runs args (args.seed.getD 0)).map Option.toList

/-- `main`: the violations an invocation raises, or a `ValueError`, which is a usage error. -/
def main (json : Json) (runs : ClusterRuns) (args : Args) : Except Str (List InvariantViolation) :=
  match args.command with
  | .run => cmdRun json runs args
  | .check => cmdCheck json runs args
  | .replay => cmdReplay json runs args
  | .report => cmdRun json runs args

end Cli
end RaftVerified
