import RaftVerified.HarnessScenario

/-! The commands of the command line (`cli.py`) over the clusters they run. No invocation reports a
violation, since no defect can be planted from there. -/
namespace RaftVerified

namespace Cli

def EXIT_OK : ℤ := 0
def EXIT_VIOLATION : ℤ := 1
def EXIT_USAGE : ℤ := 2

/-- What a command prints and returns: the violations, the number of checks that have been made,
and what the oracle says of the history. The files it writes are left out. -/
structure Printed where
  exit : ℤ
  violations : List InvariantViolation := []
  checks : ℕ := 0
  verdict : Option Linearizability.LinearizabilityResult := none

/-- What `_execute` gives `Cluster`. -/
def Args.options (args : Args) (seed : ℤ) : ClusterOptions where
  numNodes := args.nodes
  seed := seed
  faults := args.faults
  membership := args.membership
  nemesis := args.nemesis

section
variable {σ : Type} (D : Platform σ)

/-- `_execute`. -/
def Args.play (args : Args) (seed : ℤ) : Except Mishap (Ending σ) :=
  (args.options seed).play D args.steps

/-- What a run prints, which a violation may have ended. -/
def printed (out : Ending σ) : Printed :=
  match out.violation with
  | some v => { exit := EXIT_VIOLATION, violations := [v] }
  | none => { exit := EXIT_OK, checks := out.cluster.checker.checksRun }

/-- `cmd_run`. -/
def playRun (args : Args) : Except Mishap Printed := do
  let out ← args.play D (args.seed.getD 0)
  .ok (printed out)

/-- `cmd_check`. -/
def playCheck (args : Args) : Except Mishap Printed := do
  let outs ← (List.range args.seeds.toNat).mapM fun seed => args.play D (Int.ofNat seed)
  let violations := outs.filterMap (·.violation)
  .ok {
    exit := if violations = [] then EXIT_OK else EXIT_VIOLATION
    violations
    checks := (outs.map fun out => (printed out).checks).sum }

/-- `cmd_replay`: two attempts. Their traces are equal, since a run is a function of its
arguments. -/
def playReplay (args : Args) : Except Mishap Printed := do
  let a ← args.play D (args.seed.getD 0)
  if a.violation.isSome then .ok (printed a)
  else do
    let b ← args.play D (args.seed.getD 0)
    if b.violation.isSome then .ok (printed b) else .ok (printed a)

/-- `cmd_report`, when the oracle returns within `fuel` rounds. -/
def playReport (fuel : ℕ) (args : Args) : Option (Except Mishap Printed) :=
  match args.play D (args.seed.getD 0) with
  | .error e => some (.error e)
  | .ok out =>
    if out.violation.isSome then some (.ok (printed out))
    else (Linearizability.check 500000 out.cluster.clients.history none fuel).map fun r =>
      .ok { printed out with verdict := some r }

def playCommand (fuel : ℕ) (args : Args) : Option (Except Mishap Printed) :=
  match args.command with
  | .run => some (playRun D args)
  | .check => some (playCheck D args)
  | .replay => some (playReplay D args)
  | .report => playReport D fuel args

/-- `main`, once the arguments are parsed: a `ValueError` is a usage error, wherever it is
raised. -/
def playMain (fuel : ℕ) (args : Args) : Option (Except Failure Printed) :=
  (playCommand D fuel args).map fun
    | .ok p => .ok p
    | .error (.valueError _) => .ok { exit := EXIT_USAGE }
    | .error (.failure (.net (.valueError _))) => .ok { exit := EXIT_USAGE }
    | .error (.failure e) => .error e

end

/-! ### Nothing is found -/

section
variable {σ : Type} {D : Platform σ} {args : Args} {c : HarnessSetup}

/-- A clean run of a cluster of the command line. -/
structure Clean (args : Args) (out : Ending σ) : Prop where
  unviolated : out.violation = none
  checks : out.cluster.checker.checksRun = args.steps.toNat
  verdict : ∃ fuel r, (∀ fuel', fuel ≤ fuel' →
    Linearizability.check 500000 out.cluster.clients.history none fuel' = some r) ∧
    (args.membership = false → r.linearizable = false → r.Undetermined)

theorem Clean.printed {out : Ending σ} (h : Clean args out) :
    printed out = { exit := EXIT_OK, checks := args.steps.toNat } := by
  unfold Cli.printed
  rw [h.unviolated]
  dsimp only
  rw [h.checks]

theorem Args.plain (args : Args) (seed : ℤ) : (args.options seed).Plain :=
  ⟨rfl, rfl, rfl, rfl, rfl, rfl⟩

/-- The constructor rejects the arguments whatever the seed, or every run is clean. -/
theorem Args.play_cases (D : Platform σ) (args : Args) :
    (∃ text, (args.options 0).setup D.json = .error text ∧
      ∀ seed, args.play D seed = .error (.valueError text)) ∨
    ∀ seed, ∃ out, args.play D seed = .ok out ∧ Clean args out := by
  -- the checks of the constructor do not look at the seed
  have hseed : ∀ seed, (args.options seed).setup D.json =
      ((args.options 0).setup D.json).map fun c =>
        { c with suppressed := ∅, seed, recordHistory := true } :=
    fun seed => ClusterOptions.setup_map D.json (args.options 0) ∅ seed true
  cases hc : (args.options 0).setup D.json with
  | error text =>
    refine Or.inl ⟨text, rfl, fun seed => ?_⟩
    unfold play ClusterOptions.play
    rw [hseed, hc]
    rfl
  | ok c =>
    refine Or.inr fun seed => ?_
    have hok := hseed seed
    rw [hc] at hok
    obtain ⟨h, hplay, hrecorded, hsteps, hspared⟩ := (args.plain seed).play D hok args.steps
    refine ⟨⟨none, h⟩, hplay, rfl, hrecorded.checked.trans hsteps, ?_⟩
    by_cases hoff : args.membership = false
    · obtain ⟨fuel, r, hall, hopen⟩ := hspared hoff 500000
      exact ⟨fuel, r, hall, fun _ => hopen⟩
    · obtain ⟨fuel, r, hall, -⟩ := Linearizability.check_verdict h.clients.history none 500000
      exact ⟨fuel, r, hall, fun hm => absurd hm hoff⟩

theorem playCheck_clean (hplay : ∀ seed, ∃ out, args.play D seed = .ok out ∧ Clean args out) :
    playCheck D args =
      .ok { exit := EXIT_OK, checks := args.seeds.toNat*args.steps.toNat } := by
  obtain ⟨outs, houts, hlen, hall⟩ :=
    mapM_returns (fun seed : ℕ => hplay (Int.ofNat seed)) (List.range args.seeds.toNat)
  have hnone : outs.filterMap (·.violation) = [] :=
    List.filterMap_eq_nil_iff.mpr fun out hout => (hall out hout).unviolated
  have hchecks : (outs.map fun out => (printed out).checks).sum =
      args.seeds.toNat*args.steps.toNat := by
    rw [List.sum_eq_card_nsmul _ args.steps.toNat, List.length_map, hlen, List.length_range,
      smul_eq_mul]
    intro n hn
    obtain ⟨out, hout, rfl⟩ := List.mem_map.mp hn
    rw [(hall out hout).printed]
  unfold playCheck
  rw [houts]
  show Except.ok (Printed.mk _ _ _ _) = _
  rw [hnone, hchecks, if_pos rfl]

theorem playCommand_clean (hplay : ∀ seed, ∃ out, args.play D seed = .ok out ∧ Clean args out) :
    ∃ fuel p, (∀ fuel', fuel ≤ fuel' → playCommand D fuel' args = some (.ok p)) ∧
      p.violations = [] ∧ p.exit = EXIT_OK ∧
      p.checks = (if args.command = .check then args.seeds.toNat else 1)*args.steps.toNat ∧
      (args.membership = false → ∀ r ∈ p.verdict, r.linearizable = false → r.Undetermined) := by
  obtain ⟨out, hout, hclean⟩ := hplay (args.seed.getD 0)
  have hnone : out.violation.isSome = false := by
    rw [hclean.unviolated]
    rfl
  unfold playCommand
  cases hcmd : args.command with
  | run =>
    refine ⟨0, printed out, fun _ _ => congrArg some (bind_ok.mpr ⟨out, hout, rfl⟩), ?_⟩
    rw [hclean.printed]
    exact ⟨rfl, rfl, (Nat.one_mul _).symm, fun _ r hr => by cases hr⟩
  | check =>
    refine ⟨0, _, fun _ _ => congrArg some (playCheck_clean hplay), rfl, rfl, rfl,
      fun _ r hr => by cases hr⟩
  | replay =>
    refine ⟨0, printed out, fun _ _ => congrArg some (bind_ok.mpr ⟨out, hout, ?_⟩), ?_⟩
    · rw [hnone]
      refine bind_ok.mpr ⟨out, hout, ?_⟩
      rw [hnone]
      rfl
    · rw [hclean.printed]
      exact ⟨rfl, rfl, (Nat.one_mul _).symm, fun _ r hr => by cases hr⟩
  | report =>
    obtain ⟨fuel, r, hall, hopen⟩ := hclean.verdict
    refine ⟨fuel, { printed out with verdict := some r }, fun fuel' hle => ?_, ?_⟩
    · show playReport D fuel' args = _
      unfold playReport
      rw [hout]
      dsimp only
      rw [hnone, hall fuel' hle]
      rfl
    · rw [hclean.printed]
      refine ⟨rfl, rfl, (Nat.one_mul _).symm, fun hoff r' hr => ?_⟩
      obtain rfl := Option.some.inj hr
      exact hopen hoff

/-- A cluster is built, and its constructor rejects the arguments. -/
def Args.Rejected (json : Json) (args : Args) : Prop :=
  (∃ text, (args.options 0).setup json = .error text) ∧
    ¬ (args.command = .check ∧ args.seeds ≤ 0)

/-- Arguments that no cluster accepts are noticed with the first cluster. -/
theorem playCommand_rejected {text : Str}
    (hplay : ∀ seed, args.play D seed = .error (.valueError text)) :
    ¬ (args.command = .check ∧ args.seeds ≤ 0) ∧
        (∀ fuel, playCommand D fuel args = some (.error (.valueError text))) ∨
      (args.command = .check ∧ args.seeds ≤ 0) ∧
        ∀ fuel, playCommand D fuel args = some (.ok { exit := EXIT_OK }) := by
  unfold playCommand
  cases hcmd : args.command with
  | run =>
    refine Or.inl ⟨fun h => (by cases h.1), fun _ => congrArg some ?_⟩
    unfold playRun
    rw [hplay]
    rfl
  | check =>
    dsimp only
    unfold playCheck
    cases hn : args.seeds.toNat with
    -- no seed, no cluster: nobody rejects the arguments
    | zero => exact Or.inr ⟨⟨rfl, Int.toNat_eq_zero.mp hn⟩, fun _ => rfl⟩
    | succ n =>
      refine Or.inl ⟨fun h => ?_, fun _ => congrArg some ?_⟩
      · rw [Int.toNat_eq_zero.mpr h.2] at hn
        cases hn
      rw [List.range_succ_eq_map, List.mapM_cons, hplay]
      rfl
  | replay =>
    refine Or.inl ⟨fun h => (by cases h.1), fun _ => congrArg some ?_⟩
    unfold playReplay
    rw [hplay]
    rfl
  | report =>
    refine Or.inl ⟨fun h => (by cases h.1), fun _ => ?_⟩
    dsimp only
    unfold playReport
    rw [hplay]

/-- Every invocation ends, without a violation and without another exception than that of a
constructor that rejects its arguments, which is a usage error: else each seed has been checked
after every step. No history is condemned, unless there is churn. -/
theorem main_clean (D : Platform σ) (args : Args) : ∃ fuel p,
    (∀ fuel', fuel ≤ fuel' → playMain D fuel' args = some (.ok p)) ∧ p.violations = [] ∧
      (args.Rejected D.json ∧ p.exit = EXIT_USAGE ∨
        ¬ args.Rejected D.json ∧ p.exit = EXIT_OK ∧
          p.checks = (if args.command = .check then args.seeds.toNat else 1)*args.steps.toNat) ∧
      (args.membership = false → ∀ r ∈ p.verdict, r.linearizable = false → r.Undetermined) := by
  rcases args.play_cases D with ⟨text, htext, hplay⟩ | hplay
  · unfold playMain
    rcases playCommand_rejected hplay with ⟨hsome, hreject⟩ | ⟨hnone, hok⟩
    · refine ⟨0, { exit := EXIT_USAGE }, fun fuel' _ => ?_, rfl,
        Or.inl ⟨⟨⟨text, htext⟩, hsome⟩, rfl⟩, fun _ r hr => by cases hr⟩
      rw [hreject]
      rfl
    · refine ⟨0, { exit := EXIT_OK }, fun fuel' _ => ?_, rfl,
        Or.inr ⟨fun h => h.2 hnone, rfl, ?_⟩, fun _ r hr => by cases hr⟩
      · rw [hok]
        rfl
      · rw [if_pos hnone.1, Int.toNat_eq_zero.mpr hnone.2, Nat.zero_mul]
  · obtain ⟨fuel, p, hall, hnone, hexit, hchecks, hopen⟩ := playCommand_clean hplay
    refine ⟨fuel, p, fun fuel' hle => ?_, hnone, Or.inr ⟨?_, hexit, hchecks⟩, hopen⟩
    · unfold playMain
      rw [hall fuel' hle]
      rfl
    -- a constructor that accepts for one seed accepts
    · rintro ⟨⟨text, htext⟩, -⟩
      obtain ⟨out, hout, -⟩ := hplay 0
      unfold Args.play ClusterOptions.play at hout
      rw [htext] at hout
      cases hout

end
end Cli
end RaftVerified
