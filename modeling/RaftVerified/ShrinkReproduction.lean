import RaftVerified.ShrinkSearch

/-! When a shrunk scenario still fails the way the original did. The searches take for
granted that the run with no fault suppressed fails, which says nothing about a scenario
that comes with a mask. -/
namespace RaftVerified
namespace Shrink

variable {R : Runner} {scenario : Scenario} {target : Option Str} {signature : Str} {fuel : ℕ}

/-- The scenario without its mask. -/
def unmasked (scenario : Scenario) : Scenario := { scenario with suppressed := ∅ }

/-- The failure also shows when nothing is suppressed, with one of the masks tried first, or
with no mask at one of the budgets tried first. -/
def Covered (R : Runner) (scenario : Scenario) (signature : Str) : Prop :=
  R.failureSignature (unmasked scenario) = some signature ∨
  (∃ kept, Probe (List.range (R.faultCount scenario)) kept ∧
    R.failureSignature (keeping scenario (R.faultCount scenario) kept) = some signature) ∨
  ∃ j, R.failureSignature { unmasked scenario with steps := budget scenario.steps j } =
    some signature

/-- Whatever `shrink` returns fails with the signature it reports. -/
def Reproduces (R : Runner) (scenario : Scenario) (target : Option Str) : Prop :=
  ∀ fuel ce, shrink R scenario target fuel = some (some ce) →
    R.failureSignature ce.scenario = some ce.signature

theorem keeping_all (scenario : Scenario) (total : ℕ) :
    keeping scenario total (List.range total) = unmasked scenario := by
  have hrange : Finset.range total \ (List.range total).toFinset = ∅ := by
    refine Finset.sdiff_eq_empty_iff_subset.mpr fun k hk => ?_
    rw [List.mem_toFinset, List.mem_range]
    exact Finset.mem_range.mp hk
  unfold keeping unmasked
  rw [hrange]

theorem keeping_zero (scenario : Scenario) (kept : List ℕ) :
    keeping scenario 0 kept = unmasked scenario := by
  unfold keeping unmasked
  rw [Finset.range_zero, Finset.empty_sdiff]

/-- What `shrink` does to a failing scenario: the kept ordinals, then the budget. -/
theorem shrink_some (hsig : R.failureSignature scenario = some signature)
    (hwant : wanted target (some signature) = some signature) {ce : Counterexample} :
    shrink R scenario target fuel = some (some ce) ↔ ∃ kept steps,
      minimalKept R scenario signature fuel = some kept ∧
      minSteps R (keeping scenario (R.faultCount scenario) kept) signature fuel = some steps ∧
      ce = report R scenario { keeping scenario (R.faultCount scenario) kept with steps }
        signature := by
  unfold shrink
  rw [hsig]
  dsimp only
  rw [if_neg (not_not.mpr hwant)]
  constructor
  · intro h
    obtain ⟨kept, hkept, h⟩ := Option.bind_eq_some_iff.mp h
    obtain ⟨steps, hsteps, h⟩ := Option.bind_eq_some_iff.mp h
    exact ⟨kept, steps, hkept, hsteps, (Option.some.inj (Option.some.inj h)).symm⟩
  · rintro ⟨kept, steps, hkept, hsteps, rfl⟩
    exact Option.bind_eq_some_iff.mpr ⟨kept, hkept,
      Option.bind_eq_some_iff.mpr ⟨steps, hsteps, rfl⟩⟩

theorem minimalKept_total (R : Runner) (scenario : Scenario) (signature : Str) :
    ∃ kept fuel, ∀ fuel', fuel ≤ fuel' →
      minimalKept R scenario signature fuel' = some kept := by
  unfold minimalKept
  dsimp only
  split
  · exact ⟨[], 0, fun _ _ => rfl⟩
  · exact ddmin_total _ _

/-- A failing scenario is shrunk to something. -/
theorem shrink_total (hsig : R.failureSignature scenario = some signature)
    (hwant : wanted target (some signature) = some signature) :
    ∃ fuel ce, shrink R scenario target fuel = some (some ce) := by
  obtain ⟨kept, fuel1, h1⟩ := minimalKept_total R scenario signature
  obtain ⟨steps, fuel2, h2⟩ := minStepsRound_total (fun mid => R.failureSignature
    { keeping scenario (R.faultCount scenario) kept with steps := mid } = some signature)
    scenario.steps
  exact ⟨max fuel1 fuel2, _, (shrink_some hsig hwant).mpr ⟨kept, steps,
    h1 _ (le_max_left _ _), h2 _ (le_max_right _ _), rfl⟩⟩

/-- The kept ordinals have been seen to fail, or they are all of them and nothing tried has. -/
theorem minimalKept_seen {kept : List ℕ}
    (h : minimalKept R scenario signature fuel = some kept) :
    R.failureSignature (keeping scenario (R.faultCount scenario) kept) = some signature ∨
    keeping scenario (R.faultCount scenario) kept = unmasked scenario ∧
      ∀ c, Probe (List.range (R.faultCount scenario)) c →
        R.failureSignature (keeping scenario (R.faultCount scenario) c) ≠ some signature := by
  unfold minimalKept at h
  dsimp only at h
  split at h
  next hzero =>
    simp only [hzero, keeping_zero]
    by_cases hf : R.failureSignature (unmasked scenario) = some signature
    · exact Or.inl hf
    · exact Or.inr ⟨trivial, fun _ _ => hf⟩
  next =>
    rcases ddmin_seen h with hf | ⟨rfl, hall⟩
    · exact Or.inl (of_decide_eq_true hf)
    · exact Or.inr ⟨keeping_all _ _, fun c hc => of_decide_eq_false (hall c hc)⟩

theorem minimalKept_unseen {kept : List ℕ}
    (hall : ∀ c, Probe (List.range (R.faultCount scenario)) c →
      R.failureSignature (keeping scenario (R.faultCount scenario) c) ≠ some signature)
    (h : minimalKept R scenario signature fuel = some kept) :
    keeping scenario (R.faultCount scenario) kept = unmasked scenario := by
  unfold minimalKept at h
  dsimp only at h
  split at h
  next hzero => rw [hzero, keeping_zero]
  next =>
    obtain rfl := ddmin_unseen (fun c hc => decide_eq_false (hall c hc)) h
    exact keeping_all _ _

/-- A mask that fails at the original budget is trimmed to one that fails. -/
theorem minSteps_fails {s : Scenario} {steps : ℤ} (hpos : 1 ≤ s.steps)
    (hfail : R.failureSignature s = some signature)
    (h : minSteps R s signature fuel = some steps) :
    R.failureSignature { s with steps } = some signature := by
  rcases minSteps_seen hpos h with hf | ⟨rfl, -⟩
  · exact of_decide_eq_true hf
  · exact hfail

theorem reproduces_of_covered (hpos : 1 ≤ scenario.steps)
    (hsig : R.failureSignature scenario = some signature)
    (hwant : wanted target (some signature) = some signature)
    (hcov : Covered R scenario signature) : Reproduces R scenario target := by
  intro fuel ce h
  obtain ⟨kept, steps, hkept, hsteps, rfl⟩ := (shrink_some hsig hwant).mp h
  rcases minimalKept_seen hkept with hf | ⟨hkeep, hnone⟩
  · exact minSteps_fails hpos hf hsteps
  · change R.failureSignature { keeping scenario (R.faultCount scenario) kept with steps } = _
    rw [hkeep] at hsteps ⊢
    rcases hcov with hf | ⟨c, hc, hf⟩ | ⟨j, hf⟩
    · exact minSteps_fails hpos hf hsteps
    · exact absurd hf (hnone c hc)
    · rcases minSteps_seen hpos hsteps with hr | ⟨-, hall⟩
      · exact of_decide_eq_true hr
      · exact absurd hf (of_decide_eq_false (hall j))

theorem covered_of_reproduces (hpos : 1 ≤ scenario.steps)
    (hsig : R.failureSignature scenario = some signature)
    (hwant : wanted target (some signature) = some signature)
    (h : Reproduces R scenario target) : Covered R scenario signature := by
  by_contra hcov
  unfold Covered at hcov
  push Not at hcov
  obtain ⟨hfull, hprobe, hbudget⟩ := hcov
  obtain ⟨fuel, ce, hce⟩ := shrink_total hsig hwant
  have hrep := h fuel ce hce
  obtain ⟨kept, steps, hkept, hsteps, rfl⟩ := (shrink_some hsig hwant).mp hce
  have hkeep := minimalKept_unseen hprobe hkept
  change R.failureSignature { keeping scenario (R.faultCount scenario) kept with steps } = _
    at hrep
  rw [hkeep] at hsteps hrep
  obtain rfl := minSteps_unseen hpos (fun j => decide_eq_false (hbudget j)) hsteps
  exact hfull hrep

/-- What `shrink` returns reproduces its failure exactly when the failure is covered by
what is tried first. An empty initial mask always is; a run of no steps never fails. -/
theorem shrink_reproduces_iff (R : Runner)
    (hrun : ∀ s : Scenario, s.steps < 1 → R.failureSignature s = none) (scenario : Scenario)
    (target : Option Str) : Reproduces R scenario target ↔
      ∀ signature, R.failureSignature scenario = some signature →
        wanted target (some signature) = some signature → Covered R scenario signature := by
  constructor
  · intro h signature hsig hwant
    refine covered_of_reproduces ?_ hsig hwant h
    -- a scenario without steps has no failure to shrink
    by_contra hpos
    rw [hrun scenario (by omega)] at hsig
    cases hsig
  · intro h fuel ce hce
    cases hsig : R.failureSignature scenario with
    | none =>
      unfold shrink at hce
      rw [hsig] at hce
      cases hce
    | some signature =>
      by_cases hwant : wanted target (some signature) = some signature
      · refine reproduces_of_covered ?_ hsig hwant (h signature hsig hwant) fuel ce hce
        by_contra hpos
        rw [hrun scenario (by omega)] at hsig
        cases hsig
      -- another failure than the one asked for is not shrunk
      · unfold shrink at hce
        rw [hsig] at hce
        dsimp only at hce
        rw [if_pos hwant] at hce
        cases hce

/-! ### Shrinking twice -/

/-- Three faults: the run fails at step 20, without the first of them at step 15, and
without the first two at step 10. -/
def masked : Runner where
  failureSignature s :=
    if s.suppressed = ∅ ∧ 20 ≤ s.steps ∨ s.suppressed = {0} ∧ 15 ≤ s.steps ∨
      s.suppressed = {0, 1} ∧ 10 ≤ s.steps then some "LeaderCompleteness".toList
    else none
  faultCount _ := 3
  events _ := []

def campaign : Scenario := { nodes := 3, seed := 0, faults := "chaos".toList, steps := 20 }

theorem campaign_reproduces : Reproduces masked campaign none := by
  refine (shrink_reproduces_iff masked (fun s hs => if_neg (by omega)) campaign none).mpr ?_
  intro signature hsig _
  exact Or.inl hsig

/-- What the campaign is shrunk to. -/
def shrunk : Counterexample where
  scenario := { campaign with suppressed := {0, 1}, steps := 10 }
  signature := "LeaderCompleteness".toList
  faultEvents := []
  injectionCount := 0
  originalFaultCount := 3
  originalSteps := 20

/-- Shrunk once more, it comes back without its mask, and does not fail. -/
theorem reshrunk_does_not_fail : shrink masked campaign none 50 = some (some shrunk) ∧
    ∃ again, shrink masked shrunk.scenario none 50 = some (some again) ∧
      masked.failureSignature again.scenario ≠ some again.signature := by
  refine ⟨by decide +kernel, { shrunk with
    scenario := { campaign with suppressed := ∅, steps := 10 }, originalSteps := 10 }, ?_, ?_⟩
  · decide +kernel
  · decide +kernel

end Shrink
end RaftVerified
