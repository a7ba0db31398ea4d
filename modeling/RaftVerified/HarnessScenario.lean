import RaftVerified.HarnessBooks
import RaftVerified.HarnessMask
import RaftVerified.LinearizabilityVerdict
import RaftVerified.LinearizableHistory
import RaftVerified.ShrinkMinimality

/-! The runs of the shrinker (`shrink.py`) are runs of the cluster: what `failure_signature`,
`_fault_count` and `_fault_events` read off them. -/
namespace RaftVerified

/-- An exception that is not a violation: of the constructor, or of the run. -/
inductive Mishap
  | valueError (text : Str)
  | failure (e : Failure)

/-- What a run within its budget leaves behind. -/
structure Ending (σ : Type) where
  violation : Option InvariantViolation
  cluster : Harness σ

/-- A cluster that is built and run. -/
def ClusterOptions.play {σ : Type} (D : Platform σ) (o : ClusterOptions) (steps : ℤ) :
    Except Mishap (Ending σ) :=
  match o.setup D.json with
  | .error text => .error (.valueError text)
  | .ok c =>
    match Harness.init D c with
    | .error e => .error (.failure e)
    | .ok h =>
      match Harness.run D c steps.toNat h with
      | .ok h' => .ok ⟨none, h'⟩
      | .error (.violated v left) => .ok ⟨some v, left⟩
      | .error (.raised e) => .error (.failure e)

namespace Scenario
variable {σ : Type} (D : Platform σ)

/-- The arguments of `_cluster`, those it does not give at their defaults. -/
def options (s : Scenario) : ClusterOptions := { toClusterArgs := s.cluster }

/-- A fresh cluster, run for the steps of the scenario. -/
def play (s : Scenario) : Except Mishap (Ending σ) := s.options.play D s.steps

/-- `failure_signature`, when the oracle returns within `fuel` rounds. -/
def failureSignature (fuel : ℕ) (s : Scenario) : Option (Except Mishap (Option Str)) :=
  match s.play D with
  | .error e => some (.error e)
  | .ok ⟨some v, _⟩ => some (.ok (some v.violation.invariant))
  | .ok ⟨none, h⟩ => (Linearizability.check 500000 h.clients.history none fuel).map fun r =>
      .ok (if r.linearizable then none else some "nonlinearizable".toList)

/-- `_fault_count`. -/
def faultCount (s : Scenario) : Except Mishap ℕ := (s.play D).map (·.cluster.faultSeq)

/-- The events that `_fault_events` looks through. -/
def events (s : Scenario) : Except Mishap (List (ℤ × Str × Str)) :=
  (s.play D).map fun o => o.cluster.events.map fun e => (e.1, e.2.kind, e.2.detail)

end Scenario

section
variable {σ : Type} {D : Platform σ} {c : HarnessSetup} {h : Harness σ} {steps : ℤ}
  {opts : ClusterOptions} {out : Ending σ}

/-- What a run that leaves an outcome has done. -/
inductive ClusterOptions.Plays (D : Platform σ) (c : HarnessSetup) (h : Harness σ) (steps : ℤ) :
    Ending σ → Prop
  | done {h' : Harness σ} : Harness.run D c steps.toNat h = .ok h' → Plays D c h steps ⟨none, h'⟩
  | violated {v : InvariantViolation} {left : Harness σ} :
      Harness.run D c steps.toNat h = .error (.violated v left) → Plays D c h steps ⟨some v, left⟩

theorem ClusterOptions.play_ok : opts.play D steps = .ok out ↔ ∃ c h,
    opts.setup D.json = .ok c ∧ Harness.init D c = .ok h ∧ Plays D c h steps out := by
  constructor
  · intro hp
    unfold play at hp
    split at hp
    · cases hp
    next c hc =>
      split at hp
      · cases hp
      next h h₀ =>
        refine ⟨c, h, hc, h₀, ?_⟩
        split at hp
        next h' hrun =>
          obtain rfl := Except.ok.inj hp
          exact .done hrun
        next v left hrun =>
          obtain rfl := Except.ok.inj hp
          exact .violated hrun
        · cases hp
  · rintro ⟨c, h, hc, h₀, hplays⟩
    unfold play
    rw [hc]
    dsimp only
    rw [h₀]
    dsimp only
    cases hplays with
    | done hrun => rw [hrun]
    | violated hrun => rw [hrun]

/-! ### Masks -/

theorem ClusterOptions.setup_masked {json : Json} (hc : opts.setup json = .ok c)
    (mask : Finset ℕ) :
    ({ opts with suppressed := mask } : ClusterOptions).setup json = .ok (c.masked mask) := by
  have hmap := setup_map json opts mask opts.seed opts.recordHistory
  obtain ⟨-, -, -, -, -, -, -, -, -, hseed, hrecord⟩ := setup_ok hc
  refine hmap.trans ?_
  rw [hc, ← hseed, ← hrecord]
  rfl

theorem ClusterOptions.play_masked (hp : opts.play D steps = .ok out)
    {mask : Finset ℕ} (hm : AlikeBelow out.cluster.faultSeq opts.suppressed mask) :
    ({ opts with suppressed := mask } : ClusterOptions).play D steps = .ok out := by
  obtain ⟨c, h, hc, h₀, hplays⟩ := play_ok.mp hp
  have hmasked := setup_masked hc mask
  obtain ⟨-, -, -, -, -, -, -, -, hsame, -⟩ := setup_ok hc
  rw [← hsame] at hm
  obtain ⟨hok, hraise⟩ := Harness.run_masked h₀ hm steps.toNat
  refine play_ok.mpr ⟨c.masked mask, h, hmasked, h₀, ?_⟩
  cases hplays with
  | done hrun => exact .done (hok _ hrun le_rfl)
  | violated hrun => exact .violated (hraise _ _ hrun le_rfl)

/-- A mask that is alike below the number of ordinals that a scenario assigns gives the same
run. -/
theorem Scenario.mask_local {s : Scenario} (hp : s.play D = .ok out) {mask : Finset ℕ}
    (hm : AlikeBelow out.cluster.faultSeq s.suppressed mask) :
    ({ s with suppressed := mask } : Scenario).play D = .ok out :=
  ClusterOptions.play_masked hp hm

/-! ### Budgets -/

namespace Harness
variable {left : Harness σ} {v : InvariantViolation} {n m : ℕ}

/-- A violation shows in the runs whose budget reaches its step, and in no other. -/
theorem violated_iff (hinit : Harness.init D c = .ok h)
    (hv : Harness.run D c n h = .error (.violated v left)) :
    Harness.run D c m h = .error (.violated v left) ↔ v.step ≤ m := by
  refine ⟨fun hm => (violation_named hinit hm).within, fun hle => ?_⟩
  have hstart : Machine.Path (Harness.step D c) h [h] := .init
  obtain ⟨t, past, hpath, hraise, -⟩ := hstart.raise hv
  have hstep : v.step = past.length+1 := by
    have hnamed := violation_named hinit hv
    obtain ⟨h₁, turn, run, jobs, net, ht, -, he⟩ := simStep_cases
      ((run_path hinit hpath).reached List.mem_cons_self).wired (step_violated.mp hraise).1
    rw [hnamed.step, he.steps, ht.steps, run_steps (run_path hinit hpath)]
  -- the shortest run that shows it: up to the state it is found from, and one step more
  have hrun : Harness.run D c (past.length+1) h = .error (.violated v left) := by
    unfold Harness.run
    rw [Machine.run_add, hpath.length_run]
    exact Machine.run_error hraise
  exact Machine.run_more hrun (hstep ▸ hle)

end Harness

/-- The violation of a run that is given steps enough. -/
def ClusterOptions.Violates (D : Platform σ) (opts : ClusterOptions) (v : InvariantViolation)
    (left : Harness σ) : Prop := ∃ steps, opts.play D steps = .ok ⟨some v, left⟩

theorem ClusterOptions.play_violated {v : InvariantViolation} {left : Harness σ}
    (hv : opts.Violates D v left) (steps : ℤ) :
    opts.play D steps = .ok ⟨some v, left⟩ ↔ (v.step : ℤ) ≤ steps := by
  obtain ⟨budget, hv⟩ := hv
  obtain ⟨c, h, hc, h₀, hplays⟩ := play_ok.mp hv
  cases hplays with
  | violated hrun =>
    have hiff := Harness.violated_iff (m := steps.toNat) h₀ hrun
    have hpos := (Harness.violation_named h₀ hrun).checked
    constructor
    · intro hp
      obtain ⟨c', h', hc', h₀', hplays⟩ := play_ok.mp hp
      obtain rfl := Except.ok.inj (hc.symm.trans hc')
      obtain rfl := Except.ok.inj (h₀.symm.trans h₀')
      cases hplays with
      | violated hrun' =>
        have hle := hiff.mp hrun'
        omega
    · intro hle
      exact play_ok.mpr ⟨c, h, hc, h₀, .violated (hiff.mpr (by omega))⟩

/-- A cluster that ends with a violation returns whatever its budget. -/
theorem ClusterOptions.Violates.play {v : InvariantViolation} {left : Harness σ}
    (hv : opts.Violates D v left) (steps : ℤ) : ∃ out, opts.play D steps = .ok out := by
  rcases le_or_gt (v.step : ℤ) steps with hle | hlt
  · exact ⟨_, (play_violated hv steps).mpr hle⟩
  obtain ⟨budget, hv⟩ := hv
  obtain ⟨c, h, hc, h₀, hplays⟩ := play_ok.mp hv
  cases hplays with
  | violated hrun =>
    cases hshort : Harness.run D c steps.toNat h with
    | ok t => exact ⟨_, play_ok.mpr ⟨c, h, hc, h₀, .done hshort⟩⟩
    -- what raises within the smaller budget is the violation
    | error e =>
      have hstep := (Harness.violation_named h₀ hrun).within
      have hmore := Machine.run_more hshort (show steps.toNat ≤ budget.toNat by omega)
      obtain rfl := Except.error.inj (hmore.symm.trans hrun)
      exact ⟨_, play_ok.mpr ⟨c, h, hc, h₀, .violated hshort⟩⟩

theorem ClusterOptions.Plays.seq {steps' : ℤ} {out' : Ending σ}
    (h₀ : Harness.init D c = .ok h) (hp : Plays D c h steps out) (hp' : Plays D c h steps' out')
    (hle : steps ≤ steps') : out.cluster.faultSeq ≤ out'.cluster.faultSeq := by
  have hstart : Machine.Path (Harness.step D c) h [h] := .init
  obtain ⟨n, hn⟩ : ∃ n, steps'.toNat = steps.toNat+n := Nat.exists_eq_add_of_le (by omega)
  cases hp with
  | @done h₁ hrun =>
    obtain ⟨past, hpath, -⟩ := hstart.run hrun
    have hr := (Harness.run_path h₀ hpath).reached List.mem_cons_self
    obtain ⟨hok, hraise⟩ := Harness.run_seq (D := D) hr n
    -- the longer run goes on from where the shorter one has stopped
    have hon : Harness.run D c steps'.toNat h = Harness.run D c n h₁ := by
      unfold Harness.run at hrun ⊢
      rw [hn, Machine.run_add, hrun]
      rfl
    cases hp' with
    | done hrun' => exact hok _ (hon.symm.trans hrun')
    | violated hrun' => exact hraise _ _ (hon.symm.trans hrun')
  | violated hrun =>
    have hmore := Machine.run_more hrun (show steps.toNat ≤ steps'.toNat by omega)
    cases hp' with
    | done hrun' => cases hmore.symm.trans hrun'
    | violated hrun' =>
      cases hmore.symm.trans hrun'
      exact le_rfl

/-! ### What the shrinker asks -/

/-- The answers of a cluster, wherever it has any. -/
structure Runner.Tells (D : Platform σ) (R : Runner) : Prop where
  signature : ∀ s fuel answer, s.failureSignature D fuel = some (.ok answer) →
    R.failureSignature s = answer
  count : ∀ s n, s.faultCount D = .ok n → R.faultCount s = n
  events : ∀ s es, s.events D = .ok es → R.events s = es

theorem check_mono {budget : ℤ} {history : List HistoryEntry} {maxOps : Option ℤ} {fuel fuel' : ℕ}
    {r : Linearizability.LinearizabilityResult}
    (h : Linearizability.check budget history maxOps fuel = some r) (hle : fuel ≤ fuel') :
    Linearizability.check budget history maxOps fuel' = some r := by
  unfold Linearizability.check at h ⊢
  dsimp only at h ⊢
  split at h
  next hnone =>
    rw [if_pos hnone]
    exact h
  next hsome =>
    rw [if_neg hsome]
    obtain ⟨x, hx, rfl⟩ := Option.map_eq_some_iff.mp h
    exact Option.map_eq_some_iff.mpr ⟨x, Loop.run_mono hx hle, rfl⟩

namespace Scenario
variable {s : Scenario} {fuel fuel' : ℕ}

theorem failureSignature_done (hp : s.play D = .ok ⟨none, h⟩) : s.failureSignature D fuel =
    (Linearizability.check 500000 h.clients.history none fuel).map fun r =>
      .ok (if r.linearizable then none else some "nonlinearizable".toList) := by
  unfold failureSignature
  rw [hp]

theorem failureSignature_violated {v : InvariantViolation}
    (hp : s.play D = .ok ⟨some v, h⟩) :
    s.failureSignature D fuel = some (.ok (some v.violation.invariant)) := by
  unfold failureSignature
  rw [hp]

theorem faultCount_ok (hp : s.play D = .ok out) :
    s.faultCount D = .ok out.cluster.faultSeq := by
  unfold faultCount
  rw [hp]
  rfl

/-- More fuel gives no other answer. -/
theorem failureSignature_unique {a b : Except Mishap (Option Str)}
    (ha : s.failureSignature D fuel = some a) (hb : s.failureSignature D fuel' = some b) :
    a = b := by
  cases hp : s.play D with
  | error e =>
    unfold failureSignature at ha hb
    rw [hp] at ha hb
    exact (Option.some.inj ha).symm.trans (Option.some.inj hb)
  | ok out =>
    obtain ⟨_ | v, h⟩ := out
    · rw [failureSignature_done hp] at ha hb
      obtain ⟨r, hr, rfl⟩ := Option.map_eq_some_iff.mp ha
      obtain ⟨r', hr', rfl⟩ := Option.map_eq_some_iff.mp hb
      have hmore := check_mono hr (le_max_left fuel fuel')
      obtain rfl := Option.some.inj (hmore.symm.trans (check_mono hr' (le_max_right fuel fuel')))
      rfl
    · rw [failureSignature_violated hp] at ha hb
      exact (Option.some.inj ha).symm.trans (Option.some.inj hb)

end Scenario

/-- Some runner answers as the cluster does. -/
theorem Runner.exists_tells (D : Platform σ) : ∃ R : Runner, R.Tells D := by
  have hsignature : ∀ s : Scenario, ∃ answer, ∀ fuel a,
      s.failureSignature D fuel = some (.ok a) → answer = a := by
    intro s
    by_cases hs : ∃ fuel a, s.failureSignature D fuel = some (.ok a)
    · obtain ⟨fuel, a, ha⟩ := hs
      refine ⟨a, fun fuel' b hb => ?_⟩
      exact Except.ok.inj (Scenario.failureSignature_unique ha hb)
    · exact ⟨none, fun fuel a ha => absurd ⟨fuel, a, ha⟩ hs⟩
  -- where the cluster has no answer any will do
  choose answer hanswer using hsignature
  refine ⟨⟨answer, fun s => (s.faultCount D).toOption.getD 0,
    fun s => (s.events D).toOption.getD []⟩, fun s fuel a ha => hanswer s fuel a ha,
    fun s n hn => ?_, fun s es hes => ?_⟩
  · dsimp only
    rw [hn]
    rfl
  · dsimp only
    rw [hes]
    rfl

namespace Runner.Tells
variable {R : Runner} {s : Scenario} {v : InvariantViolation}

theorem violated (hR : R.Tells D) (hp : s.play D = .ok ⟨some v, h⟩) :
    R.failureSignature s = some v.violation.invariant :=
  hR.signature s 0 _ (Scenario.failureSignature_violated hp)

theorem done (hR : R.Tells D) (hp : s.play D = .ok ⟨none, h⟩) :
    R.failureSignature s = none ∨ R.failureSignature s = some "nonlinearizable".toList := by
  obtain ⟨fuel, r, hall, -⟩ := Linearizability.check_verdict h.clients.history none 500000
  have hanswer := hR.signature s fuel (if r.linearizable then none else
    some "nonlinearizable".toList) (by
      rw [Scenario.failureSignature_done hp, hall fuel le_rfl]
      rfl)
  rw [hanswer]
  split
  · exact Or.inl rfl
  · exact Or.inr rfl

theorem faults (hR : R.Tells D) (hp : s.play D = .ok out) :
    R.faultCount s = out.cluster.faultSeq := hR.count s _ (Scenario.faultCount_ok hp)

/-- Nothing has returned before the first step. -/
theorem fresh (hR : R.Tells D) (hp : s.play D = .ok out) (hsteps : s.steps < 1) :
    R.failureSignature s = none := by
  obtain ⟨c, h, -, h₀, hplays⟩ := ClusterOptions.play_ok.mp hp
  have hzero : s.steps.toNat = 0 := by omega
  have hempty : h.clients = {} := congrArg Service.clients (Harness.init_effect h₀).still
  cases hplays with
  | violated hrun =>
    rw [hzero] at hrun
    cases hrun
  | done hrun =>
    rw [hzero] at hrun
    obtain rfl := Except.ok.inj hrun
    refine hR.signature s 0 none ?_
    rw [Scenario.failureSignature_done hp, hempty]
    rfl

end Runner.Tells

/-! ### Runs under all masks -/

/-- A scenario under another mask and budget. -/
abbrev Scenario.under (s : Scenario) (mask : Finset ℕ) (steps : ℤ) : Scenario :=
  { s with suppressed := mask, steps }

/-- The answer of a run in which no violation has been found. -/
def Clear (R : Runner) (s : Scenario) : Prop :=
  R.failureSignature s = none ∨ R.failureSignature s = some "nonlinearizable".toList

/-- The runs under a mask are cut at step `k` by a violation. -/
structure Cut (R : Runner) (s : Scenario) (mask : Finset ℕ) (k : ℤ) (inv : Str) : Prop where
  pos : 1 ≤ k
  named : inv ≠ "nonlinearizable".toList
  before : ∀ steps < k, Clear R (s.under mask steps)
  after : ∀ steps, k ≤ steps → R.failureSignature (s.under mask steps) = some inv ∧
    R.faultCount (s.under mask steps) = R.faultCount (s.under mask k)

section
variable {R : Runner} {s : Scenario} {mask : Finset ℕ}

theorem invariant_named (v : Violation) : v.invariant ≠ "nonlinearizable".toList := by
  unfold Violation.invariant
  cases v <;> dsimp only <;> decide

theorem cut_of_violated (hR : R.Tells D)
    (hplay : ∀ mask steps, ∃ out : Ending σ, (s.under mask steps).play D = .ok out)
    {v : InvariantViolation} {left : Harness σ}
    (hv : (s.under mask 0).options.Violates D v left) :
    Cut R s mask v.step v.violation.invariant where
  pos := by
    by_contra hlt
    -- a violation at step 0 would show in the run that has made no step
    have hzero := (ClusterOptions.play_violated hv 0).mpr (by omega)
    have hnone := hR.fresh (s := s.under mask 0) hzero Int.zero_lt_one
    have hsome := hR.violated (s := s.under mask 0) hzero
    rw [hnone] at hsome
    cases hsome
  named := invariant_named v.violation
  before := by
    intro steps hlt
    obtain ⟨⟨_ | w, h⟩, hout⟩ := hplay mask steps
    · exact hR.done hout
    · -- there is only one violation
      have hw : (s.under mask 0).options.Violates D w h := ⟨steps, hout⟩
      have hboth := (ClusterOptions.play_violated hv (max steps v.step)).mpr (le_max_right _ _)
      have hle := (ClusterOptions.play_violated hw steps).mp hout
      have hsame := (ClusterOptions.play_violated hw (max steps v.step)).mpr
        (hle.trans (le_max_left _ _))
      cases hboth.symm.trans hsame
      omega
  after := by
    intro steps hle
    have hplayed : (s.under mask steps).play D = .ok ⟨some v, left⟩ :=
      (ClusterOptions.play_violated hv steps).mpr hle
    have hcut : (s.under mask v.step).play D = .ok ⟨some v, left⟩ :=
      (ClusterOptions.play_violated hv v.step).mpr le_rfl
    exact ⟨hR.violated hplayed, (hR.faults hplayed).trans (hR.faults hcut).symm⟩

theorem cut_or_clear (hR : R.Tells D)
    (hplay : ∀ mask steps, ∃ out : Ending σ, (s.under mask steps).play D = .ok out)
    (mask : Finset ℕ) :
    (∃ p : ℤ × Str, Cut R s mask p.1 p.2) ∨ ∀ steps, Clear R (s.under mask steps) := by
  by_cases hv : ∃ v left, (s.under mask 0).options.Violates D v left
  · obtain ⟨v, left, hv⟩ := hv
    exact Or.inl ⟨(v.step, v.violation.invariant), cut_of_violated hR hplay hv⟩
  · refine Or.inr fun steps => ?_
    obtain ⟨⟨_ | v, h⟩, hout⟩ := hplay mask steps
    · exact hR.done hout
    · exact absurd ⟨v, h, steps, hout⟩ hv

theorem faultCount_mono (hR : R.Tells D)
    (hplay : ∀ mask steps, ∃ out : Ending σ, (s.under mask steps).play D = .ok out)
    (mask : Finset ℕ) : Monotone fun steps => R.faultCount (s.under mask steps) := by
  intro steps steps' hle
  obtain ⟨out, hout⟩ := hplay mask steps
  obtain ⟨out', hout'⟩ := hplay mask steps'
  dsimp only
  rw [hR.faults hout, hR.faults hout']
  obtain ⟨c, h, hc, h₀, hplays⟩ := ClusterOptions.play_ok.mp hout
  obtain ⟨c', h', hc', h₀', hplays'⟩ := ClusterOptions.play_ok.mp hout'
  obtain rfl := Except.ok.inj (hc.symm.trans hc')
  obtain rfl := Except.ok.inj (h₀.symm.trans h₀')
  exact hplays.seq h₀ hplays' hle

/-- The runs of a cluster under all masks and budgets are runs as the results about the shrinker
have them, as long as no exception but a violation ends one. -/
theorem exists_runs (hR : R.Tells D)
    (hplay : ∀ mask steps, ∃ out : Ending σ, (s.under mask steps).play D = .ok out) :
    ∃ V : Shrink.Runs, ∀ mask steps,
      V.runner.failureSignature (s.under mask steps) = R.failureSignature (s.under mask steps) ∧
      V.runner.faultCount (s.under mask steps) = R.faultCount (s.under mask steps) := by
  classical
  have hfirst : ∀ mask, ∃ first : Option (ℤ × Str),
      (∀ k inv, first = some (k, inv) → Cut R s mask k inv) ∧
        (first = none → ∀ steps, Clear R (s.under mask steps)) := by
    intro mask
    rcases cut_or_clear hR hplay mask with ⟨p, hp⟩ | hclear
    · refine ⟨some p, fun k inv heq => ?_, nofun⟩
      cases heq
      exact hp
    · exact ⟨none, nofun, fun _ => hclear⟩
  choose first hcut hclear using hfirst
  -- the verdict of the oracle is only asked where no violation has been found
  let V : Shrink.Runs := {
    violation := first
    nonlinearizable := fun mask steps =>
      decide (R.failureSignature (s.under mask steps) = some "nonlinearizable".toList)
    assigned := fun mask steps => R.faultCount (s.under mask steps)
    started := fun mask k inv h => ⟨(hcut mask k inv h).pos, (hcut mask k inv h).named⟩
    empty := fun mask steps hlt => by
      obtain ⟨out, hout⟩ := hplay mask steps
      rw [hR.fresh hout hlt]
      rfl
    grows := faultCount_mono hR hplay }
  have hverdict : ∀ mask steps, Clear R (s.under mask steps) →
      V.verdict (s.under mask steps) = R.failureSignature (s.under mask steps) := by
    intro mask steps hc
    unfold Shrink.Runs.verdict
    rcases hc with hnone | hsome
    · rw [if_neg (by simp [V, hnone]), hnone]
    · rw [if_pos (by simp [V, hsome]), hsome]
  refine ⟨V, fun mask steps => ?_⟩
  cases hf : first mask with
  | none =>
    have hv : V.violation (s.under mask steps).suppressed = none := hf
    refine ⟨?_, ?_⟩
    · rw [Shrink.Runs.signature_of_none hv]
      exact hverdict mask steps (hclear mask hf steps)
    · unfold Shrink.Runs.runner
      dsimp only
      rw [hv]
  | some p =>
    obtain ⟨k, inv⟩ := p
    have hv : V.violation (s.under mask steps).suppressed = some (k, inv) := hf
    have hc := hcut mask k inv hf
    rw [Shrink.Runs.signature_of_violation hv, Shrink.Runs.faultCount_of_violation hv]
    dsimp only
    rcases le_or_gt k steps with hle | hlt
    -- from the cut on the ordinals are those assigned at the cut
    · obtain ⟨hsig, hcount⟩ := hc.after steps hle
      rw [if_pos hle, min_eq_left hle, hsig, hcount]
      exact ⟨rfl, rfl⟩
    · rw [if_neg (not_le.mpr hlt), min_eq_right hlt.le]
      exact ⟨hverdict mask steps (hc.before steps hlt), rfl⟩

end

/-! ### Without planted defects -/

/-- A sane cluster plays to the end of its budget. -/
theorem ClusterOptions.play_sane (D : Platform σ) (hc : opts.setup D.json = .ok c) (hs : c.Sane)
    (steps : ℤ) : ∃ h past, opts.play D steps = .ok ⟨none, h⟩ ∧
      Harness.Run D c (h :: past) ∧ ∀ job T, c.Ticks job T → past.length = steps.toNat := by
  obtain ⟨h₀, h, past, hinit, hrun, hr, -, hlen⟩ := Harness.run_returns D hs steps.toNat
  exact ⟨h, past, play_ok.mpr ⟨c, h₀, hc, hinit, .done hrun⟩, hr, hlen⟩

/-- What the clients of a cluster without churn have seen is linearizable in every state. -/
theorem Harness.history_linearizable {past : List (Harness σ)} (hb : c.bugs = NO_BUGS)
    (ht : c.config.snapshotThreshold = 0) (hrec : c.recordHistory = true)
    (hoff : c.membership = false) (hr : Run D c (h :: past)) :
    Linearizability.Linearizable (h.clients.history.filter HistoryEntry.completed) := by
  have hservice : Service.Run c.toServiceSetup (h.service :: past.map service) :=
    run_service hoff hr
  obtain ⟨G, hG⟩ := Service.exists_global hb ht hrec hservice
  obtain ⟨hk, -⟩ := Service.run_world hb hrec hservice
  have hrows : ∀ row, ∃ k, row ∈ h.clients.history.filter HistoryEntry.completed →
      Service.Slot c.toServiceSetup (h.service :: past.map service) G row k := by
    intro row
    by_cases hrow : row ∈ h.clients.history.filter HistoryEntry.completed
    · obtain ⟨hmem, hdone⟩ := List.mem_filter.mp hrow
      obtain ⟨k, hslot⟩ := Service.exists_slot hb ht hrec hservice hG hmem hdone
      exact ⟨k, fun _ => hslot⟩
    · exact ⟨0, fun hin => absurd hin hrow⟩
  choose slot hslot using hrows
  -- the completed rows in the order of the log positions that answered them
  refine Linearization.completes_of_slotted (Service.slotted_rows hb ht hrec hservice hG hslot)
    ?_ HistoryEntry.invokeStep ?_
  · exact (List.Nodup.of_map _ hk.once).filter _
  · intro row hrow row' hrow' hbefore
    obtain ⟨hmem, hdone⟩ := List.mem_filter.mp hrow
    exact (hslot row hrow).order hk (hslot row' hrow') hmem hdone hbefore

/-- The oracle returns, and does not condemn a linearizable history. -/
theorem check_spares {history : List HistoryEntry}
    (hlin : Linearizability.Linearizable (history.filter HistoryEntry.completed)) (budget : ℤ) :
    ∃ fuel r, (∀ fuel', fuel ≤ fuel' →
      Linearizability.check budget history none fuel' = some r) ∧
      (r.linearizable = false → r.Undetermined) := by
  obtain ⟨fuel, r, hrun, -, hcomplete, htwo, -⟩ :=
    Linearizability.check_verdict history none budget
  refine ⟨fuel, r, hrun, fun hfalse => ?_⟩
  rcases htwo hfalse with hrefuted | hopen
  · exact absurd (hlin.perm (Linearizability.arrange_perm history).symm) (hcomplete hrefuted)
  · exact hopen

/-- Arguments that are accepted and plant no defect, all that `_cluster` and `_execute` do not give
being at its default. -/
structure ClusterOptions.Plain (opts : ClusterOptions) : Prop where
  bugs : opts.bugs = NO_BUGS
  config : opts.config = {}
  timers : opts.timers = {}
  clientInterval : opts.clientInterval = some CLIENT_INTERVAL
  recordHistory : opts.recordHistory = true
  initialVoters : opts.initialVoters = none

/-- A cluster without planted defects makes all the steps of its budget, each of which is checked,
and its history is not condemned if there is no churn. -/
theorem ClusterOptions.Plain.play (D : Platform σ) (hp : opts.Plain)
    (hc : opts.setup D.json = .ok c) (steps : ℤ) : ∃ h, opts.play D steps = .ok ⟨none, h⟩ ∧
      h.Recorded c ∧ h.steps = steps.toNat ∧
      (opts.membership = false → ∀ budget, ∃ fuel r, (∀ fuel', fuel ≤ fuel' →
        Linearizability.check budget h.clients.history none fuel' = some r) ∧
        (r.linearizable = false → r.Undetermined)) := by
  obtain ⟨hbugs, hconfig, -, hinterval, -, -, hmembership, -, -, -, hrecord⟩ := setup_ok hc
  have hthreshold : opts.config.snapshotThreshold = 0 := by
    rw [hp.config]
  have hsane : c.Sane := sane hc hp.bugs hthreshold
    (fun vs hvs => by
      rw [hp.initialVoters] at hvs
      cases hvs)
    (hp.timers ▸ timers_sane)
    (by
      rw [hp.clientInterval]
      decide)
  obtain ⟨h, past, hplay, hr, hlen⟩ := play_sane D hc hsane steps
  have hticks : c.Ticks .clientTick c.interval := .client (by
    rw [hinterval, hp.clientInterval]
    decide)
  refine ⟨h, hplay, Harness.run_recorded hr List.mem_cons_self,
    (Harness.run_steps hr).trans (hlen _ _ hticks), fun hoff budget => ?_⟩
  exact check_spares (Harness.history_linearizable hsane.sound.bugs hsane.sound.threshold
    (hrecord.trans hp.recordHistory) (hmembership.trans hoff) hr) budget

theorem Scenario.plain {s : Scenario} (hb : s.bugs = NO_BUGS) : s.options.Plain :=
  ⟨hb, rfl, rfl, rfl, rfl, rfl⟩

/-- A scenario without planted defects makes all its steps, and no violation is found. Unless it
churns, it has no failure signature either, but where the oracle has given up. -/
theorem Scenario.never_fails {s : Scenario} (hb : s.bugs = NO_BUGS)
    (hc : s.options.setup D.json = .ok c) : ∃ h, s.play D = .ok ⟨none, h⟩ ∧ h.Recorded c ∧
      h.steps = s.steps.toNat ∧ (s.membership = false → ∃ fuel answer,
        (∀ fuel', fuel ≤ fuel' → s.failureSignature D fuel' = some (.ok answer)) ∧
        (answer = none ∨ answer = some "nonlinearizable".toList ∧ ∃ r, r.Undetermined ∧
          Linearizability.check 500000 h.clients.history none fuel = some r)) := by
  obtain ⟨h, hplay, hrecorded, hsteps, hspared⟩ := (plain hb).play D hc s.steps
  refine ⟨h, hplay, hrecorded, hsteps, fun hoff => ?_⟩
  obtain ⟨fuel, r, hall, hopen⟩ := hspared hoff 500000
  refine ⟨fuel, if r.linearizable then none else some "nonlinearizable".toList,
    fun fuel' hle => ?_, ?_⟩
  · rw [failureSignature_done hplay, hall fuel' hle]
    rfl
  · cases hr : r.linearizable with
    | true => exact Or.inl rfl
    | false => exact Or.inr ⟨rfl, r, hopen hr, hall fuel le_rfl⟩

end

/-- Five nodes under random faults and a schedule. -/
def stormy : Scenario where
  nodes := 5
  seed := 1
  faults := "chaos".toList
  steps := 1000
  nemesis := some ⟨[.isolateLeader 500 300, .crashNode 2 900 400], by decide⟩

theorem stormy_plays (mask : Finset ℕ) (steps : ℤ) :
    ∃ h, (stormy.under mask steps).play lcg = .ok ⟨none, h⟩ := by
  obtain ⟨c, hc⟩ : ∃ c, (stormy.under mask steps).options.setup lcg.json = .ok c := ⟨_, rfl⟩
  obtain ⟨h, hplay, -⟩ := (Scenario.plain rfl).play lcg hc steps
  exact ⟨h, hplay⟩

theorem never_fails_stormy : ∃ c, stormy.options.setup lcg.json = .ok c ∧ ∃ h,
    stormy.play lcg = .ok ⟨none, h⟩ ∧ h.steps = 1000 ∧ ∃ fuel answer,
      stormy.failureSignature lcg fuel = some (.ok answer) := by
  obtain ⟨c, hc⟩ : ∃ c, stormy.options.setup lcg.json = .ok c := ⟨_, rfl⟩
  obtain ⟨h, hplay, -, hsteps, hanswer⟩ := Scenario.never_fails (s := stormy) rfl hc
  obtain ⟨fuel, answer, hall, -⟩ := hanswer rfl
  exact ⟨c, hc, h, hplay, hsteps, fuel, answer, hall fuel le_rfl⟩

/-- The next ordinal can be suppressed or not. -/
theorem mask_local_stormy : ∃ out, stormy.play lcg = .ok out ∧
    ({ stormy with suppressed := {out.cluster.faultSeq} } : Scenario).play lcg = .ok out := by
  obtain ⟨h, hplay⟩ := stormy_plays ∅ 1000
  refine ⟨⟨none, h⟩, hplay, Scenario.mask_local (s := stormy) hplay fun o ho => ?_⟩
  have hne : o ≠ h.faultSeq := ho.ne
  simp [stormy, hne]

/-- Three nodes all of whose defects are planted. -/
def flawed : Scenario where
  nodes := 3
  seed := 1677
  faults := "chaos".toList
  steps := 200
  bugs := ⟨true, true, true, true, true, true⟩

/-- One fault is assigned, and the run ends with a violation whether it is suppressed or not. -/
theorem flawed_violated :
    (∃ out, flawed.play lcg = .ok out ∧ out.cluster.faultSeq = 1 ∧
      out.violation.map (fun v => (v.step, v.violation.invariant)) =
        some (108, "LeaderCompleteness".toList)) ∧
    ∃ out, ({ flawed with suppressed := {0} } : Scenario).play lcg = .ok out ∧
      out.cluster.faultSeq = 1 ∧
      out.violation.map (fun v => (v.step, v.violation.invariant)) =
        some (61, "CommitIndexMonotonic".toList) := by
  decide +kernel

/-- Under every mask the run ends with one of the two violations. -/
theorem flawed_plays (mask : Finset ℕ) : ∃ v left,
    (flawed.under mask 200).play lcg = .ok ⟨some v, left⟩ ∧ (v.step, v.violation.invariant) =
      if 0 ∈ mask then (61, "CommitIndexMonotonic".toList)
      else (108, "LeaderCompleteness".toList) := by
  obtain ⟨⟨out, hout, hone, hv⟩, out', hout', hone', hv'⟩ := flawed_violated
  by_cases hmem : 0 ∈ mask
  · have hplay : (flawed.under mask 200).play lcg = .ok out' := by
      refine ClusterOptions.play_masked hout' fun o ho => ?_
      obtain rfl : o = 0 := by omega
      exact iff_of_true (Finset.mem_singleton_self 0) hmem
    obtain ⟨v, hsome, heq⟩ := Option.map_eq_some_iff.mp hv'
    obtain ⟨violation, left⟩ := out'
    obtain rfl : violation = some v := hsome
    exact ⟨v, left, hplay, by rw [if_pos hmem, heq]⟩
  · have hplay : (flawed.under mask 200).play lcg = .ok out := by
      refine ClusterOptions.play_masked hout fun o ho => ?_
      obtain rfl : o = 0 := by omega
      exact iff_of_false (Finset.notMem_empty 0) hmem
    obtain ⟨v, hsome, heq⟩ := Option.map_eq_some_iff.mp hv
    obtain ⟨violation, left⟩ := out
    obtain rfl : violation = some v := hsome
    exact ⟨v, left, hplay, by rw [if_neg hmem, heq]⟩

/-- The runs of the flawed cluster, which are cut at step 61 or at step 108. -/
theorem exists_runs_flawed : ∃ R : Runner, R.Tells lcg ∧ ∃ V : Shrink.Runs,
    (∀ mask steps, V.runner.failureSignature (flawed.under mask steps) =
      R.failureSignature (flawed.under mask steps)) ∧
    ∀ mask, V.runner.failureSignature (flawed.under mask 200) =
      some (if 0 ∈ mask then "CommitIndexMonotonic".toList
        else "LeaderCompleteness".toList) := by
  obtain ⟨R, hR⟩ := Runner.exists_tells lcg
  obtain ⟨V, hV⟩ := exists_runs (s := flawed) hR fun mask steps => by
    obtain ⟨v, left, hplay, -⟩ := flawed_plays mask
    have hv : (flawed.under mask steps).options.Violates lcg v left := ⟨200, hplay⟩
    exact hv.play steps
  refine ⟨R, hR, V, fun mask steps => (hV mask steps).1, fun mask => ?_⟩
  obtain ⟨v, left, hplay, hcut⟩ := flawed_plays mask
  rw [(hV mask 200).1, hR.violated hplay]
  by_cases hmem : 0 ∈ mask
  · rw [if_pos hmem] at hcut ⊢
    rw [(Prod.mk.inj hcut).2]
  · rw [if_neg hmem] at hcut ⊢
    rw [(Prod.mk.inj hcut).2]

end RaftVerified
