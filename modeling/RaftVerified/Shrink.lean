import Mathlib.Data.Finset.Sort
import RaftVerified.Loop
import RaftVerified.Nemesis

/-! The schedule shrinker (`shrink.py`). -/
namespace RaftVerified

structure Scenario where
  nodes : ℤ
  seed : ℤ
  faults : Str
  steps : ℤ
  bugs : Bugs := NO_BUGS
  suppressed : Finset ℕ := ∅
  membership : Bool := false
  nemesis : Option NemesisSchedule := none
  deriving DecidableEq

/-- What a fresh seeded run of a scenario tells: `failure_signature`, `_fault_count` and the
events it records, each with its time, kind and detail. -/
structure Runner where
  failureSignature : Scenario → Option Str
  faultCount : Scenario → ℕ
  events : Scenario → List (ℤ × Str × Str)

structure Counterexample where
  scenario : Scenario
  signature : Str
  faultEvents : List Str
  injectionCount : ℕ
  originalFaultCount : ℕ
  originalSteps : ℤ
  deriving DecidableEq

namespace Shrink

/-! ### Delta debugging -/

section
variable {α : Type} [DecidableEq α] (reproduces : List α → Bool)

/-- `kept[i:i + chunk] for i in range(0, len(kept), chunk)`. -/
def subsets (kept : List α) (chunk : ℕ) : List (List α) :=
  (List.range' 0 ((kept.length+chunk-1)/chunk) chunk).map fun i => (kept.drop i).take chunk

/-- The lists one round tries, in this order: what is left without one of the chunks. -/
def complements (kept : List α) (n : ℕ) : List (List α) :=
  ((subsets kept (max 1 (kept.length/n))).map fun sub => kept.filter (· ∉ sub)).filter (· ≠ [])

/-- One round of the loop of `ddmin` on `kept` and `n`. -/
def ddminRound (s : List α × ℕ) : (List α × ℕ) ⊕ List α :=
  if s.1.length < 2 then .inr s.1
  else match (complements s.1 s.2).find? reproduces with
    | some complement => .inl (complement, max (s.2-1) 2)
    | none =>
      if s.1.length ≤ s.2 then .inr s.1
      else .inl (s.1, min s.1.length (s.2*2))

/-- `ddmin`, when it returns within `fuel` rounds. -/
def ddmin (elements : List α) (fuel : ℕ) : Option (List α) :=
  if reproduces [] then some []
  else Loop.run (ddminRound reproduces) fuel (elements, 2)

end

/-! ### The step budget -/

/-- One round of the binary search of `_min_steps` between `lo` and `hi`. -/
def minStepsRound (fails : ℤ → Bool) (s : ℤ × ℤ) : (ℤ × ℤ) ⊕ ℤ :=
  if s.1 < s.2 then
    let mid := (s.1+s.2)/2
    if fails mid then .inl (s.1, mid) else .inl (mid+1, s.2)
  else .inr s.1

def minSteps (R : Runner) (scenario : Scenario) (target : Str) (fuel : ℕ) : Option ℤ :=
  Loop.run
    (minStepsRound fun mid => R.failureSignature { scenario with steps := mid } = some target)
    fuel (1, scenario.steps)

/-! ### The report -/

def INJECTION_KINDS : List Str :=
  ["partition".toList, "crash".toList, "linkdown".toList, "lossy".toList]

def RECOVERY_KINDS : List Str :=
  ["heal".toList, "resume".toList, "linkup".toList, "lossyheal".toList]

/-- The events `_fault_events` keeps. -/
def faultEvents (R : Runner) (scenario : Scenario) : List (ℤ × Str × Str) :=
  (R.events scenario).filter fun e => e.2.1 ∈ INJECTION_KINDS ++ RECOVERY_KINDS

def eventText (e : ℤ × Str × Str) : Str :=
  intStr e.1 ++ "ms ".toList ++ e.2.1 ++ " ".toList ++ e.2.2

/-- `target or signature`. -/
def wanted (target signature : Option Str) : Option Str :=
  match target with
  | none => signature
  | some [] => signature
  | some t => some t

/-- The scenario with exactly the kept ordinals of the first `total` not suppressed. -/
def keeping (scenario : Scenario) (total : ℕ) (kept : List ℕ) : Scenario :=
  { scenario with suppressed := Finset.range total \ kept.toFinset }

/-- The ordinals that stay: those `ddmin` keeps, when the run assigns any. -/
def minimalKept (R : Runner) (scenario : Scenario) (target : Str) (fuel : ℕ) :
    Option (List ℕ) :=
  let total := R.faultCount scenario
  if total = 0 then some []
  else ddmin (fun kept => R.failureSignature (keeping scenario total kept) = some target)
    (List.range total) fuel

def report (R : Runner) (scenario reduced : Scenario) (target : Str) : Counterexample :=
  let events := faultEvents R reduced
  { scenario := reduced
    signature := target
    faultEvents := events.map eventText
    injectionCount := (events.filter fun e => e.2.1 ∈ INJECTION_KINDS).length
    originalFaultCount := R.faultCount scenario
    originalSteps := scenario.steps }

/-- `shrink`, when it returns within `fuel` rounds of each of its loops. -/
def shrink (R : Runner) (scenario : Scenario) (target : Option Str) (fuel : ℕ) :
    Option (Option Counterexample) :=
  match R.failureSignature scenario with
  | none => some none
  | some signature =>
    if wanted target (some signature) ≠ some signature then some none
    else do
      let kept ← minimalKept R scenario signature fuel
      let reduced := keeping scenario (R.faultCount scenario) kept
      let steps ← minSteps R reduced signature fuel
      some (some (report R scenario { reduced with steps } signature))

end Shrink
end RaftVerified
