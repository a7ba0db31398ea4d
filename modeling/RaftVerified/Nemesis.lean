import Mathlib.Algebra.Order.Ring.Unbundled.Rat
import RaftVerified.RaftTypes

/-! Declarative fault schedules (`nemesis.py`). Times are virtual milliseconds. -/
namespace RaftVerified

def MAX_FLAP_CYCLES : ℤ := 10000

/-- A Python number; Python tells `1` from `1.0` when it writes them, not when it compares them. -/
inductive Number
  | int (z : ℤ)
  | float (q : ℚ)
  deriving DecidableEq

def Number.value : Number → ℚ
  | int z => z
  | float q => q

/-- A fault pattern; `atTime` is its field `at`. -/
inductive NemesisOp
  | partitionHalves (atTime duration : ℤ)
  | isolateLeader (atTime duration : ℤ)
  | flappingLink (a b : NodeId) (atTime period cycles : ℤ)
  | lossyLink (a b : NodeId) (atTime duration : ℤ) (dropP : Number)
  | crashNode (node : NodeId) (atTime duration : ℤ)
  deriving DecidableEq

namespace NemesisOp

/-- `_check_window`. -/
def Window (atTime duration : ℤ) : Prop := 0 ≤ atTime ∧ 1 ≤ duration

/-- `_check_link`. -/
def Link (a b : NodeId) : Prop := (0 ≤ a ∧ 0 ≤ b) ∧ a ≠ b

/-- What `__post_init__` requires of the fields, which are numbers of the right kind. -/
def Valid : NemesisOp → Prop
  | partitionHalves atTime duration => Window atTime duration
  | isolateLeader atTime duration => Window atTime duration
  | flappingLink a b atTime period cycles =>
    Link a b ∧ 0 ≤ atTime ∧ 1 ≤ period ∧ 1 ≤ cycles ∧ cycles ≤ MAX_FLAP_CYCLES
  | lossyLink a b atTime duration dropP =>
    Link a b ∧ Window atTime duration ∧ 0 < dropP.value ∧ dropP.value ≤ 1
  | crashNode node atTime duration => 0 ≤ node ∧ Window atTime duration

instance (atTime duration : ℤ) : Decidable (Window atTime duration) :=
  inferInstanceAs (Decidable (_ ∧ _))

instance (a b : NodeId) : Decidable (Link a b) := inferInstanceAs (Decidable (_ ∧ _))

instance (op : NemesisOp) : Decidable op.Valid := by
  cases op <;> unfold Valid <;> infer_instance

def atTime : NemesisOp → ℤ
  | partitionHalves t _ => t
  | isolateLeader t _ => t
  | flappingLink _ _ t _ _ => t
  | lossyLink _ _ t _ _ => t
  | crashNode _ t _ => t

/-- The node ids a pattern names. -/
def named : NemesisOp → List NodeId
  | flappingLink a b _ _ _ => [a, b]
  | lossyLink a b _ _ _ => [a, b]
  | crashNode node _ _ => [node]
  | _ => []

end NemesisOp

/-- One suppressible fault injection: a pattern that fires at a virtual time. -/
structure Injection where
  atTime : ℤ
  op : NemesisOp
  deriving DecidableEq

/-- A composition of patterns, each of which has passed its own checks. -/
structure NemesisSchedule where
  ops : List NemesisOp
  valid : ∀ op ∈ ops, op.Valid
  deriving DecidableEq

namespace NemesisSchedule

/-- The injections of one pattern: one for each flap of a link, else a single one. -/
def expand (op : NemesisOp) : List Injection :=
  match op with
  | .flappingLink _ _ t period cycles =>
    (List.range cycles.toNat).map fun i => ⟨t+2*period*i, op⟩
  | _ => [⟨op.atTime, op⟩]

def injections (s : NemesisSchedule) : List Injection :=
  (s.ops.flatMap expand).insertionSort fun i j => i.atTime ≤ j.atTime

def maxNode (s : NemesisSchedule) : ℤ :=
  (s.ops.flatMap NemesisOp.named).foldl max (-1)

end NemesisSchedule
end RaftVerified
