import Mathlib.Data.List.FinRange
import Mathlib.Data.List.Sort
import Mathlib.Data.Prod.Lex
import RaftVerified.KVStore
import RaftVerified.Loop

/-! The linearizability oracle (`linearizability.py`). -/
namespace RaftVerified
namespace Linearizability

/-- What a message says. -/
inductive Finding
  | empty
  | linearizable
  | exhausted (budget : ℤ)
  | stuck (placed total : ℕ)
  deriving DecidableEq, Repr

def Finding.message : Finding → Str
  | .empty => "empty history is trivially linearizable".toList
  | .linearizable => "linearizable".toList
  | .exhausted budget => "search budget (".toList ++ intStr budget ++
      ") exhausted; result undetermined".toList
  | .stuck placed total => "not linearizable: no legal ordering exists (linearized ".toList ++
      intStr placed ++ "/".toList ++ intStr total ++ " ops before getting stuck)".toList

structure LinearizabilityResult where
  linearizable : Bool
  finding : Finding
  linearization : Option (List HistoryEntry) := none
  stuck : Option (List HistoryEntry) := none
  checkedOps : ℕ := 0
  deriving DecidableEq, Repr

/-- `_apply`. -/
def apply (store : Dict Str Str) (op : HistoryEntry) : Dict Str Str × Str :=
  match op.op with
  | .put => (store.insert op.key op.value, "ok".toList)
  | .get => (store, (store.lookup op.key).getD [])
  | .cas =>
    if (store.lookup op.key).getD [] = op.expected then
      (store.insert op.key op.value, "ok".toList)
    else (store, "fail".toList)
  | .noop => (store, [])

/-- `return_step or 0`. -/
def ret (op : HistoryEntry) : ℤ := op.returnStep.getD 0

def sortKey (op : HistoryEntry) : ℤ ×ₗ ℤ ×ₗ ℤ ×ₗ ℤ :=
  toLex (op.invokeStep, toLex (ret op, toLex (op.clientId, op.reqId)))

/-- The completed rows in the order of their keys, cut as `ops[:max_ops]` cuts them. -/
def arrange (history : List HistoryEntry) (maxOps : Option ℤ) : List HistoryEntry :=
  let ops := (history.filter HistoryEntry.completed).insertionSort fun a b =>
    sortKey a ≤ sortKey b
  match maxOps with
  | some m => delFrom ops m
  | none => ops

/-! ### Candidates -/

section
variable {α : Type} (r : α → ℤ)

/-- One round of the loop that looks for the smallest and the second-smallest return. -/
def smaller (mins : Option α × Option α) (p : α) : Option α × Option α :=
  match mins with
  | (none, _) => (some p, none)
  | (some min1, min2) =>
    if r p < r min1 then (some p, some min1)
    else match min2 with
      | none => (some min1, some p)
      | some min2 => if r p < r min2 then (some min1, some p) else (some min1, some min2)

def twoSmallest (pending : List α) : Option α × Option α :=
  pending.foldl (smaller r) (none, none)

end

/-- The pending rows that no other pending row has to precede. -/
def minimal (ops : List HistoryEntry) (pending : List (Fin ops.length)) :
    List (Fin ops.length) :=
  match pending with
  | [p] => [p]
  | _ =>
    match twoSmallest (fun p => ret (ops.get p)) pending with
    | (some min1, some min2) => pending.filter fun p =>
        (ops.get p).invokeStep ≤ ret (ops.get (if p = min1 then min2 else min1))
    | _ => []

/-! ### The search -/

/-- A frame of the explicit stack. -/
structure Frame (n : ℕ) where
  store : Dict Str Str := ∅
  pending : List (Fin n)
  cands : Option (List (Fin n)) := none
  ci : ℕ := 0
  path : List (Fin n) := []

/-- The variables of the search; the top of the stack comes first. -/
structure Search (n : ℕ) where
  memo : Finset (Dict Str Str × List (Fin n)) := ∅
  deepest : List (Fin n) := []
  explored : ℕ := 0
  stack : List (Frame n)

variable (ops : List HistoryEntry) (budget : ℤ)

def start : Search ops.length where
  stack := [{ pending := List.finRange ops.length }]

/-- What is returned when no frame is left. -/
def giveUp (deepest : List (Fin ops.length)) : LinearizabilityResult where
  linearizable := false
  finding := .stuck deepest.length ops.length
  stuck := some ((((List.finRange ops.length).filter (· ∉ deepest)).map ops.get).take 8)
  checkedOps := ops.length

/-- The second half of a round: place row `i` on the store of the frame, which has already
moved on to its next candidate. -/
def tryRow (s : Search ops.length) (frame : Frame ops.length) (i : Fin ops.length) :
    Search ops.length ⊕ LinearizabilityResult × Search ops.length :=
  let r := apply frame.store (ops.get i)
  if (ops.get i).observed ≠ some r.2 then .inl s
  else
    let newPending := frame.pending.filter (· ≠ i)
    let key := (r.1, newPending)
    if key ∈ s.memo then .inl s
    else
      let s := { s with memo := insert key s.memo, explored := s.explored+1 }
      if budget < s.explored then
        .inr ({ linearizable := false, finding := .exhausted budget, checkedOps := ops.length }, s)
      else .inl { s with
        stack := { store := r.1, pending := newPending, path := frame.path ++ [i] } :: s.stack }

/-- One round of the loop. With the result comes the state it was found in. -/
def round (s : Search ops.length) :
    Search ops.length ⊕ LinearizabilityResult × Search ops.length :=
  match s.stack with
  | [] => .inr (giveUp ops s.deepest, s)
  | frame :: rest =>
    if frame.pending = [] then
      .inr ({ linearizable := true, finding := .linearizable,
              linearization := some (frame.path.map ops.get), checkedOps := ops.length }, s)
    else
      let cands := frame.cands.getD (minimal ops frame.pending)
      let deepest := if frame.cands = none ∧ s.deepest.length < frame.path.length then frame.path
        else s.deepest
      match cands[frame.ci]? with
      | none => .inl { s with deepest, stack := rest }
      | some i =>
        let frame := { frame with cands := some cands, ci := frame.ci+1 }
        tryRow ops budget { s with deepest, stack := frame :: rest } frame i

def search (fuel : ℕ) : Option (LinearizabilityResult × Search ops.length) :=
  Loop.run (round ops budget) fuel (start ops)

/-- `check`, when it returns within `fuel` rounds of its loop. -/
def check (history : List HistoryEntry) (maxOps : Option ℤ) (fuel : ℕ) :
    Option LinearizabilityResult :=
  let ops := arrange history maxOps
  if ops = [] then some { linearizable := true, finding := .empty, linearization := some [] }
  else (search ops budget fuel).map Prod.fst

/-! ### The sequential store -/

/-- Whether `a` returned before `b` was invoked. -/
def precedes (a b : HistoryEntry) : Prop := ret a < b.invokeStep

instance (a b : HistoryEntry) : Decidable (precedes a b) :=
  inferInstanceAs (Decidable (ret a < b.invokeStep))

/-- The store after a row, when it gives the observed result. -/
def place (store : Dict Str Str) (op : HistoryEntry) : Option (Dict Str Str) :=
  let r := apply store op
  if op.observed = some r.2 then some r.1 else none

end Linearizability
end RaftVerified
