import Mathlib.Data.Finset.Sort
import RaftVerified.RaftWorld

/-! `InvariantChecker` (`invariants.py`), and the cluster that runs its `check` after
every simulator step. -/
namespace RaftVerified

/-- The calls of `_fail`, with what their detail texts are made of. -/
inductive Violation
  | electionSafety (term : ℕ) (prev node : NodeId)
  | leaderAppendOnly (node : NodeId) (term oldTop newTop : ℕ)
  | logMatching (a b : NodeId) (top index : ℕ)
  | commitIndexMonotonic (node : NodeId) (prev commitIndex : ℕ)
  | committedTwice (index : ℕ) (known entry : Entry) (node : NodeId)
  | commitQuorum (node : NodeId) (index holders size : ℕ)
  | leaderCompleteness (node : NodeId) (term : ℕ) (entry : Entry) (index : ℕ)
  | appliedTwice (index : ℕ) (known cmd : Str) (node : NodeId)
  deriving DecidableEq, Repr

/-- The name a violation is reported under. -/
def Violation.invariant : Violation → Str
  | .electionSafety .. => "ElectionSafety".toList
  | .leaderAppendOnly .. => "LeaderAppendOnly".toList
  | .logMatching .. => "LogMatching".toList
  | .commitIndexMonotonic .. => "CommitIndexMonotonic".toList
  | .committedTwice .. => "StateMachineSafety".toList
  | .commitQuorum .. => "CommitQuorum".toList
  | .leaderCompleteness .. => "LeaderCompleteness".toList
  | .appliedTwice .. => "StateMachineSafety".toList

structure InvariantViolation where
  violation : Violation
  seed : ℤ
  step : ℕ
  replay : Str
  deriving DecidableEq, Repr

/-- What ends a run: a violation, or an exception of the language. -/
inductive RunError
  | violation (v : InvariantViolation)
  | python (e : PyError)
  deriving DecidableEq, Repr

def raises {α : Type} : Except PyError α → Except RunError α
  | .ok a => .ok a
  | .error e => .error (.python e)

/-- `range(start, stop)`. -/
def pyRange (start stop : ℕ) : List ℕ := List.range' start (stop-start)

structure InvariantChecker where
  seed : ℤ
  replayHint : Str
  checksRun : ℕ := 0
  leadersByTerm : Dict ℕ NodeId := ∅
  committed : Dict ℕ (Entry × ℕ) := ∅
  appliedAt : Dict ℕ Str := ∅
  maxCommit : ℕ := 0
  prevCommit : Dict NodeId ℕ := ∅
  appliedSeen : Dict NodeId ℕ := ∅
  incarnation : Dict NodeId ℕ := ∅
  leaderSnapshot : Dict NodeId (ℕ × ℕ × ℕ × List Entry) := ∅
  pairChecked : Dict (NodeId × NodeId) (ℕ × ℕ) := ∅
  completenessChecked : Dict NodeId (ℕ × ℕ × ℕ) := ∅

namespace InvariantChecker

/-- `InvariantChecker.__init__`. -/
def new (seed : ℤ) (replayHint : Str) : InvariantChecker :=
  { seed
    replayHint := if replayHint = [] then "raftverified replay --seed ".toList ++ intStr seed
      else replayHint }

def fail {α : Type} (ck : InvariantChecker) (v : Violation) (step : ℕ) : Except RunError α :=
  .error (.violation ⟨v, ck.seed, step, ck.replayHint⟩)

/-! ### Crash rebasing -/

/-- One round of `_handle_restarts`. -/
def handleRestart (ck : InvariantChecker) (i : NodeId) (n : RaftNode) : InvariantChecker :=
  let prev := ck.incarnation.lookup i
  let ck := { ck with incarnation := ck.incarnation.insert i n.incarnation }
  if prev ≠ none ∧ prev ≠ some n.incarnation then
    { ck with
      prevCommit := ck.prevCommit.insert i n.commitIndex
      appliedSeen := ck.appliedSeen.insert i (n.baseIndex+n.applied.length) }
  else ck

def handleRestarts (ck : InvariantChecker) (nodes : NodeId → RaftNode) (ids : List NodeId) :
    InvariantChecker :=
  ids.foldl (fun ck i => ck.handleRestart i (nodes i)) ck

/-! ### Election Safety -/

def checkLeader (step : ℕ) (ck : InvariantChecker) (n : RaftNode) :
    Except RunError InvariantChecker :=
  if n.role = .leader then
    let prev := (ck.leadersByTerm.lookup n.term).getD n.id
    if prev ≠ n.id then ck.fail (.electionSafety n.term prev n.id) step
    else .ok { ck with leadersByTerm := ck.leadersByTerm.insert n.term prev }
  else .ok ck

def checkElectionSafety (nodes : NodeId → RaftNode) (ids : List NodeId) (step : ℕ)
    (ck : InvariantChecker) : Except RunError InvariantChecker :=
  ids.foldlM (fun ck i => ck.checkLeader step (nodes i)) ck

/-! ### Leader Append-Only -/

/-- Whether the leader's log differs from the remembered one at one of the indices. -/
def differsAt (oldBase : ℕ) (oldLog : List Entry) (n : RaftNode) :
    List ℕ → Except PyError Bool
  | [] => .ok false
  | idx :: rest => do
    let old ← pyGet oldLog ((idx : ℤ)-oldBase-1)
    let entry ← n.entryAt idx
    if old ≠ entry then .ok true else differsAt oldBase oldLog n rest

/-- Whether a leader has shrunk its log at the top or changed it where both logs reach. -/
def mutated (oldBase : ℕ) (oldLog : List Entry) (n : RaftNode) : Except PyError Bool :=
  if n.lastLogIndex < oldBase+oldLog.length then .ok true
  else differsAt oldBase oldLog n
    (pyRange (max oldBase n.baseIndex+1) (oldBase+oldLog.length+1))

/-- One round of `_check_leader_append_only`. -/
def checkAppendOnly (step : ℕ) (ck : InvariantChecker) (i : NodeId) (n : RaftNode) :
    Except RunError InvariantChecker :=
  if n.role ≠ .leader then .ok { ck with leaderSnapshot := ck.leaderSnapshot.erase i }
  else
    let cur := (n.term, n.logVersion, n.baseIndex, n.log)
    match ck.leaderSnapshot.lookup i with
    | none => .ok { ck with leaderSnapshot := ck.leaderSnapshot.insert i cur }
    | some (term, ver, oldBase, oldLog) =>
      if term ≠ n.term then .ok { ck with leaderSnapshot := ck.leaderSnapshot.insert i cur }
      else if ver = n.logVersion then .ok ck
      else do
        let mutated ← raises (mutated oldBase oldLog n)
        if mutated then
          ck.fail (.leaderAppendOnly n.id n.term (oldBase+oldLog.length) n.lastLogIndex) step
        else .ok { ck with leaderSnapshot := ck.leaderSnapshot.insert i cur }

def checkLeaderAppendOnly (nodes : NodeId → RaftNode) (ids : List NodeId) (step : ℕ)
    (ck : InvariantChecker) : Except RunError InvariantChecker :=
  ids.foldlM (fun ck i => ck.checkAppendOnly step i (nodes i)) ck

/-! ### Log Matching -/

/-- The pairs `ids[ai]`, `ids[bi]` with `ai < bi`, in the order of the two loops. -/
def pairs : List NodeId → List (NodeId × NodeId)
  | [] => []
  | a :: rest => rest.map (fun b => (a, b)) ++ pairs rest

/-- The first of the indices at which both logs have one term, or 0. -/
def agreedTop (a b : RaftNode) : List ℕ → Except PyError ℕ
  | [] => .ok 0
  | idx :: rest => do
    let ta ← a.termAt idx
    let tb ← b.termAt idx
    if ta = tb then .ok idx else agreedTop a b rest

/-- The first of the indices at which the logs differ. -/
def divergence (a b : RaftNode) : List ℕ → Except PyError (Option ℕ)
  | [] => .ok none
  | idx :: rest => do
    let ea ← a.entryAt idx
    let eb ← b.entryAt idx
    if ea ≠ eb then .ok (some idx) else divergence a b rest

/-- One round of `_check_log_matching`. -/
def checkPair (step : ℕ) (ck : InvariantChecker) (a b : RaftNode) :
    Except RunError InvariantChecker :=
  let vers := (a.logVersion, b.logVersion)
  if ck.pairChecked.lookup (a.id, b.id) = some vers then .ok ck
  else do
    let lo := max a.baseIndex b.baseIndex+1
    let hi := min a.lastLogIndex b.lastLogIndex
    let top ← raises (agreedTop a b (pyRange lo (hi+1)).reverse)
    let found ← raises (divergence a b (pyRange lo (top+1)))
    match found with
    | some idx => ck.fail (.logMatching a.id b.id top idx) step
    | none => .ok { ck with pairChecked := ck.pairChecked.insert (a.id, b.id) vers }

def checkLogMatching (nodes : NodeId → RaftNode) (ids : List NodeId) (step : ℕ)
    (ck : InvariantChecker) : Except RunError InvariantChecker :=
  (pairs ids).foldlM (fun ck p => ck.checkPair step (nodes p.1) (nodes p.2)) ck

/-! ### Commit bookkeeping -/

/-- `_holds`. -/
def holds (n : RaftNode) (idx : ℕ) (entry : Entry) : Except PyError Bool :=
  if idx ≤ n.baseIndex then .ok true
  else if n.lastLogIndex < idx then .ok false
  else (n.entryAt idx).map fun e => decide (e = entry)

/-- How many of the voters hold the entry. -/
def countHolders (nodes : NodeId → RaftNode) (ids : List NodeId) (idx : ℕ) (entry : Entry) :
    List NodeId → Except PyError ℕ
  | [] => .ok 0
  | v :: rest => do
    let held ← (if v ∈ ids then holds (nodes v) idx entry else .ok false)
    let count ← countHolders nodes ids idx entry rest
    .ok (if held then count+1 else count)

/-- Remember the entry committed at an index, or compare it with the one known. -/
def noteCommit (step : ℕ) (n : RaftNode) (ck : InvariantChecker) (idx : ℕ) (entry : Entry) :
    Except RunError InvariantChecker :=
  match ck.committed.lookup idx with
  | none => .ok { ck with committed := ck.committed.insert idx (entry, n.term) }
  | some known =>
    if known.1 ≠ entry then ck.fail (.committedTwice idx known.1 entry n.id) step else .ok ck

/-- A commit above all seen so far needs a majority of the node's own configuration. -/
def checkQuorum (nodes : NodeId → RaftNode) (ids : List NodeId) (step : ℕ) (n : RaftNode)
    (ck : InvariantChecker) (idx : ℕ) (entry : Entry) : Except RunError InvariantChecker :=
  if ck.maxCommit < idx then do
    let holders ← raises (countHolders nodes ids idx entry n.voters)
    if holders*2 ≤ n.voters.length then
      ck.fail (.commitQuorum n.id idx holders n.voters.length) step
    else .ok ck
  else .ok ck

/-- The inner loop of `_observe_commits`, at one index. -/
def observeIndex (nodes : NodeId → RaftNode) (ids : List NodeId) (step : ℕ) (n : RaftNode)
    (ck : InvariantChecker) (idx : ℕ) : Except RunError InvariantChecker := do
  let entry ← raises (n.entryAt idx)
  let ck ← ck.noteCommit step n idx entry
  ck.checkQuorum nodes ids step n idx entry

/-- One round of `_observe_commits`. -/
def observeNode (nodes : NodeId → RaftNode) (ids : List NodeId) (step : ℕ)
    (ck : InvariantChecker) (i : NodeId) : Except RunError InvariantChecker := do
  let n := nodes i
  let prev := (ck.prevCommit.lookup i).getD 0
  if n.commitIndex < prev then
    ck.fail (.commitIndexMonotonic n.id prev n.commitIndex) step
  else do
    let ck ← (pyRange (max prev n.baseIndex+1) (n.commitIndex+1)).foldlM
      (observeIndex nodes ids step n) ck
    .ok { ck with
      maxCommit := max ck.maxCommit n.commitIndex
      prevCommit := ck.prevCommit.insert i n.commitIndex }

def observeCommits (nodes : NodeId → RaftNode) (ids : List NodeId) (step : ℕ)
    (ck : InvariantChecker) : Except RunError InvariantChecker :=
  ids.foldlM (observeNode nodes ids step) ck

/-! ### Leader Completeness -/

/-- Whether the leader has to have the entry committed at `idx` and does not. -/
def lacks (n : RaftNode) (idx : ℕ) (known : Entry × ℕ) : Except PyError Bool :=
  if n.term < known.2 then .ok false
  else if idx ≤ n.baseIndex then .ok false
  else if n.lastLogIndex < idx then .ok true
  else (n.entryAt idx).map fun e => decide (e ≠ known.1)

def checkCommitted (step : ℕ) (ck : InvariantChecker) (n : RaftNode) :
    List ℕ → Except RunError Unit
  | [] => .ok ()
  | idx :: rest =>
    match ck.committed.lookup idx with
    | none => checkCommitted step ck n rest
    | some known => do
      let missing ← raises (lacks n idx known)
      if missing then ck.fail (.leaderCompleteness n.id n.term known.1 idx) step
      else checkCommitted step ck n rest

/-- One round of `_check_leader_completeness`. -/
def checkCompleteness (step : ℕ) (ck : InvariantChecker) (i : NodeId) (n : RaftNode) :
    Except RunError InvariantChecker :=
  if n.role ≠ .leader then
    .ok { ck with completenessChecked := ck.completenessChecked.erase i }
  else
    let state := (n.term, n.logVersion, ck.committed.keys.card)
    if ck.completenessChecked.lookup i = some state then .ok ck
    else do
      ck.checkCommitted step n (ck.committed.keys.sort (· ≤ ·))
      .ok { ck with completenessChecked := ck.completenessChecked.insert i state }

def checkLeaderCompleteness (nodes : NodeId → RaftNode) (ids : List NodeId) (step : ℕ)
    (ck : InvariantChecker) : Except RunError InvariantChecker :=
  ids.foldlM (fun ck i => ck.checkCompleteness step i (nodes i)) ck

/-! ### State Machine Safety -/

/-- The inner loop of `_check_state_machine_safety`, at one index. -/
def checkApplied (step : ℕ) (n : RaftNode) (ck : InvariantChecker) (logical : ℕ) :
    Except RunError InvariantChecker := do
  let cmd ← raises (pyGet n.applied ((logical : ℤ)-n.baseIndex-1))
  let known := (ck.appliedAt.lookup logical).getD cmd
  if known ≠ cmd then ck.fail (.appliedTwice logical known cmd n.id) step
  else .ok { ck with appliedAt := ck.appliedAt.insert logical known }

/-- One round of `_check_state_machine_safety`. -/
def checkStateMachine (step : ℕ) (ck : InvariantChecker) (i : NodeId) (n : RaftNode) :
    Except RunError InvariantChecker := do
  let seen := (ck.appliedSeen.lookup i).getD 0
  let top := n.baseIndex+n.applied.length
  let ck ← (pyRange (max seen n.baseIndex+1) (top+1)).foldlM (checkApplied step n) ck
  .ok { ck with appliedSeen := ck.appliedSeen.insert i (max seen top) }

def checkStateMachineSafety (nodes : NodeId → RaftNode) (ids : List NodeId) (step : ℕ)
    (ck : InvariantChecker) : Except RunError InvariantChecker :=
  ids.foldlM (fun ck i => ck.checkStateMachine step i (nodes i)) ck

/-- `check`; `ids` is the sorted list of the keys of `nodes`. -/
def check (ck : InvariantChecker) (nodes : NodeId → RaftNode) (ids : List NodeId) (step : ℕ) :
    Except RunError InvariantChecker := do
  let ck := { ck with checksRun := ck.checksRun+1 }
  let ck := ck.handleRestarts nodes ids
  let ck ← checkElectionSafety nodes ids step ck
  let ck ← checkLeaderAppendOnly nodes ids step ck
  let ck ← checkLogMatching nodes ids step ck
  let ck ← observeCommits nodes ids step ck
  let ck ← checkLeaderCompleteness nodes ids step ck
  checkStateMachineSafety nodes ids step ck

end InvariantChecker
end RaftVerified
