import Mathlib.Data.Finset.SymmDiff
import Mathlib.Order.SymmDiff
import RaftVerified.RaftTypes

/-! The state of one server and the methods of `RaftNode` that call nothing outside:
log helpers, configuration helpers and the loss of volatile state. -/
namespace RaftVerified

/-- An in-flight ReadIndex read: the encoded command, its read index and the acking nodes. -/
structure PendingRead where
  command : Str
  readIndex : ℕ
  acks : Finset NodeId

structure RaftNode where
  id : NodeId
  peers : List NodeId
  bugs : Bugs
  config : RaftConfig
  initialVoters : List NodeId
  voters : List NodeId
  -- persistent state
  term : ℕ := 0
  votedFor : Option NodeId := none
  log : List Entry := []
  baseIndex : ℕ := 0
  baseTerm : ℕ := 0
  snapshot : Option Snapshot := none
  configIndex : ℕ := 0
  -- volatile state
  role : Role := .follower
  commitIndex : ℕ := 0
  lastApplied : ℕ := 0
  applied : List Str := []
  kv : KVStateMachine := {}
  leaderId : Option NodeId := none
  alive : Bool := true
  logVersion : ℕ := 0
  incarnation : ℕ := 0
  nextIndex : Dict NodeId ℕ := ∅
  matchIndex : Dict NodeId ℕ := ∅
  votes : Finset NodeId := ∅
  clientIndex : Dict ℤ ℤ := ∅
  pendingReads : Dict ℕ PendingRead := ∅
  nextReadId : ℕ := 0
  committedThisTerm : Bool := false
  timerSeq : ℕ := 0
  /-- The entries below the base. A history variable: no handler reads it. -/
  folded : List Entry := []

namespace RaftNode

/-- `RaftNode.__init__`. -/
def new (id : NodeId) (peerIds : List NodeId) (config : RaftConfig) (bugs : Bugs)
    (initialVoters : Option (List NodeId)) : RaftNode :=
  let voters := match initialVoters with
    | some vs => sorted vs
    | none => sorted (sorted peerIds ++ [id])
  { id, peers := sorted peerIds, bugs, config, initialVoters := voters, voters }

/-! ### Log helpers -/

def lastLogIndex (n : RaftNode) : ℕ := n.baseIndex + n.log.length

def phys (n : RaftNode) (index : ℕ) : ℤ := (index : ℤ)-n.baseIndex-1

def termAt (n : RaftNode) (index : ℕ) : Except PyError ℕ :=
  if index ≤ n.baseIndex then .ok n.baseTerm
  else (pyGet n.log (n.phys index)).map Entry.term

def entryAt (n : RaftNode) (index : ℕ) : Except PyError Entry := pyGet n.log (n.phys index)

def logSuffix (n : RaftNode) (fromIndex : ℕ) : List Entry :=
  n.log.drop (max 0 (n.phys fromIndex)).toNat

/-- The whole log in logical indices, the compacted prefix included. -/
def logical (n : RaftNode) : List Entry := n.folded ++ n.log

/-! ### Membership -/

def otherVoters (n : RaftNode) : List NodeId := n.voters.filter (· ≠ n.id)

def adoptConfig (n : RaftNode) (voters : List NodeId) (index : ℕ) : RaftNode :=
  { n with voters, configIndex := index }

/-- The last configuration entry of `entries`, which start at `index`. -/
def scanConfig (current : List NodeId × ℕ) (index : ℕ) : List Entry → List NodeId × ℕ
  | [] => current
  | entry :: rest =>
    match decodeConfig entry.command with
    | some decoded => scanConfig (decoded, index) (index+1) rest
    | none => scanConfig current (index+1) rest

def rebuildConfig (n : RaftNode) : RaftNode :=
  let start := match n.snapshot with
    | some snapshot => (snapshot.voters, snapshot.lastIndex)
    | none => (n.initialVoters, 0)
  let found := scanConfig start (n.baseIndex+1) n.log
  n.adoptConfig found.1 found.2

/-- The loop of `_config_at`, from the `i`-th live entry downwards. -/
def configBelow (n : RaftNode) : ℕ → Except PyError (List NodeId)
  | 0 => .ok (match n.snapshot with
    | some snapshot => snapshot.voters
    | none => n.initialVoters)
  | i+1 => do
    let entry ← pyGet n.log i
    match decodeConfig entry.command with
    | some decoded => .ok decoded
    | none => n.configBelow i

def configAt (n : RaftNode) (upto : ℕ) : Except PyError (List NodeId) :=
  n.configBelow (upto-n.baseIndex)

/-! ### Lifecycle -/

/-- The assignments of `_reset_volatile`. -/
def clearVolatile (n : RaftNode) : RaftNode :=
  { n with
    role := .follower
    kv := match n.snapshot with
      | some snapshot => .restore snapshot.store snapshot.sessions
      | none => {}
    commitIndex := match n.snapshot with
      | some snapshot => snapshot.lastIndex
      | none => 0
    lastApplied := match n.snapshot with
      | some snapshot => snapshot.lastIndex
      | none => 0
    applied := []
    leaderId := none
    nextIndex := ∅
    matchIndex := ∅
    votes := ∅
    clientIndex := ∅
    pendingReads := ∅
    committedThisTerm := false
    timerSeq := n.timerSeq+1
    incarnation := n.incarnation+1 }

def resetVolatile (n : RaftNode) : RaftNode := n.clearVolatile.rebuildConfig

def pause (n : RaftNode) : RaftNode := { n with alive := false }.resetVolatile

/-- Every edit of the log raises `_log_version`. -/
def setLog (n : RaftNode) (log : List Entry) : RaftNode :=
  { n with log, logVersion := n.logVersion+1 }

/-- Append one entry; a configuration entry takes effect at once. -/
def pushEntry (n : RaftNode) (index : ℕ) (entry : Entry) : RaftNode :=
  match decodeConfig entry.command with
  | some decoded => (n.setLog (n.log ++ [entry])).adoptConfig decoded index
  | none => n.setLog (n.log ++ [entry])

/-- Delete the live entries from `index` on. -/
def truncateFrom (n : RaftNode) (index : ℕ) : RaftNode :=
  if index ≤ n.configIndex then (n.setLog (delFrom n.log (n.phys index))).rebuildConfig
  else n.setLog (delFrom n.log (n.phys index))

/-- One round of the append loop of `_on_append_entries`. -/
def appendEntry (n : RaftNode) (index : ℕ) (entry : Entry) : Except PyError RaftNode :=
  if index ≤ n.lastLogIndex then do
    let term ← n.termAt index
    if term ≠ entry.term then .ok ((n.truncateFrom index).pushEntry index entry)
    else .ok n
  else .ok (n.pushEntry index entry)

/-- The append loop; the next entry belongs at `index+1`. -/
def appendLoop (n : RaftNode) (index : ℕ) : List Entry → Except PyError RaftNode
  | [] => .ok n
  | entry :: rest => do
    let n ← n.appendEntry (index+1) entry
    n.appendLoop (index+1) rest

/-- The highest request id per client among `entries`. -/
def rebuildClientIndex (entries : List Entry) : Dict ℤ ℤ :=
  entries.foldl (fun index entry =>
    let cmd := Command.decode entry.command
    if cmd.isStructured = true ∧ (index.lookup cmd.clientId).getD (-1) < cmd.reqId then
      index.insert cmd.clientId cmd.reqId
    else index) ∅

/-! ### Roles -/

/-- The assignments of `_become_follower`. -/
def follow (n : RaftNode) (term : ℕ) : RaftNode :=
  { n with
    term
    votedFor := if n.term < term then none else n.votedFor
    role := .follower
    pendingReads := ∅ }

/-- The assignments of `start_election`. -/
def campaign (n : RaftNode) : RaftNode :=
  { n with
    term := n.term+1
    role := .candidate
    votedFor := some n.id
    leaderId := none
    votes := {n.id} }

/-- The assignments of `become_leader`. -/
def lead (n : RaftNode) : RaftNode :=
  let last := n.lastLogIndex
  { n with
    role := .leader
    leaderId := some n.id
    nextIndex := .fromKeys n.peers (last+1)
    matchIndex := (Dict.fromKeys n.peers 0).insert n.id last
    committedThisTerm := false
    clientIndex := rebuildClientIndex n.log }

def countVote (n : RaftNode) (voter : NodeId) : RaftNode :=
  { n with votes := insert voter n.votes }

/-- Append an entry of the current term to the own log. -/
def appendOwn (n : RaftNode) (command : Str) : RaftNode :=
  n.setLog (n.log ++ [{ term := n.term, command }])

/-- Count the whole own log as replicated at the node itself. -/
def countOwn (n : RaftNode) : RaftNode :=
  { n with matchIndex := n.matchIndex.insert n.id n.lastLogIndex }

/-! ### What a leader counts -/

/-- The assignments of `_on_append_reply` for a success. -/
def ackAppend (n : RaftNode) (msg : AppendReply) : RaftNode :=
  { n with
    matchIndex := n.matchIndex.insert msg.follower
      (max ((n.matchIndex.lookup msg.follower).getD 0) msg.matchIndex)
    nextIndex := n.nextIndex.insert msg.follower
      (max ((n.nextIndex.lookup msg.follower).getD 1) (msg.matchIndex+1)) }

/-- The assignments of `_on_append_reply` for a failure. -/
def backOff (n : RaftNode) (msg : AppendReply) : RaftNode :=
  { n with
    nextIndex := n.nextIndex.insert msg.follower
      (max 1 ((n.nextIndex.lookup msg.follower).getD 1-1)) }

/-- The assignments of `request_read`. -/
def queueRead (n : RaftNode) (command : Str) : RaftNode :=
  { n with
    nextReadId := n.nextReadId+1
    pendingReads := n.pendingReads.insert n.nextReadId
      { command, readIndex := n.commitIndex, acks := {n.id} } }

def ackRead (n : RaftNode) (msg : ReadAck) (pending : PendingRead) : RaftNode :=
  { n with
    pendingReads := n.pendingReads.insert msg.readId
      { pending with acks := insert msg.follower pending.acks } }

def dropRead (n : RaftNode) (readId : ℕ) : RaftNode :=
  { n with pendingReads := n.pendingReads.erase readId }

/-! ### The state machine -/

/-- The assignments of one round of the apply loop. -/
def applyAt (n : RaftNode) (index : ℕ) (command : Str) : RaftNode :=
  { n with
    lastApplied := index
    applied := n.applied ++ [command]
    kv := (n.kv.apply (Command.decode command)).1 }

/-- The assignments of `_maybe_compact`. -/
def compactTo (n : RaftNode) (upto lastTerm : ℕ) (voters : List NodeId) : RaftNode :=
  let folded := n.folded ++ n.log.take (upto-n.baseIndex)
  { n with
    log := n.log.drop (upto-n.baseIndex)
    applied := n.applied.drop (upto-n.baseIndex)
    baseIndex := upto
    baseTerm := lastTerm
    snapshot := some {
      lastIndex := upto, lastTerm, store := n.kv.capture.1, sessions := n.kv.capture.2
      voters, folded }
    logVersion := n.logVersion+1
    folded }

/-- Replace the state below `msg.lastIndex` by the image, keeping a consistent tail. -/
def restoreImage (n : RaftNode) (msg : InstallSnapshot) (keepTail : Bool) : RaftNode :=
  { n with
    log := if keepTail then n.log.drop (msg.lastIndex-n.baseIndex) else []
    kv := .restore msg.store msg.sessions
    snapshot := some {
      lastIndex := msg.lastIndex, lastTerm := msg.lastTerm, store := msg.store
      sessions := msg.sessions, voters := msg.voters, folded := msg.folded }
    baseIndex := msg.lastIndex
    baseTerm := msg.lastTerm
    commitIndex := msg.lastIndex
    lastApplied := msg.lastIndex
    applied := []
    logVersion := n.logVersion+1
    folded := msg.folded }

end RaftNode
end RaftVerified
