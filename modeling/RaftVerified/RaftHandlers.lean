import RaftVerified.RaftNode

/-! The methods of `RaftNode` that send, record, arm timers or apply commands. Each
takes the node together with the calls it has made so far in the running callback. -/
namespace RaftVerified

/-- A node inside one callback, and what it has called through its injected callables. -/
structure Exec where
  node : RaftNode
  calls : List Call := []

namespace Exec

/-- Assignments to attributes of the node. -/
def set (x : Exec) (n : RaftNode) : Exec := { x with node := n }

def call (x : Exec) (c : Call) : Exec := { x with calls := x.calls ++ [c] }

def send (x : Exec) (dst : NodeId) (msg : Message) : Exec := x.call (.send dst msg)

def record (x : Exec) (event : TraceEvent) : Exec := x.call (.record event)

def sendAll (x : Exec) (dsts : List NodeId) (msg : Message) : Exec :=
  { x with calls := x.calls ++ dsts.map fun dst => .send dst msg }

/-! ### Timers and role transitions -/

def armElectionTimer (x : Exec) : Exec :=
  let x := x.set { x.node with timerSeq := x.node.timerSeq+1 }
  x.call (.schedule (.electionTimeout x.node.timerSeq))

def armHeartbeatTimer (x : Exec) : Exec :=
  let x := x.set { x.node with timerSeq := x.node.timerSeq+1 }
  x.call (.schedule (.heartbeat x.node.timerSeq))

def becomeFollower (x : Exec) (term : ℕ) : Exec :=
  let y := x.set (x.node.follow term)
  let y := if x.node.role ≠ .follower ∨ x.node.term < term then
      y.record (.role x.node.id .follower term)
    else y
  y.armElectionTimer

/-- Catch up with the term of a message. -/
def catchUp (x : Exec) (term : ℕ) : Exec :=
  if x.node.term < term then x.becomeFollower term else x

/-- Note the leader a message came from and give it time. -/
def heed (x : Exec) (leader : NodeId) : Exec :=
  (x.set { x.node with leaderId := some leader }).armElectionTimer

/-! ### Replication -/

def sendInstallSnapshot (x : Exec) (peer : NodeId) : Exec :=
  match x.node.snapshot with
  | none => x
  | some snap => x.send peer (.installSnapshot {
      term := x.node.term
      leader := x.node.id
      lastIndex := snap.lastIndex
      lastTerm := snap.lastTerm
      store := snap.store
      sessions := snap.sessions
      voters := snap.voters
      folded := snap.folded })

/-- `_send_append_entries`. `next_index` is at least 1 wherever it is assigned, so
the subtraction is exact. -/
def sendAppendEntries (x : Exec) (peer : NodeId) : Except PyError Exec :=
  match x.node.nextIndex.lookup peer with
  | none => .error .keyError
  | some next =>
    let prev := next-1
    if prev < x.node.baseIndex then .ok (x.sendInstallSnapshot peer)
    else do
      let prevTerm ← x.node.termAt prev
      .ok (x.send peer (.appendEntries {
        term := x.node.term
        leader := x.node.id
        prevIndex := prev
        prevTerm
        entries := x.node.logSuffix (prev+1)
        leaderCommit := x.node.commitIndex }))

def broadcastTo (x : Exec) : List NodeId → Except PyError Exec
  | [] => .ok x
  | p :: rest => do
    let x ← x.sendAppendEntries p
    x.broadcastTo rest

def broadcastHeartbeats (x : Exec) : Except PyError Exec := x.broadcastTo x.node.otherVoters

def maybeCompact (x : Exec) : Except PyError Exec :=
  let n := x.node
  let threshold := n.config.snapshotThreshold
  if threshold ≤ 0 ∨ (n.lastApplied : ℤ)-n.baseIndex < threshold then .ok x
  else do
    let upto := n.lastApplied
    let lastTerm ← n.termAt upto
    let voters ← n.configAt upto
    let x := x.set (n.compactTo upto lastTerm voters)
    .ok (x.record (.snapshot n.id upto lastTerm))

/-- One round of the apply loop of `_set_commit_index`. -/
def applyNext (x : Exec) : Except PyError Exec := do
  let index := x.node.lastApplied+1
  let entry ← x.node.entryAt index
  let command := entry.command
  let result := (x.node.kv.apply (Command.decode command)).2
  let x := x.set (x.node.applyAt index command)
  .ok ((x.record (.apply x.node.id index command)).call (.onApply command result))

def applyLoop (x : Exec) : ℕ → Except PyError Exec
  | 0 => .ok x
  | k+1 => do
    let x ← x.applyNext
    x.applyLoop k

/-- `_set_commit_index`; its loop runs while `last_applied < commit_index`. -/
def setCommitIndex (x : Exec) (index : ℕ) : Except PyError Exec :=
  if index ≤ x.node.commitIndex then .ok x
  else do
    let x := x.set { x.node with commitIndex := index }
    let x := x.record (.commit x.node.id index)
    let x ← x.applyLoop (index-x.node.lastApplied)
    x.maybeCompact

/-- How many entries of the voter tuple have acknowledged index `n`. -/
def replicas (x : Exec) (n : ℕ) : ℕ :=
  x.node.voters.countP fun v => decide (n ≤ (x.node.matchIndex.lookup v).getD 0)

/-- The loop of `_advance_commit`, from index `n` downwards. -/
def advanceCommitFrom (x : Exec) : ℕ → Except PyError Exec
  | 0 => .ok x
  | n+1 =>
    if n+1 ≤ x.node.commitIndex then .ok x
    else do
      let term ← x.node.termAt (n+1)
      if term ≠ x.node.term ∧ x.node.bugs.dropCommitTermGuard = false then .ok x
      else if x.node.voters.length < x.replicas (n+1)*2 then do
        let x ← x.setCommitIndex (n+1)
        .ok (x.set { x.node with committedThisTerm := true })
      else x.advanceCommitFrom n

def advanceCommit (x : Exec) : Except PyError Exec := x.advanceCommitFrom x.node.lastLogIndex

/-! ### Elections -/

def becomeLeader (x : Exec) : Except PyError Exec := do
  let x := x.record (.role x.node.id .leader x.node.term)
  let x ← (x.set x.node.lead).broadcastHeartbeats
  .ok x.armHeartbeatTimer

def maybeWin (x : Exec) : Except PyError Exec :=
  let votes := (x.node.votes.filter (· ∈ x.node.voters)).card
  if x.node.role = .candidate ∧ x.node.voters.length < votes*2 then x.becomeLeader else .ok x

/-- The part of `start_election` that makes the node a candidate. -/
def stand (x : Exec) : Exec :=
  let x := x.set x.node.campaign
  let x := x.record (.election x.node.id x.node.term)
  let x := x.record (.role x.node.id .candidate x.node.term)
  x.armElectionTimer

def startElection (x : Exec) : Except PyError Exec :=
  if x.node.id ∉ x.node.voters then .ok x.armElectionTimer
  else do
    let x := x.stand
    let lastTerm ← x.node.termAt x.node.lastLogIndex
    let x := x.sendAll x.node.otherVoters (.requestVote {
      term := x.node.term
      candidate := x.node.id
      lastLogIndex := x.node.lastLogIndex
      lastLogTerm := lastTerm })
    x.maybeWin

def onElectionTimeout (x : Exec) (seq : ℕ) : Except PyError Exec :=
  if x.node.alive = false ∨ seq ≠ x.node.timerSeq ∨ x.node.role = .leader then .ok x
  else (x.record (.timer x.node.id x.node.term)).startElection

def onHeartbeat (x : Exec) (seq : ℕ) : Except PyError Exec :=
  if x.node.alive = false ∨ seq ≠ x.node.timerSeq ∨ x.node.role ≠ .leader then .ok x
  else do
    let x ← x.broadcastHeartbeats
    .ok x.armHeartbeatTimer

/-! ### The client interface -/

/-- The leader-side duplicate test of `client_command`. -/
def isRetry (n : RaftNode) (cmd : Command) : Bool :=
  cmd.isStructured && decide (cmd.reqId ≤ (n.clientIndex.lookup cmd.clientId).getD (-1))

/-- Remember the request id of a structured command that is about to be appended. -/
def noteRequest (x : Exec) (cmd : Command) : Exec :=
  if cmd.isStructured then
    x.set { x.node with clientIndex := x.node.clientIndex.insert cmd.clientId cmd.reqId }
  else x

/-- Append a command to the own log and send it out. -/
def replicate (x : Exec) (command : Str) : Except PyError Exec :=
  let x := x.set (x.node.appendOwn command).countOwn
  let x := x.record (.append x.node.id x.node.lastLogIndex x.node.term command)
  x.broadcastHeartbeats

def clientCommand (x : Exec) (command : Str) : Except PyError (Exec × Bool) :=
  if x.node.role ≠ .leader ∨ x.node.alive = false then .ok (x, false)
  else
    let cmd := Command.decode command
    if isRetry x.node cmd then .ok (x.record (.dedup x.node.id command), true)
    else do
      let x ← (x.noteRequest cmd).replicate command
      .ok (x, true)

/-- The refusals of `change_config` for a leader. -/
def refusesConfig (n : RaftNode) (new : List NodeId) : Prop :=
  (symmDiff new.toFinset n.voters.toFinset).card ≠ 1 ∨ n.id ∉ new ∨
    n.commitIndex < n.configIndex ∨
    (n.committedThisTerm = false ∧ n.bugs.dropConfigCommitGuard = false)

instance (n : RaftNode) (new : List NodeId) : Decidable (refusesConfig n new) := by
  unfold refusesConfig
  infer_instance

/-- Append a configuration to the own log, adopt it and send it out. -/
def replicateConfig (x : Exec) (new : List NodeId) : Except PyError Exec :=
  let n := x.node.appendOwn (encodeConfig new)
  let x := x.set (n.adoptConfig new n.lastLogIndex).countOwn
  let x := x.record (.cfgchange n.id n.lastLogIndex n.term new)
  x.broadcastHeartbeats

def changeConfig (x : Exec) (newVoters : List NodeId) : Except PyError (Exec × Bool) :=
  if x.node.role ≠ .leader ∨ x.node.alive = false then .ok (x, false)
  else
    let new := sorted newVoters.dedup
    if refusesConfig x.node new then .ok (x, false)
    else do
      let x ← x.replicateConfig new
      .ok (x, true)

/-! ### ReadIndex reads -/

def tryServeRead (x : Exec) (readId : ℕ) : Exec :=
  match x.node.pendingReads.lookup readId with
  | none => x
  | some pending =>
    let confirmed := (pending.acks.filter (· ∈ x.node.voters)).card
    if x.node.voters.length < confirmed*2 ∧ pending.readIndex ≤ x.node.lastApplied then
      let x := x.set (x.node.dropRead readId)
      let result := x.node.kv.applyRead (Command.decode pending.command)
      (x.record (.readserved x.node.id readId pending.command)).call
        (.onApply pending.command result)
    else x

def requestRead (x : Exec) (command : Str) : Exec × Bool :=
  if x.node.role ≠ .leader ∨ x.node.alive = false ∨ x.node.committedThisTerm = false then
    (x, false)
  else
    let n := x.node
    let readId := n.nextReadId
    let x := (x.set (n.queueRead command)).record (.read n.id readId n.commitIndex)
    let x := x.sendAll n.otherVoters (.readHeartbeat { term := n.term, leader := n.id, readId })
    (x.tryServeRead readId, true)

def onReadHeartbeat (x : Exec) (msg : ReadHeartbeat) : Exec :=
  let x := x.catchUp msg.term
  let x := if x.node.term ≤ msg.term then x.heed msg.leader else x
  x.send msg.leader (.readAck {
    term := x.node.term, follower := x.node.id, readId := msg.readId })

def onReadAck (x : Exec) (msg : ReadAck) : Exec :=
  if x.node.term < msg.term then x.becomeFollower msg.term
  else match x.node.pendingReads.lookup msg.readId with
    | none => x
    | some pending =>
      if msg.term ≠ x.node.term ∨ x.node.role ≠ .leader then x
      else (x.set (x.node.ackRead msg pending)).tryServeRead msg.readId

/-! ### RequestVote -/

/-- Whether a vote request is granted: the term, the vote so far and the election
restriction. -/
def grants (n : RaftNode) (msg : RequestVote) : Except PyError Bool :=
  if msg.term = n.term ∧ (n.votedFor = none ∨ n.votedFor = some msg.candidate) then do
    let myLastTerm ← n.termAt n.lastLogIndex
    let upToDate := myLastTerm < msg.lastLogTerm ∨
      (msg.lastLogTerm = myLastTerm ∧ n.lastLogIndex ≤ msg.lastLogIndex)
    .ok (decide upToDate || n.bugs.voteForStaleCandidate)
  else .ok false

def castVote (x : Exec) (candidate : NodeId) : Exec :=
  let x := x.set { x.node with votedFor := some candidate }
  (x.record (.vote x.node.id candidate x.node.term)).armElectionTimer

def onRequestVote (x : Exec) (msg : RequestVote) : Except PyError Exec := do
  let x := x.catchUp msg.term
  let granted ← grants x.node msg
  let x := if granted then x.castVote msg.candidate else x
  .ok (x.send msg.candidate (.voteReply { term := x.node.term, voter := x.node.id, granted }))

def onVoteReply (x : Exec) (msg : VoteReply) : Except PyError Exec :=
  if x.node.term < msg.term then .ok (x.becomeFollower msg.term)
  else if x.node.role ≠ .candidate ∨ msg.term < x.node.term ∨ msg.granted = false then .ok x
  else (x.set (x.node.countVote msg.voter)).maybeWin

/-! ### AppendEntries -/

def replyAppend (x : Exec) (dst : NodeId) (success : Bool) (matchIndex : ℕ) : Exec :=
  x.send dst (.appendReply { term := x.node.term, follower := x.node.id, success, matchIndex })

/-- `term_mismatch` at `prev_index`; a log that is too short has no term there. -/
def termMismatch (n : RaftNode) (msg : AppendEntries) : Except PyError Bool :=
  if n.lastLogIndex < msg.prevIndex then .ok false
  else (n.termAt msg.prevIndex).map fun t => decide (t ≠ msg.prevTerm)

/-- The consistency check at `prev_index`; true when the message must be refused. -/
def inconsistent (n : RaftNode) (msg : AppendEntries) : Except PyError Bool := do
  let mismatch ← termMismatch n msg
  .ok (decide (0 < msg.prevIndex ∧ (n.lastLogIndex < msg.prevIndex ∨
    (mismatch = true ∧ n.bugs.skipLogConsistency = false))))

/-- The commit rule of a follower that holds everything up to `matchIndex`. -/
def followCommit (x : Exec) (leaderCommit matchIndex : ℕ) : Except PyError Exec :=
  if x.node.bugs.allowCommitRegression then
    .ok (x.set { x.node with commitIndex := min leaderCommit matchIndex })
  else if x.node.commitIndex < leaderCommit then
    x.setCommitIndex (max x.node.commitIndex (min leaderCommit matchIndex))
  else .ok x

/-- The part of `_on_append_entries` after the sender is known to lead the own term. -/
def appendFromLeader (x : Exec) (msg : AppendEntries) : Except PyError Exec := do
  let refused ← inconsistent x.node msg
  if refused then .ok (x.replyAppend msg.leader false 0)
  else do
    let n ← x.node.appendLoop msg.prevIndex msg.entries
    let matchIndex := msg.prevIndex+msg.entries.length
    let x ← (x.set n).followCommit msg.leaderCommit matchIndex
    .ok (x.replyAppend msg.leader true matchIndex)

def onAppendEntries (x : Exec) (msg : AppendEntries) : Except PyError Exec :=
  let x := x.catchUp msg.term
  if msg.term < x.node.term then .ok (x.replyAppend msg.leader false 0)
  else
    let x := if x.node.role ≠ .follower then x.becomeFollower msg.term else x
    (x.heed msg.leader).appendFromLeader msg

def onAppendReply (x : Exec) (msg : AppendReply) : Except PyError Exec :=
  if x.node.term < msg.term then .ok (x.becomeFollower msg.term)
  else if x.node.role ≠ .leader ∨ msg.term < x.node.term then .ok x
  else
    if msg.success then (x.set (x.node.ackAppend msg)).advanceCommit
    else (x.set (x.node.backOff msg)).sendAppendEntries msg.follower

/-! ### InstallSnapshot -/

def installImage (x : Exec) (msg : InstallSnapshot) (keepTail : Bool) : Exec :=
  (x.set (x.node.restoreImage msg keepTail).rebuildConfig).record
    (.installsnap x.node.id msg.lastIndex msg.lastTerm)

/-- Whether the log holds the image's last entry, so that the entries after it stay. -/
def keepsTail (n : RaftNode) (msg : InstallSnapshot) : Except PyError Bool :=
  if msg.lastIndex ≤ n.lastLogIndex then
    (n.termAt msg.lastIndex).map fun t => decide (t = msg.lastTerm)
  else .ok false

/-- The part of `_on_install_snapshot` after the term checks. -/
def installFromLeader (x : Exec) (msg : InstallSnapshot) : Except PyError Exec :=
  if msg.lastIndex ≤ x.node.baseIndex then
    .ok (x.replyAppend msg.leader true x.node.lastLogIndex)
  else do
    let keepTail ← keepsTail x.node msg
    .ok ((x.installImage msg keepTail).replyAppend msg.leader true msg.lastIndex)

def onInstallSnapshot (x : Exec) (msg : InstallSnapshot) : Except PyError Exec :=
  if msg.term < x.node.term then .ok (x.replyAppend msg.leader false 0)
  else
    let x := if x.node.term < msg.term ∨ x.node.role ≠ .follower then
      x.becomeFollower msg.term else x
    (x.heed msg.leader).installFromLeader msg

/-! ### Dispatch and lifecycle -/

def handle (x : Exec) (msg : Message) : Except PyError Exec :=
  if x.node.alive = false then .ok x
  else match msg with
    | .requestVote m => x.onRequestVote m
    | .voteReply m => x.onVoteReply m
    | .appendEntries m => x.onAppendEntries m
    | .appendReply m => x.onAppendReply m
    | .installSnapshot m => x.onInstallSnapshot m
    | .readHeartbeat m => .ok (x.onReadHeartbeat m)
    | .readAck m => .ok (x.onReadAck m)

def start (x : Exec) : Exec := x.armElectionTimer

def resume (x : Exec) : Exec :=
  (x.set { x.node with alive := true }).armElectionTimer

end Exec
end RaftVerified
