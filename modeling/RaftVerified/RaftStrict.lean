import RaftVerified.RaftWorld

/-! The callbacks once more, with a `term_at` and an `entry_at` that raise for every index that
is none of the log, also for those where Python would read at a negative offset. -/
namespace RaftVerified
namespace Strict

/-- `term_at` of an index from the base on. -/
def termAt (n : RaftNode) (index : ℤ) : Except PyError ℕ :=
  if n.baseIndex ≤ index ∧ index ≤ n.lastLogIndex then n.termAt index.toNat else .error .indexError

/-- `entry_at` of an index above the base. -/
def entryAt (n : RaftNode) (index : ℤ) : Except PyError Entry :=
  if n.baseIndex < index ∧ index ≤ n.lastLogIndex then n.entryAt index.toNat
  else .error .indexError

/-- The deletion of the entries from an index above the base on. -/
def truncateFrom (n : RaftNode) (index : ℕ) : Except PyError RaftNode :=
  if n.baseIndex < index then .ok (n.truncateFrom index) else .error .indexError

def appendEntry (n : RaftNode) (index : ℕ) (entry : Entry) : Except PyError RaftNode :=
  if index ≤ n.lastLogIndex then do
    let term ← termAt n index
    if term ≠ entry.term then do
      let n ← truncateFrom n index
      .ok (n.pushEntry index entry)
    else .ok n
  else .ok (n.pushEntry index entry)

def appendLoop (n : RaftNode) (index : ℕ) : List Entry → Except PyError RaftNode
  | [] => .ok n
  | entry :: rest => do
    let n ← appendEntry n (index+1) entry
    appendLoop n (index+1) rest

/-! ### Replication -/

/-- Here the subtraction may give -1. -/
def sendAppendEntries (x : Exec) (peer : NodeId) : Except PyError Exec :=
  match x.node.nextIndex.lookup peer with
  | none => .error .keyError
  | some next =>
    let prev : ℤ := (next : ℤ)-1
    if prev < x.node.baseIndex then .ok (x.sendInstallSnapshot peer)
    else do
      let prevTerm ← termAt x.node prev
      .ok (x.send peer (.appendEntries {
        term := x.node.term
        leader := x.node.id
        prevIndex := prev.toNat
        prevTerm
        entries := x.node.logSuffix (prev+1).toNat
        leaderCommit := x.node.commitIndex }))

def broadcastTo (x : Exec) : List NodeId → Except PyError Exec
  | [] => .ok x
  | p :: rest => do
    let x ← sendAppendEntries x p
    broadcastTo x rest

def broadcastHeartbeats (x : Exec) : Except PyError Exec := broadcastTo x x.node.otherVoters

def maybeCompact (x : Exec) : Except PyError Exec :=
  let n := x.node
  let threshold := n.config.snapshotThreshold
  if threshold ≤ 0 ∨ (n.lastApplied : ℤ)-n.baseIndex < threshold then .ok x
  else do
    let upto := n.lastApplied
    let lastTerm ← termAt n upto
    let voters ← n.configAt upto
    let x := x.set (n.compactTo upto lastTerm voters)
    .ok (x.record (.snapshot n.id upto lastTerm))

def applyNext (x : Exec) : Except PyError Exec := do
  let index := x.node.lastApplied+1
  let entry ← entryAt x.node index
  let command := entry.command
  let result := (x.node.kv.apply (Command.decode command)).2
  let x := x.set (x.node.applyAt index command)
  .ok ((x.record (.apply x.node.id index command)).call (.onApply command result))

def applyLoop (x : Exec) : ℕ → Except PyError Exec
  | 0 => .ok x
  | k+1 => do
    let x ← applyNext x
    applyLoop x k

def setCommitIndex (x : Exec) (index : ℕ) : Except PyError Exec :=
  if index ≤ x.node.commitIndex then .ok x
  else do
    let x := x.set { x.node with commitIndex := index }
    let x := x.record (.commit x.node.id index)
    let x ← applyLoop x (index-x.node.lastApplied)
    maybeCompact x

def advanceCommitFrom (x : Exec) : ℕ → Except PyError Exec
  | 0 => .ok x
  | n+1 =>
    if n+1 ≤ x.node.commitIndex then .ok x
    else do
      let term ← termAt x.node (n+1 : ℕ)
      if term ≠ x.node.term ∧ x.node.bugs.dropCommitTermGuard = false then .ok x
      else if x.node.voters.length < x.replicas (n+1)*2 then do
        let x ← setCommitIndex x (n+1)
        .ok (x.set { x.node with committedThisTerm := true })
      else advanceCommitFrom x n

def advanceCommit (x : Exec) : Except PyError Exec := advanceCommitFrom x x.node.lastLogIndex

/-! ### Elections -/

def becomeLeader (x : Exec) : Except PyError Exec := do
  let x := x.record (.role x.node.id .leader x.node.term)
  let x ← broadcastHeartbeats (x.set x.node.lead)
  .ok x.armHeartbeatTimer

def maybeWin (x : Exec) : Except PyError Exec :=
  let votes := (x.node.votes.filter (· ∈ x.node.voters)).card
  if x.node.role = .candidate ∧ x.node.voters.length < votes*2 then becomeLeader x else .ok x

def startElection (x : Exec) : Except PyError Exec :=
  if x.node.id ∉ x.node.voters then .ok x.armElectionTimer
  else do
    let x := x.stand
    let lastTerm ← termAt x.node x.node.lastLogIndex
    let x := x.sendAll x.node.otherVoters (.requestVote {
      term := x.node.term
      candidate := x.node.id
      lastLogIndex := x.node.lastLogIndex
      lastLogTerm := lastTerm })
    maybeWin x

def onElectionTimeout (x : Exec) (seq : ℕ) : Except PyError Exec :=
  if x.node.alive = false ∨ seq ≠ x.node.timerSeq ∨ x.node.role = .leader then .ok x
  else startElection (x.record (.timer x.node.id x.node.term))

def onHeartbeat (x : Exec) (seq : ℕ) : Except PyError Exec :=
  if x.node.alive = false ∨ seq ≠ x.node.timerSeq ∨ x.node.role ≠ .leader then .ok x
  else do
    let x ← broadcastHeartbeats x
    .ok x.armHeartbeatTimer

/-! ### The client interface -/

def replicate (x : Exec) (command : Str) : Except PyError Exec :=
  let x := x.set (x.node.appendOwn command).countOwn
  let x := x.record (.append x.node.id x.node.lastLogIndex x.node.term command)
  broadcastHeartbeats x

def clientCommand (x : Exec) (command : Str) : Except PyError (Exec × Bool) :=
  if x.node.role ≠ .leader ∨ x.node.alive = false then .ok (x, false)
  else
    let cmd := Command.decode command
    if Exec.isRetry x.node cmd then .ok (x.record (.dedup x.node.id command), true)
    else do
      let x ← replicate (x.noteRequest cmd) command
      .ok (x, true)

def replicateConfig (x : Exec) (new : List NodeId) : Except PyError Exec :=
  let n := x.node.appendOwn (encodeConfig new)
  let x := x.set (n.adoptConfig new n.lastLogIndex).countOwn
  let x := x.record (.cfgchange n.id n.lastLogIndex n.term new)
  broadcastHeartbeats x

def changeConfig (x : Exec) (newVoters : List NodeId) : Except PyError (Exec × Bool) :=
  if x.node.role ≠ .leader ∨ x.node.alive = false then .ok (x, false)
  else
    let new := sorted newVoters.dedup
    if Exec.refusesConfig x.node new then .ok (x, false)
    else do
      let x ← replicateConfig x new
      .ok (x, true)

/-! ### Messages -/

def grants (n : RaftNode) (msg : RequestVote) : Except PyError Bool :=
  if msg.term = n.term ∧ (n.votedFor = none ∨ n.votedFor = some msg.candidate) then do
    let myLastTerm ← termAt n n.lastLogIndex
    let upToDate := myLastTerm < msg.lastLogTerm ∨
      (msg.lastLogTerm = myLastTerm ∧ n.lastLogIndex ≤ msg.lastLogIndex)
    .ok (decide upToDate || n.bugs.voteForStaleCandidate)
  else .ok false

def onRequestVote (x : Exec) (msg : RequestVote) : Except PyError Exec := do
  let x := x.catchUp msg.term
  let granted ← grants x.node msg
  let x := if granted then x.castVote msg.candidate else x
  .ok (x.send msg.candidate (.voteReply { term := x.node.term, voter := x.node.id, granted }))

def onVoteReply (x : Exec) (msg : VoteReply) : Except PyError Exec :=
  if x.node.term < msg.term then .ok (x.becomeFollower msg.term)
  else if x.node.role ≠ .candidate ∨ msg.term < x.node.term ∨ msg.granted = false then .ok x
  else maybeWin (x.set (x.node.countVote msg.voter))

def termMismatch (n : RaftNode) (msg : AppendEntries) : Except PyError Bool :=
  if n.lastLogIndex < msg.prevIndex then .ok false
  else (termAt n msg.prevIndex).map fun t => decide (t ≠ msg.prevTerm)

def inconsistent (n : RaftNode) (msg : AppendEntries) : Except PyError Bool := do
  let mismatch ← termMismatch n msg
  .ok (decide (0 < msg.prevIndex ∧ (n.lastLogIndex < msg.prevIndex ∨
    (mismatch = true ∧ n.bugs.skipLogConsistency = false))))

def followCommit (x : Exec) (leaderCommit matchIndex : ℕ) : Except PyError Exec :=
  if x.node.bugs.allowCommitRegression then
    .ok (x.set { x.node with commitIndex := min leaderCommit matchIndex })
  else if x.node.commitIndex < leaderCommit then
    setCommitIndex x (max x.node.commitIndex (min leaderCommit matchIndex))
  else .ok x

def appendFromLeader (x : Exec) (msg : AppendEntries) : Except PyError Exec := do
  let refused ← inconsistent x.node msg
  if refused then .ok (x.replyAppend msg.leader false 0)
  else do
    let n ← appendLoop x.node msg.prevIndex msg.entries
    let matchIndex := msg.prevIndex+msg.entries.length
    let x ← followCommit (x.set n) msg.leaderCommit matchIndex
    .ok (x.replyAppend msg.leader true matchIndex)

def onAppendEntries (x : Exec) (msg : AppendEntries) : Except PyError Exec :=
  let x := x.catchUp msg.term
  if msg.term < x.node.term then .ok (x.replyAppend msg.leader false 0)
  else
    let x := if x.node.role ≠ .follower then x.becomeFollower msg.term else x
    appendFromLeader (x.heed msg.leader) msg

def onAppendReply (x : Exec) (msg : AppendReply) : Except PyError Exec :=
  if x.node.term < msg.term then .ok (x.becomeFollower msg.term)
  else if x.node.role ≠ .leader ∨ msg.term < x.node.term then .ok x
  else
    if msg.success then advanceCommit (x.set (x.node.ackAppend msg))
    else sendAppendEntries (x.set (x.node.backOff msg)) msg.follower

def keepsTail (n : RaftNode) (msg : InstallSnapshot) : Except PyError Bool :=
  if msg.lastIndex ≤ n.lastLogIndex then
    (termAt n msg.lastIndex).map fun t => decide (t = msg.lastTerm)
  else .ok false

def installFromLeader (x : Exec) (msg : InstallSnapshot) : Except PyError Exec :=
  if msg.lastIndex ≤ x.node.baseIndex then
    .ok (x.replyAppend msg.leader true x.node.lastLogIndex)
  else do
    let keepTail ← keepsTail x.node msg
    .ok ((x.installImage msg keepTail).replyAppend msg.leader true msg.lastIndex)

def onInstallSnapshot (x : Exec) (msg : InstallSnapshot) : Except PyError Exec :=
  if msg.term < x.node.term then .ok (x.replyAppend msg.leader false 0)
  else
    let x := if x.node.term < msg.term ∨ x.node.role ≠ .follower then
      x.becomeFollower msg.term else x
    installFromLeader (x.heed msg.leader) msg

def handle (x : Exec) (msg : Message) : Except PyError Exec :=
  if x.node.alive = false then .ok x
  else match msg with
    | .requestVote m => onRequestVote x m
    | .voteReply m => onVoteReply x m
    | .appendEntries m => onAppendEntries x m
    | .appendReply m => onAppendReply x m
    | .installSnapshot m => onInstallSnapshot x m
    | .readHeartbeat m => .ok (x.onReadHeartbeat m)
    | .readAck m => .ok (x.onReadAck m)

/-- Run the callback of an event at the given node. -/
def callback (w : World) (n : RaftNode) : Event → Except PyError Exec
  | .electionTimeout _ seq => onElectionTimeout { node := n } seq
  | .heartbeat _ seq => onHeartbeat { node := n } seq
  | .clientCommand _ command => (clientCommand { node := n } command).map Prod.fst
  | .changeConfig _ newVoters => (changeConfig { node := n } newVoters).map Prod.fst
  | .requestRead _ command => .ok (({ node := n } : Exec).requestRead command).1
  | .deliver k =>
    match w.sent[k]? with
    | some p => handle { node := n } p.msg
    | none => .ok { node := n }
  | .pause _ => .ok { node := n.pause }
  | .resume _ => .ok (({ node := n } : Exec).resume)

/-! ### In range nothing is different -/

variable {n : RaftNode} {k : ℕ}

theorem termAt_eq (hb : n.baseIndex ≤ k) (hk : k ≤ n.lastLogIndex) :
    termAt n k = n.termAt k := by
  have hin : (n.baseIndex : ℤ) ≤ k ∧ (k : ℤ) ≤ n.lastLogIndex := ⟨by omega, by omega⟩
  unfold termAt
  rw [if_pos hin, Int.toNat_natCast]

theorem entryAt_eq (hb : n.baseIndex < k) (hk : k ≤ n.lastLogIndex) :
    entryAt n k = n.entryAt k := by
  have hin : (n.baseIndex : ℤ) < k ∧ (k : ℤ) ≤ n.lastLogIndex := ⟨by omega, by omega⟩
  unfold entryAt
  rw [if_pos hin, Int.toNat_natCast]

theorem appendEntry_eq (hb : n.baseIndex ≤ k) (entry : Entry) :
    appendEntry n (k+1) entry = n.appendEntry (k+1) entry := by
  unfold appendEntry RaftNode.appendEntry
  split
  next hle =>
    rw [termAt_eq (Nat.le_succ_of_le hb) hle, truncateFrom, if_pos (Nat.lt_succ_of_le hb)]
    rfl
  next => rfl

/-- The consistency check looks only at an index that it has compared with the log. -/
theorem inconsistent_eq {msg : AppendEntries} (hb : n.baseIndex ≤ msg.prevIndex) :
    inconsistent n msg = Exec.inconsistent n msg := by
  have hmis : termMismatch n msg = Exec.termMismatch n msg := by
    unfold termMismatch Exec.termMismatch
    split
    next => rfl
    next hle => rw [termAt_eq hb (not_lt.mp hle)]
  unfold inconsistent Exec.inconsistent
  rw [hmis]

theorem keepsTail_eq {msg : InstallSnapshot} (hb : n.baseIndex ≤ msg.lastIndex) :
    keepsTail n msg = Exec.keepsTail n msg := by
  unfold keepsTail Exec.keepsTail
  split
  next hle => rw [termAt_eq hb hle]
  next => rfl

end Strict
end RaftVerified
