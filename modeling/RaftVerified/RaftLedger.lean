import RaftVerified.RaftProgress

/-! What a callback does to the log of its node, whatever the state it starts from: every
edit raises the log version, and a leader appends only what its client index has not seen. -/
namespace RaftVerified

variable {n n' m m' : RaftNode}

/-- The fields that say what a node has logged, and for which clients. -/
def RaftNode.ledger (n : RaftNode) :=
  (n.role, n.log, n.baseIndex, n.logVersion, n.clientIndex, n.config, n.id)

/-- `m` is the same server with the log and base of `n`, or a newer version of them. -/
structure Versioned (n m : RaftNode) : Prop where
  id : m.id = n.id
  le : n.logVersion ≤ m.logVersion
  same : m.logVersion = n.logVersion → m.log = n.log ∧ m.baseIndex = n.baseIndex

theorem Versioned.refl (n : RaftNode) : Versioned n n := ⟨rfl, le_rfl, fun _ => ⟨rfl, rfl⟩⟩

theorem Versioned.trans (h : Versioned n m) (h' : Versioned m m') : Versioned n m' where
  id := h'.id.trans h.id
  le := h.le.trans h'.le
  same heq := by
    have hle := h.le
    have hle' := h'.le
    obtain ⟨hlog, hbase⟩ := h.same (by omega)
    obtain ⟨hlog', hbase'⟩ := h'.same (by omega)
    exact ⟨hlog'.trans hlog, hbase'.trans hbase⟩

theorem versioned_of_lt (hid : m.id = n.id) (h : n.logVersion < m.logVersion) : Versioned n m :=
  ⟨hid, h.le, fun heq => absurd heq h.ne'⟩

theorem versioned_of_eq (hid : m.id = n.id) (hlog : m.log = n.log)
    (hbase : m.baseIndex = n.baseIndex) (hver : m.logVersion = n.logVersion) : Versioned n m :=
  ⟨hid, hver.ge, fun _ => ⟨hlog, hbase⟩⟩

theorem versioned_of_ledger (h : m.ledger = n.ledger) : Versioned n m := by
  simp only [RaftNode.ledger, Prod.mk.injEq] at h
  exact versioned_of_eq h.2.2.2.2.2.2 h.2.1 h.2.2.1 h.2.2.2.1

/-- How `m`, if it leads, comes from `n`: it led before and kept its log or appended a
request, or it has just been elected with the log it had. -/
inductive Leads (n m : RaftNode) : Prop
  | follows (hr : m.role ≠ .leader)
  | stays (hr : n.role = .leader) (hlog : m.log = n.log) (hindex : m.clientIndex = n.clientIndex)
  | elected (hlog : m.log = n.log) (hindex : m.clientIndex = RaftNode.rebuildClientIndex m.log)
  | appended (command : Str) (hr : n.role = .leader)
      (hnew : Exec.isRetry n (Command.decode command) = false)
      (hlog : m.log = n.log ++ [{ term := n.term, command }])
      (hindex : m.clientIndex = if (Command.decode command).isStructured then
        n.clientIndex.insert (Command.decode command).clientId (Command.decode command).reqId
        else n.clientIndex)

theorem leads_of_ledger (h : m.ledger = n.ledger) : Leads n m := by
  simp only [RaftNode.ledger, Prod.mk.injEq] at h
  obtain ⟨hr, hlog, -, -, hindex, -⟩ := h
  by_cases hlead : n.role = .leader
  · exact .stays hlead hlog hindex
  · exact .follows (by rwa [hr])

/-- What a node that has just stepped down, or has not moved, becomes. -/
theorem Leads.after (h : Leads n' m) (hrole : n'.role = n.role ∨ n'.role ≠ .leader)
    (hterm : n'.role = .leader → n'.term = n.term) (hlog : n'.log = n.log)
    (hindex : n'.clientIndex = n.clientIndex) : Leads n m := by
  have hsame : n'.role = .leader → n.role = .leader := by
    intro hr
    rcases hrole with heq | hne
    · rwa [← heq]
    · exact absurd hr hne
  cases h with
  | follows hr => exact .follows hr
  | stays hr hl hi => exact .stays (hsame hr) (hl.trans hlog) (hi.trans hindex)
  | elected hl hi => exact .elected (hl.trans hlog) hi
  | appended command hr hnew hl hi =>
    unfold Exec.isRetry at hnew
    rw [hindex] at hnew hi
    rw [hlog, hterm hr] at hl
    exact .appended command (hsame hr) hnew hl hi

namespace Exec
variable {x y : Exec}

/-! ### Roles and messages -/

theorem broadcastTo_node (ps : List NodeId) (h : x.broadcastTo ps = .ok y) :
    y.node = x.node := by
  induction ps generalizing x with
  | nil =>
    obtain rfl := Except.ok.inj h
    rfl
  | cons p ps ih =>
    obtain ⟨z, hz, h⟩ := bind_ok.mp h
    exact (ih h).trans (sendAppendEntries_node hz)

theorem becomeFollower_ledger (x : Exec) (term : ℕ) : (x.becomeFollower term).node.ledger =
    (.follower, x.node.log, x.node.baseIndex, x.node.logVersion, x.node.clientIndex,
      x.node.config, x.node.id) := by
  unfold becomeFollower
  dsimp only
  split <;> rfl

theorem becomeFollower_versioned (x : Exec) (term : ℕ) :
    Versioned x.node (x.becomeFollower term).node := by
  have h := becomeFollower_ledger x term
  simp only [RaftNode.ledger, Prod.mk.injEq] at h
  exact versioned_of_eq h.2.2.2.2.2.2 h.2.1 h.2.2.1 h.2.2.2.1

theorem becomeFollower_leads (x : Exec) (term : ℕ) : Leads x.node (x.becomeFollower term).node :=
  .follows (by rw [becomeFollower_role]; exact nofun)

theorem catchUp_versioned (x : Exec) (term : ℕ) : Versioned x.node (x.catchUp term).node := by
  unfold catchUp
  split
  · exact becomeFollower_versioned x term
  · exact Versioned.refl _

/-- Catching up either does nothing or makes the node a follower with the same log. -/
theorem catchUp_leads {m : RaftNode} (x : Exec) (term : ℕ)
    (h : Leads (x.catchUp term).node m) : Leads x.node m := by
  unfold catchUp at h
  split at h
  · have hl := becomeFollower_ledger x term
    simp only [RaftNode.ledger, Prod.mk.injEq] at hl
    have hne : (x.becomeFollower term).node.role ≠ .leader := by
      rw [hl.1]
      exact nofun
    exact h.after (Or.inr hne) (fun hr => absurd hr hne) hl.2.1 hl.2.2.2.2.1
  · exact h

theorem becomeLeader_ledger (h : x.becomeLeader = .ok y) : y.node.ledger =
    (.leader, x.node.log, x.node.baseIndex, x.node.logVersion,
      RaftNode.rebuildClientIndex x.node.log, x.node.config, x.node.id) := by
  obtain ⟨z, hz, h⟩ := bind_ok.mp h
  obtain rfl := Except.ok.inj h
  change z.node.ledger = _
  rw [broadcastTo_node _ hz]
  rfl

theorem maybeWin_ledger (h : x.maybeWin = .ok y) : y.node.ledger = x.node.ledger ∨
    y.node.ledger = (.leader, x.node.log, x.node.baseIndex, x.node.logVersion,
      RaftNode.rebuildClientIndex x.node.log, x.node.config, x.node.id) := by
  unfold maybeWin at h
  dsimp only at h
  split at h
  · exact Or.inr (becomeLeader_ledger h)
  · obtain rfl := Except.ok.inj h
    exact Or.inl rfl

theorem maybeWin_versioned (h : x.maybeWin = .ok y) : Versioned x.node y.node := by
  rcases maybeWin_ledger h with hl | hl
  · exact versioned_of_ledger hl
  · simp only [RaftNode.ledger, Prod.mk.injEq] at hl
    exact versioned_of_eq hl.2.2.2.2.2.2 hl.2.1 hl.2.2.1 hl.2.2.2.1

theorem maybeWin_leads (h : x.maybeWin = .ok y) : Leads x.node y.node := by
  rcases maybeWin_ledger h with hl | hl
  · exact leads_of_ledger hl
  · simp only [RaftNode.ledger, Prod.mk.injEq] at hl
    exact .elected hl.2.1 (by rw [hl.2.2.2.2.1, hl.2.1])

theorem startElection_kept (h : x.startElection = .ok y) :
    Versioned x.node y.node ∧ Leads x.node y.node := by
  unfold startElection at h
  split at h
  · obtain rfl := Except.ok.inj h
    exact ⟨versioned_of_ledger rfl, leads_of_ledger rfl⟩
  · obtain ⟨t, -, h⟩ := bind_ok.mp h
    dsimp only at h
    have hver := maybeWin_versioned h
    have hlead := maybeWin_leads h
    refine ⟨?_, hlead.after (Or.inr nofun) nofun rfl rfl⟩
    refine Versioned.trans ?_ hver
    exact versioned_of_eq rfl rfl rfl rfl

theorem onElectionTimeout_kept {seq : ℕ} (h : x.onElectionTimeout seq = .ok y) :
    Versioned x.node y.node ∧ Leads x.node y.node := by
  unfold onElectionTimeout at h
  split at h
  · obtain rfl := Except.ok.inj h
    exact ⟨Versioned.refl _, leads_of_ledger rfl⟩
  · exact startElection_kept (x := x.record (.timer x.node.id x.node.term)) h

theorem onHeartbeat_ledger {seq : ℕ} (h : x.onHeartbeat seq = .ok y) :
    y.node.ledger = x.node.ledger := by
  unfold onHeartbeat at h
  split at h
  · obtain rfl := Except.ok.inj h
    rfl
  · obtain ⟨z, hz, h⟩ := bind_ok.mp h
    obtain rfl := Except.ok.inj h
    change z.node.ledger = _
    rw [broadcastTo_node _ hz]

/-! ### The state machine -/

theorem applyLoop_ledger (k : ℕ) (h : x.applyLoop k = .ok y) :
    y.node.ledger = x.node.ledger := by
  induction k generalizing x with
  | zero =>
    obtain rfl := Except.ok.inj h
    rfl
  | succ k ih =>
    obtain ⟨z, hz, h⟩ := bind_ok.mp h
    obtain ⟨e, -, hz⟩ := bind_ok.mp hz
    obtain rfl := Except.ok.inj hz
    have hrest := ih h
    exact hrest.trans rfl

theorem maybeCompact_versioned (h : x.maybeCompact = .ok y) :
    Versioned x.node y.node ∧ y.node.role = x.node.role ∧
      (x.node.config.snapshotThreshold ≤ 0 → y.node.ledger = x.node.ledger) := by
  rcases maybeCompact_cases h with ⟨-, rfl⟩ | ⟨hpos, -, t, vs, -, -, rfl⟩
  · exact ⟨Versioned.refl _, rfl, fun _ => rfl⟩
  · exact ⟨versioned_of_lt rfl (Nat.lt_succ_self _), rfl, fun hoff => absurd hpos hoff.not_gt⟩

theorem setCommitIndex_versioned {index : ℕ} (h : x.setCommitIndex index = .ok y) :
    Versioned x.node y.node ∧ y.node.role = x.node.role ∧
      (x.node.config.snapshotThreshold ≤ 0 → y.node.ledger = x.node.ledger) := by
  unfold setCommitIndex at h
  split at h
  · obtain rfl := Except.ok.inj h
    exact ⟨Versioned.refl _, rfl, fun _ => rfl⟩
  · obtain ⟨z, hz, h⟩ := bind_ok.mp h
    have hloop := applyLoop_ledger _ hz
    have hl : z.node.ledger = x.node.ledger := hloop.trans rfl
    obtain ⟨hv, hr, hoff⟩ := maybeCompact_versioned h
    have hl' := hl
    simp only [RaftNode.ledger, Prod.mk.injEq] at hl'
    refine ⟨(versioned_of_ledger hl).trans hv, hr.trans hl'.1, fun ht => ?_⟩
    exact (hoff (by rwa [hl'.2.2.2.2.2.1])).trans hl

theorem advanceCommitFrom_versioned (k : ℕ) (h : x.advanceCommitFrom k = .ok y) :
    Versioned x.node y.node ∧ y.node.role = x.node.role ∧
      (x.node.config.snapshotThreshold ≤ 0 → y.node.ledger = x.node.ledger) := by
  rcases advanceCommitFrom_cases k h with rfl | ⟨n, t, z, -, -, -, -, hz, rfl⟩
  · exact ⟨Versioned.refl _, rfl, fun _ => rfl⟩
  · obtain ⟨hv, hr, hoff⟩ := setCommitIndex_versioned hz
    exact ⟨hv.trans (versioned_of_ledger rfl), hr, hoff⟩

/-! ### Clients -/

theorem noteRequest_ledger (x : Exec) (cmd : Command) : (x.noteRequest cmd).node.ledger =
    (x.node.role, x.node.log, x.node.baseIndex, x.node.logVersion,
      if cmd.isStructured then x.node.clientIndex.insert cmd.clientId cmd.reqId
      else x.node.clientIndex, x.node.config, x.node.id) := by
  unfold noteRequest
  split <;> rfl

theorem noteRequest_term (x : Exec) (cmd : Command) :
    (x.noteRequest cmd).node.term = x.node.term := by
  unfold noteRequest
  split <;> rfl

theorem replicate_ledger {command : Str} (h : x.replicate command = .ok y) :
    y.node.ledger = (x.node.role, x.node.log ++ [{ term := x.node.term, command }],
      x.node.baseIndex, x.node.logVersion+1, x.node.clientIndex, x.node.config, x.node.id) := by
  have hnode := broadcastTo_node _ h
  rw [hnode]
  rfl

theorem clientCommand_kept {command : Str} {b : Bool}
    (h : x.clientCommand command = .ok (y, b)) :
    Versioned x.node y.node ∧ Leads x.node y.node := by
  rcases clientCommand_cases h with ⟨-, rfl⟩ | ⟨hrole, -, ⟨-, rfl⟩ | ⟨hnew, h⟩⟩
  · exact ⟨Versioned.refl _, leads_of_ledger rfl⟩
  · exact ⟨Versioned.refl _, leads_of_ledger rfl⟩
  -- noting the request moves the session table only, so the append shows in the ledger
  · have hl := replicate_ledger h
    have hnote := noteRequest_ledger x (Command.decode command)
    simp only [RaftNode.ledger, Prod.mk.injEq] at hl hnote
    obtain ⟨-, hlog, -, hver, hindex, -, hid⟩ := hl
    rw [hnote.2.2.2.2.2.2] at hid
    rw [hnote.2.1, noteRequest_term] at hlog
    rw [hnote.2.2.2.1] at hver
    rw [hnote.2.2.2.2.1] at hindex
    exact ⟨versioned_of_lt hid (by omega), .appended command hrole hnew hlog hindex⟩

theorem changeConfig_versioned {newVoters : List NodeId} {b : Bool}
    (h : x.changeConfig newVoters = .ok (y, b)) : Versioned x.node y.node := by
  unfold changeConfig at h
  split at h
  · obtain ⟨rfl, -⟩ := Prod.mk.inj (Except.ok.inj h)
    exact Versioned.refl _
  · dsimp only at h
    split at h
    · obtain ⟨rfl, -⟩ := Prod.mk.inj (Except.ok.inj h)
      exact Versioned.refl _
    · obtain ⟨z, hz, h⟩ := bind_ok.mp h
      obtain ⟨rfl, -⟩ := Prod.mk.inj (Except.ok.inj h)
      have hnode := broadcastTo_node _ hz
      rw [hnode]
      exact versioned_of_lt rfl (Nat.lt_succ_self _)

theorem tryServeRead_ledger (x : Exec) (readId : ℕ) :
    (x.tryServeRead readId).node.ledger = x.node.ledger := by
  unfold tryServeRead
  split
  · rfl
  · dsimp only
    split <;> rfl

theorem requestRead_ledger (x : Exec) (command : Str) :
    (x.requestRead command).1.node.ledger = x.node.ledger := by
  unfold requestRead
  split
  · rfl
  · dsimp only
    rw [tryServeRead_ledger]
    rfl

/-! ### Messages -/

theorem onReadHeartbeat_kept (x : Exec) (msg : ReadHeartbeat) :
    Versioned x.node (x.onReadHeartbeat msg).node ∧ Leads x.node (x.onReadHeartbeat msg).node := by
  have hsame : (x.onReadHeartbeat msg).node.ledger = (x.catchUp msg.term).node.ledger := by
    unfold onReadHeartbeat
    dsimp only
    split <;> rfl
  exact ⟨(catchUp_versioned x msg.term).trans (versioned_of_ledger hsame),
    catchUp_leads x msg.term (leads_of_ledger hsame)⟩

theorem onReadAck_kept (x : Exec) (msg : ReadAck) :
    Versioned x.node (x.onReadAck msg).node ∧ Leads x.node (x.onReadAck msg).node := by
  unfold onReadAck
  split
  · exact ⟨becomeFollower_versioned x _, becomeFollower_leads x _⟩
  · split
    · exact ⟨Versioned.refl _, leads_of_ledger rfl⟩
    · split
      · exact ⟨Versioned.refl _, leads_of_ledger rfl⟩
      next pending _ _ =>
        have hl := tryServeRead_ledger (x.set (x.node.ackRead msg pending)) msg.readId
        have hl := hl.trans (show _ = x.node.ledger from rfl)
        exact ⟨versioned_of_ledger hl, leads_of_ledger hl⟩

theorem onRequestVote_kept {msg : RequestVote} (h : x.onRequestVote msg = .ok y) :
    Versioned x.node y.node ∧ Leads x.node y.node := by
  obtain ⟨granted, -, h⟩ := bind_ok.mp h
  obtain rfl := Except.ok.inj h
  have hsame : (if granted then (x.catchUp msg.term).castVote msg.candidate
      else x.catchUp msg.term).node.ledger = (x.catchUp msg.term).node.ledger := by
    split <;> rfl
  exact ⟨(catchUp_versioned x msg.term).trans (versioned_of_ledger hsame),
    catchUp_leads x msg.term (leads_of_ledger hsame)⟩

theorem onVoteReply_kept {msg : VoteReply} (h : x.onVoteReply msg = .ok y) :
    Versioned x.node y.node ∧ Leads x.node y.node := by
  unfold onVoteReply at h
  split at h
  · obtain rfl := Except.ok.inj h
    exact ⟨becomeFollower_versioned x _, becomeFollower_leads x _⟩
  · split at h
    · obtain rfl := Except.ok.inj h
      exact ⟨Versioned.refl _, leads_of_ledger rfl⟩
    · have hver := maybeWin_versioned h
      have hlead := maybeWin_leads h
      refine ⟨?_, hlead.after (Or.inl rfl) (fun _ => rfl) rfl rfl⟩
      refine Versioned.trans ?_ hver
      exact versioned_of_eq rfl rfl rfl rfl

theorem pushEntry_versioned (n : RaftNode) (index : ℕ) (entry : Entry) :
    Versioned n (n.pushEntry index entry) := by
  unfold RaftNode.pushEntry
  split <;> exact versioned_of_lt rfl (Nat.lt_succ_self _)

theorem truncateFrom_versioned (n : RaftNode) (index : ℕ) :
    Versioned n (n.truncateFrom index) := by
  unfold RaftNode.truncateFrom
  split <;> exact versioned_of_lt rfl (Nat.lt_succ_self _)

theorem appendEntry_versioned {index : ℕ} {entry : Entry}
    (h : n.appendEntry index entry = .ok m) : Versioned n m := by
  rcases RaftNode.appendEntry_cases h with ⟨-, -, rfl⟩ | ⟨-, -, rfl⟩ | ⟨-, rfl⟩
  · exact Versioned.refl m
  · exact (truncateFrom_versioned n index).trans (pushEntry_versioned _ index entry)
  · exact pushEntry_versioned n index entry

theorem appendLoop_versioned (entries : List Entry) {index : ℕ}
    (h : n.appendLoop index entries = .ok m) : Versioned n m := by
  induction entries generalizing n index with
  | nil =>
    obtain rfl := Except.ok.inj h
    exact Versioned.refl n
  | cons entry rest ih =>
    obtain ⟨n1, h1, h⟩ := bind_ok.mp h
    exact (appendEntry_versioned h1).trans (ih h)

theorem followCommit_versioned {leaderCommit matchIndex : ℕ}
    (h : x.followCommit leaderCommit matchIndex = .ok y) :
    Versioned x.node y.node ∧ y.node.role = x.node.role := by
  rcases followCommit_cases h with ⟨-, rfl⟩ | ⟨-, hset⟩ | ⟨-, rfl⟩
  · exact ⟨versioned_of_ledger rfl, rfl⟩
  · obtain ⟨hver, hrole, -⟩ := setCommitIndex_versioned hset
    exact ⟨hver, hrole⟩
  · exact ⟨Versioned.refl _, rfl⟩

theorem appendFromLeader_versioned {msg : AppendEntries} (h : x.appendFromLeader msg = .ok y) :
    Versioned x.node y.node ∧ y.node.role = x.node.role := by
  obtain ⟨refused, -, h⟩ := bind_ok.mp h
  split at h
  · obtain rfl := Except.ok.inj h
    exact ⟨versioned_of_ledger rfl, rfl⟩
  · obtain ⟨n, hn, h⟩ := bind_ok.mp h
    obtain ⟨z, hz, h⟩ := bind_ok.mp h
    obtain rfl := Except.ok.inj h
    obtain ⟨hver, hrole⟩ := followCommit_versioned hz
    have hedit : n.role = x.node.role := by
      obtain ⟨_, _, _, _, rfl⟩ := appendLoop_edited _ hn
      rfl
    exact ⟨(appendLoop_versioned _ hn).trans hver, hrole.trans hedit⟩

theorem heed_ledger (x : Exec) (leader : NodeId) : (x.heed leader).node.ledger = x.node.ledger :=
  rfl

theorem Yields.versioned {term : ℕ} (h : x.Yields term y) : Versioned x.node y.node := by
  cases h with
  | steps _ => exact becomeFollower_versioned x term
  | follows _ _ => exact Versioned.refl _

theorem onAppendEntries_kept {msg : AppendEntries} (h : x.onAppendEntries msg = .ok y) :
    Versioned x.node y.node ∧ Leads x.node y.node := by
  have hcatch := catchUp_versioned x msg.term
  rcases onAppendEntries_cases h with ⟨-, rfl⟩ | ⟨z, hz, h⟩
  · exact ⟨hcatch, catchUp_leads x msg.term (leads_of_ledger rfl)⟩
  · obtain ⟨hver, hrole⟩ := appendFromLeader_versioned h
    have hheed := versioned_of_ledger (heed_ledger z msg.leader)
    refine ⟨((hcatch.trans hz.versioned).trans hheed).trans hver, .follows ?_⟩
    rw [hrole]
    change z.node.role ≠ .leader
    rw [hz.follower.2.1]
    exact nofun

theorem onAppendReply_kept {msg : AppendReply} (ht : x.node.config.snapshotThreshold ≤ 0)
    (h : x.onAppendReply msg = .ok y) : Versioned x.node y.node ∧ Leads x.node y.node := by
  rcases onAppendReply_cases h with ⟨-, rfl⟩ | ⟨-, rfl⟩ | ⟨-, -, ⟨-, h⟩ | ⟨-, h⟩⟩
  · exact ⟨becomeFollower_versioned x _, becomeFollower_leads x _⟩
  · exact ⟨Versioned.refl _, leads_of_ledger rfl⟩
  · have hl := (advanceCommitFrom_versioned _ h).2.2 ht
    exact ⟨versioned_of_ledger hl, leads_of_ledger hl⟩
  · have hnode := sendAppendEntries_node h
    rw [hnode]
    exact ⟨versioned_of_ledger rfl, leads_of_ledger rfl⟩

theorem installFromLeader_versioned {msg : InstallSnapshot}
    (h : x.installFromLeader msg = .ok y) :
    Versioned x.node y.node ∧ y.node.role = x.node.role := by
  unfold installFromLeader at h
  split at h
  · obtain rfl := Except.ok.inj h
    exact ⟨versioned_of_ledger rfl, rfl⟩
  · obtain ⟨keepTail, -, h⟩ := bind_ok.mp h
    obtain rfl := Except.ok.inj h
    exact ⟨versioned_of_lt rfl (Nat.lt_succ_self _), rfl⟩

theorem onInstallSnapshot_kept {msg : InstallSnapshot} (h : x.onInstallSnapshot msg = .ok y) :
    Versioned x.node y.node ∧ Leads x.node y.node := by
  rcases onInstallSnapshot_cases h with ⟨-, rfl⟩ | ⟨z, hz, h⟩
  · exact ⟨versioned_of_ledger rfl, leads_of_ledger rfl⟩
  · obtain ⟨hver, hrole⟩ := installFromLeader_versioned h
    have hheed := versioned_of_ledger (heed_ledger z msg.leader)
    refine ⟨(hz.versioned.trans hheed).trans hver, .follows ?_⟩
    rw [hrole]
    change z.node.role ≠ .leader
    rw [hz.follower.2.1]
    exact nofun

theorem onAppendReply_versioned {msg : AppendReply} (h : x.onAppendReply msg = .ok y) :
    Versioned x.node y.node := by
  rcases onAppendReply_cases h with ⟨-, rfl⟩ | ⟨-, rfl⟩ | ⟨-, -, ⟨-, h⟩ | ⟨-, h⟩⟩
  · exact becomeFollower_versioned x _
  · exact Versioned.refl _
  · have hver := (advanceCommitFrom_versioned _ h).1
    refine Versioned.trans ?_ hver
    exact versioned_of_eq rfl rfl rfl rfl
  · have hnode := sendAppendEntries_node h
    rw [hnode]
    exact versioned_of_ledger rfl

theorem handle_versioned {msg : Message} (h : x.handle msg = .ok y) :
    Versioned x.node y.node := by
  unfold handle at h
  split at h
  · obtain rfl := Except.ok.inj h
    exact Versioned.refl _
  · cases msg with
    | requestVote m => exact (onRequestVote_kept h).1
    | voteReply m => exact (onVoteReply_kept h).1
    | appendEntries m => exact (onAppendEntries_kept h).1
    | appendReply m => exact onAppendReply_versioned h
    | installSnapshot m => exact (onInstallSnapshot_kept h).1
    | readHeartbeat m =>
      obtain rfl := Except.ok.inj h
      exact (onReadHeartbeat_kept x m).1
    | readAck m =>
      obtain rfl := Except.ok.inj h
      exact (onReadAck_kept x m).1

theorem handle_leads {msg : Message} (ht : x.node.config.snapshotThreshold ≤ 0)
    (h : x.handle msg = .ok y) : Leads x.node y.node := by
  unfold handle at h
  split at h
  · obtain rfl := Except.ok.inj h
    exact leads_of_ledger rfl
  · cases msg with
    | requestVote m => exact (onRequestVote_kept h).2
    | voteReply m => exact (onVoteReply_kept h).2
    | appendEntries m => exact (onAppendEntries_kept h).2
    | appendReply m => exact (onAppendReply_kept ht h).2
    | installSnapshot m => exact (onInstallSnapshot_kept h).2
    | readHeartbeat m =>
      obtain rfl := Except.ok.inj h
      exact (onReadHeartbeat_kept x m).2
    | readAck m =>
      obtain rfl := Except.ok.inj h
      exact (onReadAck_kept x m).2

end Exec

/-! ### Callbacks -/

theorem callback_leads {w : World} {e : Event} {y : Exec} (ht : n.config.snapshotThreshold ≤ 0)
    (he : ∀ j vs, e ≠ .changeConfig j vs) (h : w.callback n e = .ok y) : Leads n y.node := by
  cases e with
  | electionTimeout j seq => exact (Exec.onElectionTimeout_kept h).2
  | heartbeat j seq => exact leads_of_ledger (Exec.onHeartbeat_ledger h)
  | clientCommand j command =>
    obtain ⟨b, h⟩ := map_fst_ok h
    exact (Exec.clientCommand_kept h).2
  | changeConfig j newVoters => exact absurd rfl (he j newVoters)
  | requestRead j command =>
    obtain rfl := Except.ok.inj h
    exact leads_of_ledger (Exec.requestRead_ledger _ command)
  | deliver k =>
    rw [World.callback] at h
    cases hk : w.sent[k]? with
    | none =>
      rw [hk] at h
      obtain rfl := Except.ok.inj h
      exact leads_of_ledger rfl
    | some p =>
      rw [hk] at h
      exact Exec.handle_leads ht h
  | pause j =>
    obtain rfl := Except.ok.inj h
    exact .follows fun heq => by cases heq
  | resume j =>
    obtain rfl := Except.ok.inj h
    exact leads_of_ledger rfl

end RaftVerified
