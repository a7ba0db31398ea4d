import RaftVerified.RaftSafety

/-! What a callback does to the commit index and to what is applied, whatever the state
it starts from: only a crash and a stale image take either back. -/
namespace RaftVerified
open Consensus

/-- `m` is `n` further on in the same incarnation. -/
structure Grows (n m : RaftNode) : Prop where
  bugs : m.bugs = n.bugs
  incarnation : m.incarnation = n.incarnation
  commit : n.commitIndex ≤ m.commitIndex
  applied : n.lastApplied ≤ m.lastApplied
  settled : n.lastApplied = n.commitIndex → m.lastApplied = m.commitIndex

/-- The fields that say how far a node has come. -/
def RaftNode.progress (n : RaftNode) :=
  (n.bugs, n.incarnation, n.commitIndex, n.lastApplied, n.baseIndex, n.snapshot, n.applied,
    n.folded, n.config)

theorem Grows.refl (n : RaftNode) : Grows n n := ⟨rfl, rfl, le_rfl, le_rfl, fun h => h⟩

theorem Grows.trans {n m k : RaftNode} (h : Grows n m) (h' : Grows m k) : Grows n k :=
  ⟨h'.bugs.trans h.bugs, h'.incarnation.trans h.incarnation, h.commit.trans h'.commit,
    h.applied.trans h'.applied, fun hs => h'.settled (h.settled hs)⟩

theorem grows_of_progress {n m : RaftNode} (h : m.progress = n.progress) : Grows n m := by
  simp only [RaftNode.progress, Prod.mk.injEq] at h
  obtain ⟨hb, hi, hc, ha, -⟩ := h
  exact ⟨hb, hi, hc.ge, ha.ge, fun hs => by rw [ha, hc, hs]⟩

/-- A call that neither applies anything nor sends an image that is not there. -/
def Call.Plain (n : RaftNode) : Call → Prop
  | .record (.apply _ _ _) => False
  | .onApply _ _ => False
  | .send _ (.installSnapshot _) => n.snapshot ≠ none
  | _ => True

theorem plain_congr {n m : RaftNode} (h : m.progress = n.progress) {call : Call}
    (hc : call.Plain m) : call.Plain n := by
  simp only [RaftNode.progress, Prod.mk.injEq] at h
  have hs : m.snapshot = n.snapshot := h.2.2.2.2.2.1
  unfold Call.Plain at hc ⊢
  rwa [hs] at hc

theorem edited_progress {n m : RaftNode} (h : n.Edited m) : m.progress = n.progress := by
  obtain ⟨_, _, _, _, rfl⟩ := h
  rfl

theorem appendEntry_edited {n m : RaftNode} {index : ℕ} {entry : Entry}
    (h : n.appendEntry index entry = .ok m) : n.Edited m := by
  rcases RaftNode.appendEntry_cases h with ⟨-, -, rfl⟩ | ⟨-, -, rfl⟩ | ⟨-, rfl⟩
  · exact RaftNode.Edited.refl m
  · exact (RaftNode.truncateFrom_edited n _).trans (RaftNode.pushEntry_edited _ _ _)
  · exact RaftNode.pushEntry_edited n _ _

theorem appendLoop_edited (entries : List Entry) {n m : RaftNode} {index : ℕ}
    (h : n.appendLoop index entries = .ok m) : n.Edited m := by
  induction entries generalizing n index with
  | nil =>
    obtain rfl := Except.ok.inj h
    exact RaftNode.Edited.refl n
  | cons entry rest ih =>
    obtain ⟨k, hk, h⟩ := bind_ok.mp h
    exact (appendEntry_edited hk).trans (ih h)

namespace Exec
variable {x y : Exec}

/-! ### Parts of callbacks that apply nothing -/

/-- From `x` to `y` the node does not get further, and only plain calls are made. -/
structure Quiet (x y : Exec) : Prop where
  progress : y.node.progress = x.node.progress
  calls : ∃ cs, y.calls = x.calls ++ cs ∧ ∀ call ∈ cs, call.Plain x.node

/-- Like `Quiet`, but a pending read may be answered. -/
structure Serves (x y : Exec) : Prop where
  progress : y.node.progress = x.node.progress
  calls : ∃ cs, y.calls = x.calls ++ cs ∧
    ∀ call ∈ cs, call.Plain x.node ∨ ∃ command result, call = .onApply command result

theorem Quiet.serves (h : x.Quiet y) : x.Serves y := by
  obtain ⟨cs, hcs, hall⟩ := h.calls
  exact ⟨h.progress, cs, hcs, fun call hc => Or.inl (hall call hc)⟩

theorem quiet_set {n : RaftNode} (h : n.progress = x.node.progress) : x.Quiet (x.set n) :=
  ⟨h, [], (List.append_nil _).symm, nofun⟩

theorem Quiet.refl (x : Exec) : x.Quiet x := quiet_set rfl

theorem Quiet.trans {z : Exec} (h : x.Quiet y) (h' : y.Quiet z) : x.Quiet z := by
  obtain ⟨cs, hcs, hall⟩ := h.calls
  obtain ⟨ds, hds, hall'⟩ := h'.calls
  refine ⟨h'.progress.trans h.progress, cs ++ ds, ?_, ?_⟩
  · rw [hds, hcs, List.append_assoc]
  · intro call hc
    rcases List.mem_append.mp hc with hc | hc
    · exact hall call hc
    · exact plain_congr h.progress (hall' call hc)

theorem Quiet.serve {z : Exec} (h : x.Quiet y) (h' : y.Serves z) : x.Serves z := by
  obtain ⟨cs, hcs, hall⟩ := h.calls
  obtain ⟨ds, hds, hall'⟩ := h'.calls
  refine ⟨h'.progress.trans h.progress, cs ++ ds, ?_, ?_⟩
  · rw [hds, hcs, List.append_assoc]
  · intro call hc
    rcases List.mem_append.mp hc with hc | hc
    · exact Or.inl (hall call hc)
    · exact (hall' call hc).imp_left (plain_congr h.progress)

theorem quiet_call {c : Call} (h : c.Plain x.node) : x.Quiet (x.call c) := by
  refine ⟨rfl, [c], rfl, fun d hd => ?_⟩
  obtain rfl := List.mem_singleton.mp hd
  exact h

theorem Quiet.call {c : Call} (h : x.Quiet y) (hc : c.Plain y.node) : x.Quiet (y.call c) :=
  h.trans (quiet_call hc)

theorem quiet_sendAll (dsts : List NodeId) {m : Message}
    (h : ∀ dst, (Call.send dst m).Plain x.node) : x.Quiet (x.sendAll dsts m) := by
  refine ⟨rfl, dsts.map fun dst => .send dst m, rfl, fun call hc => ?_⟩
  obtain ⟨dst, -, rfl⟩ := List.mem_map.mp hc
  exact h dst

theorem armElectionTimer_quiet (x : Exec) : x.Quiet x.armElectionTimer :=
  (quiet_set (n := { x.node with timerSeq := x.node.timerSeq+1 }) rfl).call trivial

theorem armHeartbeatTimer_quiet (x : Exec) : x.Quiet x.armHeartbeatTimer :=
  (quiet_set (n := { x.node with timerSeq := x.node.timerSeq+1 }) rfl).call trivial

theorem heed_quiet (x : Exec) (leader : NodeId) : x.Quiet (x.heed leader) :=
  (quiet_set (n := { x.node with leaderId := some leader }) rfl).trans (armElectionTimer_quiet _)

theorem replyAppend_quiet (x : Exec) (dst : NodeId) (success : Bool) (matchIndex : ℕ) :
    x.Quiet (x.replyAppend dst success matchIndex) := quiet_call trivial

theorem sendAppendEntries_quiet {peer : NodeId} (h : x.sendAppendEntries peer = .ok y) :
    x.Quiet y := by
  unfold sendAppendEntries at h
  split at h
  · cases h
  · dsimp only at h
    split at h
    · obtain rfl := Except.ok.inj h
      unfold sendInstallSnapshot
      split
      · exact Quiet.refl x
      next snap hs =>
        refine quiet_call ?_
        change x.node.snapshot ≠ none
        rw [hs]
        exact Option.some_ne_none snap
    · obtain ⟨t, -, h⟩ := bind_ok.mp h
      obtain rfl := Except.ok.inj h
      exact quiet_call trivial

theorem sendAppendEntries_node {peer : NodeId} (h : x.sendAppendEntries peer = .ok y) :
    y.node = x.node := by
  unfold sendAppendEntries at h
  split at h
  · cases h
  · dsimp only at h
    split at h
    · obtain rfl := Except.ok.inj h
      unfold sendInstallSnapshot
      split <;> rfl
    · obtain ⟨t, -, h⟩ := bind_ok.mp h
      obtain rfl := Except.ok.inj h
      rfl

theorem broadcastTo_quiet (ps : List NodeId) (h : x.broadcastTo ps = .ok y) : x.Quiet y := by
  induction ps generalizing x with
  | nil =>
    obtain rfl := Except.ok.inj h
    exact Quiet.refl x
  | cons p ps ih =>
    obtain ⟨z, hz, h⟩ := bind_ok.mp h
    exact (sendAppendEntries_quiet hz).trans (ih h)

theorem becomeFollower_quiet (x : Exec) (term : ℕ) : x.Quiet (x.becomeFollower term) := by
  have hset : x.Quiet (x.set (x.node.follow term)) := quiet_set rfl
  unfold becomeFollower
  dsimp only
  split
  · exact (hset.call (c := .record (.role x.node.id .follower term)) trivial).trans
      (armElectionTimer_quiet _)
  · exact hset.trans (armElectionTimer_quiet _)

theorem Yields.quiet {term : ℕ} (h : x.Yields term y) : x.Quiet y := by
  cases h with
  | steps _ => exact becomeFollower_quiet x term
  | follows _ _ => exact Quiet.refl x

theorem catchUp_quiet (x : Exec) (term : ℕ) : x.Quiet (x.catchUp term) := by
  unfold catchUp
  split
  · exact becomeFollower_quiet x term
  · exact Quiet.refl x

theorem tryServeRead_serves (x : Exec) (readId : ℕ) : x.Serves (x.tryServeRead readId) := by
  unfold tryServeRead
  split
  · exact (Quiet.refl x).serves
  next pending hp =>
    dsimp only
    split
    · refine ⟨rfl, [.record (.readserved x.node.id readId pending.command), .onApply _ _],
        List.append_assoc _ _ _, fun call hc => ?_⟩
      rcases List.mem_cons.mp hc with rfl | hc
      · exact Or.inl trivial
      · obtain rfl := List.mem_singleton.mp hc
        exact Or.inr ⟨_, _, rfl⟩
    · exact (Quiet.refl x).serves

theorem becomeLeader_quiet (h : x.becomeLeader = .ok y) : x.Quiet y := by
  obtain ⟨z, hz, h⟩ := bind_ok.mp h
  obtain rfl := Except.ok.inj h
  have hrec : x.Quiet (x.record (.role x.node.id .leader x.node.term)) := quiet_call trivial
  have hlead := hrec.trans (quiet_set (n := x.node.lead) rfl)
  exact (hlead.trans (broadcastTo_quiet _ hz)).trans (armHeartbeatTimer_quiet z)

theorem maybeWin_quiet (h : x.maybeWin = .ok y) : x.Quiet y := by
  unfold maybeWin at h
  dsimp only at h
  split at h
  · exact becomeLeader_quiet h
  · obtain rfl := Except.ok.inj h
    exact Quiet.refl x

theorem stand_quiet (x : Exec) : x.Quiet x.stand := by
  have hset : x.Quiet (x.set x.node.campaign) := quiet_set rfl
  have hrec := hset.call (c := .record (.election x.node.id (x.node.term+1))) trivial
  have hrole := hrec.call (c := .record (.role x.node.id .candidate (x.node.term+1))) trivial
  exact hrole.trans (armElectionTimer_quiet _)

theorem onElectionTimeout_quiet {seq : ℕ} (h : x.onElectionTimeout seq = .ok y) :
    x.Quiet y := by
  unfold onElectionTimeout at h
  split at h
  · obtain rfl := Except.ok.inj h
    exact Quiet.refl x
  · have hrec : x.Quiet (x.record (.timer x.node.id x.node.term)) := quiet_call trivial
    unfold startElection at h
    split at h
    · obtain rfl := Except.ok.inj h
      exact hrec.trans (armElectionTimer_quiet _)
    · obtain ⟨t, -, h⟩ := bind_ok.mp h
      have hstand := hrec.trans (stand_quiet _)
      have hsend := hstand.trans (quiet_sendAll
        (x.record (.timer x.node.id x.node.term)).stand.node.otherVoters
        (m := .requestVote ⟨x.node.term+1, x.node.id, x.node.lastLogIndex, t⟩) fun _ => trivial)
      exact hsend.trans (maybeWin_quiet h)

theorem onHeartbeat_quiet {seq : ℕ} (h : x.onHeartbeat seq = .ok y) : x.Quiet y := by
  unfold onHeartbeat at h
  split at h
  · obtain rfl := Except.ok.inj h
    exact Quiet.refl x
  · obtain ⟨z, hz, h⟩ := bind_ok.mp h
    obtain rfl := Except.ok.inj h
    exact (broadcastTo_quiet _ hz).trans (armHeartbeatTimer_quiet z)

theorem noteRequest_quiet (x : Exec) (cmd : Command) : x.Quiet (x.noteRequest cmd) := by
  unfold noteRequest
  split
  · exact quiet_set rfl
  · exact Quiet.refl x

theorem replicate_quiet {command : Str} (h : x.replicate command = .ok y) : x.Quiet y := by
  have hset : x.Quiet (x.set (x.node.appendOwn command).countOwn) := quiet_set rfl
  have hrec := hset.call (c := .record (.append x.node.id
    (x.node.appendOwn command).countOwn.lastLogIndex x.node.term command)) trivial
  exact hrec.trans (broadcastTo_quiet _ h)

theorem clientCommand_quiet {command : Str} {b : Bool}
    (h : x.clientCommand command = .ok (y, b)) : x.Quiet y := by
  rcases clientCommand_cases h with ⟨-, rfl⟩ | ⟨-, -, ⟨-, rfl⟩ | ⟨-, h⟩⟩
  · exact Quiet.refl y
  · exact quiet_call trivial
  · exact (noteRequest_quiet x _).trans (replicate_quiet h)

theorem replicateConfig_quiet {new : List NodeId} (h : x.replicateConfig new = .ok y) :
    x.Quiet y := by
  have hset : x.Quiet (x.set ((x.node.appendOwn (encodeConfig new)).adoptConfig new
      (x.node.appendOwn (encodeConfig new)).lastLogIndex).countOwn) := quiet_set rfl
  have hrec := hset.call (c := .record (.cfgchange x.node.id
    (x.node.appendOwn (encodeConfig new)).lastLogIndex x.node.term new)) trivial
  exact hrec.trans (broadcastTo_quiet _ h)

theorem changeConfig_quiet {newVoters : List NodeId} {b : Bool}
    (h : x.changeConfig newVoters = .ok (y, b)) : x.Quiet y := by
  unfold changeConfig at h
  split at h
  · obtain ⟨rfl, -⟩ := Prod.mk.inj (Except.ok.inj h)
    exact Quiet.refl x
  · dsimp only at h
    split at h
    · obtain ⟨rfl, -⟩ := Prod.mk.inj (Except.ok.inj h)
      exact Quiet.refl x
    · obtain ⟨z, hz, h⟩ := bind_ok.mp h
      obtain ⟨rfl, -⟩ := Prod.mk.inj (Except.ok.inj h)
      exact replicateConfig_quiet hz

theorem requestRead_serves (x : Exec) (command : Str) : x.Serves (x.requestRead command).1 := by
  unfold requestRead
  split
  · exact (Quiet.refl x).serves
  · have hset : x.Quiet (x.set (x.node.queueRead command)) := quiet_set rfl
    have hrec := hset.call
      (c := .record (.read x.node.id x.node.nextReadId x.node.commitIndex)) trivial
    have hsend := hrec.trans (quiet_sendAll x.node.otherVoters
      (m := .readHeartbeat ⟨x.node.term, x.node.id, x.node.nextReadId⟩) fun _ => trivial)
    exact hsend.serve (tryServeRead_serves _ _)

theorem onReadHeartbeat_quiet (x : Exec) (msg : ReadHeartbeat) :
    x.Quiet (x.onReadHeartbeat msg) := by
  have hcatch := catchUp_quiet x msg.term
  unfold onReadHeartbeat
  dsimp only
  split
  · exact (hcatch.trans (heed_quiet _ _)).call trivial
  · exact hcatch.call trivial

theorem onReadAck_serves (x : Exec) (msg : ReadAck) : x.Serves (x.onReadAck msg) := by
  unfold onReadAck
  split
  · exact (becomeFollower_quiet x msg.term).serves
  · split
    · exact (Quiet.refl x).serves
    next pending _ =>
      split
      · exact (Quiet.refl x).serves
      · have hset : x.Quiet (x.set (x.node.ackRead msg pending)) := quiet_set rfl
        exact hset.serve (tryServeRead_serves _ _)

theorem castVote_quiet (x : Exec) (candidate : NodeId) : x.Quiet (x.castVote candidate) := by
  have hset : x.Quiet (x.set { x.node with votedFor := some candidate }) := quiet_set rfl
  have hrec := hset.call (c := .record (.vote x.node.id candidate x.node.term)) trivial
  exact hrec.trans (armElectionTimer_quiet _)

theorem onRequestVote_quiet {msg : RequestVote} (h : x.onRequestVote msg = .ok y) :
    x.Quiet y := by
  have hcatch := catchUp_quiet x msg.term
  obtain ⟨granted, -, h⟩ := bind_ok.mp h
  obtain rfl := Except.ok.inj h
  cases granted with
  | false => exact hcatch.call trivial
  | true => exact (hcatch.trans (castVote_quiet _ _)).call trivial

theorem onVoteReply_quiet {msg : VoteReply} (h : x.onVoteReply msg = .ok y) : x.Quiet y := by
  unfold onVoteReply at h
  split at h
  · obtain rfl := Except.ok.inj h
    exact becomeFollower_quiet x msg.term
  · split at h
    · obtain rfl := Except.ok.inj h
      exact Quiet.refl x
    · have hset : x.Quiet (x.set (x.node.countVote msg.voter)) := quiet_set rfl
      exact hset.trans (maybeWin_quiet h)

/-! ### Applying -/

theorem applyLoop_grows (k : ℕ) (h : x.applyLoop k = .ok y) :
    y.node.bugs = x.node.bugs ∧ y.node.incarnation = x.node.incarnation ∧
      y.node.commitIndex = x.node.commitIndex ∧ y.node.lastApplied = x.node.lastApplied+k := by
  induction k generalizing x with
  | zero =>
    obtain rfl := Except.ok.inj h
    exact ⟨rfl, rfl, rfl, rfl⟩
  | succ k ih =>
    obtain ⟨z, hz, h⟩ := bind_ok.mp h
    obtain ⟨e, -, hz⟩ := bind_ok.mp hz
    obtain rfl := Except.ok.inj hz
    obtain ⟨h1, h2, h3, h4⟩ := ih h
    refine ⟨h1, h2, h3, h4.trans ?_⟩
    change x.node.lastApplied+1+k = _
    omega

theorem maybeCompact_grows (h : x.maybeCompact = .ok y) :
    y.node.bugs = x.node.bugs ∧ y.node.incarnation = x.node.incarnation ∧
      y.node.commitIndex = x.node.commitIndex ∧ y.node.lastApplied = x.node.lastApplied := by
  rcases maybeCompact_cases h with ⟨-, rfl⟩ | ⟨-, -, t, vs, -, -, rfl⟩
  · exact ⟨rfl, rfl, rfl, rfl⟩
  · exact ⟨rfl, rfl, rfl, rfl⟩

theorem setCommitIndex_grows {index : ℕ} (hs : x.node.lastApplied = x.node.commitIndex)
    (h : x.setCommitIndex index = .ok y) : Grows x.node y.node := by
  unfold setCommitIndex at h
  split at h
  · obtain rfl := Except.ok.inj h
    exact Grows.refl _
  next hgt =>
    obtain ⟨z, hz, h⟩ := bind_ok.mp h
    obtain ⟨hb1, hi1, hc1, ha1⟩ := applyLoop_grows _ hz
    obtain ⟨hb2, hi2, hc2, ha2⟩ := maybeCompact_grows h
    have hc : y.node.commitIndex = index := hc2.trans hc1
    have ha : y.node.lastApplied = x.node.lastApplied+(index-x.node.lastApplied) := ha2.trans ha1
    exact ⟨hb2.trans hb1, hi2.trans hi1, by omega, by omega, fun _ => by omega⟩

theorem advanceCommitFrom_grows (k : ℕ) (hs : x.node.lastApplied = x.node.commitIndex)
    (h : x.advanceCommitFrom k = .ok y) : Grows x.node y.node := by
  rcases advanceCommitFrom_cases k h with rfl | ⟨n, t, z, -, -, -, -, hz, rfl⟩
  · exact Grows.refl _
  · exact (setCommitIndex_grows hs hz).trans (grows_of_progress rfl)

theorem onAppendReply_grows {msg : AppendReply} (hs : x.node.lastApplied = x.node.commitIndex)
    (h : x.onAppendReply msg = .ok y) : Grows x.node y.node := by
  rcases onAppendReply_cases h with ⟨-, rfl⟩ | ⟨-, rfl⟩ | ⟨-, -, ⟨-, h⟩ | ⟨-, h⟩⟩
  · exact grows_of_progress ((becomeFollower_quiet x msg.term).progress)
  · exact Grows.refl _
  · have hn : Grows x.node (x.node.ackAppend msg) := grows_of_progress rfl
    exact hn.trans (advanceCommitFrom_grows (x := x.set _) _ (hn.settled hs) h)
  · have hn := sendAppendEntries_node h
    refine grows_of_progress ?_
    rw [hn]
    rfl

theorem appendFromLeader_grows {msg : AppendEntries} (hb : x.node.bugs = NO_BUGS)
    (hs : x.node.lastApplied = x.node.commitIndex) (h : x.appendFromLeader msg = .ok y) :
    Grows x.node y.node := by
  obtain ⟨refused, -, h⟩ := bind_ok.mp h
  split at h
  · obtain rfl := Except.ok.inj h
    exact Grows.refl _
  · obtain ⟨n, hn, h⟩ := bind_ok.mp h
    obtain ⟨z, hz, h⟩ := bind_ok.mp h
    obtain rfl := Except.ok.inj h
    have hed := appendLoop_edited _ hn
    have hg := grows_of_progress (edited_progress hed)
    refine hg.trans ?_
    have hbn : n.bugs = NO_BUGS := hg.bugs.trans hb
    rcases followCommit_cases hz with ⟨hreg, -⟩ | ⟨-, hset⟩ | ⟨-, rfl⟩
    -- without the planted regression the commit index is only raised
    · change n.bugs.allowCommitRegression = true at hreg
      rw [hbn] at hreg
      exact absurd hreg Bool.false_ne_true
    · have hraised := setCommitIndex_grows (x := x.set n) (y := z) (hg.settled hs) hset
      exact hraised
    · exact Grows.refl _

theorem onAppendEntries_grows {msg : AppendEntries} (hb : x.node.bugs = NO_BUGS)
    (hs : x.node.lastApplied = x.node.commitIndex) (h : x.onAppendEntries msg = .ok y) :
    Grows x.node y.node := by
  have h1 := grows_of_progress (catchUp_quiet x msg.term).progress
  rcases onAppendEntries_cases h with ⟨-, rfl⟩ | ⟨z, hz, h⟩
  · exact h1
  · have h2 := h1.trans (grows_of_progress hz.quiet.progress)
    have h3 : Grows z.node (z.heed msg.leader).node := grows_of_progress rfl
    have h4 := h2.trans h3
    exact h4.trans (appendFromLeader_grows (h4.bugs.trans hb) (h4.settled hs) h)

/-! ### InstallSnapshot -/

/-- The image would take the commit index back: the base is below it and the commit
index above. -/
def Stale (n : RaftNode) (msg : InstallSnapshot) : Prop :=
  n.alive = true ∧ n.term ≤ msg.term ∧ n.baseIndex < msg.lastIndex ∧
    msg.lastIndex < n.commitIndex

instance (n : RaftNode) (msg : InstallSnapshot) : Decidable (Stale n msg) := by
  unfold Stale
  infer_instance

/-- An InstallSnapshot leaves the commit index alone or sets it to the image's. -/
theorem onInstallSnapshot_commit {msg : InstallSnapshot}
    (h : x.onInstallSnapshot msg = .ok y) : y.node.bugs = x.node.bugs ∧
      y.node.incarnation = x.node.incarnation ∧
      if x.node.term ≤ msg.term ∧ x.node.baseIndex < msg.lastIndex then
        y.node.commitIndex = msg.lastIndex ∧ y.node.lastApplied = msg.lastIndex
      else y.node.progress = x.node.progress := by
  rcases onInstallSnapshot_cases h with ⟨hlt, rfl⟩ | ⟨z, hz, h⟩
  · rw [if_neg (by omega)]
    exact ⟨rfl, rfl, rfl⟩
  · have hle := hz.le
    have hp := hz.quiet.progress
    have hfields := hp
    simp only [RaftNode.progress, Prod.mk.injEq] at hfields
    obtain ⟨hb, hi, -, -, hbase, -⟩ := hfields
    unfold installFromLeader at h
    split at h
    next hle =>
      obtain rfl := Except.ok.inj h
      -- the image reaches no further than the base: nothing is restored
      have hle : msg.lastIndex ≤ z.node.baseIndex := hle
      rw [if_neg (by omega)]
      exact ⟨hb, hi, hp⟩
    next hgt =>
      have hgt : ¬ msg.lastIndex ≤ z.node.baseIndex := hgt
      obtain ⟨keepTail, -, h⟩ := bind_ok.mp h
      obtain rfl := Except.ok.inj h
      rw [if_pos ⟨by omega, by omega⟩]
      exact ⟨hb, hi, rfl, rfl⟩

/-- A message takes back the commit index or what is applied exactly when it is a stale
image; with any other message the node only grows. -/
theorem handle_grows {msg : Message} (hb : x.node.bugs = NO_BUGS)
    (hs : x.node.lastApplied = x.node.commitIndex) (h : x.handle msg = .ok y) :
    (Grows x.node y.node ∧ ∀ m, msg = .installSnapshot m → ¬ Stale x.node m) ∨
      (y.node.bugs = x.node.bugs ∧ y.node.incarnation = x.node.incarnation ∧
        y.node.lastApplied = y.node.commitIndex ∧ y.node.commitIndex < x.node.commitIndex ∧
        ∃ m, msg = .installSnapshot m ∧ Stale x.node m) := by
  unfold handle at h
  split at h
  next halive =>
    obtain rfl := Except.ok.inj h
    refine Or.inl ⟨Grows.refl _, fun m _ hst => ?_⟩
    rw [hst.1] at halive
    cases halive
  next halive =>
    have halive := Bool.eq_true_of_not_eq_false halive
    cases msg with
    | requestVote m => exact Or.inl ⟨grows_of_progress (onRequestVote_quiet h).progress, nofun⟩
    | voteReply m => exact Or.inl ⟨grows_of_progress (onVoteReply_quiet h).progress, nofun⟩
    | appendEntries m => exact Or.inl ⟨onAppendEntries_grows hb hs h, nofun⟩
    | appendReply m => exact Or.inl ⟨onAppendReply_grows hs h, nofun⟩
    | readHeartbeat m =>
      obtain rfl := Except.ok.inj h
      exact Or.inl ⟨grows_of_progress (onReadHeartbeat_quiet x m).progress, nofun⟩
    | readAck m =>
      obtain rfl := Except.ok.inj h
      exact Or.inl ⟨grows_of_progress (onReadAck_serves x m).progress, nofun⟩
    | installSnapshot m =>
      obtain ⟨hbugs, hinc, hcase⟩ := onInstallSnapshot_commit h
      split at hcase
      next hacc =>
        obtain ⟨hc, ha⟩ := hcase
        rcases Nat.lt_or_ge m.lastIndex x.node.commitIndex with hlt | hge
        -- the one way back: an image past the base but short of the commit index
        · exact Or.inr ⟨hbugs, hinc, by rw [ha, hc], by rw [hc]; exact hlt, m, rfl, halive,
            hacc.1, hacc.2, hlt⟩
        · refine Or.inl ⟨⟨hbugs, hinc, by omega, by omega, fun _ => by rw [ha, hc]⟩, ?_⟩
          rintro _ ⟨⟩ hst
          have := hst.2.2.2
          omega
      next hacc =>
        refine Or.inl ⟨grows_of_progress hcase, ?_⟩
        rintro _ ⟨⟩ hst
        exact hacc ⟨hst.2.1, hst.2.2.1⟩

end Exec
end RaftVerified
