import RaftVerified.RaftConfiguration
import RaftVerified.RaftCommitQuorum

/-! What a callback writes and sends: the entries come from the log, the message or the caller, and
every message goes to a server of the cluster under the name of its sender. -/
namespace RaftVerified

variable {ids : List NodeId} {P : Entry → Prop} {i : NodeId} {n m : RaftNode} {x y : Exec}

/-- The node that a message sent it comes from. -/
def Message.author : Message → NodeId
  | .requestVote m => m.candidate
  | .voteReply m => m.voter
  | .appendEntries m => m.leader
  | .appendReply m => m.follower
  | .installSnapshot m => m.leader
  | .readHeartbeat m => m.leader
  | .readAck m => m.follower

/-- The entries an AppendEntries brings. -/
def Message.entries : Message → List Entry
  | .appendEntries m => m.entries
  | _ => []

/-! ### The log -/

namespace RaftNode

theorem truncateFrom_mem {index : ℕ} {e : Entry} (h : e ∈ (n.truncateFrom index).log) :
    e ∈ n.log := by
  unfold truncateFrom at h
  split at h
  · exact List.mem_of_mem_take h
  · exact List.mem_of_mem_take h

theorem appendLoop_mem (entries : List Entry) {index : ℕ} (h : n.appendLoop index entries = .ok m)
    {e : Entry} (he : e ∈ m.log) : e ∈ n.log ∨ e ∈ entries := by
  induction entries generalizing n index with
  | nil =>
    obtain rfl := Except.ok.inj h
    exact Or.inl he
  | cons entry rest ih =>
    obtain ⟨k, hk, h⟩ := bind_ok.mp h
    rcases ih h with hmem | hmem
    · have hpush {l : RaftNode} (hl : ∀ f ∈ l.log, f ∈ n.log)
          (hmem : e ∈ (l.pushEntry (index+1) entry).log) :
          e ∈ n.log ∨ e ∈ entry :: rest := by
        rw [pushEntry_log, List.mem_append, List.mem_singleton] at hmem
        rcases hmem with hmem | rfl
        · exact Or.inl (hl e hmem)
        · exact Or.inr List.mem_cons_self
      rcases appendEntry_cases hk with ⟨-, -, rfl⟩ | ⟨-, -, rfl⟩ | ⟨-, rfl⟩
      · exact Or.inl hmem
      · exact hpush (fun f hf => truncateFrom_mem hf) hmem
      · exact hpush (fun f hf => hf) hmem
    · exact Or.inr (List.mem_cons_of_mem entry hmem)

end RaftNode

/-! ### Inside a callback -/

namespace Exec

/-- Inside a callback of node `i`: every entry in its log or under way is `P`. -/
structure Tells (ids : List NodeId) (P : Entry → Prop) (i : NodeId) (x : Exec) : Prop where
  id : x.node.id = i
  log : ∀ e ∈ x.node.log, P e
  sent : ∀ j, ∀ p ∈ sends j x.calls, p.dst ∈ ids ∧ p.msg.author = i ∧ ∀ e ∈ p.msg.entries, P e

theorem tells_start (hid : n.id = i) (hl : ∀ e ∈ n.log, P e) : Tells ids P i { node := n } :=
  ⟨hid, hl, fun _ _ hp => absurd hp List.not_mem_nil⟩

theorem Tells.alike (h : Tells ids P i x) (ha : x.Alike y) : Tells ids P i y := by
  have hid : y.node.id = x.node.id := congrArg (fun b => b.1) ha.ballot
  have hlog : y.node.log = x.node.log := congrArg (fun d => d.1.2.2.2.2.1) ha.data
  refine ⟨hid.trans h.id, hlog ▸ h.log, fun j p hp => ?_⟩
  rw [ha.sends j] at hp
  exact h.sent j p hp

theorem Tells.set (h : Tells ids P i x) (hid : m.id = x.node.id) (hlog : ∀ e ∈ m.log, P e) :
    Tells ids P i (x.set m) := ⟨hid.trans h.id, hlog, h.sent⟩

/-- An assignment to other fields. -/
theorem Tells.aside (h : Tells ids P i x) (hid : m.id = x.node.id) (hlog : m.log = x.node.log) :
    Tells ids P i (x.set m) := h.set hid (hlog ▸ h.log)

theorem Tells.sendAll (h : Tells ids P i x) {dsts : List NodeId} {msg : Message}
    (hd : ∀ dst ∈ dsts, dst ∈ ids) (ha : msg.author = x.node.id) (hm : ∀ e ∈ msg.entries, P e) :
    Tells ids P i (x.sendAll dsts msg) := by
  refine ⟨h.id, h.log, fun j p hp => ?_⟩
  rw [Exec.sendAll, sends_append, List.mem_append, ExecRel.sends_map] at hp
  rcases hp with hp | hp
  · exact h.sent j p hp
  · obtain ⟨dst, hdst, rfl⟩ := List.mem_map.mp hp
    exact ⟨hd dst hdst, ha.trans h.id, hm⟩

theorem Tells.send (h : Tells ids P i x) {dst : NodeId} {msg : Message} (hd : dst ∈ ids)
    (ha : msg.author = x.node.id) (hm : ∀ e ∈ msg.entries, P e) :
    Tells ids P i (x.send dst msg) := by
  have hall : Tells ids P i (x.sendAll [dst] msg) := by
    refine h.sendAll (fun d hmem => ?_) ha hm
    rwa [List.mem_singleton.mp hmem]
  exact hall

theorem otherVoters_mem {v : NodeId} (h : v ∈ n.otherVoters) : v ∈ n.voters :=
  List.mem_of_mem_filter h

/-! ### Replication -/

theorem Tells.sendAppendEntries (h : Tells ids P i x) {peer : NodeId} (hp : peer ∈ ids)
    (hy : x.sendAppendEntries peer = .ok y) : Tells ids P i y := by
  unfold Exec.sendAppendEntries at hy
  split at hy
  · cases hy
  · dsimp only at hy
    split at hy
    · obtain rfl := Except.ok.inj hy
      unfold sendInstallSnapshot
      split
      · exact h
      · exact h.send hp rfl nofun
    · obtain ⟨t, -, hy⟩ := bind_ok.mp hy
      obtain rfl := Except.ok.inj hy
      exact h.send hp rfl fun e he => h.log e (List.mem_of_mem_drop he)

theorem Tells.broadcastTo (h : Tells ids P i x) {ps : List NodeId} (hp : ∀ p ∈ ps, p ∈ ids)
    (hy : x.broadcastTo ps = .ok y) : Tells ids P i y := by
  induction ps generalizing x with
  | nil =>
    obtain rfl := Except.ok.inj hy
    exact h
  | cons p ps ih =>
    obtain ⟨z, hz, hy⟩ := bind_ok.mp hy
    have hfirst := h.sendAppendEntries (hp p List.mem_cons_self) hz
    exact ih hfirst (fun q hq => hp q (List.mem_cons_of_mem p hq)) hy

theorem Tells.broadcastHeartbeats (h : Tells ids P i x) (hv : ∀ v ∈ x.node.voters, v ∈ ids)
    (hy : x.broadcastHeartbeats = .ok y) : Tells ids P i y :=
  h.broadcastTo (fun p hp => hv p (otherVoters_mem hp)) hy

theorem Tells.applyLoop (k : ℕ) (h : Tells ids P i x) (hy : x.applyLoop k = .ok y) :
    Tells ids P i y := by
  induction k generalizing x with
  | zero =>
    obtain rfl := Except.ok.inj hy
    exact h
  | succ k ih =>
    obtain ⟨z, hz, hy⟩ := bind_ok.mp hy
    refine ih ?_ hy
    obtain ⟨e, -, hz⟩ := bind_ok.mp hz
    obtain rfl := Except.ok.inj hz
    have hset := h.aside (m := x.node.applyAt (x.node.lastApplied+1) e.command) rfl rfl
    exact (hset.alike (alike_record _ _)).alike (alike_onApply _ _ _)

theorem Tells.setCommitIndex (h : Tells ids P i x) {index : ℕ}
    (hy : x.setCommitIndex index = .ok y) : Tells ids P i y := by
  unfold Exec.setCommitIndex at hy
  split at hy
  · obtain rfl := Except.ok.inj hy
    exact h
  · obtain ⟨z, hz, hy⟩ := bind_ok.mp hy
    have hset := h.aside (m := { x.node with commitIndex := index }) rfl rfl
    have hloop := (hset.alike (alike_record _ _)).applyLoop _ hz
    rcases maybeCompact_cases hy with ⟨-, rfl⟩ | ⟨-, -, t, vs, -, -, rfl⟩
    · exact hloop
    -- a compacted log is a tail of the log
    · have hset : Tells ids P i (z.set (z.node.compactTo z.node.lastApplied t vs)) :=
        hloop.set rfl fun e he => hloop.log e (List.mem_of_mem_drop he)
      exact hset.alike (alike_record _ _)

theorem Tells.advanceCommit (h : Tells ids P i x) (hy : x.advanceCommit = .ok y) :
    Tells ids P i y := by
  rcases advanceCommitFrom_cases _ hy with rfl | ⟨k, t, z, -, -, -, -, hz, rfl⟩
  · exact h
  · exact (h.setCommitIndex hz).aside rfl rfl

/-! ### Elections -/

theorem Tells.becomeFollower (h : Tells ids P i x) (term : ℕ) :
    Tells ids P i (x.becomeFollower term) :=
  (h.aside (m := x.node.follow term) rfl rfl).alike (becomeFollower_alike x term)

theorem Tells.catchUp (h : Tells ids P i x) (term : ℕ) : Tells ids P i (x.catchUp term) := by
  unfold Exec.catchUp
  split
  · exact h.becomeFollower term
  · exact h

theorem Tells.yields (h : Tells ids P i x) {term : ℕ} (hy : x.Yields term y) :
    Tells ids P i y := by
  cases hy with
  | steps _ => exact h.becomeFollower term
  | follows _ _ => exact h

theorem Tells.maybeWin (h : Tells ids P i x) (hv : ∀ v ∈ x.node.voters, v ∈ ids)
    (hy : x.maybeWin = .ok y) : Tells ids P i y := by
  unfold Exec.maybeWin at hy
  dsimp only at hy
  split at hy
  · obtain ⟨z, hz, hy⟩ := bind_ok.mp hy
    obtain rfl := Except.ok.inj hy
    have hlead := (h.alike (alike_record x (.role x.node.id .leader x.node.term))).aside
      (m := x.node.lead) rfl rfl
    exact (hlead.broadcastHeartbeats hv hz).alike (alike_armHeartbeatTimer z)
  · obtain rfl := Except.ok.inj hy
    exact h

theorem Tells.onElectionTimeout (h : Tells ids P i x) (hv : ∀ v ∈ x.node.voters, v ∈ ids)
    {seq : ℕ} (hy : x.onElectionTimeout seq = .ok y) : Tells ids P i y := by
  unfold Exec.onElectionTimeout at hy
  split at hy
  · obtain rfl := Except.ok.inj hy
    exact h
  · have hrec := h.alike (alike_record x (.timer x.node.id x.node.term))
    unfold startElection at hy
    split at hy
    · obtain rfl := Except.ok.inj hy
      exact hrec.alike (alike_armElectionTimer _)
    · obtain ⟨t, -, hy⟩ := bind_ok.mp hy
      have hstand := (hrec.aside (m := x.node.campaign) rfl rfl).alike (stand_alike _)
      refine (hstand.sendAll (fun v hmem => hv v (otherVoters_mem hmem)) rfl ?_).maybeWin hv hy
      exact nofun

theorem Tells.onHeartbeat (h : Tells ids P i x) (hv : ∀ v ∈ x.node.voters, v ∈ ids) {seq : ℕ}
    (hy : x.onHeartbeat seq = .ok y) : Tells ids P i y := by
  unfold Exec.onHeartbeat at hy
  split at hy
  · obtain rfl := Except.ok.inj hy
    exact h
  · obtain ⟨z, hz, hy⟩ := bind_ok.mp hy
    obtain rfl := Except.ok.inj hy
    exact (h.broadcastHeartbeats hv hz).alike (alike_armHeartbeatTimer z)

theorem Tells.onRequestVote (h : Tells ids P i x) {msg : RequestVote} (hc : msg.candidate ∈ ids)
    (hy : x.onRequestVote msg = .ok y) : Tells ids P i y := by
  obtain ⟨granted, -, hy⟩ := bind_ok.mp hy
  obtain rfl := Except.ok.inj hy
  have hcatch := h.catchUp msg.term
  split
  · have hvote := hcatch.aside (m := { (x.catchUp msg.term).node with
      votedFor := some msg.candidate }) rfl rfl
    refine ((hvote.alike (alike_record _ _)).alike (alike_armElectionTimer _)).send hc rfl ?_
    exact nofun
  · exact hcatch.send hc rfl nofun

theorem Tells.onVoteReply (h : Tells ids P i x) (hv : ∀ v ∈ x.node.voters, v ∈ ids)
    {msg : VoteReply} (hy : x.onVoteReply msg = .ok y) : Tells ids P i y := by
  unfold Exec.onVoteReply at hy
  split at hy
  · obtain rfl := Except.ok.inj hy
    exact h.becomeFollower _
  · split at hy
    · obtain rfl := Except.ok.inj hy
      exact h
    · exact (h.aside (m := x.node.countVote msg.voter) rfl rfl).maybeWin hv hy

/-! ### The client interface -/

theorem Tells.replicate (h : Tells ids P i x) (hv : ∀ v ∈ x.node.voters, v ∈ ids)
    {command : Str} (hnew : P ⟨x.node.term, command⟩) (hy : x.replicate command = .ok y) :
    Tells ids P i y := by
  have hset : Tells ids P i (x.set (x.node.appendOwn command).countOwn) := by
    refine h.set rfl fun e he => ?_
    rcases List.mem_append.mp he with he | he
    · exact h.log e he
    · exact List.mem_singleton.mp he ▸ hnew
  exact (hset.alike (alike_record _ _)).broadcastHeartbeats hv hy

theorem Tells.clientCommand (h : Tells ids P i x) (hv : ∀ v ∈ x.node.voters, v ∈ ids)
    {command : Str} (hnew : P ⟨x.node.term, command⟩) {b : Bool}
    (hy : x.clientCommand command = .ok (y, b)) : Tells ids P i y := by
  rcases clientCommand_cases hy with ⟨-, rfl⟩ | ⟨-, -, ⟨-, rfl⟩ | ⟨-, hy⟩⟩
  · exact h
  · exact h.alike (alike_record _ _)
  · have ha := noteRequest_alike x (Command.decode command)
    have hvoters : (x.noteRequest (Command.decode command)).node.voters = x.node.voters :=
      congrArg (fun d => d.2.2.1) ha.data
    have hterm : (x.noteRequest (Command.decode command)).node.term = x.node.term :=
      congrArg (fun b => b.2.1) ha.ballot
    refine (h.alike ha).replicate ?_ ?_ hy
    · rwa [hvoters]
    · rwa [hterm]

theorem Tells.changeConfig (h : Tells ids P i x) {newVoters : List NodeId}
    (hv : ∀ v ∈ newVoters, v ∈ ids)
    (hnew : newVoters ≠ [] → P ⟨x.node.term, encodeConfig (sorted newVoters.dedup)⟩) {b : Bool}
    (hy : x.changeConfig newVoters = .ok (y, b)) : Tells ids P i y := by
  unfold Exec.changeConfig at hy
  split at hy
  · obtain ⟨rfl, -⟩ := Prod.mk.inj (Except.ok.inj hy)
    exact h
  · dsimp only at hy
    split at hy
    · obtain ⟨rfl, -⟩ := Prod.mk.inj (Except.ok.inj hy)
      exact h
    next hacc =>
      obtain ⟨z, hz, hy⟩ := bind_ok.mp hy
      obtain ⟨rfl, -⟩ := Prod.mk.inj (Except.ok.inj hy)
      have hmem := List.mem_dedup.mp ((List.mem_insertionSort _).mp (mem_of_not_refused hacc))
      have hset : Tells ids P i (x.set ((x.node.appendOwn (encodeConfig (sorted newVoters.dedup))
          ).adoptConfig (sorted newVoters.dedup) (x.node.appendOwn
            (encodeConfig (sorted newVoters.dedup))).lastLogIndex).countOwn) := by
        refine h.set rfl fun e he => ?_
        rcases List.mem_append.mp he with he | he
        · exact h.log e he
        · exact List.mem_singleton.mp he ▸ hnew (List.ne_nil_of_mem hmem)
      refine (hset.alike (alike_record _ _)).broadcastHeartbeats (fun v hv' => ?_) hz
      exact hv v (List.mem_dedup.mp ((List.mem_insertionSort _).mp hv'))

theorem Tells.requestRead (h : Tells ids P i x) (hv : ∀ v ∈ x.node.voters, v ∈ ids)
    (command : Str) : Tells ids P i (x.requestRead command).1 := by
  unfold Exec.requestRead
  split
  · exact h
  · dsimp only
    have hqueue := (h.aside (m := x.node.queueRead command) rfl rfl).alike
      (alike_record _ (.read x.node.id x.node.nextReadId x.node.commitIndex))
    refine (hqueue.sendAll (fun v hmem => hv v (otherVoters_mem hmem)) rfl ?_).alike
      (tryServeRead_alike _ _)
    exact nofun

theorem Tells.onReadHeartbeat (h : Tells ids P i x) {msg : ReadHeartbeat} (hl : msg.leader ∈ ids) :
    Tells ids P i (x.onReadHeartbeat msg) := by
  have hcatch := h.catchUp msg.term
  unfold Exec.onReadHeartbeat
  dsimp only
  split
  · exact (hcatch.alike (heed_alike _ _)).send hl rfl nofun
  · exact hcatch.send hl rfl nofun

theorem Tells.onReadAck (h : Tells ids P i x) (msg : ReadAck) :
    Tells ids P i (x.onReadAck msg) := by
  unfold Exec.onReadAck
  split
  · exact h.becomeFollower _
  · split
    · exact h
    next pending _ =>
      split
      · exact h
      · exact (h.aside (m := x.node.ackRead msg pending) rfl rfl).alike (tryServeRead_alike _ _)

/-! ### Entries and images -/

theorem Tells.followCommit (h : Tells ids P i x) {leaderCommit matchIndex : ℕ}
    (hy : x.followCommit leaderCommit matchIndex = .ok y) : Tells ids P i y := by
  rcases followCommit_cases hy with ⟨-, rfl⟩ | ⟨-, hset⟩ | ⟨-, rfl⟩
  · exact h.aside rfl rfl
  · exact h.setCommitIndex hset
  · exact h

theorem Tells.onAppendEntries (h : Tells ids P i x) {msg : AppendEntries} (hl : msg.leader ∈ ids)
    (hnew : ∀ e ∈ msg.entries, P e) (hy : x.onAppendEntries msg = .ok y) :
    Tells ids P i y := by
  have hcatch := h.catchUp msg.term
  rcases onAppendEntries_cases hy with ⟨-, rfl⟩ | ⟨z, hz, hy⟩
  · exact hcatch.send hl rfl nofun
  · have hheed := (hcatch.yields hz).alike (heed_alike z msg.leader)
    obtain ⟨refused, -, hy⟩ := bind_ok.mp hy
    split at hy
    · obtain rfl := Except.ok.inj hy
      exact hheed.send hl rfl nofun
    · obtain ⟨k, hk, hy⟩ := bind_ok.mp hy
      obtain ⟨u, hu, hy⟩ := bind_ok.mp hy
      obtain rfl := Except.ok.inj hy
      have hid : k.id = (z.heed msg.leader).node.id := by
        obtain ⟨_, _, _, _, rfl⟩ := appendLoop_edited _ hk
        rfl
      have hset := hheed.set hid fun e he =>
        (RaftNode.appendLoop_mem _ hk he).elim (hheed.log e) (hnew e)
      exact (hset.followCommit hu).send hl rfl nofun

theorem Tells.onInstallSnapshot (h : Tells ids P i x) {msg : InstallSnapshot}
    (hl : msg.leader ∈ ids) (hy : x.onInstallSnapshot msg = .ok y) : Tells ids P i y := by
  rcases onInstallSnapshot_cases hy with ⟨-, rfl⟩ | ⟨z, hz, hy⟩
  · exact h.send hl rfl nofun
  · have hheed := (h.yields hz).alike (heed_alike z msg.leader)
    unfold installFromLeader at hy
    split at hy
    · obtain rfl := Except.ok.inj hy
      exact hheed.send hl rfl nofun
    · obtain ⟨keepTail, -, hy⟩ := bind_ok.mp hy
      obtain rfl := Except.ok.inj hy
      have hset : Tells ids P i ((z.heed msg.leader).set
          ((z.heed msg.leader).node.restoreImage msg keepTail).rebuildConfig) := by
        refine hheed.set rfl fun e he => ?_
        cases keepTail with
        | true => exact hheed.log e (List.mem_of_mem_drop he)
        | false => cases he
      exact (hset.alike (alike_record _ _)).send hl rfl nofun

theorem Tells.onAppendReply (h : Tells ids P i x) {msg : AppendReply} (hf : msg.follower ∈ ids)
    (hy : x.onAppendReply msg = .ok y) : Tells ids P i y := by
  rcases onAppendReply_cases hy with ⟨-, rfl⟩ | ⟨-, rfl⟩ | ⟨-, -, ⟨-, hy⟩ | ⟨-, hy⟩⟩
  · exact h.becomeFollower _
  · exact h
  · exact (h.aside (m := x.node.ackAppend msg) rfl rfl).advanceCommit hy
  · exact (h.aside (m := x.node.backOff msg) rfl rfl).sendAppendEntries hf hy

theorem Tells.handle (h : Tells ids P i x) (hv : ∀ v ∈ x.node.voters, v ∈ ids) {msg : Message}
    (ha : msg.author ∈ ids) (hnew : ∀ e ∈ msg.entries, P e) (hy : x.handle msg = .ok y) :
    Tells ids P i y := by
  unfold Exec.handle at hy
  split at hy
  · obtain rfl := Except.ok.inj hy
    exact h
  · cases msg with
    | requestVote m => exact h.onRequestVote ha hy
    | voteReply m => exact h.onVoteReply hv hy
    | appendEntries m => exact h.onAppendEntries ha hnew hy
    | appendReply m => exact h.onAppendReply ha hy
    | installSnapshot m => exact h.onInstallSnapshot ha hy
    | readHeartbeat m =>
      obtain rfl := Except.ok.inj hy
      exact h.onReadHeartbeat ha
    | readAck m =>
      obtain rfl := Except.ok.inj hy
      exact h.onReadAck m

end Exec
open Exec

/-! ### Runs -/

variable {c : Setup} {w w' : World} {ws past : List World} {e : Event}

/-- Any node may be asked for any change of the voting set among the servers of the cluster. -/
def ServerChange (c : Setup) (_ : List World) : Event → Prop
  | .clientCommand _ command => Plain command
  | .changeConfig _ newVoters => ∀ v ∈ newVoters, v ∈ c.ids
  | _ => True

instance (c : Setup) (ws : List World) (e : Event) : Decidable (ServerChange c ws e) :=
  match e with
  | .clientCommand _ command => inferInstanceAs (Decidable (Plain command))
  | .changeConfig _ newVoters => inferInstanceAs (Decidable (∀ v ∈ newVoters, v ∈ c.ids))
  | .electionTimeout _ _ | .heartbeat _ _ | .requestRead _ _ | .deliver _ | .pause _ | .resume _ =>
    instDecidableTrue

theorem serverChange_of_fixed (h : FixedVoters ws e) : ServerChange c ws e := by
  cases e with
  | changeConfig i newVoters => exact h.elim
  | _ => exact h

theorem ServerChange.anyChange (h : ServerChange c ws e) : AnyChange ws e := by
  cases e with
  | clientCommand i command => exact h
  | _ => trivial

/-- A configuration entry names servers of the cluster only. -/
def Entry.Local (c : Setup) (e : Entry) : Prop :=
  ∀ vs, decodeConfig e.command = some vs → ∀ v ∈ vs, v ∈ c.ids

/-- Every name in the cluster is the name of a server. -/
structure World.Known (c : Setup) (w : World) : Prop where
  id : ∀ i ∈ c.ids, (w.nodes i).id = i
  voters : ∀ i ∈ c.ids, ∀ v ∈ (w.nodes i).voters, v ∈ c.ids
  log : ∀ i ∈ c.ids, ∀ e ∈ (w.nodes i).log, e.Local c
  sent : ∀ p ∈ w.sent, p.src ∈ c.ids ∧ p.dst ∈ c.ids ∧ p.msg.author ∈ c.ids ∧
    ∀ e ∈ p.msg.entries, e.Local c

theorem callback_tells (hw : w.Known c) (hi : i ∈ c.ids) (ha : ServerChange c ws e)
    (hy : w.callback (w.nodes i) e = .ok y) : Tells c.ids (Entry.Local c) i y := by
  have hx : Tells c.ids (Entry.Local c) i { node := w.nodes i } :=
    tells_start (hw.id i hi) (hw.log i hi)
  have hv := hw.voters i hi
  cases e with
  | electionTimeout j seq => exact hx.onElectionTimeout hv hy
  | heartbeat j seq => exact hx.onHeartbeat hv hy
  | clientCommand j command =>
    obtain ⟨b, hy⟩ := map_fst_ok hy
    refine hx.clientCommand hv (fun vs hvs => ?_) hy
    rw [decodeConfig_of_plain command ha] at hvs
    cases hvs
  | changeConfig j newVoters =>
    obtain ⟨b, hy⟩ := map_fst_ok hy
    refine hx.changeConfig ha (fun hne vs hvs v hmem => ha v ?_) hy
    have hne' : sorted newVoters.dedup ≠ [] := by
      obtain ⟨u, hu⟩ := List.exists_mem_of_ne_nil _ hne
      exact List.ne_nil_of_mem ((List.mem_insertionSort _).mpr (List.mem_dedup.mpr hu))
    rw [decodeConfig_encodeConfig _ hne'] at hvs
    obtain rfl := Option.some.inj hvs
    exact List.mem_dedup.mp ((List.mem_insertionSort _).mp ((List.mem_insertionSort _).mp hmem))
  | requestRead j command =>
    obtain rfl := Except.ok.inj hy
    exact hx.requestRead hv command
  | deliver k =>
    rw [World.callback] at hy
    cases hp : w.sent[k]? with
    | none =>
      rw [hp] at hy
      obtain rfl := Except.ok.inj hy
      exact hx
    | some p =>
      rw [hp] at hy
      obtain ⟨-, -, hauthor, hlocal⟩ := hw.sent p (List.mem_of_getElem? hp)
      exact hx.handle hv hauthor hlocal hy
  | pause j =>
    obtain rfl := Except.ok.inj hy
    exact tells_start (n := (w.nodes i).pause) (hw.id i hi) (hw.log i hi)
  | resume j =>
    obtain rfl := Except.ok.inj hy
    exact hx.alike (resume_alike _)

theorem run_known (ht : c.config.snapshotThreshold = 0) (hc : c.Accepted)
    (hr : Run c (ServerChange c) (w :: past)) : w.Known c := by
  have hvoters {u : World} (hu : ∀ i ∈ c.ids, Derived c (u.nodes i))
      (hl : ∀ i ∈ c.ids, ∀ e ∈ (u.nodes i).log, e.Local c) :
      ∀ i ∈ c.ids, ∀ v ∈ (u.nodes i).voters, v ∈ c.ids := by
    intro i hi
    have hgov := scan_governing c (u.nodes i).log
    rw [(hu i hi).scan] at hgov
    rcases hgov with ⟨k, e, he, hd, -, -⟩ | ⟨-, hinit, -⟩
    · exact hl i hi e (List.mem_of_getElem? he) _ hd
    · dsimp only at hinit
      rw [hinit]
      exact hc.voters_ids
  generalize hws : w :: past = ws at hr
  induction hr generalizing w past with
  | init =>
    obtain ⟨rfl, rfl⟩ := List.cons.inj hws
    have hlog : ∀ i ∈ c.ids, ∀ e ∈ ((World.init c).nodes i).log, e.Local c :=
      fun i _ e he => absurd he List.not_mem_nil
    exact ⟨fun i _ => rfl, hvoters (run_derived ht .init).1 hlog, hlog, nofun⟩
  | @step u w' before e hrun hall hstep ih =>
    obtain ⟨rfl, rfl⟩ := List.cons.inj hws
    have hold := ih rfl
    have hd := (run_derived ht ((hrun.mono fun _ _ _ h => h.anyChange).step hall.anyChange hstep)).1
    rcases World.step_cases hstep with ⟨-, rfl⟩ | ⟨j, hj, y, -, hy, rfl⟩
    · exact hold
    have htells := callback_tells hold hj hall hy
    have hlog : ∀ i ∈ c.ids, ∀ e ∈ ((u.put j y).nodes i).log, e.Local c :=
      World.put_nodes_forall (P := fun _ n => ∀ e ∈ n.log, e.Local c)
        (Q := fun _ n => ∀ e ∈ n.log, e.Local c) hold.log (fun _ _ _ hn => hn) htells.log
    refine ⟨?_, hvoters hd hlog, hlog, World.put_sent_forall hold.sent (fun _ hp => hp) ?_⟩
    · exact World.put_nodes_forall (P := fun i n => n.id = i) (Q := fun i n => n.id = i) hold.id
        (fun _ _ _ hn => hn) htells.id
    · intro p hp
      obtain ⟨hdst, hauthor, hlocal⟩ := htells.sent j p hp
      have hsrc := sends_src _ hp
      exact ⟨hsrc ▸ hj, hdst, hauthor ▸ hj, hlocal⟩

end RaftVerified
