import RaftVerified.RaftObserved
import RaftVerified.RaftCompleteness

/-! The voters of a node and the index of their entry, kept step by step, are at any time what
a scan of its whole log would find. -/
namespace RaftVerified

variable {c : Setup} {n m : RaftNode} {w w' : World} {ws past : List World} {x y z : Exec}

/-! ### Scans -/

namespace RaftNode

theorem scanConfig_append (cur : List NodeId × ℕ) (index : ℕ) (entries : List Entry) (e : Entry) :
    scanConfig cur index (entries ++ [e]) = match decodeConfig e.command with
      | some decoded => (decoded, index+entries.length)
      | none => scanConfig cur index entries := by
  induction entries generalizing cur index with
  | nil =>
    cases hd : decodeConfig e.command with
    | some decoded => simp only [List.nil_append, scanConfig, hd, List.length_nil, Nat.add_zero]
    | none => simp only [List.nil_append, scanConfig, hd]
  | cons f rest ih =>
    rw [List.cons_append, scanConfig, scanConfig]
    have hlen : index+1+rest.length = index+(f :: rest).length := by
      rw [List.length_cons]
      omega
    split
    · rw [ih, hlen]
    · rw [ih, hlen]

/-- Nothing changes for entries that are cut off above the last configuration. -/
theorem scanConfig_take (cur : List NodeId × ℕ) {index k : ℕ} {entries : List Entry}
    (h : (scanConfig cur index entries).2 < index+k) :
    scanConfig cur index (entries.take k) = scanConfig cur index entries := by
  induction entries using List.reverseRecOn with
  | nil => rw [List.take_nil]
  | append_singleton entries e ih =>
    rcases Nat.lt_or_ge entries.length k with hk | hk
    · rw [List.take_of_length_le]
      rw [List.length_append, List.length_singleton]
      omega
    · rw [List.take_append_of_le_length hk]
      rw [scanConfig_append] at h ⊢
      split at h
      -- a configuration that is cut off stands too far up
      next => exact absurd h (by dsimp only; omega)
      next => exact ih h

end RaftNode

/-- What a scan of the log finds, from the initial configuration on. -/
def Setup.scan (c : Setup) (log : List Entry) : List NodeId × ℕ :=
  RaftNode.scanConfig (c.voters, 0) 1 log

/-- The last entry that decodes as a configuration names the voters; without one the initial
configuration is in force. -/
def Setup.Governing (c : Setup) (log : List Entry) (voters : List NodeId) (index : ℕ) : Prop :=
  (∃ k e, log[k]? = some e ∧ decodeConfig e.command = some voters ∧ index = k+1 ∧
    ∀ l f, k < l → log[l]? = some f → decodeConfig f.command = none) ∨
  (∀ e ∈ log, decodeConfig e.command = none) ∧ voters = c.voters ∧ index = 0

theorem scan_governing (c : Setup) (log : List Entry) :
    c.Governing log (c.scan log).1 (c.scan log).2 := by
  unfold Setup.scan
  induction log using List.reverseRecOn with
  | nil => exact Or.inr ⟨nofun, rfl, rfl⟩
  | append_singleton log e ih =>
    rw [RaftNode.scanConfig_append]
    cases hd : decodeConfig e.command with
    | some decoded =>
      refine Or.inl ⟨log.length, e, List.getElem?_concat_length, hd, Nat.add_comm _ _, ?_⟩
      intro l f hl hf
      have hlen := (List.getElem?_eq_some_iff.mp hf).1
      rw [List.length_append, List.length_singleton] at hlen
      omega
    | none =>
      have hmem : ∀ f ∈ [e], decodeConfig f.command = none := by
        intro f hf
        rw [List.mem_singleton.mp hf]
        exact hd
      rcases ih with ⟨k, f, hk, hf, hindex, hlast⟩ | ⟨hall, hvoters, hindex⟩
      · have hlen := (List.getElem?_eq_some_iff.mp hk).1
        refine Or.inl ⟨k, f, (List.getElem?_append_left hlen).trans hk, hf, hindex, ?_⟩
        intro l g hl hg
        rcases Nat.lt_or_ge l log.length with hll | hll
        · exact hlast l g hl ((List.getElem?_append_left hll).symm.trans hg)
        · rw [List.getElem?_append_right hll] at hg
          exact hmem g (List.mem_of_getElem? hg)
      · refine Or.inr ⟨fun f hf => ?_, hvoters, hindex⟩
        exact (List.mem_append.mp hf).elim (hall f) (hmem f)

/-! ### One node -/

/-- A node that never compacts, with the configuration that its log gives. -/
structure Derived (c : Setup) (n : RaftNode) : Prop where
  threshold : n.config.snapshotThreshold = 0
  initial : n.initialVoters = c.voters
  base : n.baseIndex = 0
  snapshot : n.snapshot = none
  scan : c.scan n.log = (n.voters, n.configIndex)

theorem Derived.congr (h : Derived c n) (hd : m.data = n.data) : Derived c m := by
  simp only [RaftNode.data, Prod.mk.injEq] at hd
  obtain ⟨⟨-, hconfig, hinitial, -, hlog, hbase, -⟩, hsnapshot, hvoters, hindex, -⟩ := hd
  refine ⟨hconfig ▸ h.threshold, hinitial.trans h.initial, hbase.trans h.base,
    hsnapshot.trans h.snapshot, ?_⟩
  rw [hlog, hvoters, hindex]
  exact h.scan

namespace RaftNode

theorem rebuildConfig_derived (ht : n.config.snapshotThreshold = 0)
    (hi : n.initialVoters = c.voters) (hb : n.baseIndex = 0) (hs : n.snapshot = none) :
    Derived c n.rebuildConfig := by
  refine ⟨ht, hi, hb, hs, ?_⟩
  unfold rebuildConfig Setup.scan
  rw [hs, hb, hi]
  rfl

theorem resetVolatile_derived (h : Derived c n) : Derived c n.resetVolatile :=
  rebuildConfig_derived h.threshold h.initial h.base h.snapshot

theorem truncateFrom_log (hb : n.baseIndex = 0) {index : ℕ} (hi : 1 ≤ index) :
    (n.truncateFrom index).log = n.log.take (index-1) := by
  have hlog : delFrom n.log (n.phys index) = n.log.take (index-1) := by
    have hp : n.phys index = ((index-1 : ℕ) : ℤ) := by
      unfold phys
      rw [hb]
      omega
    rw [hp, delFrom_of_nonneg]
  unfold truncateFrom
  split <;> exact hlog

/-- A new entry at the end of the log is the last one that is scanned. -/
theorem pushEntry_derived (h : Derived c n) {index : ℕ} (hi : index = n.log.length+1)
    (entry : Entry) : Derived c (n.pushEntry index entry) := by
  have hscan := h.scan
  unfold Setup.scan at hscan
  unfold pushEntry
  cases hd : decodeConfig entry.command with
  | some decoded =>
    refine ⟨h.threshold, h.initial, h.base, h.snapshot, ?_⟩
    change scanConfig _ 1 (n.log ++ [entry]) = (decoded, index)
    rw [scanConfig_append, hd, hi, Nat.add_comm]
  | none =>
    refine ⟨h.threshold, h.initial, h.base, h.snapshot, ?_⟩
    change scanConfig _ 1 (n.log ++ [entry]) = (n.voters, n.configIndex)
    rw [scanConfig_append, hd, hscan]

/-- The configuration is only scanned anew when its entry is cut off. -/
theorem truncateFrom_derived (h : Derived c n) {index : ℕ} (hi : 1 ≤ index) :
    Derived c (n.truncateFrom index) := by
  have hlog := truncateFrom_log h.base hi
  unfold truncateFrom at hlog ⊢
  split
  · exact rebuildConfig_derived h.threshold h.initial h.base h.snapshot
  next hlt =>
    rw [if_neg hlt] at hlog
    refine ⟨h.threshold, h.initial, h.base, h.snapshot, ?_⟩
    have hscan := h.scan
    unfold Setup.scan at hscan ⊢
    change scanConfig _ 1 _ = (n.voters, n.configIndex)
    rw [hlog, ← hscan]
    refine scanConfig_take _ ?_
    rw [hscan]
    dsimp only
    omega

theorem appendEntry_derived (h : Derived c n) {index : ℕ} {entry : Entry}
    (hi : index ≤ n.log.length) (hm : n.appendEntry (index+1) entry = .ok m) :
    Derived c m ∧ index+1 ≤ m.log.length := by
  have hlast : n.lastLogIndex = n.log.length := by
    rw [lastLogIndex, h.base, Nat.zero_add]
  have hpush {k : RaftNode} (hk : Derived c k) (hlen : k.log.length = index) :
      Derived c (k.pushEntry (index+1) entry) ∧
        index+1 ≤ (k.pushEntry (index+1) entry).log.length := by
    refine ⟨pushEntry_derived hk (by rw [hlen]) entry, ?_⟩
    rw [pushEntry_log, List.length_append, List.length_singleton, hlen]
  rcases appendEntry_cases hm with ⟨hle, -, rfl⟩ | ⟨-, -, rfl⟩ | ⟨hlt, rfl⟩
  · rw [hlast] at hle
    exact ⟨h, hle⟩
  · refine hpush (truncateFrom_derived h (Nat.succ_pos index)) ?_
    rw [truncateFrom_log h.base (Nat.succ_pos index), List.length_take]
    omega
  · rw [hlast] at hlt
    exact hpush h (by omega)

/-- One message may cut off several configurations and bring several others. -/
theorem appendLoop_derived (entries : List Entry) {index : ℕ} (h : Derived c n)
    (hi : index ≤ n.log.length) (hm : n.appendLoop index entries = .ok m) : Derived c m := by
  induction entries generalizing n index with
  | nil =>
    obtain rfl := Except.ok.inj hm
    exact h
  | cons entry rest ih =>
    obtain ⟨k, hk, hm⟩ := bind_ok.mp hm
    obtain ⟨hd, hle⟩ := appendEntry_derived h hi hk
    exact ih hd hle hm

end RaftNode

/-! ### Callbacks -/

namespace Exec

/-- Inside a callback: the configuration is the one of the log, and no image has been sent. -/
structure Derives (c : Setup) (x : Exec) : Prop where
  node : Derived c x.node
  sends : ∀ i, ∀ p ∈ RaftVerified.sends i x.calls, ∀ msg, p.msg ≠ .installSnapshot msg

theorem Derives.alike (h : Derives c x) (ha : x.Alike y) : Derives c y :=
  ⟨h.node.congr ha.data, fun i p hp => h.sends i p (by rwa [← ha.sends i])⟩

theorem Derives.set (h : Derives c x) (hn : Derived c n) : Derives c (x.set n) := ⟨hn, h.sends⟩

theorem Derives.send (h : Derives c x) (dst : NodeId) {msg : Message}
    (hm : ∀ image, msg ≠ .installSnapshot image) : Derives c (x.send dst msg) := by
  refine ⟨h.node, fun i p hp => ?_⟩
  rw [Exec.send, call, sends_append, List.mem_append] at hp
  rcases hp with hp | hp
  · exact h.sends i p hp
  · obtain rfl := List.mem_singleton.mp hp
    exact hm

theorem Derives.sendAll (h : Derives c x) (dsts : List NodeId) {msg : Message}
    (hm : ∀ image, msg ≠ .installSnapshot image) : Derives c (x.sendAll dsts msg) := by
  refine ⟨h.node, fun i p hp => ?_⟩
  rw [Exec.sendAll, sends_append, List.mem_append, ExecRel.sends_map] at hp
  rcases hp with hp | hp
  · exact h.sends i p hp
  · obtain ⟨dst, -, rfl⟩ := List.mem_map.mp hp
    exact hm

theorem becomeFollower_derives (h : Derives c x) (term : ℕ) : Derives c (x.becomeFollower term) :=
  (h.set (n := x.node.follow term) (h.node.congr rfl)).alike (becomeFollower_alike x term)

theorem catchUp_derives (h : Derives c x) (term : ℕ) : Derives c (x.catchUp term) := by
  unfold catchUp
  split
  · exact becomeFollower_derives h term
  · exact h

/-- Without a snapshot there is nothing but entries to send. -/
theorem sendAppendEntries_derives (h : Derives c x) {peer : NodeId}
    (hy : x.sendAppendEntries peer = .ok y) : Derives c y := by
  unfold sendAppendEntries at hy
  split at hy
  · cases hy
  · dsimp only at hy
    split at hy
    · obtain rfl := Except.ok.inj hy
      unfold sendInstallSnapshot
      rw [h.node.snapshot]
      exact h
    · obtain ⟨t, -, hy⟩ := bind_ok.mp hy
      obtain rfl := Except.ok.inj hy
      exact h.send peer nofun

theorem broadcastTo_derives (ps : List NodeId) (h : Derives c x)
    (hy : x.broadcastTo ps = .ok y) : Derives c y := by
  induction ps generalizing x with
  | nil =>
    obtain rfl := Except.ok.inj hy
    exact h
  | cons p ps ih =>
    obtain ⟨z, hz, hy⟩ := bind_ok.mp hy
    exact ih (sendAppendEntries_derives h hz) hy

theorem maybeWin_derives (h : Derives c x) (hy : x.maybeWin = .ok y) : Derives c y := by
  unfold maybeWin at hy
  dsimp only at hy
  split at hy
  · obtain ⟨z, hz, hy⟩ := bind_ok.mp hy
    obtain rfl := Except.ok.inj hy
    have hlead := (h.alike (alike_record x (.role x.node.id .leader x.node.term))).set
      (n := x.node.lead) (h.node.congr rfl)
    exact (broadcastTo_derives _ hlead hz).alike (alike_armHeartbeatTimer z)
  · obtain rfl := Except.ok.inj hy
    exact h

theorem onElectionTimeout_derives {seq : ℕ} (h : Derives c x)
    (hy : x.onElectionTimeout seq = .ok y) : Derives c y := by
  unfold onElectionTimeout at hy
  split at hy
  · obtain rfl := Except.ok.inj hy
    exact h
  · have hrec := h.alike (alike_record x (.timer x.node.id x.node.term))
    unfold startElection at hy
    split at hy
    · obtain rfl := Except.ok.inj hy
      exact hrec.alike (alike_armElectionTimer _)
    · obtain ⟨t, -, hy⟩ := bind_ok.mp hy
      have hstand := (hrec.set (n := x.node.campaign) (h.node.congr rfl)).alike (stand_alike _)
      refine maybeWin_derives (hstand.sendAll _ ?_) hy
      exact nofun

theorem onHeartbeat_derives {seq : ℕ} (h : Derives c x) (hy : x.onHeartbeat seq = .ok y) :
    Derives c y := by
  unfold onHeartbeat at hy
  split at hy
  · obtain rfl := Except.ok.inj hy
    exact h
  · obtain ⟨z, hz, hy⟩ := bind_ok.mp hy
    obtain rfl := Except.ok.inj hy
    exact (broadcastTo_derives _ h hz).alike (alike_armHeartbeatTimer z)

/-- A command of a client is no configuration. -/
theorem clientCommand_derives {command : Str} {b : Bool} (h : Derives c x)
    (hp : decodeConfig command = none) (hy : x.clientCommand command = .ok (y, b)) :
    Derives c y := by
  rcases clientCommand_cases hy with ⟨-, rfl⟩ | ⟨-, -, ⟨-, rfl⟩ | ⟨-, hy⟩⟩
  · exact h
  · exact h.alike (alike_record _ _)
  · have hnote := h.alike (noteRequest_alike x (Command.decode command))
    refine broadcastTo_derives _ ((hnote.set ?_).alike (alike_record _ _)) hy
    have hnode := hnote.node
    refine ⟨hnode.threshold, hnode.initial, hnode.base, hnode.snapshot, ?_⟩
    have hscan := hnode.scan
    unfold Setup.scan at hscan ⊢
    change RaftNode.scanConfig _ 1 (_ ++ [_]) = _
    rw [RaftNode.scanConfig_append, hp, hscan]
    rfl

theorem mem_of_not_refused {new : List NodeId} (h : ¬ refusesConfig n new) : n.id ∈ new := by
  by_contra hmem
  exact h (Or.inr (Or.inl hmem))

/-- A leader adopts what its new entry decodes to. -/
theorem changeConfig_derives {newVoters : List NodeId} {b : Bool} (h : Derives c x)
    (hy : x.changeConfig newVoters = .ok (y, b)) : Derives c y := by
  unfold changeConfig at hy
  split at hy
  · obtain ⟨rfl, -⟩ := Prod.mk.inj (Except.ok.inj hy)
    exact h
  · dsimp only at hy
    split at hy
    · obtain ⟨rfl, -⟩ := Prod.mk.inj (Except.ok.inj hy)
      exact h
    next hacc =>
      obtain ⟨z, hz, hy⟩ := bind_ok.mp hy
      obtain ⟨rfl, -⟩ := Prod.mk.inj (Except.ok.inj hy)
      have hdecode : decodeConfig (encodeConfig (sorted newVoters.dedup)) =
          some (sorted newVoters.dedup) := by
        rw [decodeConfig_encodeConfig _ (List.ne_nil_of_mem (mem_of_not_refused hacc))]
        exact congrArg some (sorted_perm (List.perm_insertionSort _ _))
      refine broadcastTo_derives _ ((h.set ?_).alike (alike_record _ _)) hz
      have hnode := h.node
      refine ⟨hnode.threshold, hnode.initial, hnode.base, hnode.snapshot, ?_⟩
      unfold Setup.scan
      change RaftNode.scanConfig _ 1 (x.node.log ++ [_]) =
        (sorted newVoters.dedup, x.node.baseIndex+(x.node.log ++ [_]).length)
      rw [RaftNode.scanConfig_append, hdecode, hnode.base, List.length_append,
        List.length_singleton, Nat.zero_add, Nat.add_comm]

/-! ### Replies and messages -/

theorem requestRead_derives (h : Derives c x) (command : Str) :
    Derives c (x.requestRead command).1 := by
  unfold requestRead
  split
  · exact h
  · dsimp only
    have hqueue := (h.set (n := x.node.queueRead command) (h.node.congr rfl)).alike
      (alike_record _ (.read x.node.id x.node.nextReadId x.node.commitIndex))
    refine (hqueue.sendAll x.node.otherVoters ?_).alike (tryServeRead_alike _ _)
    exact nofun

theorem onReadHeartbeat_derives (h : Derives c x) (msg : ReadHeartbeat) :
    Derives c (x.onReadHeartbeat msg) := by
  have hcatch := catchUp_derives h msg.term
  unfold onReadHeartbeat
  dsimp only
  split
  · exact (hcatch.alike (heed_alike _ _)).send _ nofun
  · exact hcatch.send _ nofun

theorem onReadAck_derives (h : Derives c x) (msg : ReadAck) : Derives c (x.onReadAck msg) := by
  unfold onReadAck
  split
  · exact becomeFollower_derives h _
  · split
    · exact h
    next pending _ =>
      split
      · exact h
      · exact (h.set (n := x.node.ackRead msg pending) (h.node.congr rfl)).alike
          (tryServeRead_alike _ _)

theorem onRequestVote_derives {msg : RequestVote} (h : Derives c x)
    (hy : x.onRequestVote msg = .ok y) : Derives c y := by
  obtain ⟨granted, -, hy⟩ := bind_ok.mp hy
  obtain rfl := Except.ok.inj hy
  have hcatch := catchUp_derives h msg.term
  split
  · have hvote := hcatch.set (n := { (x.catchUp msg.term).node with
      votedFor := some msg.candidate }) (hcatch.node.congr rfl)
    exact ((hvote.alike (alike_record _ _)).alike (alike_armElectionTimer _)).send _ nofun
  · exact hcatch.send _ nofun

theorem onVoteReply_derives {msg : VoteReply} (h : Derives c x)
    (hy : x.onVoteReply msg = .ok y) : Derives c y := by
  unfold onVoteReply at hy
  split at hy
  · obtain rfl := Except.ok.inj hy
    exact becomeFollower_derives h _
  · split at hy
    · obtain rfl := Except.ok.inj hy
      exact h
    · exact maybeWin_derives (h.set (n := x.node.countVote msg.voter) (h.node.congr rfl)) hy

theorem applyLoop_derives (k : ℕ) (h : Derives c x) (hy : x.applyLoop k = .ok y) :
    Derives c y := by
  induction k generalizing x with
  | zero =>
    obtain rfl := Except.ok.inj hy
    exact h
  | succ k ih =>
    obtain ⟨z, hz, hy⟩ := bind_ok.mp hy
    refine ih ?_ hy
    obtain ⟨e, -, hz⟩ := bind_ok.mp hz
    obtain rfl := Except.ok.inj hz
    have hnode := h.node
    have hset : Derives c (x.set (x.node.applyAt (x.node.lastApplied+1) e.command)) :=
      h.set ⟨hnode.threshold, hnode.initial, hnode.base, hnode.snapshot, hnode.scan⟩
    exact (hset.alike (alike_record _ _)).alike (alike_onApply _ _ _)

theorem setCommitIndex_derives {index : ℕ} (h : Derives c x)
    (hy : x.setCommitIndex index = .ok y) : Derives c y := by
  unfold setCommitIndex at hy
  split at hy
  · obtain rfl := Except.ok.inj hy
    exact h
  · obtain ⟨z, hz, hy⟩ := bind_ok.mp hy
    have hnode := h.node
    have hset : Derives c (x.set { x.node with commitIndex := index }) :=
      h.set ⟨hnode.threshold, hnode.initial, hnode.base, hnode.snapshot, hnode.scan⟩
    have hloop := applyLoop_derives _ (hset.alike (alike_record _ _)) hz
    unfold maybeCompact at hy
    dsimp only at hy
    rw [if_pos (Or.inl hloop.node.threshold.le)] at hy
    obtain rfl := Except.ok.inj hy
    exact hloop

theorem advanceCommitFrom_derives (k : ℕ) (h : Derives c x)
    (hy : x.advanceCommitFrom k = .ok y) : Derives c y := by
  rcases advanceCommitFrom_cases k hy with rfl | ⟨n, t, z, -, -, -, -, hz, rfl⟩
  · exact h
  · have hset := setCommitIndex_derives h hz
    exact hset.set (hset.node.congr rfl)

theorem followCommit_derives {leaderCommit matchIndex : ℕ} (h : Derives c x)
    (hy : x.followCommit leaderCommit matchIndex = .ok y) : Derives c y := by
  rcases followCommit_cases hy with ⟨-, rfl⟩ | ⟨-, hset⟩ | ⟨-, rfl⟩
  · have hnode := h.node
    exact h.set ⟨hnode.threshold, hnode.initial, hnode.base, hnode.snapshot, hnode.scan⟩
  · exact setCommitIndex_derives h hset
  · exact h

/-- Whatever the planted defects, entries are only taken where the log reaches. -/
theorem consistent_le {msg : AppendEntries} (h : inconsistent n msg = .ok false) :
    msg.prevIndex ≤ n.lastLogIndex := by
  obtain ⟨mismatch, -, h⟩ := bind_ok.mp h
  have h := of_decide_eq_false (Except.ok.inj h)
  by_contra hlt
  exact h ⟨by omega, Or.inl (not_le.mp hlt)⟩

theorem appendFromLeader_derives {msg : AppendEntries} (h : Derives c x)
    (hy : x.appendFromLeader msg = .ok y) : Derives c y := by
  obtain ⟨refused, hr, hy⟩ := bind_ok.mp hy
  split at hy
  · obtain rfl := Except.ok.inj hy
    exact h.send _ fun _ heq => by cases heq
  next hf =>
    rw [Bool.not_eq_true] at hf
    obtain ⟨n, hn, hy⟩ := bind_ok.mp hy
    obtain ⟨z, hz, hy⟩ := bind_ok.mp hy
    obtain rfl := Except.ok.inj hy
    have hle := consistent_le (hf ▸ hr)
    rw [RaftNode.lastLogIndex, h.node.base, Nat.zero_add] at hle
    exact (followCommit_derives (h.set (RaftNode.appendLoop_derived _ h.node hle hn)) hz).send _
      fun _ heq => by cases heq

theorem onAppendEntries_derives {msg : AppendEntries} (h : Derives c x)
    (hy : x.onAppendEntries msg = .ok y) : Derives c y := by
  have hcatch := catchUp_derives h msg.term
  rcases onAppendEntries_cases hy with ⟨-, rfl⟩ | ⟨z, hz, hy⟩
  · exact hcatch.send _ nofun
  · have hyield : Derives c z := by
      cases hz with
      | steps _ => exact becomeFollower_derives hcatch _
      | follows _ _ => exact hcatch
    exact appendFromLeader_derives (hyield.alike (heed_alike _ _)) hy

theorem onAppendReply_derives {msg : AppendReply} (h : Derives c x)
    (hy : x.onAppendReply msg = .ok y) : Derives c y := by
  rcases onAppendReply_cases hy with ⟨-, rfl⟩ | ⟨-, rfl⟩ | ⟨-, -, ⟨-, hy⟩ | ⟨-, hy⟩⟩
  · exact becomeFollower_derives h _
  · exact h
  · exact advanceCommitFrom_derives _ (h.set (n := x.node.ackAppend msg) (h.node.congr rfl)) hy
  · exact sendAppendEntries_derives (h.set (n := x.node.backOff msg) (h.node.congr rfl)) hy

theorem handle_derives {msg : Message} (h : Derives c x)
    (hm : ∀ image, msg ≠ .installSnapshot image) (hy : x.handle msg = .ok y) : Derives c y := by
  unfold handle at hy
  split at hy
  · obtain rfl := Except.ok.inj hy
    exact h
  · split at hy
    next m => exact onRequestVote_derives h hy
    next m => exact onVoteReply_derives h hy
    next m => exact onAppendEntries_derives h hy
    next m => exact onAppendReply_derives h hy
    next m => exact absurd rfl (hm m)
    next m =>
      obtain rfl := Except.ok.inj hy
      exact onReadHeartbeat_derives h m
    next m =>
      obtain rfl := Except.ok.inj hy
      exact onReadAck_derives h m

end Exec
open Exec

theorem callback_derives {e : Event} (h : Derived c n) (hs : NoImages w)
    (hall : AnyChange ws e) (hy : w.callback n e = .ok y) : Derives c y := by
  have hx : Derives c { node := n } := ⟨h, fun _ _ hp => absurd hp List.not_mem_nil⟩
  cases e with
  | electionTimeout j seq => exact onElectionTimeout_derives hx hy
  | heartbeat j seq => exact onHeartbeat_derives hx hy
  | clientCommand j command =>
    obtain ⟨b, hy⟩ := map_fst_ok hy
    exact clientCommand_derives hx (decodeConfig_of_plain command hall) hy
  | changeConfig j newVoters =>
    obtain ⟨b, hy⟩ := map_fst_ok hy
    exact changeConfig_derives hx hy
  | requestRead j command =>
    obtain rfl := Except.ok.inj hy
    exact requestRead_derives hx command
  | deliver k =>
    rw [World.callback] at hy
    cases hp : w.sent[k]? with
    | none =>
      rw [hp] at hy
      obtain rfl := Except.ok.inj hy
      exact hx
    | some p =>
      rw [hp] at hy
      exact handle_derives hx (hs p (List.mem_of_getElem? hp)) hy
  | pause j =>
    obtain rfl := Except.ok.inj hy
    have hreset := RaftNode.resetVolatile_derived (n := { n with alive := false })
      ⟨h.threshold, h.initial, h.base, h.snapshot, h.scan⟩
    exact ⟨hreset, fun _ _ hp => absurd hp List.not_mem_nil⟩
  | resume j =>
    obtain rfl := Except.ok.inj hy
    exact hx.alike (resume_alike _)

/-! ### Runs -/

theorem step_derived {e : Event} (h : ∀ i ∈ c.ids, Derived c (w.nodes i)) (hs : NoImages w)
    (hall : AnyChange ws e) (hstep : w.step c e = .ok w') :
    (∀ i ∈ c.ids, Derived c (w'.nodes i)) ∧ NoImages w' := by
  rcases World.step_cases hstep with ⟨-, rfl⟩ | ⟨j, hj, y, -, hy, rfl⟩
  · exact ⟨h, hs⟩
  · have hd := callback_derives (h j hj) hs hall hy
    exact ⟨World.put_nodes_forall h (fun _ _ _ hn => hn) hd.node,
      World.put_sent_forall hs (fun _ hp => hp) (hd.sends j)⟩

theorem run_derived (ht : c.config.snapshotThreshold = 0) (hr : Run c AnyChange (w :: past)) :
    (∀ i ∈ c.ids, Derived c (w.nodes i)) ∧ NoImages w := by
  generalize hws : w :: past = ws at hr
  induction hr generalizing w past with
  | init =>
    obtain ⟨rfl, rfl⟩ := List.cons.inj hws
    refine ⟨fun i hi => ?_, nofun⟩
    have hinitial : (c.node i).initialVoters = c.voters := c.node_initialVoters hi
    refine ⟨ht, hinitial, rfl, rfl, ?_⟩
    exact Prod.ext hinitial.symm rfl
  | step _ hall hstep ih =>
    obtain ⟨rfl, rfl⟩ := List.cons.inj hws
    obtain ⟨hd, hs⟩ := ih rfl
    exact step_derived hd hs hall hstep

/-- Without compaction the voters of every node, and the index it keeps with them, are those
of the last configuration in its log, whatever it has truncated, adopted or lost. -/
theorem configuration_derived (ht : c.config.snapshotThreshold = 0)
    (hr : Run c AnyChange (w :: past)) : ∀ i ∈ c.ids,
    c.Governing (w.nodes i).log (w.nodes i).voters (w.nodes i).configIndex := by
  intro i hi
  have hgov := scan_governing c (w.nodes i).log
  rwa [((run_derived ht hr).1 i hi).scan] at hgov

/-- Node 0 removes node 2 on its own log only; the entry of the next leader replaces that. -/
def removalUndone : List World := Run.follow trio AnyChange [World.init trio]
  [.electionTimeout 0 1, .deliver 0, .deliver 2, .clientCommand 0 "a".toList, .deliver 5,
    .deliver 7, .changeConfig 0 [0, 1], .electionTimeout 1 4, .deliver 10, .deliver 11, .deliver 9,
    .deliver 12, .clientCommand 1 "b".toList, .deliver 16]

theorem removal_undone_derived : ∃ w past, Run trio AnyChange (w :: past) ∧
    (past.head?.map fun v => ((v.nodes 0).voters, (v.nodes 0).configIndex)) = some ([0, 1], 2) ∧
    ((w.nodes 0).voters, (w.nodes 0).configIndex) = ([0, 1, 2], 0) ∧
    trio.Governing (w.nodes 0).log (w.nodes 0).voters (w.nodes 0).configIndex := by
  have hr : Run trio AnyChange removalUndone := Run.follow_run .init _
  have hw : (removalUndone.take 2).map (fun w => ((w.nodes 0).voters, (w.nodes 0).configIndex)) =
      [([0, 1, 2], 0), ([0, 1], 2)] := by decide +kernel
  obtain ⟨w, past, hws⟩ := hr.exists_cons
  rw [hws] at hr hw
  refine ⟨w, past, hr, ?_, ?_, configuration_derived rfl hr 0 (by decide)⟩
  · cases past with
    | nil => simp at hw
    | cons v past =>
      simp only [List.take, List.map, List.cons.injEq, and_true] at hw
      exact congrArg some hw.2
  · cases past with
    | nil => simp at hw
    | cons v past =>
      simp only [List.take, List.map, List.cons.injEq, and_true] at hw
      exact hw.1

end RaftVerified
