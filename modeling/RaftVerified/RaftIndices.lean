import RaftVerified.RaftStrict
import RaftVerified.RaftCommitQuorum
import RaftVerified.RaftReadIndex
import RaftVerified.RaftRedelivery

/-! What a leader keeps of its peers stays within its log, so that no callback reads the log at an
index that it does not have. -/
namespace RaftVerified
open Consensus

variable {c : Setup} {a : Protocol} {i : NodeId} {n m : RaftNode} {x y : Exec} {w : World}
  {ws past : List World}

/-- The fields that say where a leader is with its peers, and those that never change. -/
def RaftNode.tracking (n : RaftNode) :=
  (n.id, n.peers, n.config, n.baseIndex, n.log, n.role, n.nextIndex, n.matchIndex)

/-- The next index of every peer of a leader is one the leader can send from. -/
structure InReach (c : Setup) (i : NodeId) (n : RaftNode) : Prop where
  id : n.id = i
  peers : n.peers = (c.node i).peers
  config : n.config = c.config
  flat : n.baseIndex = 0
  bounds : n.role = .leader → ∀ v k, n.nextIndex.lookup v = some k →
    1 ≤ k ∧ k ≤ n.lastLogIndex+1
  known : n.role = .leader → ∀ v ∈ c.ids, v ≠ i → ∃ k, n.nextIndex.lookup v = some k
  counted : n.role = .leader → ∀ v ∈ c.ids, v ≠ i → ∃ k, n.matchIndex.lookup v = some k

theorem lastLogIndex_of_tracking (h : m.tracking = n.tracking) :
    m.lastLogIndex = n.lastLogIndex := by
  simp only [RaftNode.tracking, Prod.mk.injEq] at h
  obtain ⟨-, -, -, hb, hl, -⟩ := h
  rw [RaftNode.lastLogIndex, RaftNode.lastLogIndex, hb, hl]

theorem InReach.congr (h : InReach c i n) (hm : m.tracking = n.tracking) : InReach c i m := by
  have hlast := lastLogIndex_of_tracking hm
  simp only [RaftNode.tracking, Prod.mk.injEq] at hm
  obtain ⟨hid, hp, hc, hb, -, hr, hn, hmatch⟩ := hm
  refine ⟨hid.trans h.id, hp.trans h.peers, hc.trans h.config, hb.trans h.flat, ?_, ?_, ?_⟩
  · rw [hr, hn, hlast]
    exact h.bounds
  · rw [hr, hn]
    exact h.known
  · rw [hr, hmatch]
    exact h.counted

/-- A node that does not lead keeps nothing of its peers. -/
theorem InReach.aside (h : InReach c i n) (hm : (m.id, m.peers, m.config, m.baseIndex) =
    (n.id, n.peers, n.config, n.baseIndex)) (hr : m.role ≠ .leader) : InReach c i m := by
  simp only [Prod.mk.injEq] at hm
  obtain ⟨hid, hp, hc, hb⟩ := hm
  exact ⟨hid.trans h.id, hp.trans h.peers, hc.trans h.config, hb.trans h.flat,
    fun hl => absurd hl hr, fun hl => absurd hl hr, fun hl => absurd hl hr⟩

/-! ### Indices of the log -/

/-- Both calls return, with the same result. -/
def Returns {α : Type} (s t : Except PyError α) (P : α → Prop) : Prop :=
  ∃ y, s = .ok y ∧ t = .ok y ∧ P y

theorem Returns.ok {α : Type} {P : α → Prop} {y : α} (h : P y) :
    Returns (.ok y) (.ok y) P := ⟨y, rfl, rfl, h⟩

theorem Returns.bind {α β : Type} {s t : Except PyError α} {P : α → Prop} {Q : β → Prop}
    {f g : α → Except PyError β} (h : Returns s t P) (hf : ∀ y, P y → Returns (f y) (g y) Q) :
    Returns (s >>= f) (t >>= g) Q := by
  obtain ⟨y, rfl, rfl, hy⟩ := h
  exact hf y hy

theorem Returns.mono {α : Type} {s t : Except PyError α} {P Q : α → Prop} (h : Returns s t P)
    (hPQ : ∀ y, P y → Q y) : Returns s t Q := by
  obtain ⟨y, hs, ht, hy⟩ := h
  exact ⟨y, hs, ht, hPQ y hy⟩

theorem termAt_returns {k : ℕ} (hb : n.baseIndex ≤ k) (hk : k ≤ n.lastLogIndex) :
    Returns (Strict.termAt n k) (n.termAt k) fun _ => True := by
  rw [Strict.termAt_eq hb hk]
  rcases Nat.lt_or_ge n.baseIndex k with hlt | hge
  · rw [RaftNode.lastLogIndex] at hk
    have hget := List.getElem?_eq_getElem (show k-n.baseIndex-1 < n.log.length by omega)
    rw [RaftNode.termAt_log hlt, (RaftNode.entryAt_log hlt).mpr hget]
    exact Returns.ok trivial
  · rw [(RaftNode.termAt_base hge).mpr rfl]
    exact Returns.ok trivial

theorem entryAt_returns {k : ℕ} (hb : n.baseIndex ≤ k) (hk : k < n.lastLogIndex) :
    Returns (Strict.entryAt n (k+1 : ℕ)) (n.entryAt (k+1)) fun _ => True := by
  rw [Strict.entryAt_eq (Nat.lt_succ_of_le hb) hk]
  rw [RaftNode.lastLogIndex] at hk
  have hget := List.getElem?_eq_getElem (show k+1-n.baseIndex-1 < n.log.length by omega)
  rw [(RaftNode.entryAt_log (Nat.lt_succ_of_le hb)).mpr hget]
  exact Returns.ok trivial

/-! ### Sending -/

theorem sendAppendEntries_returns {peer : NodeId} (h : InReach c i x.node)
    (hr : x.node.role = .leader) (hp : ∃ k, x.node.nextIndex.lookup peer = some k) :
    Returns (Strict.sendAppendEntries x peer) (x.sendAppendEntries peer)
      fun y => y.node = x.node := by
  obtain ⟨next, hnext⟩ := hp
  obtain ⟨h1, h2⟩ := h.bounds hr peer next hnext
  obtain ⟨prev, rfl⟩ : ∃ prev, next = prev+1 := ⟨next-1, by omega⟩
  obtain ⟨t, hs, ht, -⟩ := termAt_returns (h.flat.trans_le (Nat.zero_le _))
    (show prev ≤ x.node.lastLogIndex by omega)
  have hcast : ((prev+1 : ℕ) : ℤ)-1 = prev := by omega
  unfold Strict.sendAppendEntries Exec.sendAppendEntries
  rw [hnext]
  dsimp only
  rw [hcast, Nat.add_sub_cancel, h.flat, if_neg (by omega), if_neg (by omega), hs, ht]
  exact Returns.ok rfl

theorem broadcastTo_returns {ps : List NodeId} (h : InReach c i x.node)
    (hr : x.node.role = .leader) (hp : ∀ p ∈ ps, p ∈ c.ids ∧ p ≠ i) :
    Returns (Strict.broadcastTo x ps) (x.broadcastTo ps) fun y => y.node = x.node := by
  induction ps generalizing x with
  | nil => exact Returns.ok rfl
  | cons p rest ih =>
    obtain ⟨hids, hne⟩ := hp p List.mem_cons_self
    refine (sendAppendEntries_returns h hr (h.known hr p hids hne)).bind fun y hy => ?_
    rw [← hy] at h hr ⊢
    exact ih h hr fun q hq => hp q (List.mem_cons_of_mem _ hq)

theorem broadcastHeartbeats_returns (h : InReach c i x.node) (hr : x.node.role = .leader)
    (hv : ∀ v ∈ x.node.voters, v ∈ c.ids) :
    Returns (Strict.broadcastHeartbeats x) x.broadcastHeartbeats fun y => y.node = x.node := by
  refine broadcastTo_returns h hr fun p hp => ?_
  obtain ⟨hmem, hne⟩ := List.mem_filter.mp hp
  rw [h.id, decide_eq_true_eq] at hne
  exact ⟨hv p hmem, hne⟩

/-! ### Applying -/

theorem applyNext_returns (hb : x.node.baseIndex ≤ x.node.lastApplied)
    (hk : x.node.lastApplied < x.node.lastLogIndex) :
    Returns (Strict.applyNext x) x.applyNext fun y => y.node.tracking = x.node.tracking ∧
      y.node.lastApplied = x.node.lastApplied+1 := by
  obtain ⟨e, hs, ht, -⟩ := entryAt_returns hb hk
  unfold Strict.applyNext Exec.applyNext
  dsimp only
  rw [hs, ht]
  exact Returns.ok ⟨rfl, rfl⟩

theorem applyLoop_returns (k : ℕ) (hb : x.node.baseIndex ≤ x.node.lastApplied)
    (hk : 0 < k → x.node.lastApplied+k ≤ x.node.lastLogIndex) :
    Returns (Strict.applyLoop x k) (x.applyLoop k)
      fun y => y.node.tracking = x.node.tracking := by
  induction k generalizing x with
  | zero => exact Returns.ok rfl
  | succ k ih =>
    refine (applyNext_returns hb (by omega)).bind fun y hy => ?_
    obtain ⟨hy, ha⟩ := hy
    have hyb : y.node.baseIndex = x.node.baseIndex := congrArg (·.2.2.2.1) hy
    refine (ih (by omega) ?_).mono fun z hz => hz.trans hy
    rw [ha, lastLogIndex_of_tracking hy]
    omega

theorem maybeCompact_returns (ht : x.node.config.snapshotThreshold ≤ 0) :
    Returns (Strict.maybeCompact x) x.maybeCompact fun y => y.node = x.node := by
  unfold Strict.maybeCompact Exec.maybeCompact
  dsimp only
  rw [if_pos (Or.inl ht), if_pos (Or.inl ht)]
  exact Returns.ok rfl

theorem setCommitIndex_returns {index : ℕ} (hb : x.node.baseIndex = 0)
    (ht : x.node.config.snapshotThreshold ≤ 0)
    (hi : x.node.commitIndex < index → index ≤ x.node.lastLogIndex) :
    Returns (Strict.setCommitIndex x index) (x.setCommitIndex index)
      fun y => y.node.tracking = x.node.tracking := by
  unfold Strict.setCommitIndex Exec.setCommitIndex
  split
  · exact Returns.ok rfl
  · have hle := hi (by omega)
    let z : Exec :=
      (x.set { x.node with commitIndex := index }).record (.commit x.node.id index)
    have happly := applyLoop_returns (x := z) (index-x.node.lastApplied)
        (hb.trans_le (Nat.zero_le _)) fun hpos => by
      change x.node.lastApplied+(index-x.node.lastApplied) ≤ x.node.lastLogIndex
      omega
    refine happly.bind fun y hy => ?_
    have hcfg : y.node.config = x.node.config := congrArg (·.2.2.1) hy
    refine (maybeCompact_returns (by rwa [hcfg])).mono fun v hv => ?_
    rw [hv]
    exact hy

theorem advanceCommitFrom_returns (k : ℕ) (h : InReach c i x.node)
    (ht : c.config.snapshotThreshold ≤ 0) (hk : k ≤ x.node.lastLogIndex) :
    Returns (Strict.advanceCommitFrom x k) (x.advanceCommitFrom k)
      fun y => InReach c i y.node := by
  induction k with
  | zero => exact Returns.ok h
  | succ k ih =>
    unfold Strict.advanceCommitFrom Exec.advanceCommitFrom
    split
    · exact Returns.ok h
    · refine (termAt_returns (h.flat.trans_le (Nat.zero_le _)) hk).bind fun t _ => ?_
      split
      · exact Returns.ok h
      split
      · refine (setCommitIndex_returns h.flat (by rwa [h.config]) fun _ => hk).bind fun y hy => ?_
        exact Returns.ok (h.congr (m := { y.node with committedThisTerm := true }) hy)
      · exact ih (by omega)

/-! ### Elections -/

theorem InReach.lead (h : InReach c i n) : InReach c i n.lead where
  id := h.id
  peers := h.peers
  config := h.config
  flat := h.flat
  bounds _ v k hk := by
    change (Dict.fromKeys n.peers (n.lastLogIndex+1)).lookup v = some k at hk
    rw [Dict.lookup_fromKeys] at hk
    split at hk
    · obtain rfl := Option.some.inj hk
      exact ⟨by omega, le_rfl⟩
    · cases hk
  known _ v hv hne := by
    refine ⟨n.lastLogIndex+1, ?_⟩
    change (Dict.fromKeys n.peers (n.lastLogIndex+1)).lookup v = _
    rw [Dict.lookup_fromKeys, if_pos]
    rw [h.peers]
    exact (List.mem_insertionSort _).mpr (List.mem_filter.mpr ⟨hv, decide_eq_true hne⟩)
  counted _ v hv hne := by
    change ∃ k, ((Dict.fromKeys n.peers 0).insert n.id n.lastLogIndex).lookup v = some k
    rw [Dict.lookup_insert_eq]
    split
    · exact ⟨_, rfl⟩
    · rw [Dict.lookup_fromKeys, if_pos]
      · exact ⟨_, rfl⟩
      · rw [h.peers]
        exact (List.mem_insertionSort _).mpr (List.mem_filter.mpr ⟨hv, decide_eq_true hne⟩)

theorem becomeLeader_returns (h : InReach c i x.node) (hv : ∀ v ∈ x.node.voters, v ∈ c.ids) :
    Returns (Strict.becomeLeader x) x.becomeLeader fun y => InReach c i y.node := by
  let z : Exec := (x.record (.role x.node.id .leader x.node.term)).set x.node.lead
  have hz : InReach c i z.node := h.lead
  refine (broadcastHeartbeats_returns hz rfl hv).bind fun y hy => Returns.ok ?_
  rw [← hy] at hz
  exact hz.congr rfl

theorem maybeWin_returns (h : InReach c i x.node) (hv : ∀ v ∈ x.node.voters, v ∈ c.ids) :
    Returns (Strict.maybeWin x) x.maybeWin fun y => InReach c i y.node := by
  unfold Strict.maybeWin Exec.maybeWin
  dsimp only
  split
  · exact becomeLeader_returns h hv
  · exact Returns.ok h

theorem startElection_returns (h : InReach c i x.node) (hv : ∀ v ∈ x.node.voters, v ∈ c.ids) :
    Returns (Strict.startElection x) x.startElection fun y => InReach c i y.node := by
  unfold Strict.startElection Exec.startElection
  split
  · exact Returns.ok (h.congr rfl)
  · have hs : InReach c i x.stand.node := h.aside rfl nofun
    refine (termAt_returns (Nat.le_add_right _ _) le_rfl).bind fun t _ => ?_
    exact maybeWin_returns (x := x.stand.sendAll _ _) hs hv

theorem onElectionTimeout_returns (h : InReach c i x.node)
    (hv : ∀ v ∈ x.node.voters, v ∈ c.ids) (seq : ℕ) :
    Returns (Strict.onElectionTimeout x seq) (x.onElectionTimeout seq)
      fun y => InReach c i y.node := by
  unfold Strict.onElectionTimeout Exec.onElectionTimeout
  split
  · exact Returns.ok h
  · exact startElection_returns (x := x.record _) h hv

theorem onHeartbeat_returns (h : InReach c i x.node) (hv : ∀ v ∈ x.node.voters, v ∈ c.ids)
    (seq : ℕ) :
    Returns (Strict.onHeartbeat x seq) (x.onHeartbeat seq) fun y => InReach c i y.node := by
  unfold Strict.onHeartbeat Exec.onHeartbeat
  split
  · exact Returns.ok h
  next hlive =>
    have hr : x.node.role = .leader := by
      push Not at hlive
      exact hlive.2.2
    refine (broadcastHeartbeats_returns h hr hv).bind fun y hy => Returns.ok ?_
    rw [← hy] at h
    exact h.congr rfl

/-! ### Clients -/

/-- The leader's log only grows. -/
theorem InReach.grow (h : InReach c i n) (hm : (m.id, m.peers, m.config, m.baseIndex, m.role,
    m.nextIndex) = (n.id, n.peers, n.config, n.baseIndex, n.role, n.nextIndex))
    (hl : n.lastLogIndex ≤ m.lastLogIndex)
    (hc : ∀ v k, n.matchIndex.lookup v = some k → ∃ k', m.matchIndex.lookup v = some k') :
    InReach c i m := by
  simp only [Prod.mk.injEq] at hm
  obtain ⟨hid, hp, hcfg, hb, hr, hn⟩ := hm
  refine ⟨hid.trans h.id, hp.trans h.peers, hcfg.trans h.config, hb.trans h.flat, ?_, ?_, ?_⟩
  · rw [hr, hn]
    intro hlead v k hk
    have hle := h.bounds hlead v k hk
    omega
  · rw [hr, hn]
    exact h.known
  · rw [hr]
    intro hlead v hv hne
    obtain ⟨k, hk⟩ := h.counted hlead v hv hne
    exact hc v k hk

theorem replicate_returns (h : InReach c i x.node) (hr : x.node.role = .leader)
    (hv : ∀ v ∈ x.node.voters, v ∈ c.ids) (command : Str) :
    Returns (Strict.replicate x command) (x.replicate command) fun y => InReach c i y.node := by
  let n := (x.node.appendOwn command).countOwn
  have hn : InReach c i n := by
    refine h.grow rfl ?_ fun v k hk => ?_
    · change x.node.baseIndex+x.node.log.length ≤ x.node.baseIndex+(x.node.log ++ [_]).length
      rw [List.length_append]
      omega
    · change ∃ k', (x.node.matchIndex.insert _ _).lookup v = some k'
      rw [Dict.lookup_insert_eq]
      split
      · exact ⟨_, rfl⟩
      · exact ⟨k, hk⟩
  let z : Exec := (x.set n).record (.append n.id n.lastLogIndex n.term command)
  refine (broadcastHeartbeats_returns (x := z) hn hr hv).mono fun y hy => ?_
  rw [hy]
  exact hn

theorem clientCommand_returns (h : InReach c i x.node) (hv : ∀ v ∈ x.node.voters, v ∈ c.ids)
    (command : Str) :
    Returns (Strict.clientCommand x command) (x.clientCommand command)
      fun y => InReach c i y.1.node := by
  unfold Strict.clientCommand Exec.clientCommand
  split
  · exact Returns.ok h
  next hlead =>
    push Not at hlead
    dsimp only
    split
    · exact Returns.ok h
    · have hnote : (x.noteRequest (Command.decode command)).node.tracking = x.node.tracking ∧
          (x.noteRequest (Command.decode command)).node.voters = x.node.voters := by
        unfold Exec.noteRequest
        split <;> exact ⟨rfl, rfl⟩
      have hrole : (x.noteRequest (Command.decode command)).node.role = x.node.role :=
        congrArg (·.2.2.2.2.2.1) hnote.1
      refine (replicate_returns (h.congr hnote.1) (hrole.trans hlead.1) ?_ command).bind
        fun y hy => Returns.ok hy
      rw [hnote.2]
      exact hv

/-! ### Messages -/

theorem becomeFollower_inReach (h : InReach c i x.node) (term : ℕ) :
    InReach c i (x.becomeFollower term).node := by
  unfold Exec.becomeFollower
  dsimp only
  split <;> exact h.aside rfl nofun

theorem catchUp_inReach (h : InReach c i x.node) (term : ℕ) :
    InReach c i (x.catchUp term).node := by
  unfold Exec.catchUp
  split
  · exact becomeFollower_inReach h term
  · exact h

theorem grants_returns (n : RaftNode) (msg : RequestVote) :
    Returns (Strict.grants n msg) (Exec.grants n msg) fun _ => True := by
  unfold Strict.grants Exec.grants
  split
  · exact (termAt_returns (Nat.le_add_right _ _) le_rfl).bind fun _ _ => Returns.ok trivial
  · exact Returns.ok trivial

theorem onRequestVote_returns (h : InReach c i x.node) (msg : RequestVote) :
    Returns (Strict.onRequestVote x msg) (x.onRequestVote msg) fun y => InReach c i y.node := by
  have hx := catchUp_inReach h msg.term
  refine (grants_returns _ msg).bind fun granted _ => Returns.ok ?_
  cases granted with
  | false => exact hx
  | true => exact hx.congr rfl

theorem onVoteReply_returns (h : InReach c i x.node) (hv : ∀ v ∈ x.node.voters, v ∈ c.ids)
    (msg : VoteReply) :
    Returns (Strict.onVoteReply x msg) (x.onVoteReply msg) fun y => InReach c i y.node := by
  unfold Strict.onVoteReply Exec.onVoteReply
  split
  · exact Returns.ok (becomeFollower_inReach h msg.term)
  split
  · exact Returns.ok h
  · exact maybeWin_returns (x := x.set _) (h.congr rfl) hv

theorem truncateFrom_length (hb : n.baseIndex = 0) {k : ℕ} (hk : k < n.lastLogIndex) :
    (n.truncateFrom (k+1)).lastLogIndex = k := by
  have hphys : n.phys (k+1) = (k : ℤ) := by
    rw [RaftNode.phys, hb]
    omega
  rw [RaftNode.lastLogIndex_flat hb] at hk
  have hlog : (n.truncateFrom (k+1)).log = n.log.take k := by
    unfold RaftNode.truncateFrom
    rw [hphys, delFrom_of_nonneg]
    split <;> rfl
  have hbase : (n.truncateFrom (k+1)).baseIndex = 0 := by
    unfold RaftNode.truncateFrom
    split <;> exact hb
  rw [RaftNode.lastLogIndex, hbase, hlog, List.length_take]
  omega

theorem appendEntry_returns (hb : n.baseIndex = 0) {k : ℕ} (hk : k ≤ n.lastLogIndex)
    (entry : Entry) :
    Returns (Strict.appendEntry n (k+1) entry) (n.appendEntry (k+1) entry)
      fun m => n.Edited m ∧ k+1 ≤ m.lastLogIndex := by
  rw [Strict.appendEntry_eq (hb.trans_le (Nat.zero_le k))]
  unfold RaftNode.appendEntry
  have hpush (m : RaftNode) : (m.pushEntry (k+1) entry).lastLogIndex = m.lastLogIndex+1 := by
    unfold RaftNode.pushEntry
    split <;> exact (congrArg (m.baseIndex + ·) (List.length_append)).trans (Nat.add_assoc ..).symm
  split
  next hle =>
    obtain ⟨t, -, ht, -⟩ := termAt_returns (hb.trans_le (Nat.zero_le _)) hle
    rw [ht]
    dsimp only [bind, Except.bind]
    split
    · refine Returns.ok ⟨?_, ?_⟩
      · exact (RaftNode.truncateFrom_edited n _).trans (RaftNode.pushEntry_edited _ _ _)
      · rw [hpush, truncateFrom_length hb hle]
    · exact Returns.ok ⟨RaftNode.Edited.refl n, hle⟩
  next =>
    refine Returns.ok ⟨RaftNode.pushEntry_edited n _ _, ?_⟩
    rw [hpush]
    omega

theorem appendLoop_returns (entries : List Entry) (hb : n.baseIndex = 0) {k : ℕ}
    (hk : k ≤ n.lastLogIndex) :
    Returns (Strict.appendLoop n k entries) (n.appendLoop k entries)
      fun m => n.Edited m ∧ k+entries.length ≤ m.lastLogIndex := by
  induction entries generalizing n k with
  | nil => exact Returns.ok ⟨RaftNode.Edited.refl n, hk⟩
  | cons entry rest ih =>
    refine (appendEntry_returns hb hk entry).bind fun m hm => ?_
    obtain ⟨hedit, hlen⟩ := hm
    have hmb : m.baseIndex = 0 := by
      obtain ⟨_, _, _, _, rfl⟩ := hedit
      exact hb
    refine (ih hmb hlen).mono fun z hz => ⟨hedit.trans hz.1, ?_⟩
    rw [List.length_cons]
    omega

theorem inconsistent_returns {msg : AppendEntries} (hb : n.baseIndex ≤ msg.prevIndex) :
    Returns (Strict.inconsistent n msg) (Exec.inconsistent n msg)
      fun refused => refused = false → msg.prevIndex ≤ n.lastLogIndex := by
  have hmis : Returns (Strict.termMismatch n msg) (Exec.termMismatch n msg) fun _ => True := by
    unfold Strict.termMismatch Exec.termMismatch
    split
    · exact Returns.ok trivial
    next hle =>
      obtain ⟨t, hs, ht, -⟩ := termAt_returns hb (not_lt.mp hle)
      rw [hs, ht]
      exact Returns.ok trivial
  refine hmis.bind fun mismatch _ => Returns.ok fun hrefused => ?_
  have hno := of_decide_eq_false hrefused
  by_contra hlt
  exact hno ⟨by omega, Or.inl (by omega)⟩

theorem followCommit_returns (h : InReach c i x.node) (ht : c.config.snapshotThreshold ≤ 0)
    {leaderCommit matchIndex : ℕ} (hm : matchIndex ≤ x.node.lastLogIndex) :
    Returns (Strict.followCommit x leaderCommit matchIndex)
      (x.followCommit leaderCommit matchIndex) fun y => InReach c i y.node := by
  unfold Strict.followCommit Exec.followCommit
  split
  · exact Returns.ok (h.congr rfl)
  split
  · refine (setCommitIndex_returns h.flat (by rwa [h.config]) ?_).mono fun y hy => h.congr hy
    intro hlt
    omega
  · exact Returns.ok h

theorem appendFromLeader_returns (h : InReach c i x.node) (ht : c.config.snapshotThreshold ≤ 0)
    (hr : x.node.role ≠ .leader) (msg : AppendEntries) :
    Returns (Strict.appendFromLeader x msg) (x.appendFromLeader msg)
      fun y => InReach c i y.node := by
  have hflat := h.flat.trans_le (Nat.zero_le msg.prevIndex)
  refine (inconsistent_returns hflat).bind fun refused hprev => ?_
  cases refused with
  | true => exact Returns.ok h
  | false =>
    refine (appendLoop_returns msg.entries h.flat (hprev rfl)).bind fun n hn => ?_
    obtain ⟨hedit, hlen⟩ := hn
    have hnr : InReach c i n := by
      obtain ⟨_, _, _, _, rfl⟩ := hedit
      exact h.aside rfl hr
    exact (followCommit_returns (x := x.set n) hnr ht hlen).bind fun y hy => Returns.ok hy

theorem InReach.heed (h : InReach c i x.node) (leader : NodeId) :
    InReach c i (x.heed leader).node := h.congr rfl

theorem onAppendEntries_returns (h : InReach c i x.node) (ht : c.config.snapshotThreshold ≤ 0)
    (msg : AppendEntries) :
    Returns (Strict.onAppendEntries x msg) (x.onAppendEntries msg)
      fun y => InReach c i y.node := by
  have hx := catchUp_inReach h msg.term
  unfold Strict.onAppendEntries Exec.onAppendEntries
  generalize x.catchUp msg.term = x' at hx ⊢
  dsimp only
  split
  · exact Returns.ok hx
  have hstep : InReach c i (if x'.node.role ≠ .follower then x'.becomeFollower msg.term
      else x').node ∧ (if x'.node.role ≠ .follower then x'.becomeFollower msg.term
      else x').node.role = .follower := by
    split
    · exact ⟨becomeFollower_inReach hx msg.term, Exec.becomeFollower_role x' msg.term⟩
    next hr => exact ⟨hx, not_not.mp hr⟩
  generalize (if x'.node.role ≠ .follower then x'.becomeFollower msg.term else x') = z at hstep ⊢
  obtain ⟨hz, hrole⟩ := hstep
  refine appendFromLeader_returns (hz.heed msg.leader) ht ?_ msg
  have hsame : (z.heed msg.leader).node.role = z.node.role := rfl
  rw [hsame, hrole]
  nofun

/-- A leader gives a peer another next index that it can send from. -/
theorem InReach.setNext (h : InReach c i n) {peer : NodeId} {next : ℕ}
    (hm : (m.id, m.peers, m.config, m.baseIndex, m.log, m.role) =
      (n.id, n.peers, n.config, n.baseIndex, n.log, n.role))
    (hn : m.nextIndex = n.nextIndex.insert peer next)
    (hnext : n.role = .leader → 1 ≤ next ∧ next ≤ n.lastLogIndex+1)
    (hc : ∀ v k, n.matchIndex.lookup v = some k → ∃ k', m.matchIndex.lookup v = some k') :
    InReach c i m := by
  simp only [Prod.mk.injEq] at hm
  obtain ⟨hid, hp, hcfg, hb, hl, hr⟩ := hm
  refine ⟨hid.trans h.id, hp.trans h.peers, hcfg.trans h.config, hb.trans h.flat, ?_, ?_, ?_⟩
  · rw [hr, hn, RaftNode.lastLogIndex, hb, hl]
    intro hlead v k hk
    rw [Dict.lookup_insert_eq] at hk
    split at hk
    · obtain rfl := Option.some.inj hk
      exact hnext hlead
    · exact h.bounds hlead v k hk
  · rw [hr, hn]
    intro hlead v hv hne
    rw [Dict.lookup_insert_eq]
    split
    · exact ⟨_, rfl⟩
    · exact h.known hlead v hv hne
  · rw [hr]
    intro hlead v hv hne
    obtain ⟨k, hk⟩ := h.counted hlead v hv hne
    exact hc v k hk

/-- What a leader assumes of a peer that it does not know. -/
theorem InReach.getD_next (h : InReach c i n) (hr : n.role = .leader) (peer : NodeId) :
    1 ≤ (n.nextIndex.lookup peer).getD 1 ∧
      (n.nextIndex.lookup peer).getD 1 ≤ n.lastLogIndex+1 := by
  cases hn : n.nextIndex.lookup peer with
  | none => exact ⟨le_rfl, by rw [Option.getD_none]; omega⟩
  | some k => exact h.bounds hr peer k hn

theorem InReach.ackAppend (h : InReach c i n) {msg : AppendReply}
    (hm : n.role = .leader → msg.matchIndex ≤ n.lastLogIndex) :
    InReach c i (n.ackAppend msg) := by
  refine h.setNext rfl rfl (fun hr => ?_) fun v k hk => ?_
  · have hnext := h.getD_next hr msg.follower
    have hmatch := hm hr
    omega
  · change ∃ k', (n.matchIndex.insert _ _).lookup v = some k'
    rw [Dict.lookup_insert_eq]
    split
    · exact ⟨_, rfl⟩
    · exact ⟨k, hk⟩

theorem InReach.backOff (h : InReach c i n) (msg : AppendReply) :
    InReach c i (n.backOff msg) := by
  refine h.setNext rfl rfl (fun hr => ?_) fun v k hk => ⟨k, hk⟩
  have hnext := h.getD_next hr msg.follower
  omega

theorem onAppendReply_returns (h : InReach c i x.node) (ht : c.config.snapshotThreshold ≤ 0)
    {msg : AppendReply} (hm : msg.success = true → x.node.role = .leader →
      x.node.term = msg.term → msg.matchIndex ≤ x.node.lastLogIndex) :
    Returns (Strict.onAppendReply x msg) (x.onAppendReply msg) fun y => InReach c i y.node := by
  unfold Strict.onAppendReply Exec.onAppendReply
  split
  · exact Returns.ok (becomeFollower_inReach h msg.term)
  split
  · exact Returns.ok h
  next hge hlead =>
    push Not at hlead
    split
    next hs =>
      have hack := h.ackAppend fun hr => hm hs hr (by omega)
      exact advanceCommitFrom_returns _ hack ht le_rfl
    next =>
      have hback := h.backOff msg
      refine (sendAppendEntries_returns (x := x.set _) hback hlead.1 ?_).mono fun y hy => ?_
      · exact ⟨_, Finmap.lookup_insert _⟩
      · rw [hy]
        exact hback

theorem tryServeRead_inReach (h : InReach c i x.node) (readId : ℕ) :
    InReach c i (x.tryServeRead readId).node := by
  unfold Exec.tryServeRead
  split
  · exact h
  dsimp only
  split
  · exact h.congr rfl
  · exact h

theorem onReadHeartbeat_inReach (h : InReach c i x.node) (msg : ReadHeartbeat) :
    InReach c i (x.onReadHeartbeat msg).node := by
  have hx := catchUp_inReach h msg.term
  unfold Exec.onReadHeartbeat
  generalize x.catchUp msg.term = x' at hx ⊢
  dsimp only
  split
  · exact (hx.heed msg.leader).congr rfl
  · exact hx.congr rfl

theorem onReadAck_inReach (h : InReach c i x.node) (msg : ReadAck) :
    InReach c i (x.onReadAck msg).node := by
  unfold Exec.onReadAck
  split
  · exact becomeFollower_inReach h msg.term
  split
  · exact h
  split
  · exact h
  · refine tryServeRead_inReach ?_ msg.readId
    exact h.congr rfl

theorem requestRead_inReach (h : InReach c i x.node) (command : Str) :
    InReach c i (x.requestRead command).1.node := by
  unfold Exec.requestRead
  split
  · exact h
  · refine tryServeRead_inReach ?_ _
    exact h.congr rfl

theorem handle_returns (h : InReach c i x.node) (ht : c.config.snapshotThreshold ≤ 0)
    (hv : ∀ v ∈ x.node.voters, v ∈ c.ids) {msg : Message}
    (himage : ∀ m, msg ≠ .installSnapshot m)
    (hreply : ∀ m, msg = .appendReply m → m.success = true → x.node.role = .leader →
      x.node.term = m.term → m.matchIndex ≤ x.node.lastLogIndex) :
    Returns (Strict.handle x msg) (x.handle msg) fun y => InReach c i y.node := by
  unfold Strict.handle Exec.handle
  split
  · exact Returns.ok h
  cases msg with
  | requestVote m => exact onRequestVote_returns h m
  | voteReply m => exact onVoteReply_returns h hv m
  | appendEntries m => exact onAppendEntries_returns h ht m
  | appendReply m => exact onAppendReply_returns h ht (hreply m rfl)
  | installSnapshot m => exact absurd rfl (himage m)
  | readHeartbeat m => exact Returns.ok (onReadHeartbeat_inReach h m)
  | readAck m => exact Returns.ok (onReadAck_inReach h m)

/-! ### Runs -/

/-- What the other invariants say of the node that a callback starts from. -/
structure InLog (c : Setup) (w : World) (i : NodeId) : Prop where
  voters : ∀ v ∈ (w.nodes i).voters, v ∈ c.ids
  images : ∀ p ∈ w.sent, ∀ m, p.msg ≠ .installSnapshot m
  replies : ∀ p ∈ w.sent, ∀ m, p.msg = .appendReply m → m.success = true →
    (w.nodes i).role = .leader → (w.nodes i).term = m.term →
      m.matchIndex ≤ (w.nodes i).lastLogIndex
  matched : (w.nodes i).role = .leader → ∀ v k, (w.nodes i).matchIndex.lookup v = some k →
    k ≤ (w.nodes i).lastLogIndex
  commit : (w.nodes i).commitIndex ≤ (w.nodes i).lastLogIndex

theorem Explains.inLog (h : Explains c a (w :: past)) (ht : c.config.snapshotThreshold = 0)
    (hi : i ∈ c.ids) (hv : ∀ v ∈ (w.nodes i).voters, v ∈ c.ids) : InLog c w i := by
  have hw := h.now w rfl
  have hn := hw.nodes i hi
  have hlast := RaftNode.length_logical hn.ok.base
  -- what a leader of this term has been told is within the trunk that it leads
  have htrunk (hrole : (w.nodes i).role = .leader) {v : NodeId} {t k : ℕ}
      (hk : a.acked v t k) (hterm : (w.nodes i).term = t) : k ≤ (w.nodes i).lastLogIndex := by
    have hlead := h.inv.leader i (by rw [hn.view, RaftNode.view, hrole]; rfl)
    rw [hn.view] at hlead
    have hlog : a.trunk (w.nodes i).term = (w.nodes i).logical := hlead.2
    rw [← hlast, ← hlog, hterm]
    exact (h.inv.acked_led _ _ _ hk).2
  refine ⟨hv, fun p hp m => flat_images hw ht hp m, ?_, ?_, ?_⟩
  · intro p hp m hm hs hrole hterm
    have hrel := hw.sent p hp
    rw [MsgRel, hm] at hrel
    exact htrunk hrole (hrel hs) hterm
  · intro hrole v k hk
    rcases hn.acks hrole v k hk with rfl | ⟨k', hle, hacked⟩
    · exact Nat.zero_le _
    · exact hle.trans (htrunk hrole hacked rfl)
  · rw [← hlast]
    exact hn.ok.commit_le

theorem run_inLog (hb : c.bugs = NO_BUGS) (ht : c.config.snapshotThreshold = 0)
    (hc : c.Accepted) (hr : Run c FixedVoters (w :: past)) (hi : i ∈ c.ids) : InLog c w i := by
  obtain ⟨a, ha⟩ := fixed_explained hb ht hr
  obtain ⟨b, hb⟩ := fixed_elects hr
  refine ha.inLog ht hi ?_
  rw [((hb.now w rfl).nodes i hi).fixed.voters]
  exact hc.voters_ids

theorem callback_returns (h : InReach c i (w.nodes i)) (hw : InLog c w i)
    (ht : c.config.snapshotThreshold ≤ 0) {e : Event} (he : FixedVoters (w :: past) e)  :
    Returns (Strict.callback w (w.nodes i) e) (w.callback (w.nodes i) e)
      fun y => InReach c i y.node := by
  cases e with
  | electionTimeout j seq => exact onElectionTimeout_returns (x := ⟨w.nodes i, []⟩) h hw.voters seq
  | heartbeat j seq => exact onHeartbeat_returns (x := ⟨w.nodes i, []⟩) h hw.voters seq
  | clientCommand j command =>
    obtain ⟨y, hs, hy, hk⟩ :=
      clientCommand_returns (x := ⟨w.nodes i, []⟩) h hw.voters command
    refine ⟨y.1, ?_, ?_, hk⟩
    · exact map_ok.mpr ⟨y, hs, rfl⟩
    · exact map_ok.mpr ⟨y, hy, rfl⟩
  | changeConfig j newVoters => exact he.elim
  | requestRead j command =>
    exact Returns.ok (requestRead_inReach (x := ⟨w.nodes i, []⟩) h command)
  | deliver k =>
    rw [Strict.callback, World.callback]
    cases hp : w.sent[k]? with
    | none => exact ⟨⟨w.nodes i, []⟩, rfl, rfl, h⟩
    | some p =>
      have hmem := List.mem_of_getElem? hp
      exact handle_returns (x := ⟨w.nodes i, []⟩) h ht hw.voters (hw.images p hmem)
        (hw.replies p hmem)
  | pause j => exact Returns.ok (h.aside rfl fun heq => by cases heq)
  | resume j => exact Returns.ok (h.congr rfl)

theorem run_inReach (hb : c.bugs = NO_BUGS) (ht : c.config.snapshotThreshold = 0)
    (hc : c.Accepted) (hr : Run c FixedVoters ws) :
    ∀ w, ws.head? = some w → ∀ i ∈ c.ids, InReach c i (w.nodes i) := by
  induction hr with
  | init =>
    rintro w ⟨⟩ i hi
    exact ⟨rfl, rfl, rfl, rfl, nofun, nofun, nofun⟩
  | @step w w' past e hr hall hstep ih =>
    rintro v ⟨⟩ i hi
    have hold := ih w rfl i hi
    rcases World.step_node hstep i with ⟨hsame, -⟩ | ⟨-, -, y, hy, hnode⟩
    · rw [hsame]
      exact hold
    · obtain ⟨z, -, hz, hreach⟩ := callback_returns hold (run_inLog hb ht hc hr hi) ht.le hall
      rw [hy] at hz
      obtain rfl := Except.ok.inj hz
      rw [hnode]
      exact hreach

/-- Next indices, match indices and commit indices stay within the log, and no callback reads
the log at an index that it does not have. -/
theorem indices_in_range (hb : c.bugs = NO_BUGS) (ht : c.config.snapshotThreshold = 0)
    (hc : c.Accepted) (hr : Run c FixedVoters (w :: past)) (hi : i ∈ c.ids) :
    ((w.nodes i).role = .leader → ∀ v ∈ c.ids, v ≠ i →
      (∃ k, (w.nodes i).nextIndex.lookup v = some k ∧ 1 ≤ k ∧
        k ≤ (w.nodes i).lastLogIndex+1) ∧
      ∃ k, (w.nodes i).matchIndex.lookup v = some k ∧ k ≤ (w.nodes i).lastLogIndex) ∧
    (w.nodes i).commitIndex ≤ (w.nodes i).lastLogIndex ∧
    ∀ e, FixedVoters (w :: past) e → w.target e = some i →
      ∃ y, Strict.callback w (w.nodes i) e = .ok y ∧ w.callback (w.nodes i) e = .ok y := by
  have hreach := run_inReach hb ht hc hr w rfl i hi
  have hlog := run_inLog hb ht hc hr hi
  refine ⟨fun hrole v hv hne => ⟨?_, ?_⟩, hlog.commit, fun e he _ => ?_⟩
  · obtain ⟨k, hk⟩ := hreach.known hrole v hv hne
    exact ⟨k, hk, hreach.bounds hrole v k hk⟩
  · obtain ⟨k, hk⟩ := hreach.counted hrole v hv hne
    exact ⟨k, hk, hlog.matched hrole v k hk⟩
  · obtain ⟨y, hs, hy, -⟩ := callback_returns hreach hlog ht.le he
    exact ⟨y, hs, hy⟩

theorem leader_change_in_range : ∃ w past, Run trio FixedVoters (w :: past) ∧
    (w.nodes 1).role = .leader ∧ ∃ k, (w.nodes 1).nextIndex.lookup 0 = some k ∧
      k ≤ (w.nodes 1).lastLogIndex+1 := by
  have hr : Run trio FixedVoters leaderChange := Run.follow_run .init _
  have hw : leaderChange.head?.map (fun w => (w.nodes 1).role) = some .leader := by decide +kernel
  obtain ⟨w, past, hws⟩ := hr.exists_cons
  rw [hws] at hr hw
  have hrole := Option.some.inj hw
  have hrange := (indices_in_range rfl rfl (by decide) hr (i := 1) (by decide)).1 hrole
  obtain ⟨⟨k, hk, -, hle⟩, -⟩ := hrange 0 (by decide) (by decide)
  exact ⟨w, past, hr, hrole, k, hk, hle⟩

end RaftVerified
