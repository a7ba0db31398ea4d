import RaftVerified.RaftRelation

/-! Every method of a node is some steps of its server in the protocol: first terms,
elections and what a client can ask for. -/
namespace RaftVerified
open Consensus

/-- A callback that elects, appends and commits nothing. -/
def Stays (c : Setup) (a : Protocol) (i : NodeId) (y : Exec) : Prop :=
  ∃ a', Still c.reading quorums i a a' ∧ ExecRel c a' i y

/-- A callback that ends with at most one election, append or commit. -/
def Refines (c : Setup) (a : Protocol) (i : NodeId) (y : Exec) : Prop :=
  ∃ a', Moves c.reading quorums i a a' ∧ ExecRel c a' i y

variable {c : Setup} {a a' : Protocol} {i : NodeId} {x y : Exec}

theorem Stays.refines (h : Stays c a i y) : Refines c a i y := by
  obtain ⟨a', hs, hy⟩ := h
  exact ⟨a', hs.moves, hy⟩

theorem ExecRel.stays (h : ExecRel c a i x) : Stays c a i x := ⟨a, Still.refl a, h⟩

theorem ExecRel.refines (h : ExecRel c a i x) : Refines c a i x := h.stays.refines

theorem ExecRel.set (h : ExecRel c a i x) (he : Ext a a') {n : RaftNode}
    (hn : NodeRel c a' i n) : ExecRel c a' i (x.set n) :=
  ⟨hn, fun p hp => (h.sent p hp).ext he⟩

namespace Exec

/-! ### Terms -/

theorem becomeFollower_alike (x : Exec) (term : ℕ) :
    (x.set (x.node.follow term)).Alike (x.becomeFollower term) := by
  unfold becomeFollower
  dsimp only
  split
  · exact (alike_record _ _).trans (alike_armElectionTimer _)
  · exact alike_armElectionTimer _

theorem becomeFollower_rel (hI : Inv c.reading quorums a) (h : ExecRel c a i x) {term : ℕ}
    (hle : x.node.term ≤ term) : Stays c a i (x.becomeFollower term) := by
  have hv := h.node.view
  rcases Nat.eq_or_lt_of_le hle with heq | hlt
  · have st : Step c.reading quorums i a (a.rest i x.node.commitIndex) := by
      refine .rest _ ?_
      rw [hv]
      exact le_rfl
    refine ⟨_, ⟨.single st, rfl, rfl, rfl⟩, (h.set (step_ext hI st) ?_).alike
      (becomeFollower_alike x term)⟩
    refine ⟨h.node.ok.congr rfl, h.node.settled, h.node.id, ?_, nofun, nofun, nofun⟩
    rw [State.rest_server, hv, RaftNode.follow, if_neg (by omega), ← heq]
    rfl
  · have st : Step c.reading quorums i a (a.raise i term) := by
      refine .raise _ ?_
      rw [hv]
      exact hlt
    refine ⟨_, ⟨.single st, rfl, rfl, rfl⟩, (h.set (step_ext hI st) ?_).alike
      (becomeFollower_alike x term)⟩
    refine ⟨h.node.ok.congr rfl, h.node.settled, h.node.id, ?_, nofun, nofun, nofun⟩
    rw [State.raise_server, hv, RaftNode.follow, if_pos hlt]
    rfl

@[simp] theorem becomeFollower_data (x : Exec) (term : ℕ) :
    (x.becomeFollower term).node.data = x.node.data := (becomeFollower_alike x term).data

theorem becomeFollower_ballot (x : Exec) (term : ℕ) : (x.becomeFollower term).node.ballot =
    (x.node.id, term, if x.node.term < term then none else x.node.votedFor, .follower,
      x.node.votes, x.node.matchIndex, x.node.committedThisTerm) :=
  (becomeFollower_alike x term).ballot

@[simp] theorem becomeFollower_term (x : Exec) (term : ℕ) :
    (x.becomeFollower term).node.term = term :=
  congrArg (fun b => b.2.1) (becomeFollower_ballot x term)

@[simp] theorem becomeFollower_role (x : Exec) (term : ℕ) :
    (x.becomeFollower term).node.role = .follower :=
  congrArg (fun b => b.2.2.2.1) (becomeFollower_ballot x term)

theorem catchUp_rel (hI : Inv c.reading quorums a) (h : ExecRel c a i x) (term : ℕ) :
    Stays c a i (x.catchUp term) := by
  unfold catchUp
  split
  next hlt => exact becomeFollower_rel hI h hlt.le
  next => exact h.stays

theorem catchUp_term (x : Exec) (term : ℕ) :
    (x.catchUp term).node.term = max x.node.term term := by
  unfold catchUp
  split
  next hlt => rw [becomeFollower_term, max_eq_right hlt.le]
  next hge => exact (max_eq_left (Nat.le_of_not_lt hge)).symm

@[simp] theorem catchUp_data (x : Exec) (term : ℕ) :
    (x.catchUp term).node.data = x.node.data := by
  unfold catchUp
  split
  · exact becomeFollower_data x term
  · rfl

/-- A node that makes way for the leader of `term` steps down for it, or is a follower of that
term already. -/
inductive Yields (x : Exec) (term : ℕ) : Exec → Prop
  | steps (hle : x.node.term ≤ term) : Yields x term (x.becomeFollower term)
  | follows (hterm : x.node.term = term) (hrole : x.node.role = .follower) : Yields x term x

theorem Yields.le {term : ℕ} (h : x.Yields term y) : x.node.term ≤ term := by
  cases h with
  | steps hle => exact hle
  | follows hterm _ => exact hterm.le

theorem Yields.follower {term : ℕ} (h : x.Yields term y) :
    y.node.term = term ∧ y.node.role = .follower ∧ y.node.data = x.node.data := by
  cases h with
  | steps _ => exact ⟨becomeFollower_term x term, becomeFollower_role x term,
    becomeFollower_data x term⟩
  | follows hterm hrole => exact ⟨hterm, hrole, rfl⟩

theorem onAppendEntries_cases {msg : AppendEntries} (h : x.onAppendEntries msg = .ok y) :
    (msg.term < (x.catchUp msg.term).node.term ∧
        y = (x.catchUp msg.term).replyAppend msg.leader false 0) ∨
      ∃ z, (x.catchUp msg.term).Yields msg.term z ∧
        (z.heed msg.leader).appendFromLeader msg = .ok y := by
  unfold onAppendEntries at h
  dsimp only at h
  split at h
  next hlt => exact Or.inl ⟨hlt, (Except.ok.inj h).symm⟩
  next hle =>
    have hterm := catchUp_term x msg.term
    refine Or.inr ⟨_, ?_, h⟩
    split
    next => exact .steps (not_lt.mp hle)
    next hrole => exact .follows (by omega) (not_not.mp hrole)

theorem onInstallSnapshot_cases {msg : InstallSnapshot} (h : x.onInstallSnapshot msg = .ok y) :
    (msg.term < x.node.term ∧ y = x.replyAppend msg.leader false 0) ∨
      ∃ z, x.Yields msg.term z ∧ (z.heed msg.leader).installFromLeader msg = .ok y := by
  unfold onInstallSnapshot at h
  split at h
  next hlt => exact Or.inl ⟨hlt, (Except.ok.inj h).symm⟩
  next hle =>
    refine Or.inr ⟨_, ?_, h⟩
    split
    next => exact .steps (not_lt.mp hle)
    next hstay =>
      push Not at hstay
      exact .follows (le_antisymm (not_lt.mp hle) hstay.1) hstay.2

theorem heed_alike (x : Exec) (leader : NodeId) : x.Alike (x.heed leader) :=
  (alike_set (n := { x.node with leaderId := some leader }) rfl rfl).trans
    (alike_armElectionTimer _)

end Exec

/-! ### Replication -/

namespace NodeRel
variable {n : RaftNode}

theorem leader (h : NodeRel c a i n) (hI : Inv c.reading quorums a) (hr : n.role = .leader) :
    a.Led n.term ∧ a.trunk n.term = n.logical := by
  have hl := hI.leader i (by rw [h.view, RaftNode.view, hr]; rfl)
  rw [h.view] at hl
  exact ⟨⟨i, hl.1⟩, hl.2⟩

theorem committed_settled (h : NodeRel c a i n) (hI : Inv c.reading quorums a) :
    a.Settled n.term (n.logical.take n.commitIndex) := by
  have hs := hI.commit_settled i
  rwa [h.view] at hs

theorem folded_settled (h : NodeRel c a i n) (hI : Inv c.reading quorums a) :
    a.Settled n.term n.folded := by
  refine settled_mono (h.committed_settled hI) ?_
  rw [← logical_take_base h.ok.toLayout]
  exact take_prefix_take _ (h.ok.base_le.trans h.ok.applied_le)

theorem folded_isPrefix (h : NodeRel c a i n) (hI : Inv c.reading quorums a)
    (hl : a.Led n.term) : n.folded <+: a.trunk n.term :=
  hI.settled_trunk (h.folded_settled hI) hl le_rfl

end NodeRel

namespace Exec

theorem sendAppendEntries_rel (hI : Inv c.reading quorums a) (h : ExecRel c a i x)
    (hr : x.node.role = .leader) {peer : NodeId} (hy : x.sendAppendEntries peer = .ok y) :
    ExecRel c a i y ∧ y.node = x.node := by
  obtain ⟨hl, ht⟩ := h.node.leader hI hr
  have hok := h.node.ok
  unfold sendAppendEntries at hy
  split at hy
  next => cases hy
  next next _ =>
    dsimp only at hy
    split at hy
    -- the peer is behind the base: a snapshot goes out
    next hlt =>
      obtain rfl := Except.ok.inj hy
      unfold sendInstallSnapshot
      split
      next => exact ⟨h, rfl⟩
      next snap hs =>
        obtain ⟨hf, hi⟩ := hok.snapshot snap hs
        refine ⟨h.send ⟨hl, ?_, ?_, hok.compacts snap hs, hi⟩, rfl⟩
        · change snap.folded <+: _
          rw [hf]
          exact h.node.folded_isPrefix hI hl
        · change a.Settled x.node.term snap.folded
          rw [hf]
          exact h.node.folded_settled hI
    -- otherwise a slice of the leader's log, which is the trunk of its term
    next hge =>
      obtain ⟨prevTerm, hterm, hy⟩ := bind_ok.mp hy
      obtain rfl := Except.ok.inj hy
      have hge := Nat.le_of_not_lt hge
      obtain ⟨hle, hlast⟩ := RaftNode.termAt_lastTerm hok.base hok.base_term hge hterm
      have hsuf := RaftNode.logSuffix_eq hok.base hge
      refine ⟨h.send ⟨hl, ?_, ?_, ?_, ?_, ?_⟩, rfl⟩
      · change next-1+(x.node.logSuffix (next-1+1)).length ≤ (a.trunk x.node.term).length
        rw [ht, hsuf, List.length_drop]
        omega
      · change ((a.trunk x.node.term).drop (next-1)).take (x.node.logSuffix (next-1+1)).length =
          x.node.logSuffix (next-1+1)
        rw [ht, hsuf, List.take_length]
      · change c.reading.lastTerm ((a.trunk x.node.term).take (next-1)) = prevTerm
        rw [ht, hlast]
      · change x.node.commitIndex ≤ (a.trunk x.node.term).length
        rw [ht]
        exact hok.commit_le
      · change a.Settled x.node.term ((a.trunk x.node.term).take x.node.commitIndex)
        rw [ht]
        exact h.node.committed_settled hI

theorem broadcastTo_rel (hI : Inv c.reading quorums a) (ps : List NodeId)
    (h : ExecRel c a i x) (hr : x.node.role = .leader) (hy : x.broadcastTo ps = .ok y) :
    ExecRel c a i y ∧ y.node = x.node := by
  induction ps generalizing x with
  | nil =>
    obtain rfl := Except.ok.inj hy
    exact ⟨h, rfl⟩
  | cons p ps ih =>
    obtain ⟨z, hz, hy⟩ := bind_ok.mp hy
    obtain ⟨h1, hn1⟩ := sendAppendEntries_rel hI h hr hz
    obtain ⟨h2, hn2⟩ := ih h1 (by rw [hn1, hr]) hy
    exact ⟨h2, hn2.trans hn1⟩

theorem onHeartbeat_rel (hI : Inv c.reading quorums a) (h : ExecRel c a i x) {seq : ℕ}
    (hy : x.onHeartbeat seq = .ok y) : Refines c a i y := by
  unfold onHeartbeat at hy
  split at hy
  next =>
    obtain rfl := Except.ok.inj hy
    exact h.refines
  next hg =>
    obtain ⟨z, hz, hy⟩ := bind_ok.mp hy
    obtain rfl := Except.ok.inj hy
    push Not at hg
    obtain ⟨hz, -⟩ := broadcastTo_rel hI _ h hg.2.2 hz
    exact (hz.alike (alike_armHeartbeatTimer z)).refines

/-! ### Elections -/

theorem becomeLeader_rel (hI : Inv c.reading quorums a) (h : ExecRel c a i x)
    (hr : x.node.role = .candidate)
    (hv : x.node.voters.length < (x.node.votes.filter (· ∈ x.node.voters)).card*2)
    (hy : x.becomeLeader = .ok y) : Refines c a i y := by
  have hview := h.node.view
  have hok := h.node.ok
  -- the votes make an `elect` of the abstract protocol
  have st : Step c.reading quorums i a (a.lead i) := by
    refine .elect x.node.votes ?_ ?_ ?_
    · rw [hview, RaftNode.view, hr]
      rfl
    · rw [hview]
      change elects (c.reading.conf x.node.logical) x.node.votes
      rw [← hok.governs.1, elects]
      omega
    · rw [hview]
      exact h.node.votes hr
  have hI' := inv_step hI st
  have hrel : NodeRel c (a.lead i) i x.node.lead := by
    refine ⟨hok.congr rfl, h.node.settled, h.node.id, ?_, nofun, ?_, nofun⟩
    · rw [State.lead_server, hview]
      rfl
    · intro _ v m hm
      change (((Dict.fromKeys x.node.peers 0).insert x.node.id x.node.lastLogIndex).lookup v =
        some m) at hm
      rw [Dict.lookup_insert_eq] at hm
      split at hm
      -- the leader acknowledges its own log, and nobody else's yet
      next hvi =>
        obtain rfl := Option.some.inj hm
        refine Or.inr ⟨_, le_rfl, Or.inr ⟨?_, ?_, ?_⟩⟩
        · rw [hvi, h.node.id]
        · rw [hview]
          rfl
        · rw [hview]
          exact (RaftNode.length_logical hok.base).symm
      next =>
        rw [Dict.lookup_fromKeys] at hm
        split at hm
        · exact Or.inl (Option.some.inj hm).symm
        · cases hm
  obtain ⟨z, hz, hy⟩ := bind_ok.mp hy
  obtain rfl := Except.ok.inj hy
  have h0 := h.alike (alike_record x (.role x.node.id .leader x.node.term))
  obtain ⟨hz, -⟩ := broadcastTo_rel hI' _ (h0.set (step_ext hI st) hrel) rfl hz
  exact ⟨_, moves_of_step st, hz.alike (alike_armHeartbeatTimer z)⟩

theorem maybeWin_rel (hI : Inv c.reading quorums a) (h : ExecRel c a i x)
    (hy : x.maybeWin = .ok y) : Refines c a i y := by
  unfold maybeWin at hy
  dsimp only at hy
  split at hy
  next hw => exact becomeLeader_rel hI h hw.1 hw.2 hy
  next =>
    obtain rfl := Except.ok.inj hy
    exact h.refines

theorem stand_alike (x : Exec) : (x.set x.node.campaign).Alike x.stand :=
  ((alike_record _ _).trans (alike_record _ _)).trans (alike_armElectionTimer _)

theorem startElection_rel (hI : Inv c.reading quorums a) (h : ExecRel c a i x)
    (hy : x.startElection = .ok y) : Refines c a i y := by
  have hview := h.node.view
  have hok := h.node.ok
  unfold startElection at hy
  split at hy
  -- a node outside the configuration only arms its timer
  next =>
    obtain rfl := Except.ok.inj hy
    exact (h.alike (alike_armElectionTimer x)).refines
  next =>
    obtain ⟨lastTerm, hterm, hy⟩ := bind_ok.mp hy
    have st : Step c.reading quorums i a (a.campaign i) := .campaign
    have hterm' : (a.server i).term+1 = x.node.term+1 := by rw [hview]; rfl
    have hI' := inv_step hI st
    have hrel : NodeRel c (a.campaign i) i x.node.campaign := by
      refine ⟨hok.congr rfl, h.node.settled, h.node.id, ?_, ?_, nofun, nofun⟩
      · rw [State.campaign_server, hview, ← h.node.id]
        rfl
      · intro _ v hv
        obtain rfl := Finset.mem_singleton.mp hv
        refine ⟨_, Or.inr ⟨h.node.id, hterm'.symm, rfl, rfl⟩⟩
    have h2 := (h.set (step_ext hI st) hrel).alike (stand_alike x)
    have hbase : x.node.baseIndex ≤ x.node.lastLogIndex := Nat.le_add_right _ _
    have hlast := (RaftNode.termAt_lastTerm hok.base hok.base_term hbase hterm).2
    rw [← RaftNode.length_logical hok.base, List.take_length] at hlast
    have hlog : (a.server i).log = x.node.logical := by rw [hview]; rfl
    -- what is asked for is a vote on the candidate's own log
    have hask : ∀ dst, MsgRel c (a.campaign i) ⟨i, dst, .requestVote {
        term := x.node.term+1
        candidate := x.node.id
        lastLogIndex := x.node.lastLogIndex
        lastLogTerm := lastTerm }⟩ := by
      intro dst
      refine ⟨_, Or.inr ⟨h.node.id, hterm'.symm, rfl⟩, ?_, ?_⟩
      · rw [hlog]
        exact RaftNode.length_logical hok.base
      · rw [hlog]
        exact hlast
    dsimp only at hy
    obtain ⟨a', hm, hy⟩ := maybeWin_rel hI' (ExecRel.sendAll h2 hask) hy
    exact ⟨a', Still.andThen ⟨.single st, rfl, rfl, rfl⟩ hm, hy⟩

theorem onElectionTimeout_rel (hI : Inv c.reading quorums a) (h : ExecRel c a i x) {seq : ℕ}
    (hy : x.onElectionTimeout seq = .ok y) : Refines c a i y := by
  unfold onElectionTimeout at hy
  split at hy
  next =>
    obtain rfl := Except.ok.inj hy
    exact h.refines
  next => exact startElection_rel hI (h.alike (alike_record _ _)) hy

end Exec
end RaftVerified
