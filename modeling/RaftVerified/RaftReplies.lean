import RaftVerified.RaftRequests

/-! The refinement for reads, votes, and the acknowledgements a leader counts. -/
namespace RaftVerified
open Consensus

variable {c : Setup} {a : Protocol} {i : NodeId} {x y : Exec}

/-- A callback that first does what the protocol does not see as progress. -/
theorem Stays.andThen (h : Stays c a i x)
    (hy : ∀ a', Ext a a' → Inv c.reading quorums a' → ExecRel c a' i x → Refines c a' i y)
    (hI : Inv c.reading quorums a) : Refines c a i y := by
  obtain ⟨a', hs, hx⟩ := h
  obtain ⟨hI', he⟩ := steps_inv hI hs.steps
  obtain ⟨a'', hm, hy⟩ := hy a' he hI' hx
  exact ⟨a'', hs.andThen hm, hy⟩

namespace Exec

/-! ### Reads -/

theorem tryServeRead_alike (x : Exec) (readId : ℕ) : x.Alike (x.tryServeRead readId) := by
  unfold tryServeRead
  split
  next => exact Alike.refl x
  next pending _ =>
    dsimp only
    split
    next =>
      have h1 : x.Alike (x.set (x.node.dropRead readId)) := alike_set rfl rfl
      exact (h1.trans (alike_record _ _)).trans (alike_onApply _ _ _)
    next => exact Alike.refl x

theorem requestRead_rel (h : ExecRel c a i x) (command : Str) :
    Refines c a i (x.requestRead command).1 := by
  unfold requestRead
  split
  next => exact h.refines
  next =>
    dsimp only
    have h1 := h.alike (alike_set (n := x.node.queueRead command) rfl rfl)
    refine ExecRel.refines (ExecRel.alike ?_ (tryServeRead_alike _ _))
    exact (h1.alike (alike_record _ _)).sendAll fun _ => trivial

theorem onReadHeartbeat_rel (hI : Inv c.reading quorums a) (h : ExecRel c a i x)
    (msg : ReadHeartbeat) : Refines c a i (x.onReadHeartbeat msg) := by
  refine (catchUp_rel hI h msg.term).andThen (fun a' _ _ h => ?_) hI
  unfold onReadHeartbeat
  dsimp only
  refine ExecRel.refines (ExecRel.send ?_ trivial)
  split
  · exact h.alike (heed_alike _ _)
  · exact h

theorem onReadAck_rel (hI : Inv c.reading quorums a) (h : ExecRel c a i x) (msg : ReadAck) :
    Refines c a i (x.onReadAck msg) := by
  unfold onReadAck
  split
  next hlt => exact (becomeFollower_rel hI h hlt.le).refines
  next =>
    split
    next => exact h.refines
    next pending _ =>
      split
      next => exact h.refines
      next =>
        have h1 := h.alike (alike_set (n := x.node.ackRead msg pending) rfl rfl)
        exact (h1.alike (tryServeRead_alike _ _)).refines

/-! ### Votes -/

/-- A node votes: what it knows about its own election and followers stays true. -/
theorem castVote_rel (hI : Inv c.reading quorums a) (h : ExecRel c a i x) {cand : NodeId}
    {B : List Entry} (ha : a.asked cand x.node.term B)
    (hv : x.node.votedFor = none ∨ x.node.votedFor = some cand)
    (hu : c.reading.UpToDate B x.node.logical) :
    ∃ a', Still c.reading quorums i a a' ∧ a'.voted i x.node.term cand x.node.logical ∧
      ExecRel c a' i (x.castVote cand) := by
  have hview := h.node.view
  -- the vote is a `grant` of the abstract protocol
  have st : Step c.reading quorums i a (a.grant i cand) := by
    refine .grant cand B ?_ ?_ ?_ <;> rw [hview]
    · exact ha
    · exact hv
    · exact hu
  have hx := step_ext hI st
  -- only the vote changes, and the certificates of the node stay
  have hrel : NodeRel c (a.grant i cand) i { x.node with votedFor := some cand } := by
    refine ⟨h.node.ok.congr rfl, h.node.settled, h.node.id, ?_, ?_, ?_, ?_⟩
    · rw [State.grant_server, hview]
      rfl
    · intro hr v hm
      obtain ⟨V, hV⟩ := h.node.votes hr v hm
      exact ⟨V, hx.voted _ _ _ _ hV⟩
    · intro hr v m hm
      rcases h.node.acks hr v m hm with h0 | ⟨m', hle, hack⟩
      · exact Or.inl h0
      · exact Or.inr ⟨m', hle, hx.acked _ _ _ hack⟩
    · intro hr hct
      obtain ⟨j, hj⟩ := h.node.committed hr hct
      exact ⟨j, hx.chosen _ _ _ hj⟩
  refine ⟨_, ⟨.single st, rfl, rfl, rfl⟩, Or.inr ?_, ?_⟩
  · rw [hview]
    exact ⟨rfl, rfl, rfl, rfl⟩
  · exact ((h.set hx hrel).alike (alike_record _ _)).alike (alike_armElectionTimer _)

theorem grants_upToDate {n : RaftNode} {msg : RequestVote} (hok : NodeOk c n)
    (hb : c.bugs = NO_BUGS) (hg : grants n msg = .ok true) {B : List Entry}
    (hlen : B.length = msg.lastLogIndex) (hterm : c.reading.lastTerm B = msg.lastLogTerm) :
    msg.term = n.term ∧ (n.votedFor = none ∨ n.votedFor = some msg.candidate) ∧
      c.reading.UpToDate B n.logical := by
  unfold grants at hg
  split at hg
  next hv =>
    obtain ⟨t, ht, hg⟩ := bind_ok.mp hg
    refine ⟨hv.1, hv.2, ?_⟩
    have hbase : n.baseIndex ≤ n.lastLogIndex := Nat.le_add_right _ _
    have hlast := (RaftNode.termAt_lastTerm hok.base hok.base_term hbase ht).2
    rw [← RaftNode.length_logical hok.base, List.take_length] at hlast
    have hup := Except.ok.inj hg
    rw [hok.bugs, hb] at hup
    have hup := of_decide_eq_true ((Bool.or_false _).symm.trans hup)
    rwa [← hlen, ← hterm, ← hlast, ← RaftNode.length_logical hok.base, eq_comm] at hup
  next => cases Except.ok.inj hg

theorem onRequestVote_rel (hI : Inv c.reading quorums a) (h : ExecRel c a i x)
    (hb : c.bugs = NO_BUGS) {src dst : NodeId} {msg : RequestVote}
    (hm : MsgRel c a ⟨src, dst, .requestVote msg⟩) (hy : x.onRequestVote msg = .ok y) :
    Refines c a i y := by
  refine (catchUp_rel hI h msg.term).andThen (fun a' he hI h => ?_) hI
  obtain ⟨granted, hg, hy⟩ := bind_ok.mp hy
  obtain rfl := Except.ok.inj hy
  cases granted with
  | false =>
    refine ExecRel.refines (ExecRel.send h ?_)
    exact fun hg => by cases hg
  | true =>
    obtain ⟨B, hB, hlen, hterm⟩ := hm
    obtain ⟨ht, hv, hup⟩ := grants_upToDate h.node.ok hb hg hlen hterm
    rw [ht] at hB
    obtain ⟨a'', hs, hvoted, hx⟩ := castVote_rel hI h (he.asked _ _ _ hB) hv hup
    refine Stays.refines ⟨a'', hs, hx.send fun _ => ⟨(x.catchUp msg.term).node.logical, ?_⟩⟩
    have hid : ((x.catchUp msg.term).castVote msg.candidate).node.id = i := hx.node.id
    change a''.voted ((x.catchUp msg.term).castVote msg.candidate).node.id _ _ _
    rw [hid]
    exact hvoted

theorem onVoteReply_rel (hI : Inv c.reading quorums a) (h : ExecRel c a i x) {src : NodeId}
    {msg : VoteReply} (hm : MsgRel c a ⟨src, i, .voteReply msg⟩)
    (hy : x.onVoteReply msg = .ok y) : Refines c a i y := by
  unfold onVoteReply at hy
  split at hy
  -- a newer term: step down
  next hlt =>
    obtain rfl := Except.ok.inj hy
    exact (becomeFollower_rel hI h hlt.le).refines
  next hle =>
    split at hy
    -- an old reply, or a refusal
    next =>
      obtain rfl := Except.ok.inj hy
      exact h.refines
    -- a vote of this term joins the votes, and may make the majority
    next hg =>
      push Not at hg
      obtain ⟨hr, hge, hgr⟩ := hg
      have ht : msg.term = x.node.term := by omega
      obtain ⟨V, hV⟩ := hm (Bool.eq_true_of_not_eq_false hgr)
      rw [ht] at hV
      refine maybeWin_rel hI (h.set (Ext.refl a) ?_) hy
      refine { h.node with ok := h.node.ok.congr rfl, votes := fun _ v hv => ?_ }
      rcases Finset.mem_insert.mp hv with rfl | hv
      · exact ⟨V, hV⟩
      · exact h.node.votes hr v hv

/-! ### Acknowledgements -/

/-- The leader commits the entry at `k+1`, one of its own term that a quorum holds. -/
theorem commitOwn_rel (hI : Inv c.reading quorums a) (h : ExecRel c a i x)
    (hr : x.node.role = .leader) {k : ℕ} {e : Entry} (hk : x.node.commitIndex ≤ k)
    (he : x.node.logical[k]? = some e) (ht : e.term = x.node.term)
    (hq : x.node.voters.length < x.replicas (k+1)*2) (hy : x.setCommitIndex (k+1) = .ok y) :
    Refines c a i (y.set { y.node with committedThisTerm := true }) := by
  have hview := h.node.view
  have hok := h.node.ok
  have hlen := length_lt_of_getElem? he
  obtain ⟨hoky, hsame, hcom, happ⟩ := setCommitIndex_ok hok hlen hy
  rw [max_eq_right (by omega)] at hcom
  -- the voters whose acknowledgement reaches the index are the quorum of a `choose`
  have st : Step c.reading quorums i a (a.choose i (k+1)) := by
    refine .choose k e (x.node.voters.toFinset.filter
      fun v => k+1 ≤ (x.node.matchIndex.lookup v).getD 0) ?_ ?_ ?_ ?_ ?_
    · rw [hview, RaftNode.view, hr]
      rfl
    · rw [hview]
      change commits (c.reading.conf x.node.logical) _
      rw [← hok.governs.1, commits]
      have hcount : x.node.voters.countP (· ∈ x.node.voters.toFinset.filter
          fun v => k+1 ≤ (x.node.matchIndex.lookup v).getD 0) = x.replicas (k+1) := by
        refine List.countP_congr fun v hv => ?_
        simp [hv]
      rw [hcount]
      omega
    · intro q hqm
      obtain ⟨-, hm⟩ := Finset.mem_filter.mp hqm
      rw [hview]
      cases hl : x.node.matchIndex.lookup q with
      | none =>
        rw [hl] at hm
        exact absurd hm (by simp)
      | some m =>
        rw [hl] at hm
        rcases h.node.acks hr q m hl with rfl | ⟨m', hle, hack⟩
        · exact absurd hm (by simp)
        · exact ⟨m', hm.trans hle, hack⟩
    · rw [hview]
      exact he
    · rw [hview]
      exact ht
  -- applying and compacting leave what the relation reads
  have hx := step_ext hI st
  have hbal := hsame.ballot
  simp only [RaftNode.ballot, Prod.mk.injEq] at hbal
  obtain ⟨hid, hterm, hvote, hrole, hvotes, hmatch, -⟩ := hbal
  refine ⟨_, moves_of_step st, ⟨?_, fun p hp => ?_⟩⟩
  · refine ⟨hoky.congr rfl, happ h.node.settled, hid.trans h.node.id, ?_, ?_, ?_, ?_⟩
    · rw [State.choose_server, hview]
      change _ = RaftNode.view y.node
      rw [RaftNode.view, RaftNode.view, hterm, hvote, hrole, hsame.logical, hcom]
    · intro hc
      exact absurd (hrole.symm.trans hc) (by rw [hr]; decide)
    · intro _ v m hm
      change y.node.matchIndex.lookup v = some m at hm
      change m = 0 ∨ ∃ m', m ≤ m' ∧ (a.choose i (k+1)).acked v y.node.term m'
      rw [hmatch] at hm
      rw [hterm]
      rcases h.node.acks hr v m hm with h0 | ⟨m', hle, hack⟩
      · exact Or.inl h0
      · exact Or.inr ⟨m', hle, hx.acked _ _ _ hack⟩
    · intro _ _
      change ∃ j, (a.choose i (k+1)).chosen y.node.term y.node.commitIndex j
      rw [hterm, hcom]
      exact ⟨_, Or.inr ⟨by rw [hview]; rfl, rfl, rfl⟩⟩
  · refine MsgRel.ext hx (h.sent p ?_)
    rwa [← hsame.sends i]

theorem advanceCommitFrom_rel (hI : Inv c.reading quorums a) (hb : c.bugs = NO_BUGS) (k : ℕ)
    (h : ExecRel c a i x) (hr : x.node.role = .leader) (hy : x.advanceCommitFrom k = .ok y) :
    Refines c a i y := by
  rcases advanceCommitFrom_cases k hy with rfl | ⟨n, t, z, hlt, ht, hterm, hq, hz, rfl⟩
  · exact h.refines
  rw [h.node.ok.bugs, hb] at hterm
  have hbase := h.node.ok.base_le.trans h.node.ok.applied_le
  obtain ⟨e, he, rfl⟩ := (RaftNode.termAt_eq h.node.ok.base (by omega)).mp ht
  -- without the injected defect only an entry of the own term is committed
  have hte : e.term = x.node.term := by
    by_contra hne
    exact Bool.false_ne_true (hterm hne)
  exact commitOwn_rel hI h hr (by omega) he hte hq hz

theorem onAppendReply_rel (hI : Inv c.reading quorums a) (h : ExecRel c a i x)
    (hb : c.bugs = NO_BUGS) {src dst : NodeId} {msg : AppendReply}
    (hm : MsgRel c a ⟨src, dst, .appendReply msg⟩) (hy : x.onAppendReply msg = .ok y) :
    Refines c a i y := by
  rcases onAppendReply_cases hy with ⟨hlt, rfl⟩ | ⟨-, rfl⟩ | ⟨ht, hr, ⟨hs, hy⟩ | ⟨-, hy⟩⟩
  · exact (becomeFollower_rel hI h hlt.le).refines
  · exact h.refines
  -- success: the acknowledged index can only have grown
  · have hack := hm hs
    rw [ht] at hack
    refine advanceCommitFrom_rel hI hb _
      (h.set (n := x.node.ackAppend msg) (Ext.refl a) ?_) hr hy
    refine { h.node with ok := h.node.ok.congr rfl, acks := fun _ v m hv => ?_ }
    change (x.node.matchIndex.insert msg.follower _).lookup v = some m at hv
    rw [Dict.lookup_insert_eq] at hv
    split at hv
    next hvf =>
      obtain rfl := Option.some.inj hv
      rcases le_total ((x.node.matchIndex.lookup msg.follower).getD 0) msg.matchIndex with
        hmax | hmax
      · rw [max_eq_right hmax, hvf]
        exact Or.inr ⟨_, le_rfl, hack⟩
      · rw [max_eq_left hmax, hvf]
        cases hl : x.node.matchIndex.lookup msg.follower with
        | none => exact Or.inl rfl
        | some m => exact h.node.acks hr _ _ hl
    next => exact h.node.acks hr v m hv
  -- failure: the leader backs off and sends again
  · have h1 := h.alike (alike_set (n := x.node.backOff msg) rfl rfl)
    exact (sendAppendEntries_rel hI h1 hr hy).1.refines

end Exec
end RaftVerified
