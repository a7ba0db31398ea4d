import RaftVerified.RaftFixedVoters
import RaftVerified.RaftMonotone

/-! Election safety with compaction: the protocol with empty logs already explains who
votes for whom, whatever the logs and the snapshots do. -/
namespace RaftVerified
open Consensus

variable {c : Setup} {a a' : Protocol} {i j : NodeId} {n : RaftNode} {x y : Exec} {v w : World}
  {ws past : List World}

/-- The server a node implements as far as elections go. -/
def RaftNode.elector (n : RaftNode) : Server NodeId Entry where
  term := n.term
  vote := n.votedFor
  role := n.role.view

structure ElectorRel (c : Setup) (a : Protocol) (i : NodeId) (n : RaftNode) : Prop where
  fixed : FixedNode c n
  id : n.id = i
  view : a.server i = n.elector
  votes : n.role = .candidate → ∀ v ∈ n.votes, ∃ V, a.voted v n.term i V

/-- What a message reports about an election; the others carry no configuration. -/
def BallotRel (c : Setup) (a : Protocol) (p : Packet) : Prop :=
  match p.msg with
  | .requestVote m => a.asked m.candidate m.term []
  | .voteReply m => m.granted = true → ∃ V, a.voted m.voter m.term p.dst V
  | m => m.Calm c

structure PollRel (c : Setup) (a : Protocol) (i : NodeId) (x : Exec) : Prop where
  node : ElectorRel c a i x.node
  sent : ∀ p ∈ sends i x.calls, BallotRel c a p
  replies : ∀ p ∈ sends i x.calls, p.msg.SentBy x.node

theorem BallotRel.ext (h : Ext a a') {p : Packet} (hp : BallotRel c a p) : BallotRel c a' p := by
  obtain ⟨src, dst, msg⟩ := p
  cases msg with
  | requestVote m => exact h.asked _ _ _ hp
  | voteReply m =>
    intro hg
    obtain ⟨V, hV⟩ := hp hg
    exact ⟨V, h.voted _ _ _ _ hV⟩
  | _ => exact hp

theorem ballotRel_of_calm {p : Packet} (h : p.msg.Calm c) : BallotRel c a p := by
  obtain ⟨src, dst, msg⟩ := p
  cases msg with
  | requestVote m => exact h.elim
  | voteReply m => exact h.elim
  | _ => exact h

theorem ElectorRel.ext (h : ElectorRel c a i n) (he : Ext a a') (hs : a'.server i = a.server i) :
    ElectorRel c a' i n where
  fixed := h.fixed
  id := h.id
  view := hs.trans h.view
  votes hr v hv := by
    obtain ⟨V, hV⟩ := h.votes hr v hv
    exact ⟨V, he.voted _ _ _ _ hV⟩

namespace PollRel

theorem calm (h : PollRel c a i x) (hc : Exec.Calm c x y) : PollRel c a i y where
  node := by
    have hst := hc.standing
    simp only [RaftNode.standing, Prod.mk.injEq] at hst
    obtain ⟨hid, hterm, hvote, hrole, hvotes⟩ := hst
    refine ⟨hc.fixed, hid.trans h.node.id, ?_, ?_⟩
    · rw [h.node.view, RaftNode.elector, RaftNode.elector, hterm, hvote, hrole]
    · rw [hrole, hvotes, hterm]
      exact h.node.votes
  sent p hp := by
    rcases hc.sends i p hp with hp | hp
    · exact h.sent p hp
    · exact ballotRel_of_calm hp.1
  replies p hp := by
    apply sentBy_congr hc.standing.symm
    rcases hc.sends i p hp with hp | hp
    · exact h.replies p hp
    · exact hp.2

theorem alike (h : PollRel c a i x) (ha : x.Alike y) : PollRel c a i y :=
  h.calm (ha.calm h.node.fixed)

theorem set (h : PollRel c a i x) (he : Ext a a') (hn : ElectorRel c a' i n)
    (hr : ∀ p ∈ sends i x.calls, p.msg.SentBy n) : PollRel c a' i (x.set n) :=
  ⟨hn, fun p hp => (h.sent p hp).ext he, hr⟩

theorem send (h : PollRel c a i x) {dst : NodeId} {msg : Message}
    (hm : BallotRel c a ⟨i, dst, msg⟩) (hs : msg.SentBy x.node) :
    PollRel c a i (x.send dst msg) where
  node := h.node
  replies p hp := by
    rw [Exec.send, Exec.call, sends_append, List.mem_append] at hp
    rcases hp with hp | hp
    · exact h.replies p hp
    · obtain rfl := List.mem_singleton.mp hp
      exact hs
  sent p hp := by
    rw [Exec.send, Exec.call, sends_append, List.mem_append] at hp
    rcases hp with hp | hp
    · exact h.sent p hp
    · obtain rfl := List.mem_singleton.mp hp
      exact hm

theorem sendAll (h : PollRel c a i x) {dsts : List NodeId} {msg : Message}
    (hm : ∀ dst, BallotRel c a ⟨i, dst, msg⟩) (hs : msg.SentBy x.node) :
    PollRel c a i (x.sendAll dsts msg) where
  node := h.node
  replies p hp := by
    rw [Exec.sendAll, sends_append, List.mem_append, ExecRel.sends_map] at hp
    rcases hp with hp | hp
    · exact h.replies p hp
    · obtain ⟨dst, -, rfl⟩ := List.mem_map.mp hp
      exact hs
  sent p hp := by
    rw [Exec.sendAll, sends_append, List.mem_append, ExecRel.sends_map] at hp
    rcases hp with hp | hp
    · exact h.sent p hp
    · obtain ⟨dst, -, rfl⟩ := List.mem_map.mp hp
      exact hm dst

end PollRel

/-- A callback is some steps of its server. -/
def Polls (c : Setup) (a : Protocol) (i : NodeId) (y : Exec) : Prop :=
  ∃ a', Steps c.reading quorums i a a' ∧ PollRel c a' i y

theorem PollRel.polls (h : PollRel c a i x) : Polls c a i x := ⟨a, .refl, h⟩

theorem Polls.andThen (h : Polls c a i x) (hI : Inv c.reading quorums a)
    (hy : ∀ a', Ext a a' → Inv c.reading quorums a' → PollRel c a' i x → Polls c a' i y) :
    Polls c a i y := by
  obtain ⟨a', hs, hx⟩ := h
  obtain ⟨hI', he⟩ := steps_inv hI hs
  obtain ⟨a'', hs', hy⟩ := hy a' he hI' hx
  exact ⟨a'', hs.trans hs', hy⟩

theorem Polls.calm (h : Polls c a i x) (hI : Inv c.reading quorums a)
    (hc : FixedNode c x.node → Exec.Calm c x y) : Polls c a i y :=
  h.andThen hI fun _ _ _ hx => (hx.calm (hc hx.node.fixed)).polls

namespace Exec

/-! ### Terms and votes -/

/-- A node changes its term before it sends anything. -/
theorem becomeFollower_polls (hI : Inv c.reading quorums a) (h : PollRel c a i x)
    (hx : sends i x.calls = []) {term : ℕ}
    (hle : x.node.term ≤ term) : Polls c a i (x.becomeFollower term) := by
  have hv := h.node.view
  have hfix : FixedNode c (x.node.follow term) := FixedNode.congr h.node.fixed rfl
  have hnone : ∀ p ∈ sends i x.calls, p.msg.SentBy (x.node.follow term) := by
    rw [hx]
    exact nofun
  rcases Nat.eq_or_lt_of_le hle with heq | hlt
  · have st : Step c.reading quorums i a (a.rest i 0) := .rest 0 (Nat.zero_le _)
    refine ⟨_, .single st, (h.set (step_ext hI st) ⟨hfix, h.node.id, ?_, nofun⟩ hnone).alike
      (becomeFollower_alike x term)⟩
    rw [State.rest_server, hv, RaftNode.follow, if_neg (by omega), ← heq]
    rfl
  · have st : Step c.reading quorums i a (a.raise i term) := by
      apply Step.raise
      rw [hv]
      exact hlt
    refine ⟨_, .single st, (h.set (step_ext hI st) ⟨hfix, h.node.id, ?_, nofun⟩ hnone).alike
      (becomeFollower_alike x term)⟩
    rw [State.raise_server, hv, RaftNode.follow, if_pos hlt]
    rfl

theorem catchUp_polls (hI : Inv c.reading quorums a) (h : PollRel c a i x)
    (hx : sends i x.calls = []) (term : ℕ) : Polls c a i (x.catchUp term) := by
  unfold catchUp
  split
  next hlt => exact becomeFollower_polls hI h hx hlt.le
  next => exact h.polls

theorem catchUp_sends (x : Exec) (term : ℕ) (i : NodeId) :
    sends i (x.catchUp term).calls = sends i x.calls := by
  unfold catchUp
  split
  · exact (becomeFollower_alike x term).sends i
  · rfl

theorem becomeLeader_polls (h : PollRel c a i x) (hI : Inv c.reading quorums a)
    (hr : x.node.role = .candidate)
    (hv : x.node.voters.length < (x.node.votes.filter (· ∈ x.node.voters)).card*2)
    (hy : x.becomeLeader = .ok y) : Polls c a i y := by
  have hview := h.node.view
  have st : Step c.reading quorums i a (a.lead i) := by
    refine .elect x.node.votes ?_ ?_ ?_
    · rw [hview, RaftNode.elector, hr]
      rfl
    · rw [hview]
      change elects c.voters x.node.votes
      rw [← h.node.fixed.voters, elects]
      omega
    · rw [hview]
      exact h.node.votes hr
  have hfix : FixedNode c x.node.lead := FixedNode.congr h.node.fixed rfl
  obtain ⟨z, hz, hy⟩ := bind_ok.mp hy
  obtain rfl := Except.ok.inj hy
  have h0 := h.alike (alike_record x (.role x.node.id .leader x.node.term))
  have h1 := h0.set (step_ext hI st) (n := x.node.lead)
    ⟨hfix, h.node.id, ?_, fun heq => by cases heq⟩ h0.replies
  -- the announcement that follows asks for no vote and casts none
  · have h2 := h1.calm (calm_broadcastTo _ h1.node.fixed hz)
    exact ⟨_, .single st, h2.alike (alike_armHeartbeatTimer z)⟩
  · rw [State.lead_server, hview]
    rfl

theorem maybeWin_polls (h : PollRel c a i x) (hI : Inv c.reading quorums a)
    (hy : x.maybeWin = .ok y) : Polls c a i y := by
  unfold maybeWin at hy
  dsimp only at hy
  split at hy
  next hw => exact becomeLeader_polls h hI hw.1 hw.2 hy
  next =>
    obtain rfl := Except.ok.inj hy
    exact h.polls

theorem startElection_polls (hI : Inv c.reading quorums a) (h : PollRel c a i x)
    (hx : sends i x.calls = []) (hy : x.startElection = .ok y) : Polls c a i y := by
  have hview := h.node.view
  unfold startElection at hy
  split at hy
  next =>
    obtain rfl := Except.ok.inj hy
    exact (h.alike (alike_armElectionTimer x)).polls
  next =>
    obtain ⟨lastTerm, -, hy⟩ := bind_ok.mp hy
    have st : Step c.reading quorums i a (a.campaign i) := .campaign
    have hterm : x.node.term+1 = (a.server i).term+1 := by rw [hview]; rfl
    have hlog : (a.server i).log = [] := by rw [hview]; rfl
    have hfix : FixedNode c x.node.campaign := FixedNode.congr h.node.fixed rfl
    have hrel : ElectorRel c (a.campaign i) i x.node.campaign := by
      refine ⟨hfix, h.node.id, ?_, ?_⟩
      · rw [State.campaign_server, hview, ← h.node.id]
        rfl
      · intro _ v hv
        obtain rfl := Finset.mem_singleton.mp hv
        exact ⟨_, Or.inr ⟨h.node.id, hterm, rfl, rfl⟩⟩
    have hnone : ∀ p ∈ sends i x.calls, p.msg.SentBy x.node.campaign := by
      rw [hx]
      exact nofun
    have h1 := (h.set (step_ext hI st) hrel hnone).alike (stand_alike x)
    have hask : ∀ dst, BallotRel c (a.campaign i) ⟨i, dst, .requestVote {
        term := x.node.term+1
        candidate := x.node.id
        lastLogIndex := x.node.lastLogIndex
        lastLogTerm := lastTerm }⟩ :=
      fun dst => Or.inr ⟨h.node.id, hterm, hlog.symm⟩
    dsimp only at hy
    obtain ⟨a', hs, hy⟩ := maybeWin_polls (PollRel.sendAll h1 hask nofun) (inv_step hI st) hy
    exact ⟨a', .head st hs, hy⟩

theorem castVote_polls (hI : Inv c.reading quorums a) (h : PollRel c a i x) {cand : NodeId}
    (ha : a.asked cand x.node.term [])
    (hv : x.node.votedFor = none ∨ x.node.votedFor = some cand) :
    ∃ a', Steps c.reading quorums i a a' ∧ (∃ V, a'.voted i x.node.term cand V) ∧
      PollRel c a' i (x.castVote cand) := by
  have hview := h.node.view
  have st : Step c.reading quorums i a (a.grant i cand) := by
    refine .grant cand [] ?_ ?_ ?_ <;> rw [hview]
    · exact ha
    · exact hv
    · exact c.reading.upToDate_refl []
  have hx := step_ext hI st
  have hfix : FixedNode c { x.node with votedFor := some cand } :=
    FixedNode.congr h.node.fixed rfl
  have hrel : ElectorRel c (a.grant i cand) i { x.node with votedFor := some cand } := by
    refine ⟨hfix, h.node.id, ?_, ?_⟩
    · rw [State.grant_server, hview]
      rfl
    · intro hr v hm
      obtain ⟨V, hV⟩ := h.node.votes hr v hm
      exact ⟨V, hx.voted _ _ _ _ hV⟩
  refine ⟨_, .single st, ⟨_, Or.inr ⟨rfl, ?_, rfl, rfl⟩⟩, ?_⟩
  · rw [hview]
    rfl
  · exact ((h.set hx hrel h.replies).alike (alike_record _ _)).alike (alike_armElectionTimer _)

theorem grants_vote {msg : RequestVote} (hg : grants n msg = .ok true) :
    msg.term = n.term ∧ (n.votedFor = none ∨ n.votedFor = some msg.candidate) := by
  unfold grants at hg
  split at hg
  next hv => exact hv
  next => cases Except.ok.inj hg

theorem onRequestVote_polls (hI : Inv c.reading quorums a) (h : PollRel c a i x)
    (hx : sends i x.calls = []) {src dst : NodeId} {msg : RequestVote}
    (hm : BallotRel c a ⟨src, dst, .requestVote msg⟩)
    (hy : x.onRequestVote msg = .ok y) : Polls c a i y := by
  refine (catchUp_polls hI h hx msg.term).andThen hI fun a' he hI' h' => ?_
  obtain ⟨granted, hg, hy⟩ := bind_ok.mp hy
  obtain rfl := Except.ok.inj hy
  cases granted with
  | false =>
    refine PollRel.polls (PollRel.send h' ?_ nofun)
    exact fun hg => by cases hg
  | true =>
    obtain ⟨ht, hv⟩ := grants_vote hg
    have hask := he.asked _ _ _ hm
    rw [ht] at hask
    obtain ⟨a'', hs, hvoted, hz⟩ := castVote_polls hI' h' hask hv
    refine ⟨a'', hs, hz.send (fun _ => ?_) nofun⟩
    have hid : ((x.catchUp msg.term).castVote msg.candidate).node.id = i := hz.node.id
    change ∃ V, a''.voted ((x.catchUp msg.term).castVote msg.candidate).node.id _ _ V
    rw [hid]
    exact hvoted

theorem onVoteReply_polls (hI : Inv c.reading quorums a) (h : PollRel c a i x)
    (hx : sends i x.calls = []) {src : NodeId} {msg : VoteReply}
    (hm : BallotRel c a ⟨src, i, .voteReply msg⟩)
    (hy : x.onVoteReply msg = .ok y) : Polls c a i y := by
  unfold onVoteReply at hy
  split at hy
  next hlt =>
    obtain rfl := Except.ok.inj hy
    exact becomeFollower_polls hI h hx hlt.le
  next hle =>
    split at hy
    next =>
      obtain rfl := Except.ok.inj hy
      exact h.polls
    next hg =>
      push Not at hg
      obtain ⟨hr, hge, hgr⟩ := hg
      have ht : msg.term = x.node.term := by omega
      -- the reply counts: it reports a vote cast in this very term
      obtain ⟨V, hV⟩ := hm (Bool.eq_true_of_not_eq_false hgr)
      rw [ht] at hV
      refine maybeWin_polls
        (h.set (n := x.node.countVote msg.voter) (Ext.refl a) ?_ h.replies) hI hy
      refine ⟨FixedNode.congr h.node.fixed rfl, h.node.id, h.node.view, fun _ v hv => ?_⟩
      rcases Finset.mem_insert.mp hv with rfl | hv
      · exact ⟨V, hV⟩
      · exact h.node.votes hr v hv

/-! ### The other callbacks -/

theorem Yields.polls {term : ℕ} (hy : x.Yields term y) (hI : Inv c.reading quorums a)
    (h : PollRel c a i x) (hx : sends i x.calls = []) : Polls c a i y := by
  cases hy with
  | steps hle => exact becomeFollower_polls hI h hx hle
  | follows _ _ => exact h.polls

theorem onAppendEntries_polls (hI : Inv c.reading quorums a) (h : PollRel c a i x)
    (hx : sends i x.calls = []) {msg : AppendEntries} (hm : (Message.appendEntries msg).Calm c)
    (hy : x.onAppendEntries msg = .ok y) : Polls c a i y := by
  refine (catchUp_polls hI h hx msg.term).andThen hI fun a' he hI' h' => ?_
  rcases onAppendEntries_cases hy with ⟨-, rfl⟩ | ⟨z, hz, hy⟩
  · exact (h'.calm (calm_replyAppend h'.node.fixed _ _ _)).polls
  · have h1 := hz.polls hI' h' ((catchUp_sends x msg.term i).trans hx)
    refine h1.calm hI' fun hf => ?_
    exact ((heed_alike _ _).calm hf).trans
      (calm_appendFromLeader ((heed_alike _ _).calm hf).fixed hm hy)

theorem onInstallSnapshot_polls (hI : Inv c.reading quorums a) (h : PollRel c a i x)
    (hx : sends i x.calls = []) {msg : InstallSnapshot} (hm : (Message.installSnapshot msg).Calm c)
    (hy : x.onInstallSnapshot msg = .ok y) : Polls c a i y := by
  rcases onInstallSnapshot_cases hy with ⟨-, rfl⟩ | ⟨z, hz, hy⟩
  · exact (h.calm (calm_replyAppend h.node.fixed _ _ _)).polls
  · refine (hz.polls hI h hx).calm hI fun hf => ?_
    exact ((heed_alike _ _).calm hf).trans
      (calm_installFromLeader ((heed_alike _ _).calm hf).fixed hm hy)

theorem onAppendReply_polls (hI : Inv c.reading quorums a) (h : PollRel c a i x)
    (hx : sends i x.calls = []) {msg : AppendReply} (hy : x.onAppendReply msg = .ok y) :
    Polls c a i y := by
  have hf := h.node.fixed
  rcases onAppendReply_cases hy with ⟨hlt, rfl⟩ | ⟨-, rfl⟩ | ⟨-, -, ⟨-, hy⟩ | ⟨-, hy⟩⟩
  · exact becomeFollower_polls hI h hx hlt.le
  · exact h.polls
  · have h1 : Calm c x (x.set (x.node.ackAppend msg)) := calm_set rfl (FixedNode.congr hf rfl)
    exact (h.calm (h1.trans (calm_advanceCommitFrom _ h1.fixed hy))).polls
  · have h1 : Calm c x (x.set (x.node.backOff msg)) := calm_set rfl (FixedNode.congr hf rfl)
    exact (h.calm (h1.trans (calm_sendAppendEntries h1.fixed hy))).polls

theorem onReadHeartbeat_polls (hI : Inv c.reading quorums a) (h : PollRel c a i x)
    (hx : sends i x.calls = []) (msg : ReadHeartbeat) : Polls c a i (x.onReadHeartbeat msg) := by
  refine (catchUp_polls hI h hx msg.term).calm hI fun hf => ?_
  have hsend {z : Exec} (hz : FixedNode c z.node) (m : ReadAck) :
      Calm c z (z.send msg.leader (.readAck m)) := calm_send hz _ trivial nofun
  unfold onReadHeartbeat
  dsimp only
  split
  · have h1 := (heed_alike (x.catchUp msg.term) msg.leader).calm hf
    exact h1.trans (hsend h1.fixed _)
  · exact hsend hf _

theorem onReadAck_polls (hI : Inv c.reading quorums a) (h : PollRel c a i x)
    (hx : sends i x.calls = []) (msg : ReadAck) : Polls c a i (x.onReadAck msg) := by
  unfold onReadAck
  split
  next hlt => exact becomeFollower_polls hI h hx hlt.le
  next =>
    split
    · exact h.polls
    next pending _ =>
      split
      · exact h.polls
      · have h1 := h.alike (alike_set (n := x.node.ackRead msg pending) rfl rfl)
        exact (h1.alike (tryServeRead_alike _ _)).polls

theorem handle_polls (hI : Inv c.reading quorums a) (h : PollRel c a i x)
    (hx : sends i x.calls = []) {src : NodeId}
    {msg : Message} (hm : BallotRel c a ⟨src, i, msg⟩) (hy : x.handle msg = .ok y) :
    Polls c a i y := by
  unfold handle at hy
  split at hy
  · obtain rfl := Except.ok.inj hy
    exact h.polls
  · cases msg with
    | requestVote m => exact onRequestVote_polls hI h hx hm hy
    | voteReply m => exact onVoteReply_polls hI h hx hm hy
    | appendEntries m => exact onAppendEntries_polls hI h hx hm hy
    | appendReply m => exact onAppendReply_polls hI h hx hy
    | installSnapshot m => exact onInstallSnapshot_polls hI h hx hm hy
    | readHeartbeat m =>
      obtain rfl := Except.ok.inj hy
      exact onReadHeartbeat_polls hI h hx m
    | readAck m =>
      obtain rfl := Except.ok.inj hy
      exact onReadAck_polls hI h hx m

theorem pause_polls (h : ElectorRel c a i n) : Polls c a i { node := n.pause } := by
  have st : Step c.reading quorums i a (a.rest i 0) := .rest 0 (Nat.zero_le _)
  have hfix : FixedNode c n.pause := RaftNode.rebuildConfig_fixed
    (n := { n with alive := false }.clearVolatile)
    ⟨h.fixed.initial, h.fixed.snapshot, h.fixed.log⟩
  refine ⟨_, .single st, ⟨hfix, h.id, ?_, nofun⟩, nofun, nofun⟩
  rw [State.rest_server, h.view]
  rfl

end Exec

/-! ### Runs -/

/-- `change_config` is never called, and no live leader is given a client command that reads
as a configuration. -/
def PlainClients (c : Setup) (ws : List World) : Event → Prop
  | .clientCommand i command => ∀ w, ws.head? = some w → i ∈ c.ids →
      (w.nodes i).role = .leader → (w.nodes i).alive = true → decodeConfig command = none
  | .changeConfig _ _ => False
  | _ => True

theorem plainClients_of_fixed {e : Event} (h : FixedVoters ws e) : PlainClients c ws e := by
  cases e with
  | clientCommand i command => exact fun _ _ _ _ _ => decodeConfig_of_plain command h
  | changeConfig i newVoters => exact h
  | _ => trivial

structure ElectionRel (c : Setup) (a : Protocol) (w : World) : Prop where
  nodes : ∀ i ∈ c.ids, ElectorRel c a i (w.nodes i)
  sent : ∀ p ∈ w.sent, BallotRel c a p

/-- `a` explains the elections of the run whose states are `ws`, the newest first. -/
structure Elects (c : Setup) (a : Protocol) (ws : List World) : Prop where
  inv : Inv c.reading quorums a
  now : ∀ w, ws.head? = some w → ElectionRel c a w
  leaders : ∀ w ∈ ws, ∀ i ∈ c.ids, (w.nodes i).role = .leader →
    ∃ B, a.elected (w.nodes i).term i B

theorem callback_polls (hI : Inv c.reading quorums a) (h : ElectionRel c a w) {e : Event}
    (he : PlainClients c (w :: past) e) (hi : i ∈ c.ids) (ht : w.target e = some i)
    (hy : w.callback (w.nodes i) e = .ok y) : Polls c a i y := by
  have hx : PollRel c a i { node := w.nodes i } := ⟨h.nodes i hi, nofun, nofun⟩
  have hf := hx.node.fixed
  cases e with
  | electionTimeout j seq =>
    change ({ node := w.nodes i } : Exec).onElectionTimeout seq = .ok y at hy
    unfold Exec.onElectionTimeout at hy
    split at hy
    · obtain rfl := Except.ok.inj hy
      exact hx.polls
    · exact Exec.startElection_polls hI (hx.alike (Exec.alike_record _ _)) rfl hy
  | heartbeat j seq =>
    change ({ node := w.nodes i } : Exec).onHeartbeat seq = .ok y at hy
    unfold Exec.onHeartbeat at hy
    split at hy
    · obtain rfl := Except.ok.inj hy
      exact hx.polls
    · obtain ⟨z, hz, hy⟩ := bind_ok.mp hy
      obtain rfl := Except.ok.inj hy
      exact ((hx.calm (Exec.calm_broadcastTo _ hf hz)).alike (Exec.alike_armHeartbeatTimer z)).polls
  | clientCommand j command =>
    obtain ⟨b, hy⟩ := map_fst_ok hy
    obtain rfl := Option.some.inj ht
    rcases Exec.clientCommand_cases hy with ⟨-, rfl⟩ | ⟨hlead, halive, -⟩
    -- a node that does not lead refuses the command
    · exact hx.polls
    · have hplain := he w rfl hi hlead halive
      exact (hx.calm (Exec.calm_clientCommand hf hplain hy)).polls
  | changeConfig j newVoters => exact he.elim
  | requestRead j command =>
    obtain rfl := Except.ok.inj hy
    exact (hx.calm (Exec.calm_requestRead hf command)).polls
  | deliver k =>
    rw [World.callback] at hy
    cases hp : w.sent[k]? with
    | none =>
      rw [hp] at hy
      obtain rfl := Except.ok.inj hy
      exact hx.polls
    | some p =>
      rw [hp] at hy
      rw [World.target, hp] at ht
      obtain rfl := Option.some.inj ht
      exact Exec.handle_polls hI hx rfl (h.sent p (List.mem_of_getElem? hp)) hy
  | pause j =>
    obtain rfl := Except.ok.inj hy
    exact Exec.pause_polls hx.node
  | resume j =>
    obtain rfl := Except.ok.inj hy
    exact (hx.alike (Exec.resume_alike _)).polls

theorem electionRel_put (h : ElectionRel c a w) (hx : Ext a a')
    (hs : Steps c.reading quorums i a a') (hy : PollRel c a' i y) :
    ElectionRel c a' (w.put i y) where
  nodes := World.put_nodes_forall h.nodes
    (fun _ _ hne hn => hn.ext hx (steps_server hs hne)) hy.node
  sent := World.put_sent_forall h.sent (fun _ hp => hp.ext hx) hy.sent

theorem ElectorRel.leader (h : ElectorRel c a i n) (hI : Inv c.reading quorums a)
    (hr : n.role = .leader) : ∃ B, a.elected n.term i B := by
  have hl := hI.leader i (by rw [h.view, RaftNode.elector, hr]; rfl)
  rw [h.view] at hl
  exact hl.1

theorem elects_init (c : Setup) : Elects c State.initial [World.init c] where
  inv := inv_initial
  now := by
    rintro w ⟨⟩
    refine ⟨fun i hi => ?_, nofun⟩
    have hinit := c.node_initialVoters hi
    exact ⟨⟨⟨hinit, nofun, nofun⟩, hinit⟩, rfl, rfl, nofun⟩
  leaders w hw i _ hr := by
    obtain rfl := List.mem_singleton.mp hw
    cases hr

theorem elects_cons {w' : World} (h : Elects c a (w :: past)) (hI' : Inv c.reading quorums a')
    (hx : Ext a a') (hw : ElectionRel c a' w') : Elects c a' (w' :: w :: past) where
  inv := hI'
  now := by
    rintro v ⟨⟩
    exact hw
  leaders v hv i hi hr := by
    rcases List.mem_cons.mp hv with rfl | hv
    · exact (hw.nodes i hi).leader hI' hr
    · obtain ⟨B, hB⟩ := h.leaders v hv i hi hr
      exact ⟨B, hx.elected _ _ _ hB⟩

/-- Every run without membership changes has its elections explained. -/
theorem run_elects (hr : Run c (PlainClients c) ws) : ∃ a, Elects c a ws := by
  induction hr with
  | init => exact ⟨_, elects_init c⟩
  | @step w w' past e _ hall hstep ih =>
    obtain ⟨a, h⟩ := ih
    rcases World.step_cases hstep with ⟨-, rfl⟩ | ⟨i, hi, y, ht, hy, rfl⟩
    · exact ⟨a, elects_cons h h.inv (Ext.refl a) (h.now w' rfl)⟩
    · obtain ⟨a', hs, hrel⟩ := callback_polls h.inv (h.now w rfl) hall hi ht hy
      obtain ⟨hI', hx⟩ := steps_inv h.inv hs
      exact ⟨a', elects_cons h hI' hx (electionRel_put (h.now w rfl) hx hs hrel)⟩

theorem fixed_elects (hr : Run c FixedVoters ws) : ∃ a, Elects c a ws :=
  run_elects (hr.mono fun _ _ _ => plainClients_of_fixed)

theorem sends_src (xs : List Call) {p : Packet} (hp : p ∈ sends i xs) : p.src = i := by
  induction xs with
  | nil => cases hp
  | cons x xs ih =>
    cases x with
    | send dst msg =>
      rcases List.mem_cons.mp hp with rfl | hp
      · rfl
      · exact ih hp
    | _ => exact ih hp

/-- An acknowledgement sent in a step bears the name and the term of its sender. -/
theorem new_replies (hr : Run c FixedVoters (w :: past)) {e : Event}
    (hall : FixedVoters (w :: past) e) {w' : World} (hstep : w.step c e = .ok w') :
    ∀ p ∈ w'.sent.drop w.sent.length, p.src ∈ c.ids ∧ p.msg.SentBy (w'.nodes p.src) := by
  obtain ⟨a, h⟩ := fixed_elects hr
  intro p hp
  rcases World.step_cases hstep with ⟨-, rfl⟩ | ⟨i, hi, y, ht, hy, rfl⟩
  · rw [List.drop_length] at hp
    exact absurd hp List.not_mem_nil
  · obtain ⟨a', -, hrel⟩ := callback_polls h.inv (h.now w rfl) (plainClients_of_fixed hall) hi ht hy
    -- the new packets are those the callback sent
    change p ∈ (w.sent ++ sends i y.calls).drop w.sent.length at hp
    rw [List.drop_left] at hp
    rw [sends_src _ hp, World.put_nodes_self]
    exact ⟨hi, hrel.replies p hp⟩

theorem Elects.same_leader (h : Elects c a ws) {v w : World} (hv : v ∈ ws) (hw : w ∈ ws)
    {i j : NodeId} (hi : i ∈ c.ids) (hj : j ∈ c.ids) (hri : (v.nodes i).role = .leader)
    (hrj : (w.nodes j).role = .leader) (ht : (v.nodes i).term = (w.nodes j).term) : i = j := by
  obtain ⟨B, hB⟩ := h.leaders v hv i hi hri
  obtain ⟨C, hC⟩ := h.leaders w hw j hj hrj
  rw [ht] at hB
  exact (h.inv.elected_once _ _ _ _ _ hB hC).1

/-- Election safety, whatever the compaction threshold: a term has one leader in the
whole run. -/
theorem one_leader_per_term (hr : Run c FixedVoters ws) :
    ∀ v ∈ ws, ∀ w ∈ ws, ∀ i ∈ c.ids, ∀ j ∈ c.ids, (v.nodes i).role = .leader →
      (w.nodes j).role = .leader → (v.nodes i).term = (w.nodes j).term → i = j := by
  obtain ⟨a, h⟩ := fixed_elects hr
  intro v hv w hw i hi j hj hri hrj ht
  exact h.same_leader hv hw hi hj hri hrj ht

theorem compacting_elects_once : ∃ w past, Run compacting FixedVoters (w :: past) ∧
    (w.nodes 0).role = .leader ∧ ∀ v ∈ w :: past, ∀ j ∈ compacting.ids,
      (v.nodes j).role = .leader → (v.nodes j).term = (w.nodes 0).term → j = 0 := by
  have hr : Run compacting FixedVoters (Run.follow compacting FixedVoters
    [World.init compacting] imageDelayed) := Run.follow_run .init _
  have hw : (Run.follow compacting FixedVoters [World.init compacting] imageDelayed).head?.map
      (fun w => (w.nodes 0).role) = some .leader := by decide +kernel
  obtain ⟨w, past, hws⟩ := hr.exists_cons
  rw [hws] at hr hw
  have hrole := Option.some.inj hw
  refine ⟨w, past, hr, hrole, ?_⟩
  intro v hv j hj hrj ht
  exact one_leader_per_term hr v hv w List.mem_cons_self j hj 0 (by decide) hrj hrole ht

end RaftVerified
