import RaftVerified.ConsensusSafety
import RaftVerified.RaftNodeApply

/-! How a node and the messages in flight stand to the state of the protocol: the node
shows its server, and every message reports something that has happened. -/
namespace RaftVerified
open Consensus

def Role.view : Role → Consensus.Role
  | .follower => .follower
  | .candidate => .candidate
  | .leader => .leader

/-- The server a node implements; its log is the logical one. -/
def RaftNode.view (n : RaftNode) : Server NodeId Entry where
  term := n.term
  vote := n.votedFor
  role := n.role.view
  log := n.logical
  commit := n.commitIndex

abbrev Protocol := State NodeId Entry

structure NodeRel (c : Setup) (a : Protocol) (i : NodeId) (n : RaftNode) : Prop where
  ok : NodeOk c n
  settled : n.lastApplied = n.commitIndex
  id : n.id = i
  view : a.server i = n.view
  votes : n.role = .candidate → ∀ v ∈ n.votes, ∃ V, a.voted v n.term i V
  acks : n.role = .leader → ∀ v m, n.matchIndex.lookup v = some m →
    m = 0 ∨ ∃ m', m ≤ m' ∧ a.acked v n.term m'
  committed : n.role = .leader → n.committedThisTerm = true →
    ∃ j, a.chosen n.term n.commitIndex j

/-- What a message reports. An AppendEntries is a slice of the log of its term's leader,
an InstallSnapshot a committed prefix of it. -/
def MsgRel (c : Setup) (a : Protocol) (p : Packet) : Prop :=
  match p.msg with
  | .requestVote m => ∃ B, a.asked m.candidate m.term B ∧ B.length = m.lastLogIndex ∧
      c.reading.lastTerm B = m.lastLogTerm
  | .voteReply m => m.granted = true → ∃ V, a.voted m.voter m.term p.dst V
  | .appendEntries m => a.Led m.term ∧
      m.prevIndex+m.entries.length ≤ (a.trunk m.term).length ∧
      ((a.trunk m.term).drop m.prevIndex).take m.entries.length = m.entries ∧
      c.reading.lastTerm ((a.trunk m.term).take m.prevIndex) = m.prevTerm ∧
      m.leaderCommit ≤ (a.trunk m.term).length ∧
      a.Settled m.term ((a.trunk m.term).take m.leaderCommit)
  | .appendReply m => m.success = true → a.acked m.follower m.term m.matchIndex
  | .installSnapshot m => a.Led m.term ∧ m.folded <+: a.trunk m.term ∧
      a.Settled m.term m.folded ∧ 0 < c.config.snapshotThreshold ∧
      ImageOf c m.folded m.lastIndex m.lastTerm m.store m.sessions m.voters
  | .readHeartbeat _ => True
  | .readAck _ => True

/-- A node within a callback, with what it has sent so far. -/
structure ExecRel (c : Setup) (a : Protocol) (i : NodeId) (x : Exec) : Prop where
  node : NodeRel c a i x.node
  sent : ∀ p ∈ sends i x.calls, MsgRel c a p

theorem slice_ext {xs ys : List Entry} (h : xs <+: ys) {k len : ℕ} (hl : k+len ≤ xs.length) :
    (ys.drop k).take len = (xs.drop k).take len := by
  obtain ⟨zs, rfl⟩ := h
  rw [List.drop_append_of_le_length (by omega), List.take_append_of_le_length]
  rw [List.length_drop]
  omega

theorem MsgRel.ext {c : Setup} {a a' : Protocol} (h : Ext a a') {p : Packet}
    (hp : MsgRel c a p) : MsgRel c a' p := by
  obtain ⟨src, dst, msg⟩ := p
  cases msg with
  | requestVote m =>
    obtain ⟨B, hB, h1, h2⟩ := hp
    exact ⟨B, h.asked _ _ _ hB, h1, h2⟩
  | voteReply m =>
    intro hg
    obtain ⟨V, hV⟩ := hp hg
    exact ⟨V, h.voted _ _ _ _ hV⟩
  | appendEntries m =>
    obtain ⟨hl, hlen, hent, hprev, hcl, hs⟩ := hp
    have ht := h.trunk m.term
    refine ⟨h.led hl, hlen.trans ht.length_le, ?_, ?_, hcl.trans ht.length_le, ?_⟩
    · rw [slice_ext ht hlen]
      exact hent
    · rw [prefix_take_eq ht (by omega)]
      exact hprev
    · rw [prefix_take_eq ht hcl]
      exact h.settled hs le_rfl
  | appendReply m => exact fun hs => h.acked _ _ _ (hp hs)
  | installSnapshot m =>
    obtain ⟨hl, hf, hs, hpos, hi⟩ := hp
    exact ⟨h.led hl, hf.trans (h.trunk _), h.settled hs le_rfl, hpos, hi⟩
  | readHeartbeat m => trivial
  | readAck m => trivial

/-- What other servers do keeps the relation of a node to its own. -/
theorem NodeRel.ext {c : Setup} {a a' : Protocol} {i : NodeId} {n : RaftNode}
    (h : NodeRel c a i n) (he : Ext a a') (hs : a'.server i = a.server i) :
    NodeRel c a' i n where
  ok := h.ok
  settled := h.settled
  id := h.id
  view := hs.trans h.view
  votes hr v hv := by
    obtain ⟨V, hV⟩ := h.votes hr v hv
    exact ⟨V, he.voted _ _ _ _ hV⟩
  acks hr v m hm := by
    rcases h.acks hr v m hm with h0 | ⟨m', hle, ha⟩
    · exact Or.inl h0
    · exact Or.inr ⟨m', hle, he.acked _ _ _ ha⟩
  committed hr hct := by
    obtain ⟨j, hj⟩ := h.committed hr hct
    exact ⟨j, he.chosen _ _ _ hj⟩

theorem NodeRel.congr {c : Setup} {a : Protocol} {i : NodeId} {n m : RaftNode}
    (h : NodeRel c a i n) (hd : m.data = n.data) (hb : m.ballot = n.ballot) :
    NodeRel c a i m := by
  have hok := h.ok.congr hd
  obtain ⟨id, peers, bugs, config, iv, voters, term, vote, log, bi, bt, snap, ci, role, com, la,
    app, kv, lid, alive, lv, inc, ni, mi, votes, cli, pr, nr, ct, ts, folded⟩ := m
  simp only [RaftNode.data, RaftNode.ballot, Prod.mk.injEq] at hd hb
  obtain ⟨⟨rfl, rfl, rfl, rfl, rfl, rfl, rfl⟩, rfl, rfl, rfl, rfl, rfl, rfl, rfl⟩ := hd
  obtain ⟨rfl, rfl, rfl, rfl, rfl, rfl, rfl⟩ := hb
  exact { h with ok := hok }

namespace Exec

/-- Two moments of a callback that differ only in timers, traces and leader hints. -/
structure Alike (x y : Exec) : Prop where
  data : y.node.data = x.node.data
  ballot : y.node.ballot = x.node.ballot
  sends : ∀ i, sends i y.calls = sends i x.calls

theorem Alike.refl (x : Exec) : x.Alike x := ⟨rfl, rfl, fun _ => rfl⟩

theorem Alike.trans {x y z : Exec} (h : x.Alike y) (h' : y.Alike z) : x.Alike z :=
  ⟨h'.data.trans h.data, h'.ballot.trans h.ballot, fun i => (h'.sends i).trans (h.sends i)⟩

theorem alike_record (x : Exec) (event : TraceEvent) : x.Alike (x.record event) :=
  ⟨rfl, rfl, fun i => sends_record x i event⟩

theorem alike_set {x : Exec} {n : RaftNode} (hd : n.data = x.node.data)
    (hb : n.ballot = x.node.ballot) : x.Alike (x.set n) := ⟨hd, hb, fun _ => rfl⟩

theorem alike_onApply (x : Exec) (command result : Str) :
    x.Alike (x.call (.onApply command result)) :=
  ⟨rfl, rfl, fun i => by simp [call, RaftVerified.sends]⟩

theorem alike_armElectionTimer (x : Exec) : x.Alike x.armElectionTimer :=
  ⟨rfl, rfl, fun i => by simp [armElectionTimer, call, set, RaftVerified.sends]⟩

theorem alike_armHeartbeatTimer (x : Exec) : x.Alike x.armHeartbeatTimer :=
  ⟨rfl, rfl, fun i => by simp [armHeartbeatTimer, call, set, RaftVerified.sends]⟩

end Exec

namespace ExecRel
variable {c : Setup} {a : Protocol} {i : NodeId} {x y : Exec}

theorem alike (h : ExecRel c a i x) (hxy : x.Alike y) : ExecRel c a i y where
  node := h.node.congr hxy.data hxy.ballot
  sent p hp := h.sent p (by rwa [← hxy.sends i])

theorem send (h : ExecRel c a i x) {dst : NodeId} {msg : Message}
    (hm : MsgRel c a ⟨i, dst, msg⟩) : ExecRel c a i (x.send dst msg) where
  node := h.node
  sent p hp := by
    rw [Exec.send, Exec.call, sends_append, List.mem_append] at hp
    rcases hp with hp | hp
    · exact h.sent p hp
    · obtain rfl := List.mem_singleton.mp hp
      exact hm

theorem sends_map (src : NodeId) (dsts : List NodeId) (msg : Message) :
    sends src (dsts.map fun dst => .send dst msg) = dsts.map fun dst => ⟨src, dst, msg⟩ := by
  induction dsts with
  | nil => rfl
  | cons d dsts ih => rw [List.map_cons, List.map_cons, sends, ih]

theorem sendAll (h : ExecRel c a i x) {dsts : List NodeId} {msg : Message}
    (hm : ∀ dst, MsgRel c a ⟨i, dst, msg⟩) : ExecRel c a i (x.sendAll dsts msg) where
  node := h.node
  sent p hp := by
    rw [Exec.sendAll, sends_append, List.mem_append, sends_map] at hp
    rcases hp with hp | hp
    · exact h.sent p hp
    · obtain ⟨dst, -, rfl⟩ := List.mem_map.mp hp
      exact hm dst

end ExecRel
end RaftVerified
