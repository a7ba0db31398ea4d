import RaftVerified.RaftAppends

/-! The refinement for installed images, crashes and restarts, and so for any callback. -/
namespace RaftVerified
open Consensus

variable {c : Setup} {a : Protocol} {i : NodeId} {x y : Exec}

theorem inconsistent_congr {n m : RaftNode} (hd : m.data = n.data) (msg : AppendEntries) :
    Exec.inconsistent m msg = Exec.inconsistent n msg := by
  obtain ⟨id, peers, bugs, config, iv, voters, term, vote, log, bi, bt, snap, ci, role, com, la,
    app, kv, lid, alive, lv, inc, ni, mi, votes, cli, pr, nr, ct, ts, folded⟩ := m
  simp only [RaftNode.data, Prod.mk.injEq] at hd
  obtain ⟨⟨rfl, rfl, rfl, rfl, rfl, rfl, rfl⟩, rfl, rfl, rfl, rfl, rfl, rfl, rfl⟩ := hd
  rfl

theorem KeepsBase.congr {n m : RaftNode} {msg : AppendEntries} (h : KeepsBase n msg)
    (hd : m.data = n.data) : KeepsBase m msg := by
  simp only [RaftNode.data, Prod.mk.injEq] at hd
  obtain ⟨⟨-, -, -, -, -, hb, ht⟩, -⟩ := hd
  intro k e he hlt
  rw [hb] at hlt
  rw [ht]
  exact h k e he hlt

theorem data_logical {n m : RaftNode} (hd : m.data = n.data) :
    m.logical = n.logical ∧ m.baseIndex = n.baseIndex := by
  simp only [RaftNode.data, Prod.mk.injEq] at hd
  obtain ⟨⟨-, -, -, hf, hl, hb, -⟩, -⟩ := hd
  exact ⟨by rw [RaftNode.logical, RaftNode.logical, hf, hl], hb⟩

namespace Exec

theorem Yields.stays {z : Exec} {term : ℕ} (hz : x.Yields term z)
    (hI : Inv c.reading quorums a) (h : ExecRel c a i x) : Stays c a i z := by
  cases hz with
  | steps hle => exact becomeFollower_rel hI h hle
  | follows _ _ => exact h.stays

theorem onAppendEntries_rel (hI : Inv c.reading quorums a) (h : ExecRel c a i x)
    (hb : c.bugs = NO_BUGS) {src dst : NodeId} {msg : AppendEntries}
    (hm : MsgRel c a ⟨src, dst, .appendEntries msg⟩)
    (hkeep : x.node.term ≤ msg.term → inconsistent x.node msg = .ok false →
      KeepsBase x.node msg)
    (hy : x.onAppendEntries msg = .ok y) : Refines c a i y := by
  refine (catchUp_rel hI h msg.term).andThen (fun a1 he1 hI1 h1 => ?_) hI
  rcases onAppendEntries_cases hy with ⟨-, rfl⟩ | ⟨z, hz, hy⟩
  · refine ExecRel.refines (ExecRel.send h1 ?_)
    exact fun hs => by cases hs
  · have hterm := catchUp_term x msg.term
    have hle := hz.le
    -- a candidate of the same term steps down before it appends
    obtain ⟨ht2, hr2, hd2⟩ := hz.follower
    refine (hz.stays hI1 h1).andThen (fun a2 he2 hI2 h2 => ?_) hI1
    have hd : ∀ v : Exec, v.node.data = x.node.data → inconsistent v.node msg = .ok false →
        KeepsBase v.node msg := fun v hv hcons =>
      (hkeep (by omega) ((inconsistent_congr hv msg).symm.trans hcons)).congr hv
    have hheed := heed_alike z msg.leader
    exact (appendFromLeader_rel hI2 (h2.alike hheed) hb hr2 ((hm.ext he1).ext he2) ht2
      (hd _ (hheed.data.trans (hd2.trans (catchUp_data x msg.term)))) hy).refines

/-! ### InstallSnapshot -/

/-- The log after an install is what copying the image's prefix would leave. -/
theorem restoreImage_logical (hI : Inv c.reading quorums a) {n : RaftNode}
    (h : NodeRel c a i n) {msg : InstallSnapshot} (hf : msg.folded <+: a.trunk msg.term)
    (hi : ImageOf c msg.folded msg.lastIndex msg.lastTerm msg.store msg.sessions msg.voters)
    (hlt : n.baseIndex < msg.lastIndex) {keepTail : Bool}
    (hk : keepsTail n msg = .ok keepTail) :
    (n.restoreImage msg keepTail).rebuildConfig.logical =
      merge n.logical ((a.trunk msg.term).take msg.lastIndex) := by
  have hT : (a.trunk msg.term).take msg.lastIndex = msg.folded := by
    rw [prefix_take_eq hf hi.index.ge, ← hi.index, List.take_length]
  obtain ⟨j, hj⟩ : ∃ j, msg.lastIndex = j+1 := ⟨msg.lastIndex-1, by omega⟩
  have hjl : j < msg.folded.length := by rw [hi.index]; omega
  have hfj : msg.folded[j]? = some msg.folded[j] := List.getElem?_eq_getElem hjl
  have hTj := prefix_getElem? hf hfj
  have hterm : msg.folded[j].term = msg.lastTerm := by
    rw [← hi.term]
    exact (c.reading.lastTerm_of_getElem? hfj (by rw [hi.index, hj])).symm
  change msg.folded ++ (if keepTail then n.log.drop (msg.lastIndex-n.baseIndex) else []) = _
  rw [hT]
  unfold keepsTail at hk
  split at hk
  next hle =>
    obtain ⟨t, ht, hkt⟩ := map_ok.mp hk
    rw [hj] at ht
    obtain ⟨e, he, rfl⟩ := (RaftNode.termAt_eq h.ok.base (by omega)).mp ht
    by_cases heq : e.term = msg.lastTerm
    · -- the node holds the image's prefix, so the tail stays
      have htake := h.take_eq hI he hTj (heq.trans hterm.symm)
      rw [← hj, hT] at htake
      have hdrop := RaftNode.logical_drop h.ok.base (show n.baseIndex ≤ msg.lastIndex by omega)
      rw [← hkt, decide_eq_true heq, if_pos rfl, ← hdrop, merge_of_isPrefix]
      · conv_lhs => rw [← htake]
        exact List.take_append_drop _ _
      · rw [← htake]
        exact List.take_prefix _ _
    -- the tail goes, and the image is no prefix of what the node holds
    · rw [← hkt, decide_eq_false heq, if_neg (by simp), List.append_nil, merge_of_not]
      intro hp
      have hx := prefix_getElem? hp hfj
      rw [he] at hx
      exact heq (by rw [Option.some.inj hx, hterm])
  next hgt =>
    obtain rfl := Except.ok.inj hk
    rw [if_neg (by simp), List.append_nil, merge_of_not]
    intro hp
    have hx := hp.length_le
    rw [RaftNode.length_logical h.ok.base, hi.index] at hx
    omega

theorem installFromLeader_rel (hI : Inv c.reading quorums a) (h : ExecRel c a i x)
    (hr : x.node.role = .follower) {src dst : NodeId} {msg : InstallSnapshot}
    (hm : MsgRel c a ⟨src, dst, .installSnapshot msg⟩) (ht : x.node.term = msg.term)
    (hcov : msg.lastIndex ≤ x.node.baseIndex → x.node.logical <+: a.trunk msg.term)
    (hy : x.installFromLeader msg = .ok y) : Stays c a i y := by
  obtain ⟨hl, hf, hs, hpos, hi⟩ := hm
  unfold installFromLeader at hy
  rw [← ht] at hl hcov hs
  split at hy
  next hle =>
    obtain rfl := Except.ok.inj hy
    -- an image the base covers is acknowledged for the whole log the node has
    have hp := hcov hle
    have hmerge : x.node.logical = merge x.node.logical
        ((a.trunk x.node.term).take x.node.logical.length) := by
      refine (merge_of_isPrefix ?_).symm
      rw [prefix_take_eq hp le_rfl, List.take_length]
    obtain ⟨a1, hs1, -, -, hack, h1⟩ := accept_rel hI h hr hl hp.length_le rfl hmerge rfl rfl
      fun _ => h.node.ok
    refine ⟨a1, hs1, ExecRel.send h1 fun _ => ?_⟩
    change a1.acked x.node.id x.node.term x.node.lastLogIndex
    rw [h.node.id, ← RaftNode.length_logical h.node.ok.base]
    exact hack
  next hgt =>
    obtain ⟨keepTail, hk, hy⟩ := bind_ok.mp hy
    obtain rfl := Except.ok.inj hy
    -- an image past the base is a merge with the trunk up to the image
    have hlog := restoreImage_logical hI h.node hf hi (by omega) hk
    have hok : NodeOk c (x.node.restoreImage msg keepTail).rebuildConfig :=
      restoreImage_ok h.node.ok.toLayout hpos hi
    rw [← ht] at hf hlog
    have hfl := hf.length_le
    rw [hi.index] at hfl
    have hT : (a.trunk x.node.term).take msg.lastIndex = msg.folded := by
      rw [prefix_take_eq hf hi.index.ge, ← hi.index, List.take_length]
    obtain ⟨a1, hs1, hack, h1⟩ := install_rel hI h hr hl hfl (by rwa [hT])
      (m := (x.node.restoreImage msg keepTail).rebuildConfig) rfl hlog rfl rfl hok
    refine ⟨a1, hs1, ExecRel.send (h1.alike (alike_record _ _)) fun _ => ?_⟩
    change a1.acked x.node.id x.node.term msg.lastIndex
    rw [h.node.id]
    exact hack

theorem onInstallSnapshot_rel (hI : Inv c.reading quorums a) (h : ExecRel c a i x)
    {src dst : NodeId} {msg : InstallSnapshot}
    (hm : MsgRel c a ⟨src, dst, .installSnapshot msg⟩)
    (hcov : x.node.term ≤ msg.term → msg.lastIndex ≤ x.node.baseIndex →
      x.node.logical <+: a.trunk msg.term)
    (hy : x.onInstallSnapshot msg = .ok y) : Refines c a i y := by
  rcases onInstallSnapshot_cases hy with ⟨-, rfl⟩ | ⟨z, hz, hy⟩
  · refine ExecRel.refines (ExecRel.send h ?_)
    exact fun hs => by cases hs
  · have hle := hz.le
    obtain ⟨ht2, hr2, hd2⟩ := hz.follower
    refine (hz.stays hI h).andThen (fun a2 he2 hI2 h2 => ?_) hI
    have hheed := heed_alike z msg.leader
    obtain ⟨hlog, hbase⟩ := data_logical (hheed.data.trans hd2)
    refine (installFromLeader_rel hI2 (h2.alike hheed) hr2 (hm.ext he2) ht2 ?_ hy).refines
    intro hc
    rw [hbase] at hc
    rw [hlog]
    exact (hcov hle hc).trans (he2.trunk _)

/-! ### Crashes and restarts -/

theorem resetVolatile_rel {n : RaftNode} (h : NodeRel c a i n) :
    NodeRel c (a.rest i n.baseIndex) i n.resetVolatile := by
  obtain ⟨hok, hcom, happ⟩ := resetVolatile_ok h.ok
  refine ⟨hok, happ.trans hcom.symm, h.id, ?_, nofun, nofun, nofun⟩
  rw [State.rest_server, h.view, RaftNode.view, RaftNode.view, resetVolatile_logical, hcom]
  rfl

theorem pause_rel {n : RaftNode} (h : NodeRel c a i n) :
    Refines c a i { node := n.pause } := by
  have st : Step c.reading quorums i a (a.rest i n.baseIndex) := by
    refine .rest _ ?_
    rw [h.view]
    exact h.ok.base_le.trans h.ok.applied_le
  have hp : NodeRel c a i { n with alive := false } := h.congr rfl rfl
  exact Stays.refines ⟨_, ⟨.single st, rfl, rfl, rfl⟩, resetVolatile_rel hp, nofun⟩

theorem resume_alike (x : Exec) : x.Alike x.resume :=
  (alike_set (n := { x.node with alive := true }) rfl rfl).trans (alike_armElectionTimer _)

theorem resume_rel (h : ExecRel c a i x) : Refines c a i x.resume :=
  (h.alike (resume_alike x)).refines

/-! ### Dispatch -/

/-- What the refinement asks of a delivery, with snapshots about: an accepted
AppendEntries keeps the base, and a covered InstallSnapshot finds a log that is part of
its sender's. -/
def Harmless (a : Protocol) (n : RaftNode) : Message → Prop
  | .appendEntries m => n.alive = true → n.term ≤ m.term →
      inconsistent n m = .ok false → KeepsBase n m
  | .installSnapshot m => n.alive = true → n.term ≤ m.term → m.lastIndex ≤ n.baseIndex →
      n.logical <+: a.trunk m.term
  | _ => True

theorem handle_rel (hI : Inv c.reading quorums a) (h : ExecRel c a i x)
    (hb : c.bugs = NO_BUGS) {src : NodeId} {msg : Message} (hm : MsgRel c a ⟨src, i, msg⟩)
    (hh : Harmless a x.node msg) (hy : x.handle msg = .ok y) : Refines c a i y := by
  unfold handle at hy
  split at hy
  next =>
    obtain rfl := Except.ok.inj hy
    exact h.refines
  next halive =>
    have halive := Bool.eq_true_of_not_eq_false halive
    cases msg with
    | requestVote m => exact onRequestVote_rel hI h hb hm hy
    | voteReply m => exact onVoteReply_rel hI h hm hy
    | appendEntries m => exact onAppendEntries_rel hI h hb hm (hh halive) hy
    | appendReply m => exact onAppendReply_rel hI h hb hm hy
    | installSnapshot m => exact onInstallSnapshot_rel hI h hm (hh halive) hy
    | readHeartbeat m =>
      obtain rfl := Except.ok.inj hy
      exact onReadHeartbeat_rel hI h m
    | readAck m =>
      obtain rfl := Except.ok.inj hy
      exact onReadAck_rel hI h m

end Exec
end RaftVerified
