import RaftVerified.RaftRefinement

/-! The refinement for client requests, membership changes, reads, votes and the
replies a leader counts. -/
namespace RaftVerified
open Consensus

variable {c : Setup} {a : Protocol} {i : NodeId} {x y : Exec}

/-! ### The client interface -/

theorem appendOwn_ok {n : RaftNode} (h : NodeOk c n) (command : Str) {voters : List NodeId}
    {index : ℕ}
    (hg : c.reading.Governs (n.logical ++ [Entry.mk n.term command]) voters index) :
    NodeOk c ((n.appendOwn command).adoptConfig voters index).countOwn := by
  have hlog : ((n.appendOwn command).adoptConfig voters index).countOwn.logical =
      n.logical ++ [Entry.mk n.term command] := (List.append_assoc _ _ _).symm
  have hle := h.applied_le.trans h.commit_le
  have htake : (n.logical ++ [Entry.mk n.term command]).take n.lastApplied =
      n.logical.take n.lastApplied := List.take_append_of_le_length hle
  refine
    { toLayout := { h.toLayout with }
      governs := by rw [hlog]; exact hg
      base_le := h.base_le
      applied_le := h.applied_le
      commit_le := ?_
      kv := ?_
      applied := ?_ }
  · rw [hlog, List.length_append]
    exact h.commit_le.trans (Nat.le_add_right _ _)
  · change n.kv = _
    rw [hlog, h.kv, ← htake]
    rfl
  · change n.applied = _
    rw [hlog, h.applied, ← htake]
    rfl

/-- A leader appends an entry of its term. -/
theorem appendOwn_rel (hI : Inv c.reading quorums a) (h : ExecRel c a i x)
    (hr : x.node.role = .leader) (command : Str) {voters : List NodeId} {index : ℕ}
    (hg : c.reading.Governs (x.node.logical ++ [Entry.mk x.node.term command]) voters index)
    (hc : ∀ vs, decodeConfig command = some vs →
      a.Reconfigures c.reading quorums x.node.term x.node.logical vs) :
    ∃ a', Moves c.reading quorums i a a' ∧ Inv c.reading quorums a' ∧
      ExecRel c a' i
        (x.set ((x.node.appendOwn command).adoptConfig voters index).countOwn) := by
  have hview := h.node.view
  have hok := h.node.ok
  have hlog : ((x.node.appendOwn command).adoptConfig voters index).countOwn.logical =
      x.node.logical ++ [Entry.mk x.node.term command] := (List.append_assoc _ _ _).symm
  have st : Step c.reading quorums i a (a.append i (Entry.mk x.node.term command)) := by
    refine .append _ ?_ ?_ ?_
    · rw [hview, RaftNode.view, hr]
      rfl
    · rw [hview]
      rfl
    · rw [hview]
      exact hc
  have hx := step_ext hI st
  refine ⟨_, moves_of_step st, inv_step hI st, h.set hx ?_⟩
  refine ⟨appendOwn_ok hok command hg, h.node.settled, h.node.id, ?_, ?_, ?_, ?_⟩
  · rw [State.append_server, hview, RaftNode.view, RaftNode.view, hlog]
    rfl
  · intro hc'
    exact absurd (hr.symm.trans hc') (by decide)
  · intro _ v m hm
    change (x.node.matchIndex.insert x.node.id
      ((x.node.appendOwn command).adoptConfig voters index).lastLogIndex).lookup v =
        some m at hm
    rw [Dict.lookup_insert_eq] at hm
    split at hm
    next hv =>
      obtain rfl := Option.some.inj hm
      refine Or.inr ⟨_, le_rfl, Or.inr ⟨?_, ?_, ?_⟩⟩
      -- the leader acknowledges its own append
      · rw [hv, h.node.id]
      · rw [hview]
        rfl
      · rw [hview]
        change x.node.baseIndex+(x.node.log ++ [_]).length = x.node.logical.length+1
        rw [RaftNode.length_logical hok.base, RaftNode.lastLogIndex, List.length_append,
          List.length_singleton, Nat.add_assoc]
    next =>
      rcases h.node.acks hr v m hm with h0 | ⟨m', hle, hack⟩
      · exact Or.inl h0
      · exact Or.inr ⟨m', hle, hx.acked _ _ _ hack⟩
  · intro hl hct
    obtain ⟨j, hj⟩ := h.node.committed hl hct
    exact ⟨j, hx.chosen _ _ _ hj⟩

namespace Exec

theorem noteRequest_alike (x : Exec) (cmd : Command) : x.Alike (x.noteRequest cmd) := by
  unfold noteRequest
  split
  · exact alike_set rfl rfl
  · exact Alike.refl x

theorem noteRequest_role (x : Exec) (cmd : Command) :
    (x.noteRequest cmd).node.role = x.node.role := by
  unfold noteRequest
  split <;> rfl

theorem replicate_rel (hI : Inv c.reading quorums a) (h : ExecRel c a i x)
    (hr : x.node.role = .leader) {command : Str} (hc : decodeConfig command = none)
    (hy : x.replicate command = .ok y) : Refines c a i y := by
  have hg := Reading.governs_append_none h.node.ok.governs (e := Entry.mk x.node.term command) hc
  obtain ⟨a', hm, hI', ha⟩ := appendOwn_rel hI h hr command hg
    fun vs hvs => absurd (hc.symm.trans hvs) nofun
  obtain ⟨hy, -⟩ := broadcastTo_rel hI' _ (ha.alike (alike_record _ _)) hr hy
  exact ⟨a', hm, hy⟩

/-- A command is refused, or known to the leader already, or appended to its log. -/
theorem clientCommand_cases {command : Str} {b : Bool}
    (h : x.clientCommand command = .ok (y, b)) :
    ((x.node.role ≠ .leader ∨ x.node.alive = false) ∧ y = x) ∨
      (x.node.role = .leader ∧ x.node.alive = true ∧
        (isRetry x.node (Command.decode command) = true ∧
            y = x.record (.dedup x.node.id command) ∨
          isRetry x.node (Command.decode command) = false ∧
            (x.noteRequest (Command.decode command)).replicate command = .ok y)) := by
  unfold clientCommand at h
  split at h
  next hrefused =>
    obtain ⟨rfl, -⟩ := Prod.mk.inj (Except.ok.inj h)
    exact Or.inl ⟨hrefused, rfl⟩
  next hleads =>
    push Not at hleads
    refine Or.inr ⟨hleads.1, Bool.eq_true_of_not_eq_false hleads.2, ?_⟩
    dsimp only at h
    split at h
    next hknown =>
      obtain ⟨rfl, -⟩ := Prod.mk.inj (Except.ok.inj h)
      exact Or.inl ⟨hknown, rfl⟩
    next hnew =>
      obtain ⟨z, hz, h⟩ := bind_ok.mp h
      obtain ⟨rfl, -⟩ := Prod.mk.inj (Except.ok.inj h)
      exact Or.inr ⟨Bool.eq_false_of_not_eq_true hnew, hz⟩

theorem clientCommand_rel (hI : Inv c.reading quorums a) (h : ExecRel c a i x) {command : Str}
    (hc : decodeConfig command = none) {b : Bool} (hy : x.clientCommand command = .ok (y, b)) :
    Refines c a i y := by
  rcases clientCommand_cases hy with ⟨-, rfl⟩ | ⟨hr, -, ⟨-, rfl⟩ | ⟨-, hy⟩⟩
  · exact h.refines
  · exact (h.alike (alike_record _ _)).refines
  · exact replicate_rel hI (h.alike (noteRequest_alike x _))
      ((noteRequest_role x _).trans hr) hc hy

theorem sorted_sorted (vs : List NodeId) : sorted (sorted vs) = sorted vs :=
  sorted_perm (List.perm_insertionSort _ vs)

theorem sorted_nodup {vs : List NodeId} (h : vs.Nodup) : (sorted vs).Nodup :=
  (List.perm_insertionSort _ vs).nodup_iff.mpr h

/-- If the node accepts the change, the majorities before and after it overlap. -/
def SoundChange (n : RaftNode) (newVoters : List NodeId) : Prop :=
  n.role = .leader → n.alive = true → ¬ refusesConfig n (sorted newVoters.dedup) →
    Overlap n.voters (sorted newVoters.dedup)

theorem soundChange_of_nodup {n : RaftNode} (h : n.voters.Nodup) (newVoters : List NodeId) :
    SoundChange n newVoters := by
  intro _ _ hacc
  rw [refusesConfig] at hacc
  push Not at hacc
  refine overlap_of_nodup h (sorted_nodup (List.nodup_dedup _)) ?_
  rw [symmDiff_comm]
  exact hacc.1.le

/-- A configuration entry is one change away from a committed configuration. -/
theorem replicateConfig_rel (hI : Inv c.reading quorums a) (h : ExecRel c a i x)
    (hb : c.bugs = NO_BUGS) (hr : x.node.role = .leader) {new : List NodeId}
    (hs : sorted new = new) (hn : new.Nodup) (hacc : ¬ refusesConfig x.node new)
    (hov : Overlap x.node.voters new) (hy : x.replicateConfig new = .ok y) :
    Refines c a i y := by
  have hok := h.node.ok
  have hview := h.node.view
  rw [refusesConfig, hok.bugs, hb] at hacc
  push Not at hacc
  obtain ⟨-, hmem, hci, hct⟩ := hacc
  have hct : x.node.committedThisTerm = true := by
    by_contra hf
    exact hct (Bool.eq_false_iff.mpr hf) rfl
  have hdec : decodeConfig (encodeConfig new) = some new := by
    rw [decodeConfig_encodeConfig new (List.ne_nil_of_mem hmem), hs]
  have hlen : (x.node.appendOwn (encodeConfig new)).lastLogIndex = x.node.logical.length+1 := by
    change x.node.baseIndex+(x.node.log ++ [_]).length = _
    rw [RaftNode.length_logical hok.base, RaftNode.lastLogIndex, List.length_append,
      List.length_singleton, Nat.add_assoc]
  have hg : c.reading.Governs (x.node.logical ++ [Entry.mk x.node.term (encodeConfig new)]) new
      (x.node.appendOwn (encodeConfig new)).lastLogIndex := by
    rw [hlen]
    exact Reading.governs_append_some (R := c.reading) hdec
  obtain ⟨j, hj⟩ := h.node.committed hr hct
  have hjl := (hI.chosen_led _ _ _ hj).2.2
  rw [(h.node.leader hI hr).2] at hjl
  -- the guards passed make the change a reconfiguration of the abstract protocol
  obtain ⟨a', hm, hI', ha⟩ := appendOwn_rel hI h hr _ hg fun vs hvs => by
    obtain rfl := Option.some.inj (hdec.symm.trans hvs)
    refine ⟨⟨?_, hn⟩, _, j, hj, hjl, hok.governs.2.mono hci⟩
    rwa [← hok.governs.1]
  obtain ⟨hy, -⟩ := broadcastTo_rel hI' _ (ha.alike (alike_record _ _)) hr hy
  exact ⟨a', hm, hy⟩

theorem changeConfig_rel (hI : Inv c.reading quorums a) (h : ExecRel c a i x)
    (hb : c.bugs = NO_BUGS) {newVoters : List NodeId} (hov : SoundChange x.node newVoters)
    {b : Bool} (hy : x.changeConfig newVoters = .ok (y, b)) : Refines c a i y := by
  unfold changeConfig at hy
  split at hy
  next =>
    obtain ⟨rfl, -⟩ := Prod.mk.inj (Except.ok.inj hy)
    exact h.refines
  next hg =>
    push Not at hg
    dsimp only at hy
    split at hy
    next =>
      obtain ⟨rfl, -⟩ := Prod.mk.inj (Except.ok.inj hy)
      exact h.refines
    next hacc =>
      obtain ⟨z, hz, hy⟩ := bind_ok.mp hy
      obtain ⟨rfl, -⟩ := Prod.mk.inj (Except.ok.inj hy)
      have hnew := sorted_nodup (List.nodup_dedup newVoters)
      exact replicateConfig_rel hI h hb hg.1 (sorted_sorted _) hnew hacc
        (hov hg.1 (Bool.eq_true_of_not_eq_false hg.2) hacc) hz

end Exec
end RaftVerified
