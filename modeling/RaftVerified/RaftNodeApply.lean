import RaftVerified.RaftNodeLog

/-! Applying, compacting, restarting and installing images keep the state machine a
replay of the logical log. None of it votes, acknowledges or sends. -/
namespace RaftVerified
open Consensus

/-- The fields that elections and acknowledgements are about. -/
def RaftNode.ballot (n : RaftNode) :=
  (n.id, n.term, n.votedFor, n.role, n.votes, n.matchIndex, n.committedThisTerm)

@[simp] theorem sends_append (i : NodeId) (xs ys : List Call) :
    sends i (xs ++ ys) = sends i xs ++ sends i ys := by
  induction xs with
  | nil => rfl
  | cons x xs ih =>
    cases x <;> simp [sends, ih]

theorem mem_sends {i : NodeId} {p : Packet} {calls : List Call} (h : p ∈ sends i calls) :
    .send p.dst p.msg ∈ calls := by
  induction calls with
  | nil => cases h
  | cons call calls ih =>
    cases call with
    | send dst msg =>
      rcases List.mem_cons.mp h with rfl | h
      · exact List.mem_cons_self
      · exact List.mem_cons_of_mem _ (ih h)
    | record event => exact List.mem_cons_of_mem _ (ih h)
    | schedule timer => exact List.mem_cons_of_mem _ (ih h)
    | onApply command result => exact List.mem_cons_of_mem _ (ih h)

namespace Exec

@[simp] theorem sends_record (x : Exec) (i : NodeId) (event : TraceEvent) :
    sends i (x.record event).calls = sends i x.calls := by
  simp [record, call, sends]

/-- What one part of a callback leaves alone when it only moves the state machine. -/
structure Same (x y : Exec) : Prop where
  ballot : y.node.ballot = x.node.ballot
  logical : y.node.logical = x.node.logical
  sends : ∀ i, sends i y.calls = sends i x.calls

theorem Same.refl (x : Exec) : x.Same x := ⟨rfl, rfl, fun _ => rfl⟩

theorem Same.trans {x y z : Exec} (h : x.Same y) (h' : y.Same z) : x.Same z :=
  ⟨h'.ballot.trans h.ballot, h'.logical.trans h.logical,
    fun i => (h'.sends i).trans (h.sends i)⟩

theorem applyAt_ok {c : Setup} {n : RaftNode} {e : Entry} (h : NodeOk c n)
    (hlt : n.lastApplied < n.commitIndex) (he : n.logical[n.lastApplied]? = some e) :
    NodeOk c (n.applyAt (n.lastApplied+1) e.command) := by
  have htake := take_succ_of_getElem? he
  have hlen : n.baseIndex ≤ (n.logical.take n.lastApplied).length := by
    have := h.base_le
    have := h.applied_le
    have := h.commit_le
    rw [List.length_take]
    omega
  refine { h with
    toLayout := { h.toLayout with }
    base_le := h.base_le.trans (Nat.le_succ _)
    applied_le := hlt
    kv := ?_
    applied := ?_ }
  · change (n.kv.apply _).1 = replay (n.logical.take (n.lastApplied+1))
    rw [htake, replay_append, h.kv]
  · change n.applied ++ [e.command] =
      ((n.logical.take (n.lastApplied+1)).drop n.baseIndex).map Entry.command
    rw [htake, List.drop_append_of_le_length hlen, List.map_append, h.applied]
    rfl

theorem applyNext_ok {c : Setup} {x y : Exec} (h : NodeOk c x.node)
    (hlt : x.node.lastApplied < x.node.commitIndex) (hy : x.applyNext = .ok y) :
    NodeOk c y.node ∧ x.Same y ∧ y.node.lastApplied = x.node.lastApplied+1 ∧
      y.node.commitIndex = x.node.commitIndex := by
  obtain ⟨e, he, hy⟩ := bind_ok.mp hy
  obtain rfl := Except.ok.inj hy
  have hel := (RaftNode.entryAt_eq h.base h.base_le).mp he
  refine ⟨applyAt_ok h hlt hel, ⟨rfl, rfl, fun i => ?_⟩, rfl, rfl⟩
  simp [call, record, set, RaftVerified.sends]

theorem applyLoop_ok {c : Setup} (k : ℕ) {x y : Exec} (h : NodeOk c x.node)
    (hk : x.node.lastApplied+k = x.node.commitIndex) (hy : x.applyLoop k = .ok y) :
    NodeOk c y.node ∧ x.Same y ∧ y.node.lastApplied = x.node.commitIndex ∧
      y.node.commitIndex = x.node.commitIndex := by
  induction k generalizing x with
  | zero =>
    obtain rfl := Except.ok.inj hy
    exact ⟨h, Same.refl x, hk, rfl⟩
  | succ k ih =>
    obtain ⟨z, hz, hy⟩ := bind_ok.mp hy
    obtain ⟨h1, hs1, ha1, hc1⟩ := applyNext_ok h (by omega) hz
    obtain ⟨h2, hs2, ha2, hc2⟩ := ih h1 (by omega) hy
    exact ⟨h2, hs1.trans hs2, ha2.trans hc1, hc2.trans hc1⟩

end Exec

theorem logical_take_base {c : Setup} {n : RaftNode} (h : Layout c n) :
    n.logical.take n.baseIndex = n.folded := by
  rw [RaftNode.logical, List.take_append_of_le_length h.base.ge, ← h.base, List.take_length]

theorem compactTo_logical {n : RaftNode} (h : n.folded.length = n.baseIndex) {upto : ℕ}
    (hb : n.baseIndex ≤ upto) (lastTerm : ℕ) (voters : List NodeId) :
    (n.compactTo upto lastTerm voters).folded = n.logical.take upto ∧
      (n.compactTo upto lastTerm voters).logical = n.logical := by
  have hf : n.folded ++ n.log.take (upto-n.baseIndex) = n.logical.take upto := by
    have hl : n.folded.take upto = n.folded := List.take_of_length_le (by rw [h]; omega)
    rw [RaftNode.logical, List.take_append, h, hl]
  refine ⟨hf, ?_⟩
  change (n.folded ++ n.log.take (upto-n.baseIndex)) ++ n.log.drop (upto-n.baseIndex) = n.logical
  rw [List.append_assoc, List.take_append_drop]
  rfl

theorem compactTo_ok {c : Setup} {n : RaftNode} {lastTerm : ℕ} {voters : List NodeId}
    (h : NodeOk c n) (hpos : 0 < c.config.snapshotThreshold)
    (ht : n.termAt n.lastApplied = .ok lastTerm)
    (hv : n.configAt n.lastApplied = .ok voters) :
    NodeOk c (n.compactTo n.lastApplied lastTerm voters) := by
  have hle := h.applied_le.trans h.commit_le
  obtain ⟨hfold, hlog⟩ := compactTo_logical h.base h.base_le lastTerm voters
  have hlen : (n.logical.take n.lastApplied).length = n.lastApplied := by
    rw [List.length_take]
    omega
  have hterm := (RaftNode.termAt_lastTerm h.base h.base_term h.base_le ht).2
  -- the image stands for the applied part of the log
  have himg : ImageOf c (n.logical.take n.lastApplied) n.lastApplied lastTerm
      n.kv.capture.1 n.kv.capture.2 voters :=
    ⟨hlen, hterm, h.kv, RaftNode.configAt_eq h.toLayout hv h.base_le hle⟩
  refine
    { bugs := h.bugs
      config := h.config
      initial := h.initial
      base := by rw [hfold]; exact hlen
      base_term := by rw [hfold]; exact hterm
      no_snapshot := nofun
      snapshot := ?_
      compacts := fun _ _ => hpos
      governs := by rw [hlog]; exact h.governs
      base_le := le_rfl
      applied_le := h.applied_le
      commit_le := by rw [hlog]; exact h.commit_le
      kv := by rw [hlog]; exact h.kv
      applied := ?_ }
  · rintro s ⟨⟩
    refine ⟨rfl, ?_⟩
    change ImageOf c (n.compactTo n.lastApplied lastTerm voters).folded _ _ _ _ _
    rw [hfold]
    exact himg
  · rw [hlog]
    change n.applied.drop (n.lastApplied-n.baseIndex) =
      ((n.logical.take n.lastApplied).drop n.lastApplied).map Entry.command
    rw [h.applied, List.drop_of_length_le hlen.le, List.map_nil, List.drop_of_length_le]
    rw [List.length_map, List.length_drop]
    omega

namespace Exec

/-! ### What the commit rules can return -/

theorem maybeCompact_cases {x y : Exec} (h : x.maybeCompact = .ok y) :
    ((x.node.config.snapshotThreshold ≤ 0 ∨
        (x.node.lastApplied : ℤ)-x.node.baseIndex < x.node.config.snapshotThreshold) ∧ y = x) ∨
      (0 < x.node.config.snapshotThreshold ∧
        x.node.config.snapshotThreshold ≤ (x.node.lastApplied : ℤ)-x.node.baseIndex ∧
        ∃ t vs, x.node.termAt x.node.lastApplied = .ok t ∧
          x.node.configAt x.node.lastApplied = .ok vs ∧
          y = (x.set (x.node.compactTo x.node.lastApplied t vs)).record
            (.snapshot x.node.id x.node.lastApplied t)) := by
  unfold maybeCompact at h
  dsimp only at h
  split at h
  next hbelow => exact Or.inl ⟨hbelow, (Except.ok.inj h).symm⟩
  next hfull =>
    push Not at hfull
    obtain ⟨t, ht, h⟩ := bind_ok.mp h
    obtain ⟨vs, hvs, h⟩ := bind_ok.mp h
    exact Or.inr ⟨hfull.1, hfull.2, t, vs, ht, hvs, (Except.ok.inj h).symm⟩

/-- The loop stops at the first index with a majority behind it, and commits it. -/
theorem advanceCommitFrom_cases {x y : Exec} (k : ℕ) (h : x.advanceCommitFrom k = .ok y) :
    y = x ∨ ∃ n t z, x.node.commitIndex < n+1 ∧ x.node.termAt (n+1) = .ok t ∧
      (t ≠ x.node.term → x.node.bugs.dropCommitTermGuard = true) ∧
      x.node.voters.length < x.replicas (n+1)*2 ∧ x.setCommitIndex (n+1) = .ok z ∧
      y = z.set { z.node with committedThisTerm := true } := by
  induction k with
  | zero => exact Or.inl (Except.ok.inj h).symm
  | succ n ih =>
    unfold advanceCommitFrom at h
    split at h
    next => exact Or.inl (Except.ok.inj h).symm
    next hlt =>
      obtain ⟨t, ht, h⟩ := bind_ok.mp h
      split at h
      next => exact Or.inl (Except.ok.inj h).symm
      next hguard =>
        split at h
        next hq =>
          obtain ⟨z, hz, h⟩ := bind_ok.mp h
          refine Or.inr ⟨n, t, z, not_le.mp hlt, ht, fun hne => ?_, hq, hz,
            (Except.ok.inj h).symm⟩
          exact eq_true_of_ne_false fun hoff => hguard ⟨hne, hoff⟩
        next => exact ih h

theorem followCommit_cases {x y : Exec} {leaderCommit p : ℕ}
    (h : x.followCommit leaderCommit p = .ok y) :
    (x.node.bugs.allowCommitRegression = true ∧
        y = x.set { x.node with commitIndex := min leaderCommit p }) ∨
      (x.node.commitIndex < leaderCommit ∧
        x.setCommitIndex (max x.node.commitIndex (min leaderCommit p)) = .ok y) ∨
      (leaderCommit ≤ x.node.commitIndex ∧ y = x) := by
  unfold followCommit at h
  split at h
  next hreg => exact Or.inl ⟨hreg, (Except.ok.inj h).symm⟩
  next =>
    split at h
    next hlt => exact Or.inr (Or.inl ⟨hlt, h⟩)
    next hge => exact Or.inr (Or.inr ⟨not_lt.mp hge, (Except.ok.inj h).symm⟩)

/-- An answer of a later term ends the leadership, and what is not for a leader of this
term is left. -/
theorem onAppendReply_cases {x y : Exec} {msg : AppendReply} (h : x.onAppendReply msg = .ok y) :
    (x.node.term < msg.term ∧ y = x.becomeFollower msg.term) ∨ (msg.term ≤ x.node.term ∧ y = x) ∨
      (msg.term = x.node.term ∧ x.node.role = .leader ∧
        (msg.success = true ∧ (x.set (x.node.ackAppend msg)).advanceCommit = .ok y ∨
          msg.success = false ∧
            (x.set (x.node.backOff msg)).sendAppendEntries msg.follower = .ok y)) := by
  unfold onAppendReply at h
  split at h
  next hlt => exact Or.inl ⟨hlt, (Except.ok.inj h).symm⟩
  next hle =>
    have hle := not_lt.mp hle
    split at h
    next => exact Or.inr (Or.inl ⟨hle, (Except.ok.inj h).symm⟩)
    next hown =>
      push Not at hown
      obtain ⟨hrole, hge⟩ := hown
      refine Or.inr (Or.inr ⟨le_antisymm hle hge, hrole, ?_⟩)
      split at h
      next hs => exact Or.inl ⟨hs, h⟩
      next hs => exact Or.inr ⟨Bool.eq_false_iff.mpr hs, h⟩

theorem maybeCompact_ok {c : Setup} {x y : Exec} (h : NodeOk c x.node)
    (hy : x.maybeCompact = .ok y) :
    NodeOk c y.node ∧ x.Same y ∧ y.node.lastApplied = x.node.lastApplied ∧
      y.node.commitIndex = x.node.commitIndex := by
  rcases maybeCompact_cases hy with ⟨-, rfl⟩ | ⟨hpos, -, lastTerm, voters, hterm, hvoters, rfl⟩
  · exact ⟨h, Same.refl y, rfl, rfl⟩
  · rw [h.config] at hpos
    have hlog := (compactTo_logical h.base h.base_le lastTerm voters).2
    exact ⟨compactTo_ok h hpos hterm hvoters, ⟨rfl, hlog, fun i => sends_record _ i _⟩,
      rfl, rfl⟩

theorem setCommitIndex_ok {c : Setup} {x y : Exec} {index : ℕ} (h : NodeOk c x.node)
    (hl : index ≤ x.node.logical.length) (hy : x.setCommitIndex index = .ok y) :
    NodeOk c y.node ∧ x.Same y ∧ y.node.commitIndex = max x.node.commitIndex index ∧
      (x.node.lastApplied = x.node.commitIndex → y.node.lastApplied = y.node.commitIndex) := by
  unfold setCommitIndex at hy
  split at hy
  next hle =>
    obtain rfl := Except.ok.inj hy
    exact ⟨h, Same.refl x, (max_eq_left hle).symm, fun ha => ha⟩
  next hgt =>
    obtain ⟨z, hz, hy⟩ := bind_ok.mp hy
    have happ := h.applied_le
    have hle : x.node.lastApplied ≤ index := by omega
    -- raise the index, apply up to it, then compact
    have h0 : NodeOk c { x.node with commitIndex := index } :=
      { h with toLayout := { h.toLayout with }, applied_le := hle, commit_le := hl }
    have hk : x.node.lastApplied+(index-x.node.lastApplied) = index := by omega
    obtain ⟨h1, hs1, ha1, hc1⟩ := applyLoop_ok _ (x := Exec.record _ _) h0 hk hz
    obtain ⟨h2, hs2, ha2, hc2⟩ := maybeCompact_ok h1 hy
    have hs0 : x.Same ((x.set { x.node with commitIndex := index }).record
        (.commit x.node.id index)) := ⟨rfl, rfl, fun i => sends_record _ i _⟩
    refine ⟨h2, (hs0.trans hs1).trans hs2, ?_, fun _ => ?_⟩
    · rw [hc2, hc1, max_eq_right (by omega)]
      rfl
    · rw [ha2, hc2, ha1, hc1]

end Exec

/-! ### Restarts and installed images -/

theorem resetVolatile_logical (n : RaftNode) : n.resetVolatile.logical = n.logical := rfl

theorem resetVolatile_ok {c : Setup} {n : RaftNode} (h : NodeOk c n) :
    NodeOk c n.resetVolatile ∧ n.resetVolatile.commitIndex = n.baseIndex ∧
      n.resetVolatile.lastApplied = n.baseIndex := by
  -- what is left of a crashed node is its snapshot and its log
  have hcom : n.resetVolatile.commitIndex = n.baseIndex ∧
      n.resetVolatile.lastApplied = n.baseIndex ∧ n.resetVolatile.kv = replay n.folded := by
    unfold RaftNode.resetVolatile RaftNode.clearVolatile RaftNode.rebuildConfig RaftNode.adoptConfig
    cases hs : n.snapshot with
    | none =>
      have hf := h.no_snapshot hs
      have hb : 0 = n.baseIndex := by rw [← h.base, hf, List.length_nil]
      exact ⟨hb, hb, by rw [hf]; rfl⟩
    | some s =>
      obtain ⟨hf, hi⟩ := h.snapshot s hs
      have hb : s.lastIndex = n.baseIndex := by rw [← hi.index, hf, h.base]
      exact ⟨hb, hb, by rw [← hf]; exact hi.image⟩
  obtain ⟨hc, ha, hk⟩ := hcom
  refine ⟨?_, hc, ha⟩
  have hbase : n.resetVolatile.baseIndex = n.baseIndex := rfl
  have hlog := resetVolatile_logical n
  refine
    { toLayout := { h.toLayout with }
      governs := RaftNode.rebuildConfig_governs (n := n.clearVolatile) { h.toLayout with }
      base_le := by rw [ha, hbase]
      applied_le := by rw [ha, hc]
      commit_le := ?_
      kv := ?_
      applied := ?_ }
  · rw [hc, hlog, RaftNode.length_logical h.base, RaftNode.lastLogIndex]
    omega
  · rw [hk, ha, hlog, logical_take_base h.toLayout]
  · rw [ha, hbase, hlog, List.drop_of_length_le, List.map_nil]
    · rfl
    · rw [List.length_take]
      omega

theorem restoreImage_ok {c : Setup} {n : RaftNode} {msg : InstallSnapshot} {keepTail : Bool}
    (h : Layout c n) (hpos : 0 < c.config.snapshotThreshold)
    (hi : ImageOf c msg.folded msg.lastIndex msg.lastTerm msg.store
      msg.sessions msg.voters) :
    NodeOk c (n.restoreImage msg keepTail).rebuildConfig := by
  -- the received image takes the place of the snapshot
  have hl : Layout c (n.restoreImage msg keepTail) :=
    { bugs := h.bugs
      config := h.config
      initial := h.initial
      base := hi.index
      base_term := hi.term
      no_snapshot := nofun
      snapshot := by
        rintro s ⟨⟩
        exact ⟨rfl, hi⟩
      compacts := fun _ _ => hpos }
  have htake := logical_take_base hl
  refine
    { toLayout := { hl with }
      governs := RaftNode.rebuildConfig_governs (n := n.restoreImage msg keepTail) hl
      base_le := le_rfl
      applied_le := le_rfl
      commit_le := ?_
      kv := ?_
      applied := ?_ }
  · change msg.lastIndex ≤ (n.restoreImage msg keepTail).logical.length
    rw [RaftNode.length_logical hl.base, RaftNode.lastLogIndex]
    exact Nat.le_add_right _ _
  · change KVStateMachine.restore _ _ =
      replay ((n.restoreImage msg keepTail).logical.take (n.restoreImage msg keepTail).baseIndex)
    rw [htake]
    exact hi.image
  · change [] = (((n.restoreImage msg keepTail).logical.take
      (n.restoreImage msg keepTail).baseIndex).drop
      (n.restoreImage msg keepTail).baseIndex).map Entry.command
    rw [htake, List.drop_of_length_le hl.base.le, List.map_nil]

end RaftVerified
