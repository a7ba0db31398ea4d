import RaftVerified.RaftIndices

/-! A node whose log, base and snapshot fit together reads no index that it does not have, also
when it commits, applies and compacts. -/
namespace RaftVerified
open Consensus

variable {c : Setup} {n m : RaftNode} {x y : Exec}

/-- The log starts at the base, the snapshot stands at the base, and what has been applied and
committed is in the log. -/
structure Shaped (n : RaftNode) : Prop where
  base : n.folded.length = n.baseIndex
  baseTerm : ∀ k e, n.baseIndex = k+1 → n.logical[k]? = some e → n.baseTerm = e.term
  snapshot : 0 < n.baseIndex → ∃ s, n.snapshot = some s ∧ s.lastIndex = n.baseIndex ∧
    s.lastTerm = n.baseTerm ∧ s.folded = n.folded
  base_le : n.baseIndex ≤ n.lastApplied
  applied_le : n.lastApplied ≤ n.commitIndex
  commit_le : n.commitIndex ≤ n.lastLogIndex

/-- The fields that this is about. -/
def RaftNode.shape (n : RaftNode) :=
  (n.folded, n.log, n.baseIndex, n.baseTerm, n.snapshot, n.lastApplied, n.commitIndex)

theorem Shaped.congr (h : Shaped n) (hm : m.shape = n.shape) : Shaped m := by
  simp only [RaftNode.shape, Prod.mk.injEq] at hm
  obtain ⟨hfold, hlog, hbase, hterm, hsnap, happ, hcom⟩ := hm
  have hlogical : m.logical = n.logical := by rw [RaftNode.logical, hfold, hlog, RaftNode.logical]
  have hlast : m.lastLogIndex = n.lastLogIndex := by
    rw [RaftNode.lastLogIndex, hbase, hlog, RaftNode.lastLogIndex]
  refine ⟨?_, ?_, ?_, ?_, ?_, ?_⟩
  · rw [hfold, hbase]
    exact h.base
  · rw [hbase, hterm, hlogical]
    exact h.baseTerm
  · rw [hbase, hsnap, hterm, hfold]
    exact h.snapshot
  · rw [hbase, happ]
    exact h.base_le
  · rw [happ, hcom]
    exact h.applied_le
  · rw [hcom, hlast]
    exact h.commit_le

/-- So is every node of a run. -/
theorem NodeOk.shaped (h : NodeOk c n) : Shaped n where
  base := h.base
  baseTerm k e hk he := by
    have hlen : k < n.folded.length := by
      rw [h.base, hk]
      exact Nat.lt_succ_self k
    rw [RaftNode.logical, List.getElem?_append_left hlen] at he
    rw [← h.base_term]
    exact c.reading.lastTerm_of_getElem? he (h.base.trans hk)
  snapshot hpos := by
    cases hs : n.snapshot with
    | none =>
      have hbase := h.base
      rw [h.no_snapshot hs, List.length_nil] at hbase
      omega
    | some s =>
      obtain ⟨hfold, himage⟩ := h.snapshot s hs
      refine ⟨s, rfl, ?_, ?_, hfold⟩
      · rw [← himage.index, hfold, h.base]
      · rw [← himage.term, hfold, h.base_term]
  base_le := h.base_le
  applied_le := h.applied_le
  commit_le := (RaftNode.length_logical h.base) ▸ h.commit_le

theorem Shaped.length (h : Shaped n) : n.logical.length = n.lastLogIndex :=
  RaftNode.length_logical h.base

/-- From the base upwards the terms are those of the log. -/
theorem Shaped.termAt (h : Shaped n) {k : ℕ} {e : Entry} (hk : n.baseIndex ≤ k+1)
    (he : n.logical[k]? = some e) : n.termAt (k+1) = .ok e.term := by
  rcases Nat.lt_or_ge k n.baseIndex with hlt | hge
  · rw [(RaftNode.termAt_base hlt).mpr (h.baseTerm k e (by omega) he)]
  · exact (RaftNode.termAt_eq h.base hge).mpr ⟨e, he, rfl⟩

theorem Shaped.take_base (h : Shaped n) : n.logical.take n.baseIndex = n.folded := by
  rw [RaftNode.logical, List.take_append_of_le_length h.base.ge, ← h.base, List.take_length]

/-- Edits of the log do not reach below the base. -/
theorem Shaped.edited (h : Shaped n) (hed : n.Edited m) (hle : n.commitIndex ≤ m.lastLogIndex) :
    Shaped m := by
  obtain ⟨log, voters, configIndex, logVersion, rfl⟩ := hed
  refine ⟨h.base, fun k e hk he => h.baseTerm k e hk ?_, h.snapshot, h.base_le, h.applied_le, hle⟩
  have hlen : k < n.folded.length := by
    rw [h.base]
    exact Nat.lt_of_succ_le hk.ge
  change (n.folded ++ log)[k]? = some e at he
  rw [List.getElem?_append_left hlen] at he
  rw [RaftNode.logical, List.getElem?_append_left hlen, he]

theorem Shaped.compactTo (h : Shaped n) {lastTerm : ℕ} (ht : n.termAt n.lastApplied = .ok lastTerm)
    (voters : List NodeId) : Shaped (n.compactTo n.lastApplied lastTerm voters) := by
  obtain ⟨hfold, hlogical⟩ := compactTo_logical h.base h.base_le lastTerm voters
  have hle := h.applied_le.trans h.commit_le
  have hlen : (n.compactTo n.lastApplied lastTerm voters).folded.length = n.lastApplied := by
    rw [hfold, List.length_take, h.length, min_eq_left hle]
  refine ⟨hlen, ?_, fun _ => ⟨_, rfl, rfl, rfl, rfl⟩, le_rfl, h.applied_le, ?_⟩
  · intro k e hk he
    change n.lastApplied = k+1 at hk
    rw [hlogical] at he
    have hterm := h.termAt (hk ▸ h.base_le) he
    rw [← hk, ht] at hterm
    exact Except.ok.inj hterm
  · rw [← RaftNode.length_logical hlen, hlogical, h.length]
    exact h.commit_le

/-! ### Committing -/

/-- The fields that committing does not touch. -/
def RaftNode.seat (n : RaftNode) :=
  (n.id, n.alive, n.role, n.term, n.bugs, n.voters, n.nextIndex, n.matchIndex)

/-- Between `x` and `y` a node has committed up to `index` at most. -/
structure Commits (index : ℕ) (x y : Exec) : Prop where
  shaped : Shaped y.node
  seat : y.node.seat = x.node.seat
  logical : y.node.logical = x.node.logical
  base : y.node.baseIndex = x.node.baseIndex ∨ y.node.baseIndex = index
  commit : x.node.commitIndex ≤ y.node.commitIndex
  sends : ∀ i, sends i y.calls = sends i x.calls

theorem Commits.refl (h : Shaped x.node) (index : ℕ) : Commits index x x :=
  ⟨h, rfl, rfl, Or.inl rfl, le_rfl, fun _ => rfl⟩

theorem maybeCompact_shaped (h : Shaped x.node) :
    Returns (Strict.maybeCompact x) x.maybeCompact (Commits x.node.lastApplied x) := by
  have hle := h.applied_le.trans h.commit_le
  unfold Strict.maybeCompact Exec.maybeCompact
  dsimp only
  split
  · exact Returns.ok (Commits.refl h _)
  · obtain ⟨lastTerm, hs, ht, -⟩ := termAt_returns h.base_le hle
    obtain ⟨voters, hv⟩ := Exec.configBelow_total x.node
      (i := x.node.lastApplied-x.node.baseIndex) (by unfold RaftNode.lastLogIndex at hle; omega)
    have hconf : x.node.configAt x.node.lastApplied = .ok voters := hv
    rw [hs, ht]
    dsimp only [bind, Except.bind]
    rw [hconf]
    refine Returns.ok ⟨h.compactTo ht voters, rfl, ?_, Or.inr rfl, le_rfl, ?_⟩
    · exact (compactTo_logical h.base h.base_le lastTerm voters).2
    · exact fun i => Exec.sends_record _ i _

theorem setCommitIndex_shaped {index : ℕ} (h : Shaped x.node) (hl : index ≤ x.node.lastLogIndex) :
    Returns (Strict.setCommitIndex x index) (x.setCommitIndex index) (Commits index x) := by
  unfold Strict.setCommitIndex Exec.setCommitIndex
  split
  next hle => exact Returns.ok (Commits.refl h _)
  next hgt =>
    have happ := h.applied_le
    have hsum : x.node.lastApplied+(index-x.node.lastApplied) = index := by omega
    -- the entries up to the index are applied
    obtain ⟨z, hs, ht, -⟩ := applyLoop_returns (x := x.committing index)
      (index-x.node.lastApplied) h.base_le fun _ => hsum.trans_le hl
    obtain ⟨z', applied, hz', hnode, hsends⟩ := Exec.applyLoop_replays
      (x := x.committing index) (index-x.node.lastApplied) h.base_le (hsum.trans_le hl)
    obtain rfl := Except.ok.inj (ht.symm.trans hz')
    have hlast : z.node.lastApplied = index := by
      rw [hnode]
      exact hsum
    have hcommit : z.node.commitIndex = index := by
      rw [hnode]
      rfl
    have hz : Shaped z.node := by
      refine ⟨?_, ?_, ?_, ?_, (hlast.trans hcommit.symm).le, ?_⟩
      · rw [hnode]
        exact h.base
      · rw [hnode]
        exact h.baseTerm
      · rw [hnode]
        exact h.snapshot
      · rw [hlast, hnode]
        exact h.base_le.trans (by omega)
      · rw [hcommit, hnode]
        exact hl
    refine Returns.bind (P := (· = z)) ⟨z, hs, ht, rfl⟩ ?_
    rintro _ rfl
    refine (maybeCompact_shaped hz).mono fun y hy => ?_
    refine ⟨hy.shaped, hy.seat.trans ?_, hy.logical.trans ?_, ?_, ?_, fun i => ?_⟩
    · rw [hnode]
      rfl
    · rw [hnode]
      rfl
    · refine hy.base.imp (fun hb => hb.trans ?_) fun hb => hb.trans hlast
      rw [hnode]
      rfl
    · have hle := hy.commit
      omega
    · exact (hy.sends i).trans ((hsends i).trans (Exec.sends_record _ i _))

/-- The loop over the indices stops at the end of the log or finds nothing to commit, when no
match index lies between the commit index and the end of the log. -/
theorem advanceCommitFrom_shaped (k : ℕ) (h : Shaped x.node) (hk : k ≤ x.node.lastLogIndex)
    (hgap : ∀ v, (x.node.matchIndex.lookup v).getD 0 ≤ x.node.commitIndex ∨
      x.node.lastLogIndex ≤ (x.node.matchIndex.lookup v).getD 0)
    (hlast : k = x.node.lastLogIndex ∨
      ¬ x.node.voters.length < x.replicas x.node.lastLogIndex*2) :
    Returns (Strict.advanceCommitFrom x k) (x.advanceCommitFrom k)
      (Commits x.node.lastLogIndex x) := by
  induction k with
  | zero => exact Returns.ok (Commits.refl h _)
  | succ k ih =>
    unfold Strict.advanceCommitFrom Exec.advanceCommitFrom
    split
    · exact Returns.ok (Commits.refl h _)
    next hgt =>
      -- what is counted here is counted at the end of the log
      have hcount : x.replicas (k+1) = x.replicas x.node.lastLogIndex := by
        refine List.countP_congr fun v _ => ?_
        rw [decide_eq_true_iff, decide_eq_true_iff]
        have hv := hgap v
        omega
      have hbase := h.base_le.trans h.applied_le
      refine (termAt_returns (by omega) hk).bind fun t _ => ?_
      split
      · exact Returns.ok (Commits.refl h _)
      split
      next hmajority =>
        rw [hcount] at hmajority
        have heq := hlast.resolve_right (not_not.mpr hmajority)
        refine (setCommitIndex_shaped h hk).bind fun y hy => Returns.ok ?_
        rw [heq] at hy
        exact ⟨hy.shaped.congr rfl, hy.seat, hy.logical, hy.base, hy.commit, hy.sends⟩
      next hnone =>
        rw [hcount] at hnone
        exact ih (by omega) (Or.inr hnone)

theorem followCommit_shaped {leaderCommit matchIndex : ℕ} (h : Shaped x.node)
    (hm : matchIndex ≤ x.node.lastLogIndex) :
    Returns (Strict.followCommit x leaderCommit matchIndex)
      (x.followCommit leaderCommit matchIndex) fun y =>
        y.node.folded.length = y.node.baseIndex ∧ y.node.seat = x.node.seat ∧
        y.node.logical = x.node.logical ∧ ∀ i, sends i y.calls = sends i x.calls := by
  unfold Strict.followCommit Exec.followCommit
  split
  · exact Returns.ok ⟨h.base, rfl, rfl, fun _ => rfl⟩
  split
  · have hle := h.commit_le
    refine (setCommitIndex_shaped h ?_).mono fun y hy => ?_
    · omega
    · exact ⟨hy.shaped.base, hy.seat, hy.logical, hy.sends⟩
  · exact Returns.ok ⟨h.base, rfl, rfl, fun _ => rfl⟩

/-! ### Writing entries -/

theorem Strict.appendLoop_eq (entries : List Entry) {k : ℕ} (hb : n.baseIndex ≤ k) :
    Strict.appendLoop n k entries = n.appendLoop k entries := by
  induction entries generalizing n k with
  | nil => rfl
  | cons entry rest ih =>
    unfold Strict.appendLoop RaftNode.appendLoop
    rw [Strict.appendEntry_eq hb]
    cases hm : n.appendEntry (k+1) entry with
    | error err => rfl
    | ok m =>
      obtain ⟨-, hbase, -⟩ := (appendEntry_edited hm).base
      exact ih (by omega)

end RaftVerified
