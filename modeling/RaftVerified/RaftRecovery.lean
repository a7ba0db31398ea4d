import RaftVerified.RaftConfiguration
import RaftVerified.RaftFollower

/-! A node that compacts its log and crashes afterwards comes back, once it has learnt its
commit index again, with the state machine and the voters it had. -/
namespace RaftVerified

variable {n m : RaftNode} {x y z : Exec}

namespace RaftNode

/-- The state machine of the snapshot, or an empty one. -/
def image (n : RaftNode) : KVStateMachine :=
  match n.snapshot with
  | some snapshot => .restore snapshot.store snapshot.sessions
  | none => {}

/-- The configuration in force below the log, and its index. -/
def baseConfig (n : RaftNode) : List NodeId × ℕ :=
  match n.snapshot with
  | some snapshot => (snapshot.voters, snapshot.lastIndex)
  | none => (n.initialVoters, 0)

theorem rebuildConfig_eq (n : RaftNode) : n.rebuildConfig = n.adoptConfig
    (scanConfig n.baseConfig (n.baseIndex+1) n.log).1
    (scanConfig n.baseConfig (n.baseIndex+1) n.log).2 := rfl

/-! ### Configurations -/

/-- Where a scan starts to count does not matter for the voters. -/
theorem scanConfig_voters (cur : List NodeId × ℕ) (k index index' : ℕ) (entries : List Entry) :
    (scanConfig (cur.1, k) index' entries).1 = (scanConfig cur index entries).1 := by
  induction entries using List.reverseRecOn with
  | nil => rfl
  | append_singleton entries e ih =>
    rw [scanConfig_append, scanConfig_append]
    cases decodeConfig e.command with
    | some decoded => rfl
    | none => exact ih

theorem scanConfig_split (cur : List NodeId × ℕ) (index : ℕ) (xs ys : List Entry) :
    scanConfig cur index (xs ++ ys) =
      scanConfig (scanConfig cur index xs) (index+xs.length) ys := by
  induction ys using List.reverseRecOn with
  | nil =>
    rw [List.append_nil]
    rfl
  | append_singleton ys e ih =>
    rw [← List.append_assoc, scanConfig_append, scanConfig_append, ih, List.length_append,
      Nat.add_assoc]

/-- Searching downwards from an entry finds what scanning up to it has found last. -/
theorem configBelow_scan {k : ℕ} (h : k ≤ n.log.length) : n.configBelow k =
    .ok (scanConfig n.baseConfig (n.baseIndex+1) (n.log.take k)).1 := by
  induction k with
  | zero =>
    unfold configBelow baseConfig
    rw [List.take_zero]
    cases n.snapshot with
    | some snapshot => rfl
    | none => rfl
  | succ k ih =>
    have hget : pyGet n.log (k : ℕ) = .ok n.log[k] :=
      (pyGet_eq_ok _ _ _).mpr (List.getElem?_eq_getElem h)
    rw [List.take_succ_eq_append_getElem h, scanConfig_append]
    refine bind_ok.mpr ⟨_, hget, ?_⟩
    cases decodeConfig n.log[k].command with
    | some decoded => rfl
    | none => exact ih (Nat.le_of_succ_le h)

end RaftNode
open RaftNode

/-! ### What the persistent state says -/

/-- The snapshot stands for everything below the base, and the volatile state is what it and
the log come to. -/
structure Restorable (n : RaftNode) : Prop where
  absent : n.baseIndex = 0 → n.snapshot = none
  present : n.baseIndex ≠ 0 →
    ∃ s, n.snapshot = some s ∧ s.lastIndex = n.baseIndex ∧ s.lastTerm = n.baseTerm
  voters : n.voters = n.rebuildConfig.voters
  kv : n.kv = n.image.run (n.log.take (n.lastApplied-n.baseIndex))
  base_le : n.baseIndex ≤ n.lastApplied
  settled : n.lastApplied = n.commitIndex
  commit_le : n.commitIndex ≤ n.lastLogIndex

theorem Restorable.length (h : Restorable n) : n.lastApplied-n.baseIndex ≤ n.log.length := by
  have hle := h.commit_le
  have hset := h.settled
  unfold lastLogIndex at hle
  omega

/-- The configuration at the boundary and the entries above it give the voters there were. -/
theorem compactTo_voters (h : Restorable n) (lastTerm : ℕ) : n.voters =
    (n.compactTo n.lastApplied lastTerm (scanConfig n.baseConfig (n.baseIndex+1)
      (n.log.take (n.lastApplied-n.baseIndex))).1).rebuildConfig.voters := by
  rw [h.voters, rebuildConfig_eq, rebuildConfig_eq]
  change (scanConfig n.baseConfig (n.baseIndex+1) n.log).1 =
    (scanConfig (_, n.lastApplied) (n.lastApplied+1)
      (n.log.drop (n.lastApplied-n.baseIndex))).1
  rw [scanConfig_voters (scanConfig n.baseConfig (n.baseIndex+1)
      (n.log.take (n.lastApplied-n.baseIndex))) _
      (n.baseIndex+1+(n.log.take (n.lastApplied-n.baseIndex)).length), ← scanConfig_split,
    List.take_append_drop]

theorem compactTo_restorable (h : Restorable n) (hlt : n.baseIndex < n.lastApplied)
    (lastTerm : ℕ) : Restorable (n.compactTo n.lastApplied lastTerm
      (scanConfig n.baseConfig (n.baseIndex+1) (n.log.take (n.lastApplied-n.baseIndex))).1) where
  absent h0 := absurd h0 (Nat.ne_of_gt (Nat.zero_lt_of_lt hlt))
  present _ := ⟨_, rfl, rfl, rfl⟩
  voters := compactTo_voters h lastTerm
  kv := by
    change n.kv = n.kv.run ((n.log.drop _).take (n.lastApplied-n.lastApplied))
    rw [Nat.sub_self, List.take_zero]
    rfl
  base_le := le_rfl
  settled := h.settled
  commit_le := by
    have hle := h.commit_le
    have hlen := h.length
    unfold lastLogIndex at hle ⊢
    change n.commitIndex ≤ n.lastApplied+(n.log.drop _).length
    rw [List.length_drop]
    omega

/-! ### Compaction -/

/-- What compaction leaves as it is: the end of the log, and everything from the new base
upwards. -/
structure KeepsTail (n m : RaftNode) : Prop where
  last : m.lastLogIndex = n.lastLogIndex
  term : ∀ k, m.baseIndex ≤ k → k ≤ n.lastLogIndex → m.termAt k = n.termAt k
  entry : ∀ k, m.baseIndex < k → m.entryAt k = n.entryAt k
  suffix : ∀ k, m.baseIndex < k → m.logSuffix k = n.logSuffix k

theorem KeepsTail.refl (n : RaftNode) : KeepsTail n n :=
  ⟨rfl, fun _ _ _ => rfl, fun _ _ => rfl, fun _ _ => rfl⟩

theorem compactTo_keepsTail {upto lastTerm : ℕ} (hb : n.baseIndex < upto)
    (hu : upto ≤ n.lastLogIndex) (ht : n.termAt upto = .ok lastTerm) (voters : List NodeId) :
    KeepsTail n (n.compactTo upto lastTerm voters) := by
  have hentry : ∀ k, upto < k → (n.compactTo upto lastTerm voters).entryAt k = n.entryAt k := by
    intro k hk
    have hget : (n.compactTo upto lastTerm voters).log[k-upto-1]? =
        n.log[k-n.baseIndex-1]? := by
      change (n.log.drop (upto-n.baseIndex))[k-upto-1]? = _
      rw [List.getElem?_drop]
      congr 1
      omega
    unfold entryAt
    rw [phys_of_lt (n := n.compactTo upto lastTerm voters) hk, phys_of_lt (hb.trans hk),
      pyGet_of_nonneg, pyGet_of_nonneg, ← hget]
    rfl
  refine ⟨?_, ?_, hentry, ?_⟩
  · unfold lastLogIndex at hu ⊢
    change upto+(n.log.drop (upto-n.baseIndex)).length = _
    rw [List.length_drop]
    omega
  · intro k hk _
    rcases Nat.eq_or_lt_of_le hk with rfl | hk
    -- at the new base it is the term that was read there
    · exact (if_pos le_rfl).trans ht.symm
    · rw [termAt_log hk, termAt_log (hb.trans hk), hentry k hk]
  · intro k hk
    unfold logSuffix
    rw [phys_of_lt (n := n.compactTo upto lastTerm voters) hk, phys_of_lt (hb.trans hk)]
    change (n.log.drop (upto-n.baseIndex)).drop _ = _
    rw [List.drop_drop]
    congr 1
    change upto-n.baseIndex+(max 0 ((k-upto-1 : ℕ) : ℤ)).toNat = _
    have hbase : (n.compactTo upto lastTerm voters).baseIndex = upto := rfl
    omega

namespace Exec

/-- Compaction does not fail, and the node stays one that can be restored. -/
theorem maybeCompact_restorable (h : Restorable x.node) : ∃ y, x.maybeCompact = .ok y ∧
    Restorable y.node ∧ KeepsTail x.node y.node ∧ y.node.kv = x.node.kv ∧
    y.node.voters = x.node.voters ∧ y.node.commitIndex = x.node.commitIndex := by
  unfold maybeCompact
  dsimp only
  split
  · exact ⟨x, rfl, h, KeepsTail.refl _, rfl, rfl, rfl⟩
  next hth =>
    push Not at hth
    have hlt : x.node.baseIndex < x.node.lastApplied := by omega
    have hle : x.node.lastApplied ≤ x.node.lastLogIndex := h.settled ▸ h.commit_le
    have hlen := h.length
    have hget := List.getElem?_eq_getElem
      (show x.node.lastApplied-x.node.baseIndex-1 < x.node.log.length by omega)
    have hterm : x.node.termAt x.node.lastApplied =
        .ok (x.node.log[x.node.lastApplied-x.node.baseIndex-1]).term := by
      rw [termAt_log hlt, (entryAt_log hlt).mpr hget]
      rfl
    rw [hterm, configAt, configBelow_scan hlen]
    exact ⟨_, rfl, compactTo_restorable h hlt _, compactTo_keepsTail hlt hle hterm _, rfl, rfl,
      rfl⟩

end Exec

/-! ### Recovery -/

/-- The node after a crash and a restart. -/
def restarted (n : RaftNode) : Exec := ({ node := n.pause } : Exec).resume

/-- A restarted node has what its snapshot gives, and its voters. -/
theorem restarted_restorable (h : Restorable n) : Restorable (restarted n).node ∧
    (restarted n).node.voters = n.voters ∧ (restarted n).node.log = n.log ∧
    (restarted n).node.baseIndex = n.baseIndex ∧ (restarted n).node.kv = n.image ∧
    (restarted n).node.image = n.image ∧ (restarted n).node.lastApplied = n.baseIndex := by
  have hlast : (restarted n).node.lastApplied = n.baseIndex ∧
      (restarted n).node.commitIndex = n.baseIndex := by
    change (match n.snapshot with
        | some snapshot => snapshot.lastIndex
        | none => 0) = n.baseIndex ∧ (match n.snapshot with
        | some snapshot => snapshot.lastIndex
        | none => 0) = n.baseIndex
    by_cases h0 : n.baseIndex = 0
    · rw [h.absent h0, h0]
      exact ⟨rfl, rfl⟩
    · obtain ⟨s, hs, hindex, -⟩ := h.present h0
      rw [hs]
      exact ⟨hindex, hindex⟩
  refine ⟨⟨h.absent, h.present, rfl, ?_, ?_, ?_, ?_⟩, h.voters.symm, rfl, rfl, rfl, rfl, hlast.1⟩
  · rw [hlast.1]
    change n.image = n.image.run (n.log.take (n.baseIndex-n.baseIndex))
    rw [Nat.sub_self, List.take_zero]
    rfl
  · rw [hlast.1]
    exact le_rfl
  · rw [hlast.1, hlast.2]
  · rw [hlast.2]
    exact Nat.le_add_right _ _

/-- Advanced to the old commit index, it has the state machine it had. -/
theorem restarted_recovers (h : Restorable n) : ∃ z,
    (restarted n).setCommitIndex n.commitIndex = .ok z ∧ Restorable z.node ∧
      z.node.kv = n.kv ∧ z.node.voters = n.voters ∧ z.node.commitIndex = n.commitIndex := by
  obtain ⟨hr, hvoters, hlog, hbase, hkv, himage, hlast⟩ := restarted_restorable h
  have hle : n.baseIndex ≤ n.commitIndex := h.settled ▸ h.base_le
  have hcommit : (restarted n).node.commitIndex = n.baseIndex := hr.settled.symm.trans hlast
  unfold Exec.setCommitIndex
  split
  -- everything that was committed is in the snapshot
  next hdone =>
    rw [hcommit] at hdone
    refine ⟨_, rfl, hr, ?_, hvoters, hcommit.trans (le_antisymm hle hdone)⟩
    rw [hkv, h.kv, h.settled, Nat.sub_eq_zero_of_le hdone, List.take_zero]
    rfl
  next hmore =>
    rw [hcommit] at hmore
    have hend : n.commitIndex ≤ n.lastLogIndex := h.commit_le
    obtain ⟨y, applied, hy, hnode, -⟩ := Exec.applyLoop_replays
      (x := (restarted n).committing n.commitIndex) (n.commitIndex-n.baseIndex)
      (hlast.ge.trans' hbase.le) (by
        change (restarted n).node.lastApplied+_ ≤ (restarted n).node.baseIndex+
          (restarted n).node.log.length
        rw [hlast, hbase, hlog]
        unfold lastLogIndex at hend
        omega)
    change y.node = { (restarted n).node with
      commitIndex := n.commitIndex
      lastApplied := (restarted n).node.lastApplied+(n.commitIndex-n.baseIndex)
      applied := applied
      kv := (restarted n).node.kv.run (((restarted n).node.log.drop
        ((restarted n).node.lastApplied-(restarted n).node.baseIndex)).take
          (n.commitIndex-n.baseIndex)) } at hnode
    rw [hlast, hbase, hlog, hkv, Nat.sub_self, List.drop_zero, Nat.add_sub_cancel' hle] at hnode
    have hnkv : n.image.run (n.log.take (n.commitIndex-n.baseIndex)) = n.kv := by
      rw [h.kv, h.settled]
    have hy' : Restorable y.node := by
      rw [hnode]
      refine ⟨h.absent, h.present, hr.voters, ?_, ?_, rfl, ?_⟩
      · change n.image.run _ = n.image.run ((restarted n).node.log.take
          (n.commitIndex-(restarted n).node.baseIndex))
        rw [hlog, hbase]
      · change (restarted n).node.baseIndex ≤ n.commitIndex
        rwa [hbase]
      · change n.commitIndex ≤ (restarted n).node.baseIndex+(restarted n).node.log.length
        rwa [hbase, hlog]
    obtain ⟨z, hz, hrest, -, hzkv, hzvoters, hzcommit⟩ := Exec.maybeCompact_restorable hy'
    refine ⟨z, ?_, hrest, ?_, ?_, ?_⟩
    · change (((restarted n).committing n.commitIndex).applyLoop
        (n.commitIndex-(restarted n).node.lastApplied) >>= Exec.maybeCompact) = _
      rw [hlast, hy]
      exact hz
    · rw [hzkv, hnode]
      exact hnkv
    · rw [hzvoters, hnode]
      exact hvoters
    · rw [hzcommit, hnode]

/-- Compaction keeps all that a restart builds on, reads above the new base are what they
were, and a crash before or after it is recovered from. -/
theorem compaction_recovers (n : RaftNode) (h : Restorable n) :
    ∃ y, ({ node := n } : Exec).maybeCompact = .ok y ∧ Restorable y.node ∧
      y.node.commitIndex = n.commitIndex ∧
      (∀ k, y.node.baseIndex ≤ k → k ≤ n.lastLogIndex → y.node.termAt k = n.termAt k) ∧
      (∀ k, y.node.baseIndex < k → y.node.entryAt k = n.entryAt k ∧
        y.node.logSuffix k = n.logSuffix k) ∧
      ∀ m, m = n ∨ m = y.node → ∃ z, (restarted m).setCommitIndex n.commitIndex = .ok z ∧
        z.node.kv.store = n.kv.store ∧ z.node.kv.sessions = n.kv.sessions ∧
        z.node.voters = n.voters := by
  obtain ⟨y, hy, hrest, htail, hkv, hvoters, hcommit⟩ :=
    Exec.maybeCompact_restorable (x := { node := n }) h
  refine ⟨y, hy, hrest, hcommit, htail.term, fun k hk => ⟨htail.entry k hk, htail.suffix k hk⟩,
    ?_⟩
  rintro m (rfl | rfl)
  · obtain ⟨z, hz, -, hzkv, hzvoters, -⟩ := restarted_recovers h
    exact ⟨z, hz, by rw [hzkv], by rw [hzkv], hzvoters⟩
  · obtain ⟨z, hz, -, hzkv, hzvoters, -⟩ := restarted_recovers hrest
    rw [hcommit] at hz
    exact ⟨z, hz, by rw [hzkv, hkv], by rw [hzkv, hkv], hzvoters.trans hvoters⟩

/-- Two entries are committed, and the uncommitted removal of a server is in force. -/
def removing : RaftNode :=
  let log : List Entry := [⟨1, "1:0:put:x:a:".toList⟩, ⟨1, "cfg:0,1,2".toList⟩,
    ⟨1, "cfg:0,1".toList⟩]
  { RaftNode.new 0 [1, 2, 3] { snapshotThreshold := 2 } NO_BUGS none with
    term := 1
    log
    voters := [0, 1]
    configIndex := 3
    commitIndex := 2
    lastApplied := 2
    kv := KVStateMachine.run {} (log.take 2) }

theorem removing_recovers : ∃ y z, ({ node := removing } : Exec).maybeCompact = .ok y ∧
    (y.node.snapshot.map Snapshot.voters) = some [0, 1, 2] ∧
    (restarted y.node).setCommitIndex 2 = .ok z ∧ z.node.kv.store = removing.kv.store ∧
    z.node.voters = [0, 1] := by
  have h : Restorable removing :=
    ⟨fun _ => rfl, fun h0 => absurd rfl h0, by decide +kernel, rfl, Nat.zero_le _, rfl,
      by decide +kernel⟩
  obtain ⟨y, hy, -, -, -, -, hrec⟩ := compaction_recovers removing h
  obtain ⟨z, hz, hstore, -, hvoters⟩ := hrec y.node (Or.inr rfl)
  refine ⟨y, z, hy, ?_, hz, hstore, hvoters⟩
  have hsnap : (({ node := removing } : Exec).maybeCompact.map
      fun y => y.node.snapshot.map Snapshot.voters) = .ok (some [0, 1, 2]) := by decide +kernel
  rw [hy] at hsnap
  exact Except.ok.inj hsnap

end RaftVerified
