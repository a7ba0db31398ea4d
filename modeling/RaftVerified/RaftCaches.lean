import RaftVerified.RaftLedger
import RaftVerified.RaftChecking

/-! The checker without its caches, and that the caches change nothing it reports: a cache
entry stands for a test that has passed on logs of the same version. -/
namespace RaftVerified

variable {ck ck' : InvariantChecker} {nodes nodes' : NodeId → RaftNode} {ids : List NodeId}
  {step : ℕ} {n m : RaftNode} {i j : NodeId}

namespace InvariantChecker

/-! ### The tests without their caches -/

/-- `_check_leader_append_only` without the comparison of versions. -/
def recheckAppendOnly (step : ℕ) (ck : InvariantChecker) (i : NodeId) (n : RaftNode) :
    Except RunError InvariantChecker :=
  if n.role ≠ .leader then .ok { ck with leaderSnapshot := ck.leaderSnapshot.erase i }
  else
    let cur := (n.term, n.logVersion, n.baseIndex, n.log)
    match ck.leaderSnapshot.lookup i with
    | none => .ok { ck with leaderSnapshot := ck.leaderSnapshot.insert i cur }
    | some (term, _, oldBase, oldLog) =>
      if term ≠ n.term then .ok { ck with leaderSnapshot := ck.leaderSnapshot.insert i cur }
      else do
        let mutated ← raises (mutated oldBase oldLog n)
        if mutated then
          ck.fail (.leaderAppendOnly n.id n.term (oldBase+oldLog.length) n.lastLogIndex) step
        else .ok { ck with leaderSnapshot := ck.leaderSnapshot.insert i cur }

/-- What `_check_log_matching` finds for two logs: the agreed top and the first difference. -/
def matchLogs (a b : RaftNode) : Except PyError (ℕ × Option ℕ) := do
  let lo := max a.baseIndex b.baseIndex+1
  let hi := min a.lastLogIndex b.lastLogIndex
  let top ← agreedTop a b (pyRange lo (hi+1)).reverse
  let found ← divergence a b (pyRange lo (top+1))
  .ok (top, found)

/-- `_check_log_matching` without `_pair_checked`. -/
def recheckPair (step : ℕ) (ck : InvariantChecker) (a b : RaftNode) :
    Except RunError InvariantChecker := do
  let r ← raises (matchLogs a b)
  match r.2 with
  | some idx => ck.fail (.logMatching a.id b.id r.1 idx) step
  | none => .ok ck

/-- `_check_leader_completeness` without `_completeness_checked`. -/
def recheckCompleteness (step : ℕ) (ck : InvariantChecker) (n : RaftNode) :
    Except RunError InvariantChecker :=
  if n.role ≠ .leader then .ok ck
  else do
    ck.checkCommitted step n (ck.committed.keys.sort (· ≤ ·))
    .ok ck

/-- `check` with the three tests run in full every time. -/
def recheck (ck : InvariantChecker) (nodes : NodeId → RaftNode) (ids : List NodeId) (step : ℕ) :
    Except RunError InvariantChecker := do
  let ck := { ck with checksRun := ck.checksRun+1 }
  let ck := ck.handleRestarts nodes ids
  let ck ← checkElectionSafety nodes ids step ck
  let ck ← ids.foldlM (fun ck i => ck.recheckAppendOnly step i (nodes i)) ck
  let ck ← (pairs ids).foldlM (fun ck p => ck.recheckPair step (nodes p.1) (nodes p.2)) ck
  let ck ← observeCommits nodes ids step ck
  let ck ← ids.foldlM (fun ck i => ck.recheckCompleteness step (nodes i)) ck
  checkStateMachineSafety nodes ids step ck

/-- The checker without what only its caches hold. -/
def uncached (ck : InvariantChecker) : InvariantChecker :=
  { ck with pairChecked := ∅, completenessChecked := ∅ }

section
variable (ck : InvariantChecker)

@[simp] theorem uncached_committed : ck.uncached.committed = ck.committed := rfl

@[simp] theorem uncached_maxCommit : ck.uncached.maxCommit = ck.maxCommit := rfl

@[simp] theorem uncached_prevCommit : ck.uncached.prevCommit = ck.prevCommit := rfl

@[simp] theorem uncached_appliedSeen : ck.uncached.appliedSeen = ck.appliedSeen := rfl

@[simp] theorem uncached_leaderSnapshot : ck.uncached.leaderSnapshot = ck.leaderSnapshot := rfl

end

/-! ### Tests that have no cache -/

theorem handleRestart_uncached (ck : InvariantChecker) (i : NodeId) (n : RaftNode) :
    (ck.handleRestart i n).uncached = ck.uncached.handleRestart i n :=
  apply_ite uncached _ _ _

theorem handleRestarts_uncached (ck : InvariantChecker) (nodes : NodeId → RaftNode)
    (ids : List NodeId) :
    (ck.handleRestarts nodes ids).uncached = ck.uncached.handleRestarts nodes ids := by
  induction ids generalizing ck with
  | nil => rfl
  | cons i rest ih =>
    change ((ck.handleRestart i (nodes i)).handleRestarts nodes rest).uncached = _
    rw [ih, handleRestart_uncached]
    rfl

theorem checkElectionSafety_uncached (ck : InvariantChecker) :
    (checkElectionSafety nodes ids step ck).map uncached =
      checkElectionSafety nodes ids step ck.uncached := by
  refine foldlM_through (fun t i => ?_) ids ck
  unfold checkLeader
  split
  · exact apply_ite (Except.map uncached) _ _ _
  · rfl

theorem observeIndex_uncached (ck : InvariantChecker) (idx : ℕ) :
    (observeIndex nodes ids step n ck idx).map uncached =
      observeIndex nodes ids step n ck.uncached idx := by
  unfold observeIndex
  rw [map_bind]
  congr 1
  funext entry
  have hnote : (ck.noteCommit step n idx entry).map uncached =
      ck.uncached.noteCommit step n idx entry := by
    unfold noteCommit
    rw [uncached_committed]
    cases ck.committed.lookup idx with
    | none => rfl
    | some known => exact apply_ite (Except.map uncached) _ _ _
  rw [map_bind, ← hnote, bind_map]
  congr 1
  funext c
  unfold checkQuorum
  rw [uncached_maxCommit]
  split
  · rw [map_bind]
    congr 1
    funext holders
    exact apply_ite (Except.map uncached) _ _ _
  · rfl

theorem observeCommits_uncached (ck : InvariantChecker) :
    (observeCommits nodes ids step ck).map uncached =
      observeCommits nodes ids step ck.uncached := by
  refine foldlM_through (fun t i => ?_) ids ck
  unfold observeNode
  rw [uncached_prevCommit]
  dsimp only
  split
  · rfl
  · rw [map_bind]
    have hloop : ∀ indices : List ℕ,
        (indices.foldlM (observeIndex nodes ids step (nodes i)) t).map uncached =
          indices.foldlM (observeIndex nodes ids step (nodes i)) t.uncached := fun indices =>
      foldlM_through observeIndex_uncached indices t
    rw [← hloop, bind_map]
    rfl

theorem checkStateMachineSafety_uncached (ck : InvariantChecker) :
    (checkStateMachineSafety nodes ids step ck).map uncached =
      checkStateMachineSafety nodes ids step ck.uncached := by
  refine foldlM_through (fun t i => ?_) ids ck
  unfold checkStateMachine
  rw [uncached_appliedSeen]
  dsimp only
  rw [map_bind]
  have hone : ∀ (c : InvariantChecker) (logical : ℕ),
      (checkApplied step (nodes i) c logical).map uncached =
        checkApplied step (nodes i) c.uncached logical := by
    intro c logical
    unfold checkApplied
    rw [map_bind]
    congr 1
    funext cmd
    exact apply_ite (Except.map uncached) _ _ _
  have hloop : ∀ places : List ℕ,
      (places.foldlM (checkApplied step (nodes i)) t).map uncached =
        places.foldlM (checkApplied step (nodes i)) t.uncached := fun places =>
    foldlM_through hone places t
  rw [← hloop, bind_map]
  rfl

/-! ### What the tests depend on -/

theorem entryAt_congr (hlog : m.log = n.log) (hbase : m.baseIndex = n.baseIndex) (idx : ℕ) :
    m.entryAt idx = n.entryAt idx := by
  unfold RaftNode.entryAt RaftNode.phys
  rw [hlog, hbase]

theorem termAt_congr (hlog : m.log = n.log) (hbase : m.baseIndex = n.baseIndex) {idx : ℕ}
    (hidx : n.baseIndex < idx) : m.termAt idx = n.termAt idx := by
  unfold RaftNode.termAt RaftNode.phys
  rw [if_neg (by omega), if_neg (by omega), hlog, hbase]

theorem agreedTop_congr {a b a' b' : RaftNode} (ha : a'.log = a.log)
    (ha' : a'.baseIndex = a.baseIndex) (hb : b'.log = b.log) (hb' : b'.baseIndex = b.baseIndex)
    (xs : List ℕ) (hxs : ∀ idx ∈ xs, a.baseIndex < idx ∧ b.baseIndex < idx) :
    agreedTop a' b' xs = agreedTop a b xs := by
  induction xs with
  | nil => rfl
  | cons idx rest ih =>
    obtain ⟨hia, hib⟩ := hxs idx List.mem_cons_self
    unfold agreedTop
    rw [termAt_congr ha ha' hia, termAt_congr hb hb' hib,
      ih fun k hk => hxs k (List.mem_cons_of_mem idx hk)]

theorem divergence_congr {a b a' b' : RaftNode} (ha : a'.log = a.log)
    (ha' : a'.baseIndex = a.baseIndex) (hb : b'.log = b.log) (hb' : b'.baseIndex = b.baseIndex)
    (xs : List ℕ) : divergence a' b' xs = divergence a b xs := by
  induction xs with
  | nil => rfl
  | cons idx rest ih =>
    unfold divergence
    rw [entryAt_congr ha ha', entryAt_congr hb hb', ih]

/-- What the test of a pair finds depends on the two logs and their bases only. -/
theorem matchLogs_congr {a b a' b' : RaftNode} (ha : a'.log = a.log)
    (ha' : a'.baseIndex = a.baseIndex) (hb : b'.log = b.log)
    (hb' : b'.baseIndex = b.baseIndex) : matchLogs a' b' = matchLogs a b := by
  unfold matchLogs RaftNode.lastLogIndex
  rw [ha, ha', hb, hb']
  dsimp only
  rw [agreedTop_congr ha ha' hb hb']
  · congr 1
    funext top
    rw [divergence_congr ha ha' hb hb']
  · intro idx hidx
    have hle := (mem_pyRange.mp (List.mem_reverse.mp hidx)).1
    omega

theorem lacks_congr (hterm : m.term = n.term) (hlog : m.log = n.log)
    (hbase : m.baseIndex = n.baseIndex) (idx : ℕ) (known : Entry × ℕ) :
    lacks m idx known = lacks n idx known := by
  unfold lacks RaftNode.lastLogIndex
  rw [entryAt_congr hlog hbase, hterm, hlog, hbase]

/-- The node has every committed entry it has to have. -/
def Complete (committed : Dict ℕ (Entry × ℕ)) (n : RaftNode) : Prop :=
  ∀ idx known, committed.lookup idx = some known → lacks n idx known = .ok false

theorem checkCommitted_eq {known : Dict ℕ (Entry × ℕ)} (hk : ck.committed = known)
    (xs : List ℕ) : ck.checkCommitted step n xs = .ok () ↔
      ∀ idx ∈ xs, ∀ e, known.lookup idx = some e → lacks n idx e = .ok false := by
  induction xs with
  | nil => exact ⟨fun _ => nofun, fun _ => rfl⟩
  | cons idx rest ih =>
    rw [List.forall_mem_cons, ← ih, checkCommitted, hk]
    cases hl : known.lookup idx with
    | none => exact ⟨fun h => ⟨nofun, h⟩, fun h => h.2⟩
    | some e =>
      constructor
      · intro h
        obtain ⟨missing, hmis, h⟩ := bind_ok.mp h
        cases missing with
        | true => cases h
        | false =>
          refine ⟨?_, h⟩
          rintro f hf
          obtain rfl := Option.some.inj hf
          exact raises_ok.mp hmis
      · rintro ⟨he, hrest⟩
        exact bind_ok.mpr ⟨false, raises_ok.mpr (he e rfl), hrest⟩

theorem checkCommitted_complete : ck.checkCommitted step n (ck.committed.keys.sort (· ≤ ·)) = .ok ()
    ↔ Complete ck.committed n := by
  rw [checkCommitted_eq rfl]
  constructor
  · intro h idx known hk
    refine h idx ?_ known hk
    rw [Finset.mem_sort, Finmap.mem_keys]
    exact Finmap.mem_of_lookup_eq_some hk
  · exact fun h idx _ e he => h idx e he

theorem checkCommitted_uncached (ck : InvariantChecker) (n : RaftNode) (xs : List ℕ) :
    ck.uncached.checkCommitted step n xs = ck.checkCommitted step n xs := by
  induction xs with
  | nil => rfl
  | cons idx rest ih =>
    rw [checkCommitted, checkCommitted, uncached_committed, ih]
    rfl

end InvariantChecker
end RaftVerified
