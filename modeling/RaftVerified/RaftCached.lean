import RaftVerified.RaftCaches

/-! The invariant of the caches, and the cached checker as the cache-free one: they raise at
the same step for the same reason, whatever the nodes go through between two checks. -/
namespace RaftVerified

variable {ck ck' : InvariantChecker} {nodes nodes' : NodeId → RaftNode} {ids : List NodeId}
  {step : ℕ} {n m : RaftNode} {i j : NodeId}

namespace InvariantChecker

/-- A remembered version of a node, which is gone or has this log and base. -/
structure Stands (version base : ℕ) (log : List Entry) (n : RaftNode) : Prop where
  le : version ≤ n.logVersion
  same : version = n.logVersion → n.log = log ∧ n.baseIndex = base

/-- Every cache entry stands for a test that passes as long as its versions last. -/
structure CachesOk (ck : InvariantChecker) (nodes : NodeId → RaftNode) (ids : List NodeId) :
    Prop where
  named : ∀ i ∈ ids, (nodes i).id = i
  snapshots : ∀ i ∈ ids, ∀ term version base log,
    ck.leaderSnapshot.lookup i = some (term, version, base, log) →
      Stands version base log (nodes i)
  pairs : ∀ i ∈ ids, ∀ j ∈ ids, ∀ va vb, ck.pairChecked.lookup (i, j) = some (va, vb) →
    va ≤ (nodes i).logVersion ∧ vb ≤ (nodes j).logVersion ∧
      (va = (nodes i).logVersion → vb = (nodes j).logVersion →
        ∃ top, matchLogs (nodes i) (nodes j) = .ok (top, none))
  complete : ∀ i ∈ ids, ∀ term version count,
    ck.completenessChecked.lookup i = some (term, version, count) →
      version ≤ (nodes i).logVersion ∧ count ≤ ck.committed.keys.card ∧
      (version = (nodes i).logVersion → count = ck.committed.keys.card →
        ∀ m : RaftNode, m.term = term → m.log = (nodes i).log →
          m.baseIndex = (nodes i).baseIndex → Complete ck.committed m)

theorem Stands.later {version base : ℕ} {log : List Entry} (h : Stands version base log n)
    (hm : Versioned n m) : Stands version base log m where
  le := h.le.trans hm.le
  same heq := by
    have hle := h.le
    have hle' := hm.le
    obtain ⟨hlog, hbase⟩ := hm.same (by omega)
    obtain ⟨hlog', hbase'⟩ := h.same (by omega)
    exact ⟨hlog.trans hlog', hbase.trans hbase'⟩

/-- What the nodes do between two checks keeps the caches right. -/
theorem CachesOk.later (h : CachesOk ck nodes ids)
    (hv : ∀ i ∈ ids, Versioned (nodes i) (nodes' i)) : CachesOk ck nodes' ids where
  named i hi := (hv i hi).id.trans (h.named i hi)
  snapshots i hi term version base log hl :=
    (h.snapshots i hi term version base log hl).later (hv i hi)
  pairs i hi j hj va vb hl := by
    obtain ⟨hva, hvb, hpass⟩ := h.pairs i hi j hj va vb hl
    have hi' := hv i hi
    have hj' := hv j hj
    refine ⟨hva.trans hi'.le, hvb.trans hj'.le, fun hae hbe => ?_⟩
    have hlei := hi'.le
    have hlej := hj'.le
    obtain ⟨hlogi, hbasei⟩ := hi'.same (by omega)
    obtain ⟨hlogj, hbasej⟩ := hj'.same (by omega)
    rw [matchLogs_congr hlogi hbasei hlogj hbasej]
    exact hpass (by omega) (by omega)
  complete i hi term version count hl := by
    obtain ⟨hver, hcount, hpass⟩ := h.complete i hi term version count hl
    have hi' := hv i hi
    refine ⟨hver.trans hi'.le, hcount, fun heq hceq m hterm hlog hbase => ?_⟩
    have hle := hi'.le
    obtain ⟨hlog', hbase'⟩ := hi'.same (by omega)
    exact hpass (by omega) hceq m hterm (hlog.trans hlog') (hbase.trans hbase')

/-- A book of commits that has not changed or has grown. -/
def Grown (d d' : Dict ℕ (Entry × ℕ)) : Prop := d' = d ∨ d.keys.card < d'.keys.card

theorem Grown.trans {d d' d'' : Dict ℕ (Entry × ℕ)} (h : Grown d d') (h' : Grown d' d'') :
    Grown d d'' := by
  rcases h with rfl | h
  · exact h'
  · rcases h' with rfl | h'
    · exact Or.inr h
    · exact Or.inr (h.trans h')

theorem grown_insert {d : Dict ℕ (Entry × ℕ)} {k : ℕ} (v : Entry × ℕ) (h : d.lookup k = none) :
    Grown d (d.insert k v) := by
  have hk : k ∉ d.keys := by
    rw [Finmap.mem_keys]
    exact Finmap.lookup_eq_none.mp h
  have hkeys : (d.insert k v).keys = insert k d.keys := by
    ext j
    rw [Finmap.mem_keys, Finset.mem_insert, Finmap.mem_keys, Finmap.mem_insert]
  right
  rw [hkeys, Finset.card_insert_of_notMem hk]
  exact Nat.lt_succ_self _

/-- The fields that only the caches use. -/
def caches (ck : InvariantChecker) := (ck.leaderSnapshot, ck.pairChecked, ck.completenessChecked)

/-- A test that writes no cache keeps them right. -/
theorem CachesOk.keep (h : CachesOk ck nodes ids) (hc : ck'.caches = ck.caches)
    (hg : Grown ck.committed ck'.committed) : CachesOk ck' nodes ids := by
  simp only [caches, Prod.mk.injEq] at hc
  obtain ⟨hs, hp, hcomp⟩ := hc
  refine ⟨h.named, ?_, ?_, ?_⟩
  · rw [hs]
    exact h.snapshots
  · rw [hp]
    exact h.pairs
  · rw [hcomp]
    intro i hi term version count hl
    obtain ⟨hver, hcount, hpass⟩ := h.complete i hi term version count hl
    rcases hg with heq | hlt
    · rw [heq]
      exact ⟨hver, hcount, hpass⟩
    · exact ⟨hver, hcount.trans hlt.le, fun _ hce => absurd hce (hcount.trans_lt hlt).ne⟩

/-! ### Leader Append-Only -/

theorem differsAt_self (n : RaftNode) (xs : List ℕ)
    (hxs : ∀ idx ∈ xs, n.baseIndex < idx ∧ idx ≤ n.baseIndex+n.log.length) :
    differsAt n.baseIndex n.log n xs = .ok false := by
  induction xs with
  | nil => rfl
  | cons idx rest ih =>
    obtain ⟨hlo, hhi⟩ := hxs idx List.mem_cons_self
    obtain ⟨k, rfl⟩ : ∃ k, idx = n.baseIndex+k+1 := ⟨idx-n.baseIndex-1, by omega⟩
    have hlen : k < n.log.length := by omega
    have hget : pyGet n.log (((n.baseIndex+k+1 : ℕ) : ℤ)-n.baseIndex-1) = .ok n.log[k] := by
      have hk : ((n.baseIndex+k+1 : ℕ) : ℤ)-n.baseIndex-1 = (k : ℤ) := by omega
      rw [hk, pyGet_eq_ok]
      exact List.getElem?_eq_getElem _
    rw [differsAt, RaftNode.entryAt, RaftNode.phys, hget]
    change (if _ ≠ _ then _ else _) = _
    rw [if_neg (not_not.mpr rfl)]
    exact ih fun j hj => hxs j (List.mem_cons_of_mem _ hj)

theorem mutated_self (n : RaftNode) : mutated n.baseIndex n.log n = .ok false := by
  unfold mutated RaftNode.lastLogIndex
  rw [if_neg (Nat.lt_irrefl _), max_self]
  refine differsAt_self n _ fun idx hidx => ?_
  obtain ⟨hlo, hhi⟩ := mem_pyRange.mp hidx
  omega

theorem insert_of_lookup {K V : Type} [DecidableEq K] {d : Dict K V} {k : K} {v : V}
    (h : d.lookup k = some v) : d.insert k v = d := by
  apply Finmap.ext_lookup
  intro j
  rw [Dict.lookup_insert_eq]
  split
  next heq => rw [heq, h]
  next => rfl

theorem checkAppendOnly_uncached (h : CachesOk ck nodes ids) (hi : i ∈ ids) :
    (ck.checkAppendOnly step i (nodes i)).map uncached =
      ck.uncached.recheckAppendOnly step i (nodes i) := by
  unfold checkAppendOnly recheckAppendOnly
  rw [uncached_leaderSnapshot]
  split
  · rfl
  · dsimp only
    cases hl : ck.leaderSnapshot.lookup i with
    | none => rfl
    | some snap =>
      obtain ⟨term, version, base, log⟩ := snap
      dsimp only
      split
      · rfl
      next hterm =>
        split
        next hver =>
          -- the version is the remembered one, so the full test compares a log with itself
          obtain ⟨hlog, hbase⟩ := (h.snapshots i hi term version base log hl).same hver
          rw [← hlog, ← hbase, mutated_self]
          change Except.ok _ = Except.ok _
          congr 1
          unfold uncached
          congr 1
          rw [not_not.mp hterm, ← hlog, ← hbase, hver] at hl
          exact (insert_of_lookup hl).symm
        next =>
          rw [map_bind]
          congr 1
          funext changed
          exact apply_ite (Except.map uncached) _ _ _

theorem checkAppendOnly_keeps (h : CachesOk ck nodes ids)
    (hck : ck.checkAppendOnly step i (nodes i) = .ok ck') : CachesOk ck' nodes ids := by
  -- what is inserted is the node as it is
  have hinsert : ∀ snaps, snaps = ck.leaderSnapshot.insert i
      ((nodes i).term, (nodes i).logVersion, (nodes i).baseIndex, (nodes i).log) →
      CachesOk { ck with leaderSnapshot := snaps } nodes ids := by
    rintro snaps rfl
    refine ⟨h.named, ?_, h.pairs, h.complete⟩
    intro j hj term version base log hl
    rw [Dict.lookup_insert_eq] at hl
    split at hl
    next heq =>
      obtain ⟨-, rfl, rfl, rfl⟩ := Prod.mk.inj (Option.some.inj hl) |>.imp_right fun h2 =>
        (Prod.mk.inj h2).imp_right fun h3 => Prod.mk.inj h3
      rw [heq]
      exact ⟨le_rfl, fun _ => ⟨rfl, rfl⟩⟩
    next => exact h.snapshots j hj term version base log hl
  unfold checkAppendOnly at hck
  split at hck
  · obtain rfl := Except.ok.inj hck
    refine ⟨h.named, ?_, h.pairs, h.complete⟩
    intro j hj term version base log hl
    by_cases hji : j = i
    · change (ck.leaderSnapshot.erase i).lookup j = _ at hl
      rw [hji, Finmap.lookup_erase] at hl
      cases hl
    · change (ck.leaderSnapshot.erase i).lookup j = _ at hl
      rw [Finmap.lookup_erase_ne hji] at hl
      exact h.snapshots j hj term version base log hl
  · dsimp only at hck
    split at hck
    · obtain rfl := Except.ok.inj hck
      exact hinsert _ rfl
    · split at hck
      · obtain rfl := Except.ok.inj hck
        exact hinsert _ rfl
      · split at hck
        · obtain rfl := Except.ok.inj hck
          exact h
        · obtain ⟨changed, -, hck⟩ := bind_ok.mp hck
          split at hck
          · cases hck
          · obtain rfl := Except.ok.inj hck
            exact hinsert _ rfl


/-! ### Log Matching -/

theorem raises_bind {α β : Type} (x : Except PyError α) (f : α → Except PyError β) :
    raises (x >>= f) = raises x >>= fun a => raises (f a) := by
  cases x <;> rfl

/-- The test of a pair that the cache does not excuse. -/
theorem checkPair_miss (a b : RaftNode)
    (h : ck.pairChecked.lookup (a.id, b.id) ≠ some (a.logVersion, b.logVersion)) :
    ck.checkPair step a b = raises (matchLogs a b) >>= fun r => match r.2 with
      | some idx => ck.fail (.logMatching a.id b.id r.1 idx) step
      | none => .ok { ck with
          pairChecked := ck.pairChecked.insert (a.id, b.id) (a.logVersion, b.logVersion) } := by
  unfold checkPair matchLogs
  rw [if_neg h]
  dsimp only
  rw [raises_bind, bind_assoc]
  congr 1
  funext top
  rw [raises_bind, bind_assoc]
  rfl

theorem checkPair_uncached (h : CachesOk ck nodes ids) (hi : i ∈ ids) (hj : j ∈ ids) :
    (ck.checkPair step (nodes i) (nodes j)).map uncached =
      ck.uncached.recheckPair step (nodes i) (nodes j) := by
  by_cases hl : ck.pairChecked.lookup ((nodes i).id, (nodes j).id) =
      some ((nodes i).logVersion, (nodes j).logVersion)
  · have hit : ck.checkPair step (nodes i) (nodes j) = .ok ck := if_pos hl
    rw [h.named i hi, h.named j hj] at hl
    obtain ⟨-, -, hpass⟩ := h.pairs i hi j hj _ _ hl
    obtain ⟨top, hm⟩ := hpass rfl rfl
    rw [hit, recheckPair, hm]
    rfl
  · rw [checkPair_miss _ _ hl, map_bind, recheckPair]
    congr 1
    funext r
    cases r.2 <;> rfl

theorem checkPair_keeps (h : CachesOk ck nodes ids) (hi : i ∈ ids) (hj : j ∈ ids)
    (hck : ck.checkPair step (nodes i) (nodes j) = .ok ck') : CachesOk ck' nodes ids := by
  by_cases hl : ck.pairChecked.lookup ((nodes i).id, (nodes j).id) =
      some ((nodes i).logVersion, (nodes j).logVersion)
  · have hit : ck.checkPair step (nodes i) (nodes j) = .ok ck := if_pos hl
    obtain rfl := Except.ok.inj (hit.symm.trans hck)
    exact h
  · rw [checkPair_miss _ _ hl] at hck
    obtain ⟨⟨top, found⟩, hm, hck⟩ := bind_ok.mp hck
    cases found with
    | some idx => cases hck
    | none =>
      obtain rfl := Except.ok.inj hck
      refine ⟨h.named, h.snapshots, ?_, h.complete⟩
      intro a ha b hb va vb hab
      change (ck.pairChecked.insert _ _).lookup (a, b) = _ at hab
      rw [Dict.lookup_insert_eq, h.named i hi, h.named j hj] at hab
      split at hab
      next heq =>
        obtain ⟨rfl, rfl⟩ := Prod.mk.inj heq
        obtain ⟨rfl, rfl⟩ := Prod.mk.inj (Option.some.inj hab)
        exact ⟨le_rfl, le_rfl, fun _ _ => ⟨top, raises_ok.mp hm⟩⟩
      next => exact h.pairs a ha b hb va vb hab

/-! ### Leader Completeness -/

theorem checkCompleteness_uncached (h : CachesOk ck nodes ids) (hi : i ∈ ids) :
    (ck.checkCompleteness step i (nodes i)).map uncached =
      ck.uncached.recheckCompleteness step (nodes i) := by
  unfold checkCompleteness recheckCompleteness
  split
  · rfl
  · rw [checkCommitted_uncached, uncached_committed]
    dsimp only
    split
    next hl =>
      obtain ⟨-, -, hpass⟩ := h.complete i hi _ _ _ hl
      rw [checkCommitted_complete.mpr (hpass rfl rfl (nodes i) rfl rfl rfl)]
      rfl
    next =>
      rw [map_bind]
      rfl

theorem checkCompleteness_committed (hck : ck.checkCompleteness step i n = .ok ck') :
    ck'.committed = ck.committed ∧ ck'.leaderSnapshot = ck.leaderSnapshot ∧
      ck'.pairChecked = ck.pairChecked := by
  unfold checkCompleteness at hck
  split at hck
  · obtain rfl := Except.ok.inj hck
    exact ⟨rfl, rfl, rfl⟩
  · dsimp only at hck
    split at hck
    · obtain rfl := Except.ok.inj hck
      exact ⟨rfl, rfl, rfl⟩
    · obtain ⟨-, -, hck⟩ := bind_ok.mp hck
      obtain rfl := Except.ok.inj hck
      exact ⟨rfl, rfl, rfl⟩

theorem checkCompleteness_keeps (h : CachesOk ck nodes ids)
    (hck : ck.checkCompleteness step i (nodes i) = .ok ck') : CachesOk ck' nodes ids := by
  obtain ⟨hcom, hsnap, hpair⟩ := checkCompleteness_committed hck
  refine ⟨h.named, hsnap ▸ h.snapshots, hpair ▸ h.pairs, ?_⟩
  rw [hcom]
  intro j hj term version count hl
  unfold checkCompleteness at hck
  split at hck
  · obtain rfl := Except.ok.inj hck
    by_cases hji : j = i
    · change (ck.completenessChecked.erase i).lookup j = _ at hl
      rw [hji, Finmap.lookup_erase] at hl
      cases hl
    · change (ck.completenessChecked.erase i).lookup j = _ at hl
      rw [Finmap.lookup_erase_ne hji] at hl
      exact h.complete j hj term version count hl
  · dsimp only at hck
    split at hck
    · obtain rfl := Except.ok.inj hck
      exact h.complete j hj term version count hl
    · obtain ⟨u, hpass, hck⟩ := bind_ok.mp hck
      obtain rfl := Except.ok.inj hck
      change (ck.completenessChecked.insert _ _).lookup j = _ at hl
      rw [Dict.lookup_insert_eq] at hl
      split at hl
      next heq =>
        obtain ⟨rfl, hvc⟩ := Prod.mk.inj (Option.some.inj hl)
        obtain ⟨rfl, rfl⟩ := Prod.mk.inj hvc
        rw [heq]
        -- the pass just made is the cached one: it looked at every committed entry
        refine ⟨le_rfl, le_rfl, fun _ _ m hterm hlog hbase idx known hk => ?_⟩
        rw [lacks_congr hterm hlog hbase]
        exact checkCommitted_complete.mp hpass idx known hk
      next => exact h.complete j hj term version count hl

/-! ### Tests that write no cache -/

/-- A test that has left the caches alone, and has at most learned of more commits. -/
def Spares (ck ck' : InvariantChecker) : Prop :=
  ck'.caches = ck.caches ∧ Grown ck.committed ck'.committed

theorem Spares.refl (ck : InvariantChecker) : Spares ck ck := ⟨rfl, Or.inl rfl⟩

theorem Spares.trans {c : InvariantChecker} (h : Spares ck ck') (h' : Spares ck' c) :
    Spares ck c := ⟨h'.1.trans h.1, h.2.trans h'.2⟩

theorem foldlM_spares {α : Type} {f : InvariantChecker → α → Except RunError InvariantChecker}
    (hf : ∀ c c' x, f c x = .ok c' → Spares c c') (xs : List α)
    (h : xs.foldlM f ck = .ok ck') : Spares ck ck' :=
  foldlM_keeps (fun x _ c c' hc hx => hc.trans (hf c c' x hx)) (Spares.refl ck) h

theorem handleRestart_spares (ck : InvariantChecker) (i : NodeId) (n : RaftNode) :
    Spares ck (ck.handleRestart i n) := by
  unfold handleRestart
  dsimp only
  split <;> exact ⟨rfl, Or.inl rfl⟩

theorem handleRestarts_spares (ck : InvariantChecker) (nodes : NodeId → RaftNode)
    (ids : List NodeId) : Spares ck (ck.handleRestarts nodes ids) := by
  induction ids generalizing ck with
  | nil => exact Spares.refl ck
  | cons i rest ih => exact (handleRestart_spares ck i (nodes i)).trans (ih _)

theorem checkLeader_spares (h : ck.checkLeader step n = .ok ck') : Spares ck ck' := by
  unfold checkLeader at h
  split at h
  · dsimp only at h
    split at h
    · cases h
    · obtain rfl := Except.ok.inj h
      exact ⟨rfl, Or.inl rfl⟩
  · obtain rfl := Except.ok.inj h
    exact Spares.refl ck

theorem observeIndex_spares {idx : ℕ} (h : observeIndex nodes ids step n ck idx = .ok ck') :
    Spares ck ck' := by
  obtain ⟨entry, -, h⟩ := bind_ok.mp h
  obtain ⟨c, hc, h⟩ := bind_ok.mp h
  have hnote : Spares ck c := by
    unfold noteCommit at hc
    split at hc
    next hnone =>
      obtain rfl := Except.ok.inj hc
      exact ⟨rfl, grown_insert _ hnone⟩
    next =>
      split at hc
      · cases hc
      · obtain rfl := Except.ok.inj hc
        exact Spares.refl ck
  -- the quorum check only reads
  have hquorum : ck' = c := by
    unfold checkQuorum at h
    split at h
    · obtain ⟨holders, -, h⟩ := bind_ok.mp h
      split at h
      · cases h
      · exact (Except.ok.inj h).symm
    · exact (Except.ok.inj h).symm
  rw [hquorum]
  exact hnote

theorem observeNode_spares (h : observeNode nodes ids step ck i = .ok ck') : Spares ck ck' := by
  unfold observeNode at h
  dsimp only at h
  split at h
  · cases h
  · obtain ⟨c, hc, h⟩ := bind_ok.mp h
    obtain rfl := Except.ok.inj h
    have hloop : Spares ck c := foldlM_spares (fun _ _ _ => observeIndex_spares) _ hc
    exact hloop

theorem checkApplied_spares {idx : ℕ} (h : checkApplied step n ck idx = .ok ck') :
    Spares ck ck' := by
  obtain ⟨cmd, -, h⟩ := bind_ok.mp h
  dsimp only at h
  split at h
  · cases h
  · obtain rfl := Except.ok.inj h
    exact ⟨rfl, Or.inl rfl⟩

theorem checkStateMachine_spares (h : ck.checkStateMachine step i n = .ok ck') :
    Spares ck ck' := by
  obtain ⟨c, hc, h⟩ := bind_ok.mp h
  obtain rfl := Except.ok.inj h
  have hloop : Spares ck c := foldlM_spares (fun _ _ _ => checkApplied_spares) _ hc
  exact hloop

theorem CachesOk.spared (h : CachesOk ck nodes ids) (hs : Spares ck ck') :
    CachesOk ck' nodes ids := h.keep hs.1 hs.2

/-! ### One check -/

theorem mem_pairs {p : NodeId × NodeId} (h : p ∈ pairs ids) : p.1 ∈ ids ∧ p.2 ∈ ids := by
  induction ids with
  | nil => cases h
  | cons a rest ih =>
    rcases List.mem_append.mp h with h | h
    · obtain ⟨b, hb, rfl⟩ := List.mem_map.mp h
      exact ⟨List.mem_cons_self, List.mem_cons_of_mem a hb⟩
    · exact (ih h).imp (List.mem_cons_of_mem a) (List.mem_cons_of_mem a)

theorem checkLeaderAppendOnly_keeps (h : CachesOk ck nodes ids)
    (hck : checkLeaderAppendOnly nodes ids step ck = .ok ck') : CachesOk ck' nodes ids :=
  foldlM_keeps (P := (CachesOk · nodes ids))
    (fun _ _ _ _ hc hf => checkAppendOnly_keeps hc hf) h hck

theorem checkLogMatching_keeps (h : CachesOk ck nodes ids)
    (hck : checkLogMatching nodes ids step ck = .ok ck') : CachesOk ck' nodes ids :=
  foldlM_keeps (P := (CachesOk · nodes ids)) (fun _ hp _ _ hc hf =>
    checkPair_keeps hc (mem_pairs hp).1 (mem_pairs hp).2 hf) h hck

theorem checkLeaderCompleteness_keeps (h : CachesOk ck nodes ids)
    (hck : checkLeaderCompleteness nodes ids step ck = .ok ck') : CachesOk ck' nodes ids :=
  foldlM_keeps (P := (CachesOk · nodes ids))
    (fun _ _ _ _ hc hf => checkCompleteness_keeps hc hf) h hck

/-- A check and its cache-free form come to the same end. -/
theorem check_uncached (h : CachesOk ck nodes ids) :
    (ck.check nodes ids step).map uncached = ck.uncached.recheck nodes ids step := by
  have hcounted : CachesOk { ck with checksRun := ck.checksRun+1 } nodes ids :=
    h.keep rfl (Or.inl rfl)
  have hstart : CachesOk (({ ck with checksRun := ck.checksRun+1 } :
      InvariantChecker).handleRestarts nodes ids) nodes ids :=
    hcounted.spared (handleRestarts_spares _ _ _)
  unfold check recheck
  dsimp only
  have hrestart := handleRestarts_uncached { ck with checksRun := ck.checksRun+1 } nodes ids
  have hbegin : ({ ck.uncached with checksRun := ck.uncached.checksRun+1 } :
      InvariantChecker) = ({ ck with checksRun := ck.checksRun+1 } : InvariantChecker).uncached :=
    rfl
  rw [hbegin, ← hrestart]
  refine bind_project (checkElectionSafety_uncached _) fun c1 h1 => ?_
  have ok1 := hstart.spared (foldlM_spares (fun _ _ _ => checkLeader_spares) _ h1)
  -- each loop agrees as long as the caches it starts from are right
  refine bind_project (u := uncached) ?_ fun c2 h2 => ?_
  · exact foldlM_project ok1 (fun _ hi _ hc => checkAppendOnly_uncached hc hi)
      fun _ _ _ _ hc hf => checkAppendOnly_keeps hc hf
  have ok2 := checkLeaderAppendOnly_keeps ok1 h2
  refine bind_project (u := uncached) ?_ fun c3 h3 => ?_
  · exact foldlM_project ok2
      (fun _ hp _ hc => checkPair_uncached hc (mem_pairs hp).1 (mem_pairs hp).2)
      fun _ hp _ _ hc hf => checkPair_keeps hc (mem_pairs hp).1 (mem_pairs hp).2 hf
  have ok3 := checkLogMatching_keeps ok2 h3
  refine bind_project (observeCommits_uncached _) fun c4 h4 => ?_
  have ok4 := ok3.spared (foldlM_spares (fun _ _ _ => observeNode_spares) _ h4)
  refine bind_project (u := uncached) ?_ fun c5 _ => checkStateMachineSafety_uncached c5
  exact foldlM_project ok4 (fun _ hi _ hc => checkCompleteness_uncached hc hi)
    fun _ _ _ _ hc hf => checkCompleteness_keeps hc hf

theorem check_keeps (h : CachesOk ck nodes ids) (hck : ck.check nodes ids step = .ok ck') :
    CachesOk ck' nodes ids := by
  have hcounted : CachesOk { ck with checksRun := ck.checksRun+1 } nodes ids :=
    h.keep rfl (Or.inl rfl)
  have hstart : CachesOk (({ ck with checksRun := ck.checksRun+1 } :
      InvariantChecker).handleRestarts nodes ids) nodes ids :=
    hcounted.spared (handleRestarts_spares _ _ _)
  obtain ⟨c1, h1, hck⟩ := bind_ok.mp hck
  obtain ⟨c2, h2, hck⟩ := bind_ok.mp hck
  obtain ⟨c3, h3, hck⟩ := bind_ok.mp hck
  obtain ⟨c4, h4, hck⟩ := bind_ok.mp hck
  obtain ⟨c5, h5, hck⟩ := bind_ok.mp hck
  have ok1 := hstart.spared (foldlM_spares (fun _ _ _ => checkLeader_spares) _ h1)
  have ok2 := checkLeaderAppendOnly_keeps ok1 h2
  have ok3 := checkLogMatching_keeps ok2 h3
  have ok4 := ok3.spared (foldlM_spares (fun _ _ _ => observeNode_spares) _ h4)
  have ok5 := checkLeaderCompleteness_keeps ok4 h5
  exact ok5.spared (foldlM_spares (fun _ _ _ => checkStateMachine_spares) _ hck)

end InvariantChecker
end RaftVerified
