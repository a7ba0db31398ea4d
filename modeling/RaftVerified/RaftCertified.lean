import RaftVerified.RaftOperations
import RaftVerified.RaftLabels
import RaftVerified.RaftWatched

/-! What a cluster has shown when none of its checks has raised, whatever bugs its nodes have
and however often they compact: the properties the tests are named after, with the caches
gone. -/
namespace RaftVerified

/-- Log Matching: up to an index that both logs hold, with one term, they are the same. -/
def LogsAgree (a b : RaftNode) : Prop :=
  ∀ idx, max a.baseIndex b.baseIndex < idx → idx ≤ min a.lastLogIndex b.lastLogIndex →
    a.termAt idx = b.termAt idx →
    ∀ k, max a.baseIndex b.baseIndex < k → k ≤ idx → a.entryAt k = b.entryAt k

/-- Leader Append-Only: `m` holds what `n` held above both bases, and maybe more. -/
def Extends (n m : RaftNode) : Prop :=
  n.lastLogIndex ≤ m.lastLogIndex ∧ ∀ k, max n.baseIndex m.baseIndex < k →
    k ≤ n.lastLogIndex → m.entryAt k = n.entryAt k

/-- Leader Completeness: an entry on the books that was committed in no later term is folded
into the leader's image or stands in its log. -/
def HoldsCommitted (book : Dict ℕ (Entry × ℕ)) (n : RaftNode) : Prop :=
  ∀ idx entry term, book.lookup idx = some (entry, term) → term ≤ n.term →
    n.baseIndex < idx → idx ≤ n.lastLogIndex ∧ n.entryAt idx = .ok entry

theorem LogsAgree.symm {a b : RaftNode} (h : LogsAgree a b) : LogsAgree b a := by
  intro idx hlo hhi hterm k hk hle
  rw [max_comm] at hlo hk
  rw [min_comm] at hhi
  exact (h idx hlo hhi hterm.symm k hk hle).symm

theorem LogsAgree.refl (a : RaftNode) : LogsAgree a a := fun _ _ _ _ _ _ _ => rfl

namespace InvariantChecker
variable {ck ck' : InvariantChecker} {nodes : NodeId → RaftNode} {ids : List NodeId} {step : ℕ}
  {n m : RaftNode} {i j : NodeId}

/-! ### What the comparisons say when they find nothing -/

theorem entries_kept {n m : RaftNode} {xs : List ℕ}
    (h : differsAt n.baseIndex n.log m xs = .ok false) :
    ∀ idx ∈ xs, m.entryAt idx = n.entryAt idx := by
  induction xs with
  | nil => exact fun _ hidx => (List.not_mem_nil hidx).elim
  | cons k rest ih =>
    obtain ⟨old, hold, h⟩ := bind_ok.mp h
    obtain ⟨entry, hentry, h⟩ := bind_ok.mp h
    split at h
    · cases h
    next heq =>
      intro idx hidx
      rcases List.mem_cons.mp hidx with rfl | hidx
      · rw [hentry, ← not_not.mp heq]
        exact hold.symm
      · exact ih h idx hidx

theorem extends_of_unmutated (h : mutated n.baseIndex n.log m = .ok false) : Extends n m := by
  unfold mutated at h
  split at h
  · cases h
  next hle =>
    refine ⟨Nat.le_of_not_lt hle, fun k hlo hhi => entries_kept h k ?_⟩
    exact mem_pyRange.mpr ⟨hlo, Nat.lt_succ_of_le hhi⟩

theorem agreedTop_ge {a b : RaftNode} {xs : List ℕ} {top : ℕ}
    (h : agreedTop a b xs = .ok top) (hxs : xs.Pairwise fun k l => l ≤ k) :
    ∀ idx ∈ xs, a.termAt idx = b.termAt idx → idx ≤ top := by
  induction xs with
  | nil => exact fun _ hidx => (List.not_mem_nil hidx).elim
  | cons k rest ih =>
    obtain ⟨hk, hrest⟩ := List.pairwise_cons.mp hxs
    obtain ⟨ta, hta, h⟩ := bind_ok.mp h
    obtain ⟨tb, htb, h⟩ := bind_ok.mp h
    intro idx hidx hterm
    split at h
    next =>
      obtain rfl := Except.ok.inj h
      rcases List.mem_cons.mp hidx with rfl | hidx
      · exact le_rfl
      · exact hk idx hidx
    next hne =>
      rcases List.mem_cons.mp hidx with rfl | hidx
      · exact (hne (Except.ok.inj (hta.symm.trans (hterm.trans htb)))).elim
      · exact ih h hrest idx hidx hterm

theorem entries_same {a b : RaftNode} {xs : List ℕ} (h : divergence a b xs = .ok none) :
    ∀ idx ∈ xs, a.entryAt idx = b.entryAt idx := by
  induction xs with
  | nil => exact fun _ hidx => (List.not_mem_nil hidx).elim
  | cons k rest ih =>
    obtain ⟨ea, hea, h⟩ := bind_ok.mp h
    obtain ⟨eb, heb, h⟩ := bind_ok.mp h
    split at h
    · cases h
    next heq =>
      intro idx hidx
      rcases List.mem_cons.mp hidx with rfl | hidx
      · rw [hea, heb, not_not.mp heq]
      · exact ih h idx hidx

theorem logsAgree_of_matched {a b : RaftNode} {top : ℕ} (h : matchLogs a b = .ok (top, none)) :
    LogsAgree a b := by
  obtain ⟨t, ht, h⟩ := bind_ok.mp h
  obtain ⟨found, hfound, h⟩ := bind_ok.mp h
  obtain ⟨rfl, rfl⟩ := Prod.mk.inj (Except.ok.inj h)
  intro idx hlo hhi hterm k hk hle
  have hsorted : (pyRange (max a.baseIndex b.baseIndex+1)
      (min a.lastLogIndex b.lastLogIndex+1)).reverse.Pairwise fun k l => l ≤ k := by
    rw [List.pairwise_reverse]
    exact List.pairwise_le_range'
  have htop := agreedTop_ge ht hsorted idx
    (List.mem_reverse.mpr (mem_pyRange.mpr ⟨hlo, Nat.lt_succ_of_le hhi⟩)) hterm
  exact entries_same hfound k
    (mem_pyRange.mpr ⟨hk, Nat.lt_succ_of_le (hle.trans htop)⟩)

theorem Complete.holds {book : Dict ℕ (Entry × ℕ)} (h : Complete book n) :
    HoldsCommitted book n := by
  intro idx entry term hbook hterm hbase
  have hl := h idx (entry, term) hbook
  unfold lacks at hl
  rw [if_neg (Nat.not_lt.mpr hterm), if_neg (Nat.not_le.mpr hbase)] at hl
  split at hl
  · cases hl
  next hlast =>
    obtain ⟨e, he, heq⟩ := map_ok.mp hl
    rw [he]
    exact ⟨Nat.le_of_not_lt hlast, congrArg _ (not_not.mp (of_decide_eq_false heq))⟩

/-! ### What a passed check has shown -/

theorem checkLeader_leaders (h : ck.checkLeader step n = .ok ck') :
    Keeps ck.leadersByTerm ck'.leadersByTerm ∧
      (n.role = .leader → ck'.leadersByTerm.lookup n.term = some n.id) := by
  unfold checkLeader at h
  split at h
  next hlead =>
    dsimp only at h
    split at h
    · cases h
    next hprev =>
      obtain rfl := Except.ok.inj h
      have hself := not_not.mp hprev
      refine ⟨?_, fun _ => ?_⟩
      · cases hl : ck.leadersByTerm.lookup n.term with
        | none => exact keeps_insert _ hl
        | some prev =>
          change Keeps _ (ck.leadersByTerm.insert n.term ((some prev).getD n.id))
          rw [Option.getD_some, insert_of_lookup hl]
          exact Keeps.refl _
      · rw [hself]
        exact Finmap.lookup_insert _
  next hlead =>
    obtain rfl := Except.ok.inj h
    exact ⟨Keeps.refl _, fun hl => (hlead hl).elim⟩

theorem checkElectionSafety_leaders (h : checkElectionSafety nodes ids step ck = .ok ck') :
    Keeps ck.leadersByTerm ck'.leadersByTerm ∧ ∀ i ∈ ids, (nodes i).role = .leader →
      ck'.leadersByTerm.lookup (nodes i).term = some (nodes i).id := by
  have hloop : ∀ (xs : List NodeId) (c c' : InvariantChecker),
      checkElectionSafety nodes xs step c = .ok c' → Keeps c.leadersByTerm c'.leadersByTerm := by
    intro xs c c' hc
    refine foldlM_keeps (P := fun d => Keeps c.leadersByTerm d.leadersByTerm) ?_
      (Keeps.refl _) hc
    exact fun i _ d d' hd hstep => hd.trans (checkLeader_leaders hstep).1
  refine ⟨hloop ids ck ck' h, fun i hi hlead => ?_⟩
  obtain ⟨before, after, c, c', rfl, -, hround, hafter⟩ := foldlM_split h hi
  exact hloop after c' ck' hafter _ _ ((checkLeader_leaders hround).2 hlead)

/-- The snapshot of a leader as it is. -/
def Pictures (ck : InvariantChecker) (i : NodeId) (n : RaftNode) : Prop :=
  ck.leaderSnapshot.lookup i = some (n.term, n.logVersion, n.baseIndex, n.log)

theorem checkAppendOnly_other (h : ck.checkAppendOnly step i n = .ok ck') (hj : j ≠ i) :
    ck'.leaderSnapshot.lookup j = ck.leaderSnapshot.lookup j := by
  unfold checkAppendOnly at h
  split at h
  · obtain rfl := Except.ok.inj h
    exact Finmap.lookup_erase_ne hj
  dsimp only at h
  split at h
  · obtain rfl := Except.ok.inj h
    exact Finmap.lookup_insert_of_ne _ hj
  split at h
  · obtain rfl := Except.ok.inj h
    exact Finmap.lookup_insert_of_ne _ hj
  split at h
  · obtain rfl := Except.ok.inj h
    rfl
  obtain ⟨changed, -, h⟩ := bind_ok.mp h
  split at h
  · cases h
  · obtain rfl := Except.ok.inj h
    exact Finmap.lookup_insert_of_ne _ hj

theorem checkAppendOnly_leader (hc : CachesOk ck nodes ids) (hi : i ∈ ids)
    (hlead : (nodes i).role = .leader) (h : ck.checkAppendOnly step i (nodes i) = .ok ck') :
    Pictures ck' i (nodes i) ∧ ∀ ver base log,
      ck.leaderSnapshot.lookup i = some ((nodes i).term, ver, base, log) →
        mutated base log (nodes i) = .ok false := by
  unfold checkAppendOnly at h
  rw [if_neg (not_not.mpr hlead)] at h
  dsimp only at h
  split at h
  -- a leader that no snapshot is held of
  next hnone =>
    obtain rfl := Except.ok.inj h
    refine ⟨Finmap.lookup_insert _, fun ver base log hl => ?_⟩
    rw [hnone] at hl
    cases hl
  next term ver base log hsnap =>
    split at h
    -- its snapshot is of an earlier term, so it is not compared
    next hterm =>
      obtain rfl := Except.ok.inj h
      refine ⟨Finmap.lookup_insert _, fun ver' base' log' hl => ?_⟩
      rw [hsnap] at hl
      exact (hterm (Prod.mk.inj (Option.some.inj hl)).1).elim
    next hterm =>
      obtain rfl := not_not.mp hterm
      split at h
      next hver =>
        -- nothing was compared: the version says that the log is the remembered one
        obtain rfl := Except.ok.inj h
        obtain ⟨hlog, hbase⟩ := (hc.snapshots i hi _ ver base log hsnap).same hver
        refine ⟨by rw [Pictures, hsnap, hver, hlog, hbase], fun ver' base' log' hl => ?_⟩
        rw [hsnap] at hl
        obtain ⟨-, rfl, rfl⟩ := (Prod.mk.inj (Option.some.inj hl)).2 |> Prod.mk.inj |>.imp_right
          Prod.mk.inj
        rw [← hlog, ← hbase]
        exact mutated_self (nodes i)
      next =>
        obtain ⟨changed, hchanged, h⟩ := bind_ok.mp h
        split at h
        · cases h
        next hfalse =>
          obtain rfl := Except.ok.inj h
          refine ⟨Finmap.lookup_insert _, fun ver' base' log' hl => ?_⟩
          rw [hsnap] at hl
          obtain ⟨-, rfl, rfl⟩ := (Prod.mk.inj (Option.some.inj hl)).2 |> Prod.mk.inj |>.imp_right
            Prod.mk.inj
          rw [raises_ok.mp hchanged, Bool.eq_false_iff.mpr hfalse]

theorem checkLeaderAppendOnly_leader (hn : ids.Nodup) (hc : CachesOk ck nodes ids)
    (h : checkLeaderAppendOnly nodes ids step ck = .ok ck') (hi : i ∈ ids)
    (hlead : (nodes i).role = .leader) : Pictures ck' i (nodes i) ∧ ∀ ver base log,
      ck.leaderSnapshot.lookup i = some ((nodes i).term, ver, base, log) →
        mutated base log (nodes i) = .ok false := by
  obtain ⟨before, after, c, c', hids, hbefore, hround, hafter⟩ := foldlM_split h hi
  rw [hids, List.nodup_append, List.nodup_cons] at hn
  obtain ⟨-, ⟨hlate, -⟩, hearly⟩ := hn
  have hloop : ∀ (xs : List NodeId) (d d' : InvariantChecker), i ∉ xs →
      checkLeaderAppendOnly nodes xs step d = .ok d' →
      d'.leaderSnapshot.lookup i = d.leaderSnapshot.lookup i := by
    intro xs d d' hxs hd
    refine foldlM_keeps
      (P := fun e => e.leaderSnapshot.lookup i = d.leaderSnapshot.lookup i) ?_ rfl hd
    intro j hj e e' he hstep
    have hij : i ≠ j := fun heq => hxs (heq ▸ hj)
    exact (checkAppendOnly_other hstep hij).trans he
  have hkept : CachesOk c nodes ids :=
    foldlM_keeps (P := (CachesOk · nodes ids))
      (fun _ _ _ _ hc hf => checkAppendOnly_keeps hc hf) hc hbefore
  obtain ⟨hsnap, hsame⟩ := checkAppendOnly_leader hkept hi hlead hround
  -- rounds of other nodes leave the snapshot of this one
  refine ⟨(hloop after c' ck' hlate hafter).trans hsnap, fun ver base log hl => ?_⟩
  refine hsame ver base log ((hloop before ck c ?_ hbefore).trans hl)
  exact fun hib => hearly i hib i List.mem_cons_self rfl

theorem checkPair_agree (hc : CachesOk ck nodes ids) (hi : i ∈ ids) (hj : j ∈ ids)
    (h : ck.checkPair step (nodes i) (nodes j) = .ok ck') : LogsAgree (nodes i) (nodes j) := by
  by_cases hl : ck.pairChecked.lookup ((nodes i).id, (nodes j).id) =
      some ((nodes i).logVersion, (nodes j).logVersion)
  -- a pair that is skipped has been compared at these versions
  · rw [hc.named i hi, hc.named j hj] at hl
    obtain ⟨-, -, hpass⟩ := hc.pairs i hi j hj _ _ hl
    obtain ⟨top, hm⟩ := hpass rfl rfl
    exact logsAgree_of_matched hm
  · rw [checkPair_miss _ _ hl] at h
    obtain ⟨⟨top, found⟩, hm, h⟩ := bind_ok.mp h
    cases found with
    | some idx => cases h
    | none => exact logsAgree_of_matched (raises_ok.mp hm)

theorem checkPair_snapshot {a b : RaftNode} (h : ck.checkPair step a b = .ok ck') :
    ck'.leaderSnapshot = ck.leaderSnapshot := by
  unfold checkPair at h
  dsimp only at h
  split at h
  · obtain rfl := Except.ok.inj h
    rfl
  · obtain ⟨top, -, h⟩ := bind_ok.mp h
    obtain ⟨found, -, h⟩ := bind_ok.mp h
    cases found with
    | some idx => cases h
    | none =>
      obtain rfl := Except.ok.inj h
      rfl

theorem pairs_total (hi : i ∈ ids) (hj : j ∈ ids) (hij : i ≠ j) :
    (i, j) ∈ pairs ids ∨ (j, i) ∈ pairs ids := by
  induction ids with
  | nil => cases hi
  | cons a rest ih =>
    simp only [pairs, List.mem_append, List.mem_map, Prod.mk.injEq]
    rcases List.mem_cons.mp hi with rfl | hir
    · rcases List.mem_cons.mp hj with rfl | hjr
      · exact (hij rfl).elim
      · exact Or.inl (Or.inl ⟨j, hjr, rfl, rfl⟩)
    · rcases List.mem_cons.mp hj with rfl | hjr
      · exact Or.inr (Or.inl ⟨i, hir, rfl, rfl⟩)
      · exact (ih hir hjr).imp Or.inr Or.inr

theorem checkLogMatching_agree (hc : CachesOk ck nodes ids)
    (h : checkLogMatching nodes ids step ck = .ok ck') (hi : i ∈ ids) (hj : j ∈ ids) :
    LogsAgree (nodes i) (nodes j) := by
  have hpair : ∀ p ∈ pairs ids, LogsAgree (nodes p.1) (nodes p.2) := by
    intro p hp
    obtain ⟨before, after, c, c', hids, hbefore, hround, -⟩ := foldlM_split h hp
    have hkept : CachesOk c nodes ids := by
      refine foldlM_keeps (P := (CachesOk · nodes ids)) (fun q hq _ _ hd hf => ?_) hc hbefore
      have hmem := mem_pairs (hids ▸ List.mem_append_left _ hq : q ∈ pairs ids)
      exact checkPair_keeps hd hmem.1 hmem.2 hf
    exact checkPair_agree hkept (mem_pairs hp).1 (mem_pairs hp).2 hround
  by_cases hij : i = j
  · rw [hij]
    exact LogsAgree.refl _
  · rcases pairs_total hi hj hij with hp | hp
    · exact hpair (i, j) hp
    · exact (hpair (j, i) hp).symm

theorem checkCompleteness_complete (hc : CachesOk ck nodes ids) (hi : i ∈ ids)
    (hlead : (nodes i).role = .leader) (h : ck.checkCompleteness step i (nodes i) = .ok ck') :
    Complete ck.committed (nodes i) := by
  unfold checkCompleteness at h
  rw [if_neg (not_not.mpr hlead)] at h
  dsimp only at h
  split at h
  next hl =>
    obtain ⟨-, -, hpass⟩ := hc.complete i hi _ _ _ hl
    exact hpass rfl rfl (nodes i) rfl rfl rfl
  next =>
    obtain ⟨u, hpass, -⟩ := bind_ok.mp h
    exact checkCommitted_complete.mp hpass

theorem checkLeaderCompleteness_committed
    (h : checkLeaderCompleteness nodes ids step ck = .ok ck') :
    ck'.committed = ck.committed ∧ ck'.leaderSnapshot = ck.leaderSnapshot := by
  refine foldlM_keeps (P := fun c => c.committed = ck.committed ∧
    c.leaderSnapshot = ck.leaderSnapshot) ?_ ⟨rfl, rfl⟩ h
  intro i _ c c' hc hstep
  obtain ⟨hcom, hsnap, -⟩ := checkCompleteness_committed hstep
  exact ⟨hcom.trans hc.1, hsnap.trans hc.2⟩

theorem checkLeaderCompleteness_complete (hc : CachesOk ck nodes ids)
    (h : checkLeaderCompleteness nodes ids step ck = .ok ck') (hi : i ∈ ids)
    (hlead : (nodes i).role = .leader) : Complete ck'.committed (nodes i) := by
  obtain ⟨before, after, c, c', -, hbefore, hround, -⟩ := foldlM_split h hi
  have hkept : CachesOk c nodes ids :=
    foldlM_keeps (P := (CachesOk · nodes ids))
      (fun _ _ _ _ hc hf => checkCompleteness_keeps hc hf) hc hbefore
  rw [(checkLeaderCompleteness_committed h).1, ← (checkLeaderCompleteness_committed hbefore).1]
  exact checkCompleteness_complete hkept hi hlead hround

/-- What a passed check has shown of the nodes, and what it leaves behind of them. -/
structure Vouched (ck ck' : InvariantChecker) (nodes : NodeId → RaftNode) (ids : List NodeId) :
    Prop where
  caches : CachesOk ck' nodes ids
  kept : Keeps ck.leadersByTerm ck'.leadersByTerm
  leader : ∀ i ∈ ids, (nodes i).role = .leader → ck'.leadersByTerm.lookup (nodes i).term = some i
  pictures : ∀ i ∈ ids, (nodes i).role = .leader → Pictures ck' i (nodes i)
  appended : ∀ i ∈ ids, (nodes i).role = .leader → ∀ ver base log,
    ck.leaderSnapshot.lookup i = some ((nodes i).term, ver, base, log) →
      mutated base log (nodes i) = .ok false
  matched : ∀ i ∈ ids, ∀ j ∈ ids, LogsAgree (nodes i) (nodes j)
  complete : ∀ i ∈ ids, (nodes i).role = .leader → Complete ck'.committed (nodes i)

theorem check_vouched (hn : ids.Nodup) (hc : CachesOk ck nodes ids)
    (h : ck.check nodes ids step = .ok ck') : Vouched ck ck' nodes ids := by
  obtain ⟨b, b', hb, hfrom, hto⟩ := check_leaders h
  obtain ⟨hkeeps, hleads⟩ := checkElectionSafety_leaders hb
  have hcounted : CachesOk { ck with checksRun := ck.checksRun+1 } nodes ids :=
    hc.keep rfl (Or.inl rfl)
  have hrestart := handleRestarts_spares { ck with checksRun := ck.checksRun+1 } nodes ids
  have hcaches := check_keeps hc h
  obtain ⟨c1, h1, h⟩ := bind_ok.mp h
  obtain ⟨c2, h2, h⟩ := bind_ok.mp h
  obtain ⟨c3, h3, h⟩ := bind_ok.mp h
  obtain ⟨c4, h4, h⟩ := bind_ok.mp h
  obtain ⟨c5, h5, h6⟩ := bind_ok.mp h
  have helect := foldlM_spares (fun _ _ _ => checkLeader_spares) _ h1
  have hobserve := foldlM_spares (fun _ _ _ => observeNode_spares) _ h4
  have happly := foldlM_spares (fun _ _ _ => checkStateMachine_spares) _ h6
  have ok1 := (hcounted.spared hrestart).spared helect
  have ok2 := checkLeaderAppendOnly_keeps ok1 h2
  have ok4 := (checkLogMatching_keeps ok2 h3).spared hobserve
  -- the snapshots are those of the second test, before it they are the old ones
  have hbefore : c1.leaderSnapshot = ck.leaderSnapshot :=
    congrArg Prod.fst (helect.1.trans hrestart.1)
  have hpairs : c3.leaderSnapshot = c2.leaderSnapshot :=
    foldlM_keeps (P := fun c => c.leaderSnapshot = c2.leaderSnapshot)
      (fun _ _ _ _ hd hstep => (checkPair_snapshot hstep).trans hd) rfl h3
  have hafter : ck'.leaderSnapshot = c2.leaderSnapshot :=
    (congrArg Prod.fst happly.1).trans ((checkLeaderCompleteness_committed h5).2.trans
      ((congrArg Prod.fst hobserve.1).trans hpairs))
  have hbooks : ck'.committed = c5.committed :=
    congrArg Prod.fst (checkStateMachineSafety_keeps h6).2.2
  refine ⟨hcaches, ?_, fun i hi hlead => ?_, fun i hi hlead => ?_, fun i hi hlead => ?_,
    fun i hi j hj => checkLogMatching_agree ok2 h3 hi hj, fun i hi hlead => ?_⟩
  · rw [hto, ← hfrom]
    exact hkeeps
  · rw [hto, hleads i hi hlead, hc.named i hi]
  · rw [Pictures, hafter]
    exact (checkLeaderAppendOnly_leader hn ok1 h2 hi hlead).1
  · rw [← hbefore]
    exact (checkLeaderAppendOnly_leader hn ok1 h2 hi hlead).2
  · rw [hbooks]
    exact checkLeaderCompleteness_complete ok4 h5 hi hlead

end InvariantChecker

/-! ### Runs -/

section Runs
open InvariantChecker
variable {c : Setup} {w w' : World} {e : Event} {i : NodeId} {s s' : Watched}
  {ss past : List Watched}

theorem callback_lives {n : RaftNode} {y : Exec} (hy : w.callback n e = .ok y) :
    Lives n y.node := by
  cases e with
  | electionTimeout i seq => exact .single ⟨.electionTimeout seq, map_ok.mpr ⟨y, hy, rfl⟩⟩
  | heartbeat i seq => exact .single ⟨.heartbeat seq, map_ok.mpr ⟨y, hy, rfl⟩⟩
  | clientCommand i command =>
    obtain ⟨r, hr, rfl⟩ := map_ok.mp hy
    exact .single ⟨.clientCommand command, map_ok.mpr ⟨r, hr, rfl⟩⟩
  | changeConfig i newVoters =>
    obtain ⟨r, hr, rfl⟩ := map_ok.mp hy
    exact .single ⟨.changeConfig newVoters, map_ok.mpr ⟨r, hr, rfl⟩⟩
  | requestRead i command =>
    obtain rfl := Except.ok.inj hy
    exact .single ⟨.requestRead command, rfl⟩
  | deliver k =>
    dsimp only [World.callback] at hy
    split at hy
    next p _ => exact .single ⟨.handle p.msg, map_ok.mpr ⟨y, hy, rfl⟩⟩
    next =>
      obtain rfl := Except.ok.inj hy
      exact .refl
  | pause i =>
    obtain rfl := Except.ok.inj hy
    exact .single ⟨.pause, rfl⟩
  | resume i =>
    obtain rfl := Except.ok.inj hy
    exact .single ⟨.resume, rfl⟩

theorem step_lives (hs : w.step c e = .ok w') (i : NodeId) : Lives (w.nodes i) (w'.nodes i) := by
  rcases World.step_node hs i with ⟨heq, -⟩ | ⟨-, -, y, hy, heq⟩
  · rw [heq]
    exact .refl
  · rw [heq]
    exact callback_lives hy

theorem runCallbacks_lives (es : List Event) {r : World × List Application}
    (hr : runCallbacks c w es = .ok r) (i : NodeId) : Lives (w.nodes i) (r.1.nodes i) := by
  induction es generalizing w r with
  | nil =>
    obtain rfl := Except.ok.inj hr
    exact .refl
  | cons e es ih =>
    obtain ⟨w', hw', hr⟩ := bind_ok.mp hr
    obtain ⟨q, hq, hr⟩ := bind_ok.mp hr
    have hrest := ih hq
    rw [← Except.ok.inj hr]
    exact (step_lives hw' i).trans hrest

/-- From one state to the next: a leader of both extends its log, and a node that has not
crashed does not take commits back; what it commits goes on the books, which are kept. -/
structure Proceeds (ids : List NodeId) (p p' : World × InvariantChecker) : Prop where
  appended : ∀ i ∈ ids, (p.1.nodes i).role = .leader → (p'.1.nodes i).role = .leader →
    (p'.1.nodes i).term = (p.1.nodes i).term → Extends (p.1.nodes i) (p'.1.nodes i)
  monotone : ∀ i ∈ ids, (p'.1.nodes i).incarnation = (p.1.nodes i).incarnation →
    (p.1.nodes i).commitIndex ≤ (p'.1.nodes i).commitIndex
  noted : ∀ i ∈ ids, (p'.1.nodes i).incarnation = (p.1.nodes i).incarnation →
    ∀ idx, (p.1.nodes i).commitIndex < idx → (p'.1.nodes i).baseIndex < idx →
      idx ≤ (p'.1.nodes i).commitIndex → p'.2.Noted (p'.1.nodes i) idx
  kept : Keeps p.2.committed p'.2.committed

/-- The checker is up to date with the nodes. -/
structure Current (c : Setup) (s : Watched) : Prop where
  caches : CachesOk s.checker s.world.nodes c.ids
  pictures : ∀ i ∈ c.ids, (s.world.nodes i).role = .leader →
    s.checker.Pictures i (s.world.nodes i)
  commit : ∀ i ∈ c.ids, (s.checker.prevCommit.lookup i).getD 0 = (s.world.nodes i).commitIndex
  incarnation : ∀ i ∈ c.ids, ∀ inc ∈ s.checker.incarnation.lookup i,
    inc = (s.world.nodes i).incarnation

/-- One step: the checker is up to date again, and what its check has shown. -/
theorem Current.step {es : List Event} (h : Current c s) (hs : s.step c es = .ok s') :
    Current c s' ∧ Vouched s.checker s'.checker s'.world.nodes c.ids ∧
      Proceeds c.ids (s.world, s.checker) (s'.world, s'.checker) := by
  obtain ⟨r, hr, hs⟩ := bind_ok.mp hs
  obtain ⟨checker, hck, hs⟩ := bind_ok.mp hs
  obtain rfl := Except.ok.inj hs
  have hn : c.ids.Nodup := c.ids_nodup
  have hlives := runCallbacks_lives es (raises_ok.mp hr)
  have hlater := h.caches.later fun i _ => (hlives i).versioned
  have hvouched := check_vouched hn hlater hck
  obtain ⟨hchecked, hkept, -⟩ := check_checked hn hck
  -- a node of the same incarnation is observed from where it was left
  have hobserved : ∀ i ∈ c.ids, (r.1.nodes i).incarnation = (s.world.nodes i).incarnation →
      s.checker.observedUpTo i (r.1.nodes i) = (s.world.nodes i).commitIndex := by
    intro i hi hinc
    have hnot : ¬ s.checker.Restarted i (r.1.nodes i) := by
      rintro ⟨hsome, hne⟩
      obtain ⟨inc, hl⟩ := Option.ne_none_iff_exists'.mp hsome
      exact hne (by rw [hl, h.incarnation i hi inc hl, hinc])
    rw [observedUpTo, if_neg hnot, h.commit i hi]
  refine ⟨⟨hvouched.caches, hvouched.pictures, fun i hi => ?_, fun i hi inc hinc => ?_⟩,
    hvouched, ⟨fun i hi hlead hlead' hterm => ?_, fun i hi hinc => ?_, fun i hi hinc => ?_,
    hkept⟩⟩
  · rw [(hchecked i hi).prev]
    rfl
  · rw [(hchecked i hi).incarnation] at hinc
    exact (Option.some.inj hinc).symm
  · have hsnap := h.pictures i hi hlead
    rw [Pictures, ← hterm] at hsnap
    exact extends_of_unmutated (hvouched.appended i hi hlead' _ _ _ hsnap)
  · rw [← hobserved i hi hinc]
    exact (hchecked i hi).monotone
  · intro idx hlo hbase hhi
    rw [← hobserved i hi hinc] at hlo
    exact (hchecked i hi).noted idx hlo hbase hhi

end Runs
end RaftVerified
