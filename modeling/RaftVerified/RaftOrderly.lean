import RaftVerified.RaftCached
import RaftVerified.RaftNodeInvariant

/-! The checker raises no false alarm: on nodes that keep what it checks, `check` passes, and what
it remembers has happened. -/
namespace RaftVerified

variable {c : Setup} {w : World} {ws ws' : List World} {ck ck' : InvariantChecker} {i j : NodeId}
  {n : ℕ}

/-- What the states so far have to do with the newest one for a check of it to pass. Nothing is
compacted. -/
structure Orderly (c : Setup) (w : World) (ws : List World) : Prop where
  mem : w ∈ ws
  ids : ∀ i ∈ c.ids, (w.nodes i).id = i
  flat : ∀ v ∈ ws, ∀ i ∈ c.ids, (v.nodes i).baseIndex = 0
  reach : ∀ i ∈ c.ids, (w.nodes i).commitIndex ≤ (w.nodes i).log.length
  leads : ∀ v ∈ ws, ∀ i ∈ c.ids, ∀ j ∈ c.ids, (v.nodes i).role = .leader →
    (w.nodes j).role = .leader → (v.nodes i).term = (w.nodes j).term → i = j
  grows : ∀ v ∈ ws, ∀ i ∈ c.ids, (v.nodes i).role = .leader → (w.nodes i).role = .leader →
    (v.nodes i).term = (w.nodes i).term → (v.nodes i).log <+: (w.nodes i).log
  matching : ∀ i ∈ c.ids, ∀ j ∈ c.ids, ∀ k e f, (w.nodes i).log[k]? = some e →
    (w.nodes j).log[k]? = some f → e.term = f.term →
      (w.nodes i).log.take (k+1) = (w.nodes j).log.take (k+1)
  lasting : ∀ v ∈ ws, ∀ i ∈ c.ids, (v.nodes i).incarnation = (w.nodes i).incarnation →
    (v.nodes i).commitIndex ≤ (w.nodes i).commitIndex
  agreed : ∀ v ∈ ws, ∀ i ∈ c.ids, ∀ j ∈ c.ids, ∀ k e f, k < (v.nodes i).commitIndex →
    (v.nodes i).log[k]? = some e → k < (w.nodes j).commitIndex →
      (w.nodes j).log[k]? = some f → e = f
  complete : ∀ v ∈ ws, ∀ i ∈ c.ids, ∀ j ∈ c.ids, ∀ k e, k < (v.nodes i).commitIndex →
    (v.nodes i).log[k]? = some e → (w.nodes j).role = .leader →
      (v.nodes i).term ≤ (w.nodes j).term → (w.nodes j).log[k]? = some e
  applied : ∀ v ∈ ws, ∀ i ∈ c.ids, ∀ j ∈ c.ids, ∀ (k : ℕ) (s s' : Str),
    (v.nodes i).applied[k]? = some s → (w.nodes j).applied[k]? = some s' → s = s'

/-- A majority of the voters of node `i` holds the entry at `k`. -/
def World.Backs (c : Setup) (w : World) (i : NodeId) (k : ℕ) (e : Entry) : Prop :=
  (w.nodes i).voters.length < 2*(w.nodes i).voters.countP fun v =>
    decide (v ∈ c.ids ∧ (w.nodes v).log[k]? = some e)

/-- What the checker remembers has happened in one of the states. -/
structure InvariantChecker.Remembers (ck : InvariantChecker) (c : Setup) (ws : List World) :
    Prop where
  leader : ∀ t i, ck.leadersByTerm.lookup t = some i → i ∈ c.ids ∧ ∃ v ∈ ws,
    (v.nodes i).role = .leader ∧ (v.nodes i).term = t
  snapshot : ∀ i t ver base log, ck.leaderSnapshot.lookup i = some (t, ver, base, log) →
    base = 0 ∧ ∃ v ∈ ws, (v.nodes i).role = .leader ∧ (v.nodes i).term = t ∧ (v.nodes i).log = log
  committed : ∀ idx e t, ck.committed.lookup idx = some (e, t) → ∃ k, idx = k+1 ∧
    ∃ v ∈ ws, ∃ i ∈ c.ids, (v.nodes i).term = t ∧ k < (v.nodes i).commitIndex ∧
      (v.nodes i).log[k]? = some e
  applied : ∀ idx s, ck.appliedAt.lookup idx = some s → ∃ k, idx = k+1 ∧
    ∃ v ∈ ws, ∃ i ∈ c.ids, (v.nodes i).applied[k]? = some s
  commit : ∀ i k, ck.prevCommit.lookup i = some k → ∃ m, ck.incarnation.lookup i = some m ∧
    ∃ v ∈ ws, (v.nodes i).incarnation = m ∧ (v.nodes i).commitIndex = k

namespace InvariantChecker

theorem Remembers.mono (h : ck.Remembers c ws) (hsub : ∀ v ∈ ws, v ∈ ws') :
    ck.Remembers c ws' where
  leader t i hl := by
    obtain ⟨hi, v, hv, hrest⟩ := h.leader t i hl
    exact ⟨hi, v, hsub v hv, hrest⟩
  snapshot i t ver base log hl := by
    obtain ⟨hb, v, hv, hrest⟩ := h.snapshot i t ver base log hl
    exact ⟨hb, v, hsub v hv, hrest⟩
  committed idx e t hl := by
    obtain ⟨k, hk, v, hv, hrest⟩ := h.committed idx e t hl
    exact ⟨k, hk, v, hsub v hv, hrest⟩
  applied idx s hl := by
    obtain ⟨k, hk, v, hv, hrest⟩ := h.applied idx s hl
    exact ⟨k, hk, v, hsub v hv, hrest⟩
  commit i k hl := by
    obtain ⟨m, hm, v, hv, hrest⟩ := h.commit i k hl
    exact ⟨m, hm, v, hsub v hv, hrest⟩

theorem remembers_new (seed : ℤ) (replayHint : Str) (c : Setup) (ws : List World) :
    (new seed replayHint).Remembers c ws where
  leader _ _ h := by cases h
  snapshot _ _ _ _ _ h := by cases h
  committed _ _ _ h := by cases h
  applied _ _ h := by cases h
  commit _ _ h := by cases h

/-! ### Restarts -/

/-- Past the restarts the checker knows every incarnation. -/
def Current (ck : InvariantChecker) (c : Setup) (w : World) : Prop :=
  ∀ i ∈ c.ids, ck.incarnation.lookup i = some (w.nodes i).incarnation

theorem Remembers.handleRestart (h : ck.Remembers c ws) (hw : w ∈ ws) (i : NodeId) :
    (ck.handleRestart i (w.nodes i)).Remembers c ws := by
  have hcommit : ∀ j k, j ≠ i → ck.prevCommit.lookup j = some k →
      ∃ m, (ck.incarnation.insert i (w.nodes i).incarnation).lookup j = some m ∧
        ∃ v ∈ ws, (v.nodes j).incarnation = m ∧ (v.nodes j).commitIndex = k := by
    intro j k hj hl
    rw [Finmap.lookup_insert_of_ne _ hj]
    exact h.commit j k hl
  unfold InvariantChecker.handleRestart
  dsimp only
  split
  next =>
    refine ⟨h.leader, h.snapshot, h.committed, h.applied, fun j k hl => ?_⟩
    dsimp only at hl ⊢
    by_cases hj : j = i
    · subst hj
      rw [Finmap.lookup_insert] at hl
      exact ⟨_, Finmap.lookup_insert _, w, hw, rfl, Option.some.inj hl⟩
    · rw [Finmap.lookup_insert_of_ne _ hj] at hl
      exact hcommit j k hj hl
  next hsame =>
    refine ⟨h.leader, h.snapshot, h.committed, h.applied, fun j k hl => ?_⟩
    dsimp only at hl ⊢
    by_cases hj : j = i
    · subst hj
      obtain ⟨m, hm, v, hv, hinc, hk⟩ := h.commit j k hl
      -- another incarnation would have been a restart
      have heq : m = (w.nodes j).incarnation := by
        by_contra hne
        refine hsame ⟨?_, ?_⟩
        · rw [hm]
          exact Option.some_ne_none m
        · rw [hm]
          exact fun heq => hne (Option.some.inj heq)
      exact ⟨_, Finmap.lookup_insert _, v, hv, hinc.trans heq, hk⟩
    · exact hcommit j k hj hl

theorem handleRestarts_remembers (is : List NodeId) (h : ck.Remembers c ws) (hw : w ∈ ws) :
    (ck.handleRestarts w.nodes is).Remembers c ws := by
  induction is generalizing ck with
  | nil => exact h
  | cons i is ih => exact ih (h.handleRestart hw i)

/-- A checker in the middle of a check of `w`. -/
structure Watching (ck : InvariantChecker) (c : Setup) (w : World) (ws : List World) (m : ℕ) :
    Prop extends ck.Remembers c ws where
  current : ck.Current c w
  ceiling : m ≤ ck.maxCommit

theorem handleRestarts_current (is : List NodeId) (ck : InvariantChecker) (w : World) :
    (∀ i, i ∈ is ∨ ck.incarnation.lookup i = some (w.nodes i).incarnation →
      (ck.handleRestarts w.nodes is).incarnation.lookup i = some (w.nodes i).incarnation) ∧
    (ck.handleRestarts w.nodes is).maxCommit = ck.maxCommit := by
  induction is generalizing ck with
  | nil => exact ⟨fun i hi => hi.resolve_left List.not_mem_nil, rfl⟩
  | cons j is ih =>
    have hself : (ck.handleRestart j (w.nodes j)).incarnation =
        ck.incarnation.insert j (w.nodes j).incarnation := by
      unfold handleRestart
      dsimp only
      split
      · rfl
      · rfl
    have hmax : (ck.handleRestart j (w.nodes j)).maxCommit = ck.maxCommit := by
      unfold handleRestart
      dsimp only
      split
      · rfl
      · rfl
    obtain ⟨hall, hm⟩ := ih (ck.handleRestart j (w.nodes j))
    refine ⟨fun i hi => hall i ?_, hm.trans hmax⟩
    rw [hself, Dict.lookup_insert_eq]
    by_cases hij : i = j
    · subst hij
      exact Or.inr (if_pos rfl)
    · rw [if_neg hij]
      exact hi.imp_left fun hmem => (List.mem_cons.mp hmem).resolve_left hij

variable {m : ℕ}

/-! ### One pass after the other -/

theorem checkElectionSafety_returns (ho : Orderly c w ws) (h : ck.Watching c w ws m) :
    ∃ ck', checkElectionSafety w.nodes c.ids n ck = .ok ck' ∧ ck'.Watching c w ws m := by
  refine foldlM_returns c.ids (fun i hi ck h => ?_) h
  unfold checkLeader
  split
  next hr =>
    have hkeeps : ({ ck with
        leadersByTerm := ck.leadersByTerm.insert (w.nodes i).term i } :
          InvariantChecker).Watching c w ws m := by
      refine ⟨⟨fun t k hl => ?_, h.snapshot, h.committed, h.applied, h.commit⟩, h.current,
        h.ceiling⟩
      rw [Dict.lookup_insert_eq] at hl
      split at hl
      next ht =>
        obtain rfl := Option.some.inj hl
        exact ⟨hi, w, ho.mem, hr, ht.symm⟩
      next => exact h.leader t k hl
    -- whoever is on the books for the term has led it in some state, so it is this node
    have hprev : (ck.leadersByTerm.lookup (w.nodes i).term).getD (w.nodes i).id = i := by
      cases hl : ck.leadersByTerm.lookup (w.nodes i).term with
      | none => exact ho.ids i hi
      | some j =>
        obtain ⟨hj, v, hv, hrv, htv⟩ := h.leader _ j hl
        exact ho.leads v hv j hj i hi hrv hr htv
    dsimp only
    rw [hprev, if_neg (not_not.mpr (ho.ids i hi).symm)]
    exact ⟨_, rfl, hkeeps⟩
  next => exact ⟨ck, rfl, h⟩

theorem differsAt_prefix {n : RaftNode} {log : List Entry} (hb : n.baseIndex = 0)
    (hp : log <+: n.log) (xs : List ℕ) (hxs : ∀ x ∈ xs, 1 ≤ x ∧ x ≤ log.length) :
    differsAt 0 log n xs = .ok false := by
  induction xs with
  | nil => rfl
  | cons x xs ih =>
    obtain ⟨h1, hx⟩ := hxs x List.mem_cons_self
    obtain ⟨k, rfl⟩ := Nat.exists_eq_add_of_le' h1
    have hget : log[k]? = some log[k] := List.getElem?_eq_getElem hx
    have hold : pyGet log (((k+1 : ℕ) : ℤ)-(0 : ℕ)-1) = .ok log[k] := by
      rw [show ((k+1 : ℕ) : ℤ)-(0 : ℕ)-1 = (k : ℤ) by omega]
      exact (pyGet_eq_ok log k _).mpr hget
    have hnew : n.entryAt (k+1) = .ok log[k] := by
      rw [RaftNode.entryAt_flat hb, ← hget]
      obtain ⟨more, hmore⟩ := hp
      rw [← hmore, List.getElem?_append_left hx]
    unfold differsAt
    rw [hold, hnew]
    show (if log[k] ≠ log[k] then _ else _) = _
    rw [if_neg (not_not.mpr rfl)]
    exact ih fun y hy => hxs y (List.mem_cons_of_mem _ hy)

theorem checkLeaderAppendOnly_returns (ho : Orderly c w ws) (h : ck.Watching c w ws m) :
    ∃ ck', checkLeaderAppendOnly w.nodes c.ids n ck = .ok ck' ∧ ck'.Watching c w ws m := by
  refine foldlM_returns c.ids (fun i hi ck h => ?_) h
  unfold checkAppendOnly
  split
  next =>
    refine ⟨_, rfl, ⟨h.leader, fun j t ver base log hl => ?_, h.committed, h.applied, h.commit⟩,
      h.current, h.ceiling⟩
    dsimp only at hl
    by_cases hj : j = i
    · subst hj
      rw [Finmap.lookup_erase] at hl
      cases hl
    · rw [Finmap.lookup_erase_ne hj] at hl
      exact h.snapshot j t ver base log hl
  next hr =>
    rw [not_not] at hr
    have hb := ho.flat w ho.mem i hi
    have htake : ({ ck with
        leaderSnapshot := ck.leaderSnapshot.insert i ((w.nodes i).term, (w.nodes i).logVersion,
          (w.nodes i).baseIndex, (w.nodes i).log) } :
          InvariantChecker).Watching c w ws m := by
      refine ⟨⟨h.leader, fun j t ver base log hl => ?_, h.committed, h.applied, h.commit⟩,
        h.current, h.ceiling⟩
      rw [Dict.lookup_insert_eq] at hl
      split at hl
      next hj =>
        subst hj
        cases hl
        exact ⟨hb, w, ho.mem, hr, rfl, rfl⟩
      next => exact h.snapshot j t ver base log hl
    dsimp only
    split
    next => exact ⟨_, rfl, htake⟩
    next t ver base log hl =>
      split
      next => exact ⟨_, rfl, htake⟩
      next ht =>
        split
        next => exact ⟨ck, rfl, h⟩
        next =>
          obtain ⟨rfl, v, hv, hrv, htv, rfl⟩ := h.snapshot i t ver base log hl
          -- the snapshot is the log of a state in which the node led the same term
          have hp := ho.grows v hv i hi hrv hr (htv.trans (not_not.mp ht))
          have hmut : mutated 0 (v.nodes i).log (w.nodes i) = .ok false := by
            unfold mutated
            rw [RaftNode.lastLogIndex, hb, if_neg (by have := hp.length_le; omega)]
            refine differsAt_prefix hb hp _ fun x hx => ?_
            rw [mem_pyRange] at hx
            omega
          rw [hmut]
          exact ⟨_, rfl, htake⟩

theorem termAt_flat {n : RaftNode} (hb : n.baseIndex = 0) {k : ℕ} {e : Entry}
    (he : n.log[k]? = some e) : n.termAt (k+1) = .ok e.term := by
  rw [RaftNode.termAt_log (by omega), (RaftNode.entryAt_flat hb).mpr he]
  rfl

/-- The search ends at an index where both logs have one term, or at none. -/
theorem agreedTop_returns {a b : RaftNode} (ha : a.baseIndex = 0) (hb : b.baseIndex = 0)
    (xs : List ℕ) (hxs : ∀ x ∈ xs, 1 ≤ x ∧ x ≤ a.log.length ∧ x ≤ b.log.length) :
    ∃ top, agreedTop a b xs = .ok top ∧ (top = 0 ∨ ∃ k e f, top = k+1 ∧ a.log[k]? = some e ∧
      b.log[k]? = some f ∧ e.term = f.term) := by
  induction xs with
  | nil => exact ⟨0, rfl, Or.inl rfl⟩
  | cons x xs ih =>
    obtain ⟨h1, hxa, hxb⟩ := hxs x List.mem_cons_self
    obtain ⟨k, rfl⟩ := Nat.exists_eq_add_of_le' h1
    have hea : a.log[k]? = some a.log[k] := List.getElem?_eq_getElem hxa
    have heb : b.log[k]? = some b.log[k] := List.getElem?_eq_getElem hxb
    unfold agreedTop
    rw [termAt_flat ha hea, termAt_flat hb heb]
    show ∃ top, (if a.log[k].term = b.log[k].term then _ else _) = Except.ok top ∧ _
    split
    next ht => exact ⟨k+1, rfl, Or.inr ⟨k, _, _, rfl, hea, heb, ht⟩⟩
    next => exact ih fun y hy => hxs y (List.mem_cons_of_mem _ hy)

theorem divergence_none {a b : RaftNode} (ha : a.baseIndex = 0) (hb : b.baseIndex = 0)
    (xs : List ℕ) (hxs : ∀ x ∈ xs, ∃ k e, x = k+1 ∧ a.log[k]? = some e ∧ b.log[k]? = some e) :
    divergence a b xs = .ok none := by
  induction xs with
  | nil => rfl
  | cons x xs ih =>
    obtain ⟨k, e, rfl, hea, heb⟩ := hxs x List.mem_cons_self
    unfold divergence
    rw [(RaftNode.entryAt_flat ha).mpr hea, (RaftNode.entryAt_flat hb).mpr heb]
    show (if e ≠ e then _ else _) = _
    rw [if_neg (not_not.mpr rfl)]
    exact ih fun y hy => hxs y (List.mem_cons_of_mem _ hy)

theorem checkLogMatching_returns (ho : Orderly c w ws) (h : ck.Watching c w ws m) :
    ∃ ck', checkLogMatching w.nodes c.ids n ck = .ok ck' ∧ ck'.Watching c w ws m := by
  refine foldlM_returns (pairs c.ids) (fun p hp ck h => ?_) h
  obtain ⟨hi, hj⟩ := mem_pairs hp
  have ha := ho.flat w ho.mem p.1 hi
  have hb := ho.flat w ho.mem p.2 hj
  unfold checkPair
  dsimp only
  split
  next => exact ⟨ck, rfl, h⟩
  next =>
    rw [RaftNode.lastLogIndex, RaftNode.lastLogIndex, ha, hb]
    obtain ⟨top, htop, hcase⟩ := agreedTop_returns ha hb
      (pyRange (max 0 0+1)
        (min (0+(w.nodes p.1).log.length) (0+(w.nodes p.2).log.length)+1)).reverse (fun x hx => by
        rw [List.mem_reverse, mem_pyRange] at hx
        omega)
    have hnone : divergence (w.nodes p.1) (w.nodes p.2) (pyRange (max 0 0+1) (top+1)) =
        .ok none := by
      refine divergence_none ha hb _ fun x hx => ?_
      rw [mem_pyRange] at hx
      rcases hcase with rfl | ⟨k, e, f, rfl, he, hf, ht⟩
      · omega
      -- below an index with one term the logs are the same
      · obtain ⟨l, rfl⟩ := Nat.exists_eq_add_of_le' (show 1 ≤ x by omega)
        have hsame := ho.matching p.1 hi p.2 hj k e f he hf ht
        have hk := (List.getElem?_eq_some_iff.mp he).1
        have hl : l < (w.nodes p.1).log.length := by omega
        refine ⟨l, (w.nodes p.1).log[l], rfl, List.getElem?_eq_getElem hl, ?_⟩
        have hat := congrArg (fun xs : List Entry => xs[l]?) hsame
        rw [List.getElem?_take_of_lt (by omega), List.getElem?_take_of_lt (by omega)] at hat
        rw [← hat]
        exact List.getElem?_eq_getElem hl
    rw [htop]
    show ∃ s', (raises (divergence _ _ (pyRange (max 0 0+1) (top+1))) >>= _) = Except.ok s' ∧ _
    rw [hnone]
    exact ⟨_, rfl, ⟨h.leader, h.snapshot, h.committed, h.applied, h.commit⟩, h.current, h.ceiling⟩

theorem holds_returns {n : RaftNode} (hb : n.baseIndex = 0) (k : ℕ) (e : Entry) :
    holds n (k+1) e = .ok (decide (n.log[k]? = some e)) := by
  unfold holds
  rw [if_neg (by omega), RaftNode.lastLogIndex, hb, Nat.zero_add]
  split
  next hlt =>
    rw [List.getElem?_eq_none (by omega)]
    rfl
  next hge =>
    have hget : n.log[k]? = some n.log[k] := List.getElem?_eq_getElem (by omega)
    rw [(RaftNode.entryAt_flat hb).mpr hget, hget]
    exact congrArg Except.ok (decide_eq_decide.mpr Option.some_inj.symm)

theorem countHolders_returns {nodes : NodeId → RaftNode} {ids : List NodeId}
    (hflat : ∀ i ∈ ids, (nodes i).baseIndex = 0) (k : ℕ) (e : Entry) (vs : List NodeId) :
    countHolders nodes ids (k+1) e vs =
      .ok (vs.countP fun v => decide (v ∈ ids ∧ (nodes v).log[k]? = some e)) := by
  induction vs with
  | nil => rfl
  | cons v vs ih =>
    have hheld : (if v ∈ ids then holds (nodes v) (k+1) e else .ok false) =
        .ok (decide (v ∈ ids ∧ (nodes v).log[k]? = some e)) := by
      split
      next hv =>
        rw [holds_returns (hflat v hv)]
        simp only [hv, true_and]
      next hv => simp only [hv, false_and, decide_false]
    unfold countHolders
    rw [hheld, ih, List.countP_cons]
    show Except.ok _ = Except.ok _
    split
    · rfl
    · rfl

theorem observeIndex_returns (ho : Orderly c w ws) (hi : i ∈ c.ids) {k : ℕ}
    (hk : k < (w.nodes i).commitIndex)
    (hback : ∀ e, m ≤ k → (w.nodes i).log[k]? = some e → w.Backs c i k e)
    (h : ck.Watching c w ws m) :
    ∃ ck', observeIndex w.nodes c.ids n (w.nodes i) ck (k+1) = .ok ck' ∧
      ck'.Watching c w ws m ∧ ck'.maxCommit = ck.maxCommit := by
  have hlen := ho.reach i hi
  have hget : (w.nodes i).log[k]? = some (w.nodes i).log[k] := List.getElem?_eq_getElem (by omega)
  have hnote : ∃ ck', ck.noteCommit n (w.nodes i) (k+1) (w.nodes i).log[k] = .ok ck' ∧
      ck'.Watching c w ws m ∧ ck'.maxCommit = ck.maxCommit := by
    unfold noteCommit
    split
    next =>
      refine ⟨_, rfl, ⟨⟨h.leader, h.snapshot, fun idx e t hl => ?_, h.applied, h.commit⟩,
        h.current, h.ceiling⟩, rfl⟩
      rw [Dict.lookup_insert_eq] at hl
      split at hl
      next hidx =>
        cases hl
        exact ⟨k, hidx, w, ho.mem, i, hi, rfl, hk, hget⟩
      next => exact h.committed idx e t hl
    next known hl =>
      obtain ⟨k', hk', v, hv, j, hj, -, hkv, hev⟩ := h.committed (k+1) known.1 known.2 hl
      obtain rfl := Nat.succ.inj hk'
      have hsame := ho.agreed v hv j hj i hi k _ _ hkv hev hk hget
      rw [if_neg (not_not.mpr hsame)]
      exact ⟨ck, rfl, h, rfl⟩
  obtain ⟨ck', hck', hw, hmax⟩ := hnote
  have hquorum : ck'.checkQuorum w.nodes c.ids n (w.nodes i) (k+1) (w.nodes i).log[k] =
      .ok ck' := by
    unfold checkQuorum
    split
    next hmax =>
      -- the index is new to the checker, so its entry is backed
      have hc := hback _ (by have := hw.ceiling; omega) hget
      unfold World.Backs at hc
      rw [countHolders_returns (fun j hj => ho.flat w ho.mem j hj)]
      show (if _ then _ else _) = _
      rw [if_neg (by omega)]
    next => rfl
  refine ⟨ck', ?_, hw, hmax⟩
  unfold observeIndex
  rw [(RaftNode.entryAt_flat (ho.flat w ho.mem i hi)).mpr hget]
  show (ck.noteCommit n (w.nodes i) (k+1) (w.nodes i).log[k] >>= _) = _
  rw [hck']
  exact hquorum

theorem observeNode_returns (ho : Orderly c w ws) (hi : i ∈ c.ids)
    (hback : ∀ k e, m ≤ k → k < (w.nodes i).commitIndex → (w.nodes i).log[k]? = some e →
      w.Backs c i k e) (h : ck.Watching c w ws m) :
    ∃ ck', observeNode w.nodes c.ids n ck i = .ok ck' ∧ ck'.Watching c w ws m ∧
      ck.maxCommit ≤ ck'.maxCommit ∧ (w.nodes i).commitIndex ≤ ck'.maxCommit := by
  have hb := ho.flat w ho.mem i hi
  have hprev : (ck.prevCommit.lookup i).getD 0 ≤ (w.nodes i).commitIndex := by
    cases hl : ck.prevCommit.lookup i with
    | none => exact Nat.zero_le _
    | some k =>
      obtain ⟨inc, hinc, v, hv, hvinc, rfl⟩ := h.commit i k hl
      rw [h.current i hi] at hinc
      exact ho.lasting v hv i hi (hvinc.trans (Option.some.inj hinc).symm)
  obtain ⟨ck', hck', hw, hmax⟩ := foldlM_returns
    (P := fun ck' : InvariantChecker => ck'.Watching c w ws m ∧ ck'.maxCommit = ck.maxCommit)
    (f := observeIndex w.nodes c.ids n (w.nodes i))
    (pyRange (max ((ck.prevCommit.lookup i).getD 0) (w.nodes i).baseIndex+1)
      ((w.nodes i).commitIndex+1)) (fun idx hidx ck₁ ⟨hw₁, hm₁⟩ => by
        rw [mem_pyRange] at hidx
        obtain ⟨k, rfl⟩ := Nat.exists_eq_add_of_le' (show 1 ≤ idx by omega)
        have hk : k < (w.nodes i).commitIndex := by omega
        obtain ⟨ck₂, hck₂, hw₂, hm₂⟩ := observeIndex_returns (n := n) ho hi hk
          (fun e hm he => hback k e hm hk he) hw₁
        exact ⟨ck₂, hck₂, hw₂, hm₂.trans hm₁⟩) (s := ck) ⟨h, rfl⟩
  refine ⟨{ ck' with
    maxCommit := max ck'.maxCommit (w.nodes i).commitIndex
    prevCommit := ck'.prevCommit.insert i (w.nodes i).commitIndex }, ?_,
    ⟨⟨hw.leader, hw.snapshot, hw.committed, hw.applied, fun j k hl => ?_⟩, hw.current,
      hw.ceiling.trans (le_max_left _ _)⟩, ?_, le_max_right _ _⟩
  · unfold observeNode
    dsimp only
    rw [if_neg (not_lt.mpr hprev), hck']
    rfl
  · dsimp only at hl ⊢
    by_cases hj : j = i
    · subst hj
      rw [Finmap.lookup_insert] at hl
      exact ⟨_, hw.current j hi, w, ho.mem, rfl, Option.some.inj hl⟩
    · rw [Finmap.lookup_insert_of_ne _ hj] at hl
      exact hw.commit j k hl
  · rw [← hmax]
    exact le_max_left _ _

/-- After a pass over the commits no node has committed more than the checker has seen. -/
theorem observeCommits_returns (ho : Orderly c w ws) (is : List NodeId)
    (his : ∀ i ∈ is, i ∈ c.ids) (hback : ∀ i ∈ c.ids, ∀ k e, m ≤ k →
      k < (w.nodes i).commitIndex → (w.nodes i).log[k]? = some e → w.Backs c i k e)
    (h : ck.Watching c w ws m) :
    ∃ ck', is.foldlM (observeNode w.nodes c.ids n) ck = .ok ck' ∧ ck'.Watching c w ws m ∧
      ck.maxCommit ≤ ck'.maxCommit ∧ ∀ i ∈ is, (w.nodes i).commitIndex ≤ ck'.maxCommit := by
  induction is generalizing ck with
  | nil => exact ⟨ck, rfl, h, le_rfl, fun i hi => by cases hi⟩
  | cons i is ih =>
    have hi := his i List.mem_cons_self
    obtain ⟨ck₁, hck₁, hw₁, hle₁, hci⟩ := observeNode_returns (n := n) ho hi (hback i hi) h
    obtain ⟨ck₂, hck₂, hw₂, hle₂, hall⟩ := ih (fun j hj => his j (List.mem_cons_of_mem i hj)) hw₁
    refine ⟨ck₂, ?_, hw₂, hle₁.trans hle₂, fun j hj => ?_⟩
    · rw [List.foldlM_cons, hck₁]
      exact hck₂
    · rcases List.mem_cons.mp hj with rfl | hj
      · exact hci.trans hle₂
      · exact hall j hj

theorem checkCommitted_returns (ho : Orderly c w ws) (hi : i ∈ c.ids)
    (hr : (w.nodes i).role = .leader) (h : ck.Watching c w ws m) (xs : List ℕ) :
    ck.checkCommitted n (w.nodes i) xs = .ok () := by
  have hb := ho.flat w ho.mem i hi
  induction xs with
  | nil => rfl
  | cons idx xs ih =>
    unfold checkCommitted
    split
    next => exact ih
    next known hl =>
      obtain ⟨k, rfl, v, hv, j, hj, ht, hk, he⟩ := h.committed idx known.1 known.2 hl
      have hlacks : lacks (w.nodes i) (k+1) known = .ok false := by
        unfold lacks
        split
        next => rfl
        next hterm =>
          -- committed in a term up to the leader's own, so the leader has it
          have hhas := ho.complete v hv j hj i hi k known.1 hk he hr (by omega)
          have hlen := (List.getElem?_eq_some_iff.mp hhas).1
          rw [if_neg (by omega), RaftNode.lastLogIndex, hb, if_neg (by omega),
            (RaftNode.entryAt_flat hb).mpr hhas]
          exact congrArg Except.ok (decide_eq_false (not_not.mpr rfl))
      rw [hlacks]
      exact ih

theorem checkLeaderCompleteness_returns (ho : Orderly c w ws) (h : ck.Watching c w ws m) :
    ∃ ck', checkLeaderCompleteness w.nodes c.ids n ck = .ok ck' ∧ ck'.Watching c w ws m ∧
      ck'.maxCommit = ck.maxCommit := by
  refine foldlM_returns (P := fun ck' : InvariantChecker => ck'.Watching c w ws m ∧
    ck'.maxCommit = ck.maxCommit) c.ids (fun i hi ck₁ ⟨h₁, hm₁⟩ => ?_) ⟨h, rfl⟩
  have hkeep : ∀ d, ({ ck₁ with completenessChecked := d } : InvariantChecker).Watching c w ws m :=
    fun d => ⟨⟨h₁.leader, h₁.snapshot, h₁.committed, h₁.applied, h₁.commit⟩, h₁.current, h₁.ceiling⟩
  unfold checkCompleteness
  split
  next => exact ⟨_, rfl, hkeep _, hm₁⟩
  next hr =>
    dsimp only
    split
    next => exact ⟨ck₁, rfl, h₁, hm₁⟩
    next =>
      rw [checkCommitted_returns ho hi (not_not.mp hr) h₁]
      exact ⟨_, rfl, hkeep _, hm₁⟩

theorem checkStateMachineSafety_returns (ho : Orderly c w ws) (h : ck.Watching c w ws m) :
    ∃ ck', checkStateMachineSafety w.nodes c.ids n ck = .ok ck' ∧ ck'.Watching c w ws m ∧
      ck'.maxCommit = ck.maxCommit := by
  refine foldlM_returns (P := fun ck' : InvariantChecker => ck'.Watching c w ws m ∧
    ck'.maxCommit = ck.maxCommit) c.ids (fun i hi ck₁ ⟨h₁, hm₁⟩ => ?_) ⟨h, rfl⟩
  have hb := ho.flat w ho.mem i hi
  unfold checkStateMachine
  dsimp only
  obtain ⟨ck₂, hck₂, hw₂, hm₂⟩ := foldlM_returns
    (P := fun ck' : InvariantChecker => ck'.Watching c w ws m ∧ ck'.maxCommit = ck.maxCommit)
    (f := checkApplied n (w.nodes i))
    (pyRange (max ((ck₁.appliedSeen.lookup i).getD 0) (w.nodes i).baseIndex+1)
      ((w.nodes i).baseIndex+(w.nodes i).applied.length+1)) (fun idx hidx ck₃ ⟨h₃, hm₃⟩ => by
        rw [mem_pyRange, hb] at hidx
        obtain ⟨k, rfl⟩ := Nat.exists_eq_add_of_le' (show 1 ≤ idx by omega)
        have hget : (w.nodes i).applied[k]? = some (w.nodes i).applied[k] :=
          List.getElem?_eq_getElem (by omega)
        have hcmd : pyGet (w.nodes i).applied (((k+1 : ℕ) : ℤ)-(w.nodes i).baseIndex-1) =
            .ok (w.nodes i).applied[k] := by
          rw [hb, show ((k+1 : ℕ) : ℤ)-(0 : ℕ)-1 = (k : ℤ) by omega]
          exact (pyGet_eq_ok _ k _).mpr hget
        have hknown : (ck₃.appliedAt.lookup (k+1)).getD (w.nodes i).applied[k] =
            (w.nodes i).applied[k] := by
          cases hl : ck₃.appliedAt.lookup (k+1) with
          | none => rfl
          | some s =>
            obtain ⟨k', hk', v, hv, j, hj, hs⟩ := h₃.applied (k+1) s hl
            obtain rfl := Nat.succ.inj hk'
            exact ho.applied v hv j hj i hi k s _ hs hget
        unfold checkApplied
        rw [hcmd]
        show ∃ s', (if (ck₃.appliedAt.lookup (k+1)).getD (w.nodes i).applied[k] ≠
          (w.nodes i).applied[k] then _ else _) = Except.ok s' ∧ _
        rw [hknown, if_neg (not_not.mpr rfl)]
        refine ⟨_, rfl, ⟨⟨h₃.leader, h₃.snapshot, h₃.committed, fun idx s hl => ?_, h₃.commit⟩,
          h₃.current, h₃.ceiling⟩, hm₃⟩
        rw [Dict.lookup_insert_eq] at hl
        split at hl
        next hidx =>
          obtain rfl := Option.some.inj hl
          exact ⟨k, hidx, w, ho.mem, i, hi, hget⟩
        next => exact h₃.applied idx s hl) (s := ck₁) ⟨h₁, hm₁⟩
  rw [hck₂]
  exact ⟨_, rfl, ⟨⟨hw₂.leader, hw₂.snapshot, hw₂.committed, hw₂.applied, hw₂.commit⟩, hw₂.current,
    hw₂.ceiling⟩, hm₂⟩

/-- A check of nodes that are in order passes, if what they have committed beyond all the checker
has seen is backed by majorities. -/
theorem check_returns (ho : Orderly c w ws) (hback : ∀ i ∈ c.ids, ∀ k e, ck.maxCommit ≤ k →
      k < (w.nodes i).commitIndex → (w.nodes i).log[k]? = some e → w.Backs c i k e)
    (h : ck.Remembers c ws) (n : ℕ) :
    ∃ ck', ck.check w.nodes c.ids n = .ok ck' ∧ ck'.Remembers c ws ∧
      ck.maxCommit ≤ ck'.maxCommit ∧ ∀ i ∈ c.ids, (w.nodes i).commitIndex ≤ ck'.maxCommit := by
  have h₀ : ({ ck with checksRun := ck.checksRun+1 } : InvariantChecker).Remembers c ws :=
    ⟨h.leader, h.snapshot, h.committed, h.applied, h.commit⟩
  obtain ⟨hcurrent, hmax⟩ := handleRestarts_current c.ids
    ({ ck with checksRun := ck.checksRun+1 } : InvariantChecker) w
  have hstart : (handleRestarts { ck with checksRun := ck.checksRun+1 } w.nodes c.ids).Watching
      c w ws ck.maxCommit :=
    ⟨handleRestarts_remembers c.ids h₀ ho.mem, fun i hi => hcurrent i (Or.inl hi), hmax.ge⟩
  obtain ⟨ck₁, hck₁, h₁⟩ := checkElectionSafety_returns (n := n) ho hstart
  obtain ⟨ck₂, hck₂, h₂⟩ := checkLeaderAppendOnly_returns (n := n) ho h₁
  obtain ⟨ck₃, hck₃, h₃⟩ := checkLogMatching_returns (n := n) ho h₂
  obtain ⟨ck₄, hck₄, h₄, -, hall⟩ :=
    observeCommits_returns (n := n) ho c.ids (fun _ hi => hi) hback h₃
  obtain ⟨ck₅, hck₅, h₅, hm₅⟩ := checkLeaderCompleteness_returns (n := n) ho h₄
  obtain ⟨ck₆, hck₆, h₆, hm₆⟩ := checkStateMachineSafety_returns (n := n) ho h₅
  refine ⟨ck₆, ?_, h₆.toRemembers, h₆.ceiling, fun i hi => ?_⟩
  · unfold check
    dsimp only
    rw [hck₁]
    show (checkLeaderAppendOnly w.nodes c.ids n ck₁ >>= _) = _
    rw [hck₂]
    show (checkLogMatching w.nodes c.ids n ck₂ >>= _) = _
    rw [hck₃]
    show (observeCommits w.nodes c.ids n ck₃ >>= _) = _
    unfold observeCommits
    rw [hck₄]
    show (checkLeaderCompleteness w.nodes c.ids n ck₄ >>= _) = _
    rw [hck₅]
    exact hck₆
  · rw [hm₆, hm₅]
    exact hall i hi

end InvariantChecker
end RaftVerified
