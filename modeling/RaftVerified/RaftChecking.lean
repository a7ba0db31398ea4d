import RaftVerified.RaftChecker

/-! What a `check` that raises nothing has done to the books of the checker. -/
namespace RaftVerified

variable {ck ck' : InvariantChecker} {nodes : NodeId → RaftNode} {ids : List NodeId} {step : ℕ}
  {n : RaftNode} {i : NodeId}

theorem raises_ok {α : Type} {x : Except PyError α} {a : α} : raises x = .ok a ↔ x = .ok a := by
  cases x with
  | error e => exact ⟨nofun, nofun⟩
  | ok b => exact ⟨fun h => congrArg _ (Except.ok.inj h), fun h => congrArg _ (Except.ok.inj h)⟩

theorem mem_pyRange {start stop k : ℕ} : k ∈ pyRange start stop ↔ start ≤ k ∧ k < stop := by
  rw [pyRange, List.mem_range'_1]
  omega

/-- A dictionary that still has all its items. -/
def Keeps {V : Type} (d d' : Dict ℕ V) : Prop := ∀ k v, d.lookup k = some v → d'.lookup k = some v

theorem Keeps.refl {V : Type} (d : Dict ℕ V) : Keeps d d := fun _ _ h => h

theorem Keeps.trans {V : Type} {d d' d'' : Dict ℕ V} (h : Keeps d d') (h' : Keeps d' d'') :
    Keeps d d'' := fun k v hk => h' k v (h k v hk)

theorem keeps_insert {V : Type} {d : Dict ℕ V} {k : ℕ} (v : V) (h : d.lookup k = none) :
    Keeps d (d.insert k v) := by
  intro j u hj
  rw [Dict.lookup_insert_eq]
  split
  next heq =>
    rw [heq, h] at hj
    cases hj
  next => exact hj

namespace InvariantChecker

/-- What the checker remembers about commits and applications. -/
def books (ck : InvariantChecker) :=
  (ck.committed, ck.appliedAt, ck.prevCommit, ck.appliedSeen, ck.incarnation)

/-! ### The checks that keep no such books -/

theorem checkElectionSafety_books (h : checkElectionSafety nodes ids step ck = .ok ck') :
    ck'.books = ck.books := by
  refine foldlM_keeps (P := fun c => c.books = ck.books) ?_ rfl h
  intro i _ c c' hc hstep
  unfold checkLeader at hstep
  split at hstep
  · dsimp only at hstep
    split at hstep
    · cases hstep
    · obtain rfl := Except.ok.inj hstep
      exact hc
  · obtain rfl := Except.ok.inj hstep
    exact hc

theorem checkLeaderAppendOnly_books (h : checkLeaderAppendOnly nodes ids step ck = .ok ck') :
    ck'.books = ck.books := by
  refine foldlM_keeps (P := fun c => c.books = ck.books) ?_ rfl h
  intro i _ c c' hc hstep
  unfold checkAppendOnly at hstep
  split at hstep
  · obtain rfl := Except.ok.inj hstep
    exact hc
  · dsimp only at hstep
    split at hstep
    · obtain rfl := Except.ok.inj hstep
      exact hc
    · split at hstep
      · obtain rfl := Except.ok.inj hstep
        exact hc
      · split at hstep
        · obtain rfl := Except.ok.inj hstep
          exact hc
        · obtain ⟨mutated, -, hstep⟩ := bind_ok.mp hstep
          split at hstep
          · cases hstep
          · obtain rfl := Except.ok.inj hstep
            exact hc

theorem checkLogMatching_books (h : checkLogMatching nodes ids step ck = .ok ck') :
    ck'.books = ck.books := by
  refine foldlM_keeps (P := fun c => c.books = ck.books) ?_ rfl h
  intro p _ c c' hc hstep
  unfold checkPair at hstep
  dsimp only at hstep
  split at hstep
  · obtain rfl := Except.ok.inj hstep
    exact hc
  · obtain ⟨top, -, hstep⟩ := bind_ok.mp hstep
    obtain ⟨found, -, hstep⟩ := bind_ok.mp hstep
    cases found with
    | some idx => cases hstep
    | none =>
      obtain rfl := Except.ok.inj hstep
      exact hc

theorem checkLeaderCompleteness_books
    (h : checkLeaderCompleteness nodes ids step ck = .ok ck') : ck'.books = ck.books := by
  refine foldlM_keeps (P := fun c => c.books = ck.books) ?_ rfl h
  intro i _ c c' hc hstep
  unfold checkCompleteness at hstep
  split at hstep
  · obtain rfl := Except.ok.inj hstep
    exact hc
  · dsimp only at hstep
    split at hstep
    · obtain rfl := Except.ok.inj hstep
      exact hc
    · obtain ⟨_, -, hstep⟩ := bind_ok.mp hstep
      obtain rfl := Except.ok.inj hstep
      exact hc

/-! ### Restarts -/

/-- The cursors of one node after `_handle_restarts`. -/
def Rebased (ck ck' : InvariantChecker) (i : NodeId) (n : RaftNode) : Prop :=
  ck'.incarnation.lookup i = some n.incarnation ∧
    if ck.incarnation.lookup i ≠ none ∧ ck.incarnation.lookup i ≠ some n.incarnation then
      ck'.prevCommit.lookup i = some n.commitIndex ∧
        ck'.appliedSeen.lookup i = some (n.baseIndex+n.applied.length)
    else ck'.prevCommit.lookup i = ck.prevCommit.lookup i ∧
      ck'.appliedSeen.lookup i = ck.appliedSeen.lookup i

theorem handleRestart_rebased (ck : InvariantChecker) (i : NodeId) (n : RaftNode) :
    Rebased ck (ck.handleRestart i n) i n := by
  unfold Rebased handleRestart
  dsimp only
  split
  next => exact ⟨Finmap.lookup_insert _, Finmap.lookup_insert _, Finmap.lookup_insert _⟩
  next => exact ⟨Finmap.lookup_insert _, rfl, rfl⟩

theorem handleRestart_other (ck : InvariantChecker) {i j : NodeId} (n : RaftNode) (h : j ≠ i) :
    (ck.handleRestart i n).incarnation.lookup j = ck.incarnation.lookup j ∧
      (ck.handleRestart i n).prevCommit.lookup j = ck.prevCommit.lookup j ∧
      (ck.handleRestart i n).appliedSeen.lookup j = ck.appliedSeen.lookup j := by
  unfold handleRestart
  dsimp only
  split
  · exact ⟨Finmap.lookup_insert_of_ne _ h, Finmap.lookup_insert_of_ne _ h,
      Finmap.lookup_insert_of_ne _ h⟩
  · exact ⟨Finmap.lookup_insert_of_ne _ h, rfl, rfl⟩

theorem handleRestart_kept (ck : InvariantChecker) (i : NodeId) (n : RaftNode) :
    (ck.handleRestart i n).committed = ck.committed ∧
      (ck.handleRestart i n).appliedAt = ck.appliedAt := by
  unfold handleRestart
  dsimp only
  split <;> exact ⟨rfl, rfl⟩

theorem handleRestarts_other (ck : InvariantChecker) (nodes : NodeId → RaftNode) {j : NodeId}
    (h : j ∉ ids) : (ck.handleRestarts nodes ids).incarnation.lookup j = ck.incarnation.lookup j ∧
      (ck.handleRestarts nodes ids).prevCommit.lookup j = ck.prevCommit.lookup j ∧
      (ck.handleRestarts nodes ids).appliedSeen.lookup j = ck.appliedSeen.lookup j := by
  induction ids generalizing ck with
  | nil => exact ⟨rfl, rfl, rfl⟩
  | cons i rest ih =>
    rw [List.mem_cons, not_or] at h
    obtain ⟨h1, h2, h3⟩ := handleRestart_other ck (nodes i) h.1
    obtain ⟨h4, h5, h6⟩ := ih (ck.handleRestart i (nodes i)) h.2
    exact ⟨h4.trans h1, h5.trans h2, h6.trans h3⟩

theorem handleRestarts_rebased (hn : ids.Nodup) (ck : InvariantChecker)
    (nodes : NodeId → RaftNode) (hi : i ∈ ids) :
    Rebased ck (ck.handleRestarts nodes ids) i (nodes i) := by
  induction ids generalizing ck with
  | nil => cases hi
  | cons j rest ih =>
    obtain ⟨hj, hrest⟩ := List.nodup_cons.mp hn
    change Rebased ck ((ck.handleRestart j (nodes j)).handleRestarts nodes rest) i (nodes i)
    by_cases hij : i = j
    · subst hij
      obtain ⟨h1, h2, h3⟩ := handleRestarts_other (ck.handleRestart i (nodes i)) nodes hj
      have hr := handleRestart_rebased ck i (nodes i)
      unfold Rebased at hr ⊢
      rwa [h1, h2, h3]
    · have hmem := (List.mem_cons.mp hi).resolve_left hij
      obtain ⟨h1, h2, h3⟩ := handleRestart_other ck (nodes j) hij
      have hr := ih hrest (ck.handleRestart j (nodes j)) hmem
      unfold Rebased at hr ⊢
      rwa [h1, h2, h3] at hr

theorem handleRestarts_kept (ck : InvariantChecker) (nodes : NodeId → RaftNode)
    (ids : List NodeId) : (ck.handleRestarts nodes ids).committed = ck.committed ∧
      (ck.handleRestarts nodes ids).appliedAt = ck.appliedAt := by
  induction ids generalizing ck with
  | nil => exact ⟨rfl, rfl⟩
  | cons i rest ih =>
    obtain ⟨h1, h2⟩ := handleRestart_kept ck i (nodes i)
    obtain ⟨h3, h4⟩ := ih (ck.handleRestart i (nodes i))
    exact ⟨h3.trans h1, h4.trans h2⟩

/-! ### Commits -/

/-- The checker holds the entry that the node has at the index. -/
def Noted (ck : InvariantChecker) (n : RaftNode) (idx : ℕ) : Prop :=
  ∃ entry term, n.entryAt idx = .ok entry ∧ ck.committed.lookup idx = some (entry, term)

theorem Noted.keeps {idx : ℕ} (h : Noted ck n idx) (hk : Keeps ck.committed ck'.committed) :
    Noted ck' n idx := by
  obtain ⟨entry, term, he, hc⟩ := h
  exact ⟨entry, term, he, hk _ _ hc⟩

/-- The books that `_observe_commits` does not write, its cursors apart. -/
def others (ck : InvariantChecker) := (ck.appliedAt, ck.appliedSeen, ck.incarnation)

theorem observeIndex_noted {idx : ℕ} (h : observeIndex nodes ids step n ck idx = .ok ck') :
    Noted ck' n idx ∧ Keeps ck.committed ck'.committed ∧ ck'.prevCommit = ck.prevCommit ∧
      ck'.others = ck.others := by
  obtain ⟨entry, he, h⟩ := bind_ok.mp h
  obtain ⟨c, hc, h⟩ := bind_ok.mp h
  have he := raises_ok.mp he
  -- the quorum check only reads
  have hsame : ck' = c := by
    unfold checkQuorum at h
    split at h
    · obtain ⟨holders, -, h⟩ := bind_ok.mp h
      split at h
      · cases h
      · exact (Except.ok.inj h).symm
    · exact (Except.ok.inj h).symm
  rw [hsame]
  unfold noteCommit at hc
  split at hc
  next hnone =>
    obtain rfl := Except.ok.inj hc
    exact ⟨⟨entry, n.term, he, Finmap.lookup_insert _⟩, keeps_insert _ hnone, rfl, rfl⟩
  next known hknown =>
    split at hc
    · cases hc
    next heq =>
      obtain rfl := Except.ok.inj hc
      refine ⟨⟨entry, known.2, he, ?_⟩, Keeps.refl _, rfl, rfl⟩
      rw [hknown, ← not_not.mp heq]

theorem observeIndices_noted {xs : List ℕ}
    (h : xs.foldlM (observeIndex nodes ids step n) ck = .ok ck') :
    (∀ idx ∈ xs, Noted ck' n idx) ∧ Keeps ck.committed ck'.committed ∧
      ck'.prevCommit = ck.prevCommit ∧ ck'.others = ck.others := by
  induction xs generalizing ck with
  | nil =>
    obtain rfl := Except.ok.inj h
    exact ⟨nofun, Keeps.refl _, rfl, rfl⟩
  | cons idx xs ih =>
    rw [List.foldlM_cons] at h
    obtain ⟨c, hc, h⟩ := bind_ok.mp h
    obtain ⟨hnoted, hk, hp, ho⟩ := observeIndex_noted hc
    obtain ⟨hall, hk', hp', ho'⟩ := ih h
    refine ⟨?_, hk.trans hk', hp'.trans hp, ho'.trans ho⟩
    intro j hj
    rcases List.mem_cons.mp hj with rfl | hj
    · exact hnoted.keeps hk'
    · exact hall j hj

/-- What `_observe_commits` sees of one node: no regression, and every index that is newly
committed and not folded. -/
def Watches (ck ck' : InvariantChecker) (i : NodeId) (n : RaftNode) : Prop :=
  (ck.prevCommit.lookup i).getD 0 ≤ n.commitIndex ∧
    ck'.prevCommit.lookup i = some n.commitIndex ∧
    ∀ idx, (ck.prevCommit.lookup i).getD 0 < idx → n.baseIndex < idx → idx ≤ n.commitIndex →
      Noted ck' n idx

theorem observeNode_watches (h : observeNode nodes ids step ck i = .ok ck') :
    Watches ck ck' i (nodes i) ∧ Keeps ck.committed ck'.committed ∧
      (∀ j, j ≠ i → ck'.prevCommit.lookup j = ck.prevCommit.lookup j) ∧
      ck'.others = ck.others := by
  unfold observeNode at h
  dsimp only at h
  split at h
  · cases h
  next hge =>
    obtain ⟨c, hc, h⟩ := bind_ok.mp h
    obtain rfl := Except.ok.inj h
    obtain ⟨hall, hk, hp, ho⟩ := observeIndices_noted hc
    refine ⟨⟨Nat.le_of_not_lt hge, Finmap.lookup_insert _, ?_⟩, hk, ?_, ho⟩
    · intro idx h1 h2 h3
      exact hall idx (mem_pyRange.mpr (by omega))
    · intro j hj
      change (c.prevCommit.insert i _).lookup j = _
      rw [Finmap.lookup_insert_of_ne _ hj, hp]

theorem observeCommits_other {j : NodeId} (hj : j ∉ ids) {all : List NodeId}
    (h : ids.foldlM (observeNode nodes all step) ck = .ok ck') :
    ck'.prevCommit.lookup j = ck.prevCommit.lookup j := by
  refine foldlM_keeps (P := fun c => c.prevCommit.lookup j = ck.prevCommit.lookup j) ?_ rfl h
  intro i hi c c' hc hstep
  have hji : j ≠ i := fun heq => hj (heq ▸ hi)
  exact ((observeNode_watches hstep).2.2.1 j hji).trans hc

theorem observeCommits_keeps {all : List NodeId}
    (h : ids.foldlM (observeNode nodes all step) ck = .ok ck') :
    Keeps ck.committed ck'.committed ∧ ck'.others = ck.others := by
  refine foldlM_keeps
    (P := fun c => Keeps ck.committed c.committed ∧ c.others = ck.others) ?_
    ⟨Keeps.refl _, rfl⟩ h
  intro i _ c c' hc hstep
  obtain ⟨-, hk, -, ho⟩ := observeNode_watches hstep
  exact ⟨hc.1.trans hk, ho.trans hc.2⟩

theorem observeCommits_watches (hn : ids.Nodup) {all : List NodeId}
    (h : ids.foldlM (observeNode nodes all step) ck = .ok ck') (hi : i ∈ ids) :
    Watches ck ck' i (nodes i) := by
  induction ids generalizing ck with
  | nil => cases hi
  | cons j rest ih =>
    obtain ⟨hj, hrest⟩ := List.nodup_cons.mp hn
    rw [List.foldlM_cons] at h
    obtain ⟨c, hc, hloop⟩ := bind_ok.mp h
    obtain ⟨hw, -, hother, -⟩ := observeNode_watches hc
    by_cases hij : i = j
    · -- the later rounds keep what this one has noted
      subst hij
      have hk := (observeCommits_keeps hloop).1
      refine ⟨hw.1, (observeCommits_other hj hloop).trans hw.2.1, fun idx h1 h2 h3 => ?_⟩
      exact (hw.2.2 idx h1 h2 h3).keeps hk
    · have hrec := ih hrest hloop ((List.mem_cons.mp hi).resolve_left hij)
      unfold Watches at hrec ⊢
      rwa [hother i hij] at hrec

/-! ### Applications -/

/-- The books that `_check_state_machine_safety` does not write. -/
def commits (ck : InvariantChecker) := (ck.committed, ck.prevCommit, ck.incarnation)

/-- The checker holds the command that the node has applied at the index. -/
def Told (ck : InvariantChecker) (n : RaftNode) (idx : ℕ) : Prop :=
  ∃ cmd, pyGet n.applied ((idx : ℤ)-n.baseIndex-1) = .ok cmd ∧ ck.appliedAt.lookup idx = some cmd

theorem Told.keeps {idx : ℕ} (h : Told ck n idx) (hk : Keeps ck.appliedAt ck'.appliedAt) :
    Told ck' n idx := by
  obtain ⟨cmd, he, hc⟩ := h
  exact ⟨cmd, he, hk _ _ hc⟩

/-- Every index in the second dictionary is in the first or among `xs`. -/
def OnlyNew (d d' : Dict ℕ Str) (xs : Set ℕ) : Prop :=
  ∀ k, d'.lookup k ≠ none → d.lookup k ≠ none ∨ k ∈ xs

theorem checkApplied_told {idx : ℕ} (h : checkApplied step n ck idx = .ok ck') :
    Told ck' n idx ∧ Keeps ck.appliedAt ck'.appliedAt ∧
      OnlyNew ck.appliedAt ck'.appliedAt {idx} ∧ ck'.appliedSeen = ck.appliedSeen ∧
      ck'.commits = ck.commits := by
  obtain ⟨cmd, hcmd, h⟩ := bind_ok.mp h
  have hcmd := raises_ok.mp hcmd
  dsimp only at h
  split at h
  · cases h
  next heq =>
    have heq := not_not.mp heq
    obtain rfl := Except.ok.inj h
    have hself : (ck.appliedAt.insert idx ((ck.appliedAt.lookup idx).getD cmd)).lookup idx =
        some cmd := by rw [Finmap.lookup_insert, heq]
    refine ⟨⟨cmd, hcmd, hself⟩, ?_, ?_, rfl, rfl⟩
    · intro k v hk
      change (ck.appliedAt.insert idx _).lookup k = some v
      rw [Dict.lookup_insert_eq]
      split
      next hki =>
        rw [hki] at hk
        rw [hk]
        rfl
      next => exact hk
    · intro k hk
      change (ck.appliedAt.insert idx _).lookup k ≠ none at hk
      rw [Dict.lookup_insert_eq] at hk
      split at hk
      next hki => exact Or.inr hki
      next => exact Or.inl hk

theorem checkAllApplied_told {xs : List ℕ} (h : xs.foldlM (checkApplied step n) ck = .ok ck') :
    (∀ idx ∈ xs, Told ck' n idx) ∧ Keeps ck.appliedAt ck'.appliedAt ∧
      OnlyNew ck.appliedAt ck'.appliedAt {k | k ∈ xs} ∧ ck'.appliedSeen = ck.appliedSeen ∧
      ck'.commits = ck.commits := by
  induction xs generalizing ck with
  | nil =>
    obtain rfl := Except.ok.inj h
    exact ⟨nofun, Keeps.refl _, fun _ hk => Or.inl hk, rfl, rfl⟩
  | cons idx xs ih =>
    rw [List.foldlM_cons] at h
    obtain ⟨c, hc, h⟩ := bind_ok.mp h
    obtain ⟨ht, hk, hnew, hs, hb⟩ := checkApplied_told hc
    obtain ⟨hall, hk', hnew', hs', hb'⟩ := ih h
    refine ⟨?_, hk.trans hk', ?_, hs'.trans hs, hb'.trans hb⟩
    · intro j hj
      rcases List.mem_cons.mp hj with rfl | hj
      · exact ht.keeps hk'
      · exact hall j hj
    · intro k hl
      rcases hnew' k hl with hl | hl
      · refine (hnew k hl).imp_right fun (heq : k = idx) => ?_
        rw [heq]
        exact List.mem_cons_self
      · exact Or.inr (List.mem_cons_of_mem _ hl)

/-- The applied indices of a node that its log does not have folded. -/
def liveApplied (n : RaftNode) : Set ℕ :=
  {k | n.baseIndex < k ∧ k ≤ n.baseIndex+n.applied.length}

/-- What `_check_state_machine_safety` sees of one node. -/
def Hears (ck ck' : InvariantChecker) (i : NodeId) (n : RaftNode) : Prop :=
  ck'.appliedSeen.lookup i = some (max ((ck.appliedSeen.lookup i).getD 0)
      (n.baseIndex+n.applied.length)) ∧
    ∀ idx, (ck.appliedSeen.lookup i).getD 0 < idx → n.baseIndex < idx →
      idx ≤ n.baseIndex+n.applied.length → Told ck' n idx

theorem checkStateMachine_hears (h : ck.checkStateMachine step i n = .ok ck') :
    Hears ck ck' i n ∧ Keeps ck.appliedAt ck'.appliedAt ∧
      OnlyNew ck.appliedAt ck'.appliedAt (liveApplied n) ∧
      (∀ j, j ≠ i → ck'.appliedSeen.lookup j = ck.appliedSeen.lookup j) ∧
      ck'.commits = ck.commits := by
  obtain ⟨c, hc, h⟩ := bind_ok.mp h
  obtain rfl := Except.ok.inj h
  obtain ⟨hall, hk, hnew, hs, hb⟩ := checkAllApplied_told hc
  refine ⟨⟨Finmap.lookup_insert _, ?_⟩, hk, ?_, ?_, hb⟩
  · intro idx h1 h2 h3
    exact hall idx (mem_pyRange.mpr (by omega))
  · intro k hl
    refine (hnew k hl).imp_right fun hmem => ?_
    have hr := mem_pyRange.mp hmem
    exact ⟨by omega, by omega⟩
  · intro j hj
    change (c.appliedSeen.insert i _).lookup j = _
    rw [Finmap.lookup_insert_of_ne _ hj, hs]

theorem checkStateMachineSafety_keeps (h : checkStateMachineSafety nodes ids step ck = .ok ck') :
    Keeps ck.appliedAt ck'.appliedAt ∧
      OnlyNew ck.appliedAt ck'.appliedAt {k | ∃ i ∈ ids, k ∈ liveApplied (nodes i)} ∧
      ck'.commits = ck.commits := by
  refine foldlM_keeps (P := fun c => Keeps ck.appliedAt c.appliedAt ∧
    OnlyNew ck.appliedAt c.appliedAt {k | ∃ i ∈ ids, k ∈ liveApplied (nodes i)} ∧
    c.commits = ck.commits) ?_ ⟨Keeps.refl _, fun _ hk => Or.inl hk, rfl⟩ h
  intro i hi c c' hc hstep
  obtain ⟨hk0, hnew0, hb0⟩ := hc
  obtain ⟨-, hk, hnew, -, hb⟩ := checkStateMachine_hears hstep
  refine ⟨hk0.trans hk, ?_, hb.trans hb0⟩
  intro k hl
  rcases hnew k hl with hl | hl
  · exact hnew0 k hl
  · exact Or.inr ⟨i, hi, hl⟩

theorem checkStateMachineSafety_hears (hn : ids.Nodup)
    (h : checkStateMachineSafety nodes ids step ck = .ok ck') (hi : i ∈ ids) :
    Hears ck ck' i (nodes i) := by
  unfold checkStateMachineSafety at h
  induction ids generalizing ck with
  | nil => cases hi
  | cons j rest ih =>
    obtain ⟨hj, hrest⟩ := List.nodup_cons.mp hn
    rw [List.foldlM_cons] at h
    obtain ⟨c, hc, hloop⟩ := bind_ok.mp h
    obtain ⟨hw, -, -, hother, -⟩ := checkStateMachine_hears hc
    by_cases hij : i = j
    · subst hij
      have hk := (checkStateMachineSafety_keeps hloop).1
      -- the nodes that come after leave what was heard of `i`
      have hseen : ck'.appliedSeen.lookup i = c.appliedSeen.lookup i := by
        refine foldlM_keeps (P := fun d => d.appliedSeen.lookup i = c.appliedSeen.lookup i) ?_
          rfl hloop
        intro k hk d d' hd hstep
        have hik : i ≠ k := fun heq => hj (heq ▸ hk)
        exact ((checkStateMachine_hears hstep).2.2.2.1 i hik).trans hd
      refine ⟨hseen.trans hw.1, fun idx h1 h2 h3 => ?_⟩
      exact (hw.2 idx h1 h2 h3).keeps hk
    · have hrec := ih hrest hloop ((List.mem_cons.mp hi).resolve_left hij)
      unfold Hears at hrec ⊢
      rwa [hother i hij] at hrec

/-! ### A whole check -/

/-- The node has crashed since the last check. -/
def Restarted (ck : InvariantChecker) (i : NodeId) (n : RaftNode) : Prop :=
  ck.incarnation.lookup i ≠ none ∧ ck.incarnation.lookup i ≠ some n.incarnation

instance (ck : InvariantChecker) (i : NodeId) (n : RaftNode) : Decidable (ck.Restarted i n) :=
  inferInstanceAs (Decidable (_ ∧ _))

/-- The commit index up to which the checker has observed the node. -/
def observedUpTo (ck : InvariantChecker) (i : NodeId) (n : RaftNode) : ℕ :=
  if ck.Restarted i n then n.commitIndex else (ck.prevCommit.lookup i).getD 0

/-- The applied index up to which the checker has compared the node. -/
def comparedUpTo (ck : InvariantChecker) (i : NodeId) (n : RaftNode) : ℕ :=
  if ck.Restarted i n then n.baseIndex+n.applied.length else (ck.appliedSeen.lookup i).getD 0

/-- What a check that raises nothing has found of one node and written down. -/
structure Checked (ck ck' : InvariantChecker) (i : NodeId) (n : RaftNode) : Prop where
  incarnation : ck'.incarnation.lookup i = some n.incarnation
  monotone : ck.observedUpTo i n ≤ n.commitIndex
  prev : ck'.prevCommit.lookup i = some n.commitIndex
  noted : ∀ idx, ck.observedUpTo i n < idx → n.baseIndex < idx → idx ≤ n.commitIndex →
    Noted ck' n idx
  seen : ck'.appliedSeen.lookup i =
    some (max (ck.comparedUpTo i n) (n.baseIndex+n.applied.length))
  told : ∀ idx, ck.comparedUpTo i n < idx → n.baseIndex < idx →
    idx ≤ n.baseIndex+n.applied.length → Told ck' n idx

theorem check_checked (hn : ids.Nodup) (h : ck.check nodes ids step = .ok ck') :
    (∀ i ∈ ids, Checked ck ck' i (nodes i)) ∧ Keeps ck.committed ck'.committed ∧
      Keeps ck.appliedAt ck'.appliedAt ∧
      OnlyNew ck.appliedAt ck'.appliedAt {k | ∃ i ∈ ids, k ∈ liveApplied (nodes i)} := by
  unfold check at h
  dsimp only at h
  obtain ⟨c1, h1, h⟩ := bind_ok.mp h
  obtain ⟨c2, h2, h⟩ := bind_ok.mp h
  obtain ⟨c3, h3, h⟩ := bind_ok.mp h
  obtain ⟨c4, h4, h⟩ := bind_ok.mp h
  obtain ⟨c5, h5, h6⟩ := bind_ok.mp h
  have hbooks := ((checkLogMatching_books h3).trans (checkLeaderAppendOnly_books h2)).trans
    (checkElectionSafety_books h1)
  simp only [books, Prod.mk.injEq] at hbooks
  obtain ⟨hcom, happ, hprev, hseen, hinc⟩ := hbooks
  obtain ⟨hkc, hka⟩ := handleRestarts_kept { ck with checksRun := ck.checksRun+1 } nodes ids
  obtain ⟨hk4, ho4⟩ := observeCommits_keeps h4
  simp only [others, Prod.mk.injEq] at ho4
  obtain ⟨ha4, hs4, hi4⟩ := ho4
  have hb5 := checkLeaderCompleteness_books h5
  simp only [books, Prod.mk.injEq] at hb5
  obtain ⟨hc5, ha5, hp5, hs5, hi5⟩ := hb5
  obtain ⟨hk6, hnew6, hb6⟩ := checkStateMachineSafety_keeps h6
  simp only [commits, Prod.mk.injEq] at hb6
  obtain ⟨hc6, hp6, hi6⟩ := hb6
  have happlied : c5.appliedAt = ck.appliedAt := by rw [ha5, ha4, happ, hka]
  have hcommitted : ck'.committed = c4.committed := by rw [hc6, hc5]
  refine ⟨fun i hi => ?_, ?_, ?_, ?_⟩
  · obtain ⟨hri, hrc⟩ := handleRestarts_rebased hn { ck with checksRun := ck.checksRun+1 } nodes hi
    obtain ⟨hw1, hw2, hw3⟩ := observeCommits_watches hn h4 hi
    obtain ⟨hh1, hh2⟩ := checkStateMachineSafety_hears hn h6 hi
    -- the cursors that the observers start from are those after the rebasing
    have hcursors : (c3.prevCommit.lookup i).getD 0 = ck.observedUpTo i (nodes i) ∧
        (c5.appliedSeen.lookup i).getD 0 = ck.comparedUpTo i (nodes i) := by
      rw [hprev, hs5, hs4, hseen]
      unfold observedUpTo comparedUpTo
      split at hrc
      next hre =>
        have hre : ck.Restarted i (nodes i) := hre
        rw [hrc.1, hrc.2, if_pos hre, if_pos hre]
        exact ⟨rfl, rfl⟩
      next hre =>
        have hre : ¬ ck.Restarted i (nodes i) := hre
        rw [hrc.1, hrc.2, if_neg hre, if_neg hre]
        exact ⟨rfl, rfl⟩
    rw [hcursors.1] at hw1 hw3
    rw [hcursors.2] at hh1 hh2
    refine ⟨?_, hw1, ?_, ?_, hh1, hh2⟩
    · rw [hi6, hi5, hi4, hinc]
      exact hri
    · rw [hp6, hp5]
      exact hw2
    · intro idx h1 h2 h3
      refine (hw3 idx h1 h2 h3).keeps ?_
      rw [hcommitted]
      exact Keeps.refl _
  · rw [hcommitted, ← hkc, ← hcom]
    exact hk4
  · rw [← happlied]
    exact hk6
  · rw [← happlied]
    exact hnew6

end InvariantChecker
end RaftVerified
