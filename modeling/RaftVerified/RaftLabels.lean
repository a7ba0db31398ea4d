import RaftVerified.RaftChecker

/-! What the checker puts on a violation: the seed and the replay of its run, and the step it is
given. Every check that passes is counted. -/
namespace RaftVerified

/-- What identifies a checker, and how often it has been called. -/
def InvariantChecker.label (ck : InvariantChecker) : ℤ × Str × ℕ :=
  (ck.seed, ck.replayHint, ck.checksRun)

/-- A part of a check: its result is `P`, and its violation names the run and the step. -/
structure Labelled {α : Type} (l : ℤ × Str × ℕ) (step : ℕ) (P : α → Prop)
    (x : Except RunError α) : Prop where
  result : ∀ a, x = .ok a → P a
  named : ∀ v, x = .error (.violation v) → v.seed = l.1 ∧ v.replay = l.2.1 ∧ v.step = step

namespace Labelled
variable {α β : Type} {l : ℤ × Str × ℕ} {step : ℕ} {P : α → Prop} {Q : β → Prop}

theorem ok {a : α} (h : P a) : Labelled l step P (.ok a) :=
  ⟨fun b heq => Except.ok.inj heq ▸ h, fun v heq => (by cases heq)⟩

theorem fail {ck : InvariantChecker} (h : ck.label = l) (v : Violation) :
    Labelled l step P (ck.fail v step) := by
  subst h
  refine ⟨fun a heq => (by cases heq), fun w heq => ?_⟩
  obtain rfl := RunError.violation.inj (Except.error.inj heq)
  exact ⟨rfl, rfl, rfl⟩

theorem bind {x : Except RunError α} {f : α → Except RunError β} (hx : Labelled l step P x)
    (hf : ∀ a, P a → Labelled l step Q (f a)) : Labelled l step Q (x >>= f) := by
  cases hxe : x with
  | ok a => exact hf a (hx.result a hxe)
  | error e =>
    refine ⟨fun b heq => (by cases heq), fun v heq => ?_⟩
    obtain rfl := Except.error.inj heq
    exact hx.named v hxe

theorem mono {Q : α → Prop} {x : Except RunError α} (hx : Labelled l step P x)
    (hPQ : ∀ a, P a → Q a) : Labelled l step Q x :=
  ⟨fun a ha => hPQ a (hx.result a ha), hx.named⟩

/-- A read of a log that fails is no violation. -/
theorem read {x : Except PyError α} {f : α → Except RunError β}
    (hf : ∀ a, Labelled l step Q (f a)) : Labelled l step Q (raises x >>= f) := by
  cases x with
  | ok a => exact hf a
  | error e => exact ⟨fun b heq => (by cases heq), fun v heq => (by cases heq)⟩

theorem foldlM {xs : List β} {f : α → β → Except RunError α}
    (hf : ∀ a, P a → ∀ b ∈ xs, Labelled l step P (f a b)) {a : α} (ha : P a) :
    Labelled l step P (xs.foldlM f a) := by
  induction xs generalizing a with
  | nil => exact .ok ha
  | cons b xs ih =>
    rw [List.foldlM_cons]
    refine (hf a ha b List.mem_cons_self).bind fun a' ha' => ?_
    exact ih (fun a₁ h₁ b₁ hb₁ => hf a₁ h₁ b₁ (List.mem_cons_of_mem b hb₁)) ha'

end Labelled

namespace InvariantChecker
variable {l : ℤ × Str × ℕ} {d : Dict ℕ NodeId} {step : ℕ} {ck ck' : InvariantChecker}
  {nodes : NodeId → RaftNode} {ids : List NodeId}

/-- A checker with this label that knows these leaders. -/
def Knows (l : ℤ × Str × ℕ) (d : Dict ℕ NodeId) (ck : InvariantChecker) : Prop :=
  ck.label = l ∧ ck.leadersByTerm = d

/-- A part of a check that keeps the label and the leaders. -/
abbrev Keeping (l : ℤ × Str × ℕ) (d : Dict ℕ NodeId) (step : ℕ)
    (x : Except RunError InvariantChecker) : Prop :=
  Labelled l step (Knows l d) x

theorem Keeping.each {α : Type} {xs : List α}
    {f : InvariantChecker → α → Except RunError InvariantChecker}
    (hf : ∀ ck : InvariantChecker, Knows l d ck → ∀ a, Keeping l d step (f ck a))
    (h : Knows l d ck) : Keeping l d step (xs.foldlM f ck) :=
  Labelled.foldlM (fun ck h a _ => hf ck h a) h

theorem new_label (seed : ℤ) {hint : Str} (h : hint ≠ []) :
    (new seed hint).label = (seed, hint, 0) := by
  unfold new label
  rw [if_neg h]

theorem handleRestarts_knows (h : Knows l d ck) : Knows l d (ck.handleRestarts nodes ids) := by
  unfold handleRestarts
  induction ids generalizing ck with
  | nil => exact h
  | cons i ids ih =>
    refine ih ?_
    unfold handleRestart
    dsimp only
    split
    · exact h
    · exact h

theorem checkLeader_label (h : ck.label = l) (n : RaftNode) :
    Labelled l step (fun ck : InvariantChecker => ck.label = l) (ck.checkLeader step n) := by
  unfold checkLeader
  dsimp only
  split
  · split
    · exact .fail h _
    · exact .ok h
  · exact .ok h

theorem checkAppendOnly_label (h : Knows l d ck) (i : NodeId) (n : RaftNode) :
    Keeping l d step (ck.checkAppendOnly step i n) := by
  unfold checkAppendOnly
  dsimp only
  split
  · exact .ok h
  split
  · exact .ok h
  split
  · exact .ok h
  split
  · exact .ok h
  refine .read fun mutated => ?_
  split
  · exact .fail h.1 _
  · exact .ok h

theorem checkPair_label (h : Knows l d ck) (a b : RaftNode) :
    Keeping l d step (ck.checkPair step a b) := by
  unfold checkPair
  dsimp only
  split
  · exact .ok h
  refine .read fun top => .read fun found => ?_
  split
  · exact .fail h.1 _
  · exact .ok h

theorem observeIndex_label (h : Knows l d ck) (n : RaftNode) (idx : ℕ) :
    Keeping l d step (observeIndex nodes ids step n ck idx) := by
  refine .read fun entry => Labelled.bind (P := Knows l d) ?_
    fun ck h => ?_
  · unfold noteCommit
    split
    · exact .ok h
    · split
      · exact .fail h.1 _
      · exact .ok h
  · unfold checkQuorum
    split
    · refine .read fun holders => ?_
      split
      · exact .fail h.1 _
      · exact .ok h
    · exact .ok h

theorem observeNode_label (h : Knows l d ck) (i : NodeId) :
    Keeping l d step (observeNode nodes ids step ck i) := by
  unfold observeNode
  dsimp only
  split
  · exact .fail h.1 _
  · exact Labelled.bind (Keeping.each (fun ck h idx => observeIndex_label h _ idx) h)
      fun ck h => .ok h

theorem checkCommitted_label (h : Knows l d ck) (n : RaftNode) (idxs : List ℕ) :
    Labelled l step (fun _ => True) (ck.checkCommitted step n idxs) := by
  induction idxs with
  | nil => exact .ok trivial
  | cons idx rest ih =>
    unfold checkCommitted
    split
    · exact ih
    · refine .read fun missing => ?_
      split
      · exact .fail h.1 _
      · exact ih

theorem checkCompleteness_label (h : Knows l d ck) (i : NodeId) (n : RaftNode) :
    Keeping l d step (ck.checkCompleteness step i n) := by
  unfold checkCompleteness
  dsimp only
  split
  · exact .ok h
  split
  · exact .ok h
  · exact (checkCommitted_label h n _).bind fun _ _ => .ok h

theorem checkStateMachine_label (h : Knows l d ck) (i : NodeId) (n : RaftNode) :
    Keeping l d step (ck.checkStateMachine step i n) := by
  refine Labelled.bind (Keeping.each (fun ck h idx => ?_) h) fun ck h => .ok h
  refine .read fun cmd => ?_
  dsimp only
  split
  · exact .fail h.1 _
  · exact .ok h

theorem afterElection_label (h : Knows l d ck) : Keeping l d step (do
    let ck ← checkLeaderAppendOnly nodes ids step ck
    let ck ← checkLogMatching nodes ids step ck
    let ck ← observeCommits nodes ids step ck
    let ck ← checkLeaderCompleteness nodes ids step ck
    checkStateMachineSafety nodes ids step ck) := by
  refine Labelled.bind (Keeping.each (fun ck h i => checkAppendOnly_label h i (nodes i)) h)
    fun ck h => ?_
  refine Labelled.bind (Keeping.each (fun ck h p => checkPair_label h (nodes p.1) (nodes p.2)) h)
    fun ck h => ?_
  refine Labelled.bind (Keeping.each (fun ck h i => observeNode_label h i) h) fun ck h => ?_
  refine Labelled.bind (Keeping.each (fun ck h i => checkCompleteness_label h i (nodes i)) h)
    fun ck h => ?_
  exact Keeping.each (fun ck h i => checkStateMachine_label h i (nodes i)) h

/-- A check that passes counts itself, and a violation names the run of the checker and the step
it is given. -/
theorem check_label (ck : InvariantChecker) (nodes : NodeId → RaftNode) (ids : List NodeId)
    (step : ℕ) : Labelled (ck.seed, ck.replayHint, ck.checksRun+1) step
      (fun ck' : InvariantChecker => ck'.label = (ck.seed, ck.replayHint, ck.checksRun+1))
      (ck.check nodes ids step) := by
  have hstart : Knows (ck.seed, ck.replayHint, ck.checksRun+1) ck.leadersByTerm
      { ck with checksRun := ck.checksRun+1 } := ⟨rfl, rfl⟩
  refine Labelled.bind (Labelled.foldlM (fun ck h i _ => checkLeader_label h (nodes i))
    (handleRestarts_knows hstart).1) fun c h => ?_
  exact Labelled.mono (afterElection_label ⟨h, rfl⟩) fun ck h => h.1

/-- Only the test of Election Safety writes down leaders. -/
theorem check_leaders (h : ck.check nodes ids step = .ok ck') : ∃ c c' : InvariantChecker,
    checkElectionSafety nodes ids step c = .ok c' ∧ c.leadersByTerm = ck.leadersByTerm ∧
      ck'.leadersByTerm = c'.leadersByTerm := by
  obtain ⟨c, hc, h⟩ := bind_ok.mp h
  refine ⟨_, c, hc, (handleRestarts_knows ⟨rfl, rfl⟩).2, ?_⟩
  exact ((afterElection_label ⟨rfl, rfl⟩).result ck' h).2

end InvariantChecker
end RaftVerified
