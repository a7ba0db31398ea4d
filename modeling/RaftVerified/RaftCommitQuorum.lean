import RaftVerified.RaftMembership
import RaftVerified.RaftChecking

/-! A commit is backed by a majority that holds it now: in every reachable state, and so at
every commit of a leader and in every test of the checker. -/
namespace RaftVerified
open Consensus

variable {c : Setup} {a : Protocol} {w : World} {ws past : List World} {i : NodeId} {k : ℕ}

/-- More than half of the voters have the entry `e` at position `k` of their logs. -/
def HeldByMajority (c : Setup) (w : World) (voters : List NodeId) (k : ℕ) (e : Entry) : Prop :=
  voters.length < 2*voters.countP fun v => decide (v ∈ c.ids ∧ (w.nodes v).log[k]? = some e)

theorem Setup.Accepted.voters_ids (h : c.Accepted) : ∀ v ∈ c.voters, v ∈ c.ids := by
  intro v hv
  unfold Setup.voters at hv
  split at hv
  next vs hvs => exact h.2 vs hvs v ((List.mem_insertionSort _).mp hv)
  next => exact (List.mem_insertionSort _).mp hv

namespace Explains

/-- Leaders only ever wrote plain entries, so the initial configuration governs them all. -/
theorem conf_fixed (h : Explains c a ws) (ht : c.config.snapshotThreshold = 0)
    (hr : Run c FixedVoters ws) {u : ℕ} (hu : a.Led u) (j : ℕ) :
    c.reading.conf ((a.trunk u).take j) = c.voters := by
  obtain ⟨x, hx, l, hl, -, -, hlog⟩ := h.leaders u hu
  obtain ⟨b, -, -, hrel⟩ := h.past x hx
  have hfix := fixed_nodes hr x hx l hl
  have hquiet : c.reading.Quiet (a.trunk u) 0 j := by
    intro n e _ _ he
    rw [← hlog, (flat_node (hrel.nodes l hl).ok ht).2] at he
    exact hfix.log e (List.mem_of_getElem? he)
  rw [c.reading.conf_take_of_quiet hquiet (Nat.zero_le j)]
  rfl

/-- Whatever a node covers with its commit index, a majority holds at this moment. -/
theorem covered_held (h : Explains c a (w :: past)) (ht : c.config.snapshotThreshold = 0)
    (hc : c.Accepted) (hr : Run c FixedVoters (w :: past)) (hi : i ∈ c.ids)
    (hk : k < (w.nodes i).commitIndex) {e : Entry} (he : (w.nodes i).log[k]? = some e) :
    HeldByMajority c w c.voters k e := by
  have hrel := h.now w rfl
  rw [← (flat_node (hrel.nodes i hi).ok ht).2] at he
  obtain ⟨t, m, j, -, hchosen, hkm, hek⟩ := h.covered_chosen List.mem_cons_self hi hk he
  obtain ⟨P, hP, hheld⟩ := h.inv.chosen_held hchosen
  rw [h.conf_fixed ht hr (h.inv.chosen_led t m j hchosen).1] at hP
  -- a majority of the voters hold the trunk up to the commit, the entry with it
  have hall : ∀ v ∈ c.voters, v ∈ P → v ∈ c.ids ∧ (w.nodes v).log[k]? = some e := by
    intro v hv hvP
    have hid := hc.voters_ids v hv
    refine ⟨hid, ?_⟩
    have hpre := hheld v hvP
    rw [(hrel.nodes v hid).view] at hpre
    have hlog := prefix_getElem? hpre ((List.getElem?_take_of_lt hkm).trans hek)
    rwa [← (flat_node (hrel.nodes v hid).ok ht).2]
  have hle := List.countP_mono_left (l := c.voters) (p := fun v => decide (v ∈ P))
    (q := fun v => decide (v ∈ c.ids ∧ (w.nodes v).log[k]? = some e)) ?_
  · have hP : c.voters.length < 2*c.voters.countP fun v => decide (v ∈ P) := hP
    unfold HeldByMajority
    omega
  · intro v hv hvP
    exact decide_eq_true (hall v hv (of_decide_eq_true hvP))

end Explains

/-! ### What a check can blame -/

/-- Whatever violation a check raises, it is of this kind. -/
def Blames {α : Type} (P : Violation → Prop) (x : Except RunError α) : Prop :=
  ∀ v, x = .error (.violation v) → P v.violation

namespace Blames
variable {α β σ : Type} {P : Violation → Prop}

theorem ok (a : α) : Blames P (.ok a) := nofun

theorem raises (x : Except PyError α) : Blames P (raises x) := by
  intro v hv
  cases x with
  | ok a => cases hv
  | error e => cases hv

theorem fail {ck : InvariantChecker} {v : Violation} {step : ℕ} (h : P v) :
    Blames P (ck.fail v step : Except RunError α) := by
  intro u hu
  obtain rfl := RunError.violation.inj (Except.error.inj hu)
  exact h

theorem bind {x : Except RunError α} {f : α → Except RunError β} (hx : Blames P x)
    (hf : ∀ a, x = .ok a → Blames P (f a)) : Blames P (x >>= f) := by
  intro v hv
  cases x with
  | error e => exact hx v (congrArg _ (Except.error.inj hv))
  | ok a => exact hf a rfl v hv

theorem foldlM {f : σ → α → Except RunError σ} (xs : List α)
    (hf : ∀ x ∈ xs, ∀ t, Blames P (f t x)) (s : σ) : Blames P (xs.foldlM f s) := by
  induction xs generalizing s with
  | nil => exact ok s
  | cons x xs ih =>
    rw [List.foldlM_cons]
    apply bind (hf x List.mem_cons_self s)
    intro t _
    exact ih (fun y hy => hf y (List.mem_cons_of_mem x hy)) t

end Blames

/-- Any violation but that of the commit quorum. -/
def Violation.Other (v : Violation) : Prop :=
  ∀ node index holders size, v ≠ .commitQuorum node index holders size

namespace InvariantChecker
variable {ck : InvariantChecker} {nodes : NodeId → RaftNode} {ids : List NodeId} {step : ℕ}
  {n : RaftNode}

theorem holds_flat (hf : n.folded.length = n.baseIndex) (hb : n.baseIndex = 0) {e : Entry}
    {held : Bool} (h : holds n (k+1) e = .ok held) :
    held = decide (n.logical[k]? = some e) := by
  unfold holds at h
  rw [if_neg (by omega)] at h
  split at h
  next hlt =>
    rw [← RaftNode.length_logical hf] at hlt
    obtain rfl := Except.ok.inj h
    rw [List.getElem?_eq_none (by omega)]
    rfl
  next =>
    obtain ⟨f, hget, rfl⟩ := map_ok.mp h
    rw [(RaftNode.entryAt_eq hf (by omega)).mp hget]
    exact decide_eq_decide.mpr (Option.some_inj).symm

theorem countHolders_eq (hflat : ∀ i ∈ ids, (nodes i).folded = [] ∧ (nodes i).baseIndex = 0)
    {e : Entry} (vs : List NodeId) {m : ℕ}
    (h : countHolders nodes ids (k+1) e vs = .ok m) :
    m = vs.countP fun v => decide (v ∈ ids ∧ (nodes v).log[k]? = some e) := by
  induction vs generalizing m with
  | nil => exact (Except.ok.inj h).symm
  | cons v vs ih =>
    obtain ⟨held, hheld, h⟩ := bind_ok.mp h
    obtain ⟨count, hcount, h⟩ := bind_ok.mp h
    have hval : held = decide (v ∈ ids ∧ (nodes v).log[k]? = some e) := by
      split at hheld
      next hv =>
        obtain ⟨hf, hb⟩ := hflat v hv
        have hd := holds_flat (by rw [hf, hb, List.length_nil]) hb hheld
        rw [RaftNode.logical, hf, List.nil_append] at hd
        simp only [hd, hv, true_and]
      next hv =>
        obtain rfl := Except.ok.inj hheld
        simp only [hv, false_and, decide_false]
    obtain rfl := Except.ok.inj h
    rw [List.countP_cons, ← ih hcount, hval]
    split <;> rfl

theorem checkElectionSafety_blames (ck : InvariantChecker) :
    Blames Violation.Other (checkElectionSafety nodes ids step ck) := by
  refine Blames.foldlM _ ?_ _
  intro i _ t
  unfold checkLeader
  split
  · dsimp only
    split
    · exact Blames.fail nofun
    · exact Blames.ok _
  · exact Blames.ok _

theorem checkLeaderAppendOnly_blames (ck : InvariantChecker) :
    Blames Violation.Other (checkLeaderAppendOnly nodes ids step ck) := by
  refine Blames.foldlM _ ?_ _
  intro i _ t
  unfold checkAppendOnly
  split
  · exact Blames.ok _
  · dsimp only
    split
    · exact Blames.ok _
    · split
      · exact Blames.ok _
      · split
        · exact Blames.ok _
        · refine Blames.bind (Blames.raises _) ?_
          intro mutated _
          split
          · exact Blames.fail nofun
          · exact Blames.ok _

theorem checkLogMatching_blames (ck : InvariantChecker) :
    Blames Violation.Other (checkLogMatching nodes ids step ck) := by
  refine Blames.foldlM _ ?_ _
  intro p _ t
  unfold checkPair
  dsimp only
  split
  · exact Blames.ok _
  · refine Blames.bind (Blames.raises _) ?_
    intro top _
    refine Blames.bind (Blames.raises _) ?_
    intro found _
    cases found with
    | some idx => exact Blames.fail nofun
    | none => exact Blames.ok _

theorem checkCommitted_blames (ck : InvariantChecker) (n : RaftNode) (xs : List ℕ) :
    Blames Violation.Other (ck.checkCommitted step n xs) := by
  induction xs with
  | nil => exact Blames.ok _
  | cons idx rest ih =>
    unfold checkCommitted
    split
    · exact ih
    · refine Blames.bind (Blames.raises _) ?_
      intro missing _
      split
      · exact Blames.fail nofun
      · exact ih

theorem checkLeaderCompleteness_blames (ck : InvariantChecker) :
    Blames Violation.Other (checkLeaderCompleteness nodes ids step ck) := by
  refine Blames.foldlM _ ?_ _
  intro i _ t
  unfold checkCompleteness
  split
  · exact Blames.ok _
  · dsimp only
    split
    · exact Blames.ok _
    · refine Blames.bind (checkCommitted_blames t _ _) ?_
      intro _ _
      exact Blames.ok _

theorem checkStateMachineSafety_blames (ck : InvariantChecker) :
    Blames Violation.Other (checkStateMachineSafety nodes ids step ck) := by
  refine Blames.foldlM _ ?_ _
  intro i _ t
  unfold checkStateMachine
  dsimp only
  refine Blames.bind ?_ ?_
  · refine Blames.foldlM _ ?_ _
    intro logical _ t'
    unfold checkApplied
    refine Blames.bind (Blames.raises _) ?_
    intro cmd _
    dsimp only
    split
    · exact Blames.fail nofun
    · exact Blames.ok _
  · intro _ _
    exact Blames.ok _

/-- Where majorities hold what is covered, the quorum test passes. -/
theorem observeCommits_blames (hflat : ∀ i ∈ ids, (nodes i).folded = [] ∧
      (nodes i).baseIndex = 0)
    (hheld : ∀ i ∈ ids, ∀ k e, k < (nodes i).commitIndex → (nodes i).log[k]? = some e →
      (nodes i).voters.length < 2*(nodes i).voters.countP fun v =>
        decide (v ∈ ids ∧ (nodes v).log[k]? = some e)) (ck : InvariantChecker) :
    Blames Violation.Other (observeCommits nodes ids step ck) := by
  refine Blames.foldlM _ ?_ _
  intro i hi t
  unfold observeNode
  dsimp only
  split
  · exact Blames.fail nofun
  · refine Blames.bind ?_ ?_
    · refine Blames.foldlM _ ?_ _
      intro idx hidx t'
      unfold observeIndex
      refine Blames.bind (Blames.raises _) ?_
      intro entry hentry
      refine Blames.bind ?_ ?_
      · unfold noteCommit
        split
        · exact Blames.ok _
        · split
          · exact Blames.fail nofun
          · exact Blames.ok _
      · intro t'' _
        unfold checkQuorum
        split
        · refine Blames.bind (Blames.raises _) ?_
          intro holders hcount
          split
          next hfew =>
            -- the majority of the node's own voters contradicts the count
            obtain ⟨hlo, hhi⟩ := mem_pyRange.mp hidx
            obtain ⟨k, rfl⟩ : ∃ k, idx = k+1 := ⟨idx-1, by omega⟩
            obtain ⟨hf, hb⟩ := hflat i hi
            have hget := (RaftNode.entryAt_eq (by rw [hf, hb, List.length_nil]) (by omega)).mp
              (raises_ok.mp hentry)
            rw [RaftNode.logical, hf, List.nil_append] at hget
            have hmaj := hheld i hi k entry (by omega) hget
            rw [← countHolders_eq hflat _ (raises_ok.mp hcount)] at hmaj
            omega
          next => exact Blames.ok _
        · exact Blames.ok _
    · intro _ _
      exact Blames.ok _

theorem check_blames (hflat : ∀ i ∈ ids, (nodes i).folded = [] ∧ (nodes i).baseIndex = 0)
    (hheld : ∀ i ∈ ids, ∀ k e, k < (nodes i).commitIndex → (nodes i).log[k]? = some e →
      (nodes i).voters.length < 2*(nodes i).voters.countP fun v =>
        decide (v ∈ ids ∧ (nodes v).log[k]? = some e)) (ck : InvariantChecker) :
    Blames Violation.Other (ck.check nodes ids step) := by
  unfold check
  refine Blames.bind (checkElectionSafety_blames _) ?_
  intro _ _
  refine Blames.bind (checkLeaderAppendOnly_blames _) ?_
  intro _ _
  refine Blames.bind (checkLogMatching_blames _) ?_
  intro _ _
  refine Blames.bind (observeCommits_blames hflat hheld _) ?_
  intro _ _
  refine Blames.bind (checkLeaderCompleteness_blames _) ?_
  intro _ _
  exact checkStateMachineSafety_blames _

end InvariantChecker

/-- In every reachable state a majority holds, at that moment, each entry that the commit
index of a node covers. So it does at the step in which a leader commits, and whatever the
checker has seen before, its test of the commit quorum passes. -/
theorem commit_backed_by_majority (hb : c.bugs = NO_BUGS) (ht : c.config.snapshotThreshold = 0)
    (hc : c.Accepted) (hr : Run c FixedVoters (w :: past)) :
    (∀ i ∈ c.ids, ∀ k < (w.nodes i).commitIndex, ∃ e, (w.nodes i).log[k]? = some e ∧
      HeldByMajority c w (w.nodes i).voters k e) ∧
    ∀ (ck : InvariantChecker) (step : ℕ) (v : InvariantViolation),
      ck.check w.nodes c.ids step = .error (.violation v) →
      v.violation.invariant ≠ "CommitQuorum".toList := by
  obtain ⟨a, ha⟩ := fixed_explained hb ht hr
  have hok : ∀ i ∈ c.ids, NodeOk c (w.nodes i) := fun i hi => ((ha.now w rfl).nodes i hi).ok
  have hheld : ∀ i ∈ c.ids, ∀ k e, k < (w.nodes i).commitIndex →
      (w.nodes i).log[k]? = some e → HeldByMajority c w (w.nodes i).voters k e := by
    intro i hi k e hk he
    rw [(fixed_nodes hr w List.mem_cons_self i hi).voters]
    exact ha.covered_held ht hc hr hi hk he
  refine ⟨?_, ?_⟩
  · intro i hi k hk
    have hlen := (hok i hi).commit_le
    rw [(flat_node (hok i hi) ht).2] at hlen
    have hget := List.getElem?_eq_getElem (show k < (w.nodes i).log.length by omega)
    exact ⟨_, hget, hheld i hi k _ hk hget⟩
  · intro ck step v hv
    have hflat : ∀ i ∈ c.ids, (w.nodes i).folded = [] ∧ (w.nodes i).baseIndex = 0 := by
      intro i hi
      have hbase := (flat_node (hok i hi) ht).1
      refine ⟨List.length_eq_zero_iff.mp ?_, hbase⟩
      rw [(hok i hi).base, hbase]
    -- a checker pass finds the holders it counts, whatever its books say
    have hother := InvariantChecker.check_blames hflat hheld ck v hv
    obtain ⟨violation, seed, at_, replay⟩ := v
    cases violation with
    | commitQuorum node index holders size => exact absurd rfl (hother node index holders size)
    | _ => dsimp only [Violation.invariant]; decide

theorem first_commit_backed : ∃ w past, Run trio FixedVoters (w :: past) ∧
    (w.nodes 0).commitIndex = 1 ∧ HeldByMajority trio w (w.nodes 0).voters 0 ⟨1, "a".toList⟩ := by
  have hr : Run trio FixedVoters leaderChange := Run.follow_run .init _
  have hw : leaderChange.head?.map (fun w => ((w.nodes 0).commitIndex, (w.nodes 0).log[0]?)) =
      some (1, some ⟨1, "a".toList⟩) := by decide +kernel
  obtain ⟨w, past, hws⟩ := hr.exists_cons
  rw [hws] at hr hw
  have hw := Option.some.inj hw
  simp only [Prod.mk.injEq] at hw
  obtain ⟨hcommit, hlog⟩ := hw
  obtain ⟨e, he, hheld⟩ := (commit_backed_by_majority rfl rfl (by decide) hr).1 0 (by decide) 0
    (by rw [hcommit]; exact Nat.zero_lt_one)
  rw [hlog] at he
  obtain rfl := Option.some.inj he
  exact ⟨w, past, hr, hcommit, hheld⟩

end RaftVerified
