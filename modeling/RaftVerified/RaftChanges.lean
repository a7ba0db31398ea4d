import RaftVerified.RaftIndices
import RaftVerified.RaftReports

/-! Callbacks return, and read the log only where it is, also while leaders change the voting
set among the servers of the cluster. -/
namespace RaftVerified
open Consensus

variable {c : Setup} {a : Protocol} {i : NodeId} {x : Exec} {w : World} {ws past : List World}
  {e : Event}

theorem replicateConfig_returns (h : InReach c i x.node) (hr : x.node.role = .leader)
    {new : List NodeId} (hv : ∀ v ∈ new, v ∈ c.ids) :
    Returns (Strict.replicateConfig x new) (x.replicateConfig new)
      fun y => InReach c i y.node := by
  let n := x.node.appendOwn (encodeConfig new)
  let m := (n.adoptConfig new n.lastLogIndex).countOwn
  have hm : InReach c i m := by
    refine h.grow rfl ?_ fun v k hk => ?_
    · change x.node.baseIndex+x.node.log.length ≤ x.node.baseIndex+(x.node.log ++ [_]).length
      rw [List.length_append]
      omega
    · change ∃ k', (x.node.matchIndex.insert _ _).lookup v = some k'
      rw [Dict.lookup_insert_eq]
      split
      · exact ⟨_, rfl⟩
      · exact ⟨k, hk⟩
  let z : Exec := (x.set m).record (.cfgchange n.id n.lastLogIndex n.term new)
  refine (broadcastHeartbeats_returns (x := z) hm hr hv).mono fun y hy => ?_
  rw [hy]
  exact hm

theorem changeConfig_returns (h : InReach c i x.node) {newVoters : List NodeId}
    (hv : ∀ v ∈ newVoters, v ∈ c.ids) :
    Returns (Strict.changeConfig x newVoters) (x.changeConfig newVoters)
      fun y => InReach c i y.1.node := by
  unfold Strict.changeConfig Exec.changeConfig
  split
  · exact Returns.ok h
  next hlead =>
    push Not at hlead
    dsimp only
    split
    · exact Returns.ok h
    -- what is replicated are the servers that were asked for, in order and each once
    · refine (replicateConfig_returns h hlead.1 fun v hmem => ?_).bind fun y hy => Returns.ok hy
      exact hv v (List.mem_dedup.mp ((List.mem_insertionSort _).mp hmem))

/-- A change of the voting set, or something that may happen without one. -/
theorem ServerChange.cases (h : ServerChange c ws e) :
    (∃ j newVoters, e = .changeConfig j newVoters ∧ ∀ v ∈ newVoters, v ∈ c.ids) ∨
      FixedVoters ws e := by
  cases e with
  | changeConfig j newVoters => exact Or.inl ⟨j, newVoters, rfl, h⟩
  | clientCommand j command => exact Or.inr h
  | _ => exact Or.inr trivial

theorem change_returns (h : InReach c i (w.nodes i)) (hw : InLog c w i)
    (ht : c.config.snapshotThreshold ≤ 0) (he : ServerChange c (w :: past) e) :
    Returns (Strict.callback w (w.nodes i) e) (w.callback (w.nodes i) e)
      fun y => InReach c i y.node := by
  rcases he.cases with ⟨j, newVoters, rfl, hv⟩ | he
  · obtain ⟨y, hs, hy, hk⟩ := changeConfig_returns (x := ⟨w.nodes i, []⟩) h hv
    refine ⟨y.1, ?_, ?_, hk⟩
    · exact map_ok.mpr ⟨y, hs, rfl⟩
    · exact map_ok.mpr ⟨y, hy, rfl⟩
  · exact callback_returns h hw ht he

/-! ### Runs -/

theorem changes_explained (hb : c.bugs = NO_BUGS) (ht : c.config.snapshotThreshold = 0)
    (hn : c.voters.Nodup) (hr : Run c (ServerChange c) ws) : ∃ a, Explains c a ws :=
  membership_explained hb ht
    (distinct_voters_sound hb ht hn (hr.mono fun _ _ _ h => h.anyChange))

theorem changes_inReach (hb : c.bugs = NO_BUGS) (ht : c.config.snapshotThreshold = 0)
    (hc : c.Accepted) (hn : c.voters.Nodup) (hr : Run c (ServerChange c) (w :: past)) :
    ∀ i ∈ c.ids, InReach c i (w.nodes i) ∧ InLog c w i := by
  have hlog {u : World} {before : List World} (hu : Run c (ServerChange c) (u :: before)) :
      ∀ i ∈ c.ids, InLog c u i := by
    intro i hi
    obtain ⟨a, ha⟩ := changes_explained hb ht hn hu
    exact ha.inLog ht hi ((run_known ht hc hu).voters i hi)
  refine fun i hi => ⟨?_, hlog hr i hi⟩
  generalize hws : w :: past = ws at hr
  induction hr generalizing w past with
  | init =>
    obtain ⟨rfl, rfl⟩ := List.cons.inj hws
    exact ⟨rfl, rfl, rfl, rfl, nofun, nofun, nofun⟩
  | @step u w' before e hrun hall hstep ih =>
    obtain ⟨rfl, rfl⟩ := List.cons.inj hws
    have hold := ih rfl
    rcases World.step_node hstep i with ⟨hsame, -⟩ | ⟨-, -, y, hy, hnode⟩
    · rw [hsame]
      exact hold
    · obtain ⟨z, -, hz, hreach⟩ := change_returns hold (hlog hrun i hi) ht.le hall
      rw [hy] at hz
      obtain rfl := Except.ok.inj hz
      rw [hnode]
      exact hreach

end RaftVerified
