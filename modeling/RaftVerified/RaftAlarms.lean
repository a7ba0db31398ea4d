import RaftVerified.RaftChanges
import RaftVerified.RaftMatching
import RaftVerified.RaftMonotone
import RaftVerified.RaftOrderly
import RaftVerified.RaftTimers
import RaftVerified.RaftWatched

/-! No false alarms: whatever happens to a cluster without planted defects, in whatever order, its
callbacks return and the checker passes. -/
namespace RaftVerified
open Consensus

variable {c : Setup} {a : Protocol} {i : NodeId} {n : RaftNode} {x y : Exec} {w w' : World}
  {ws past : List World} {e : Event}

/-! ### A commit and who backs it -/

/-- A majority of its voters has acknowledged to `n` whatever it has committed. -/
structure Counted (n : RaftNode) : Prop where
  own : n.committedThisTerm = true
  quorum : n.voters.length < 2*n.voters.countP fun v =>
    decide (n.commitIndex ≤ (n.matchIndex.lookup v).getD 0)

namespace Exec

theorem applyLoop_count (k : ℕ) (h : x.applyLoop k = .ok y) :
    y.node.voters = x.node.voters ∧ y.node.matchIndex = x.node.matchIndex ∧
      y.node.commitIndex = x.node.commitIndex := by
  induction k generalizing x with
  | zero =>
    obtain rfl := Except.ok.inj h
    exact ⟨rfl, rfl, rfl⟩
  | succ k ih =>
    obtain ⟨z, hz, h⟩ := bind_ok.mp h
    obtain ⟨e, -, hz⟩ := bind_ok.mp hz
    obtain rfl := Except.ok.inj hz
    obtain ⟨hvoters, hmatch, hcommit⟩ := ih h
    exact ⟨hvoters, hmatch, hcommit⟩

theorem setCommitIndex_count {index : ℕ} (hlt : x.node.commitIndex < index)
    (h : x.setCommitIndex index = .ok y) :
    y.node.voters = x.node.voters ∧ y.node.matchIndex = x.node.matchIndex ∧
      y.node.commitIndex = index := by
  unfold setCommitIndex at h
  rw [if_neg (not_le.mpr hlt)] at h
  obtain ⟨z, hz, h⟩ := bind_ok.mp h
  have hcount := applyLoop_count _ hz
  rcases maybeCompact_cases h with ⟨-, rfl⟩ | ⟨-, -, t, vs, -, -, rfl⟩
  · exact hcount
  · exact hcount

theorem advanceCommit_counted (h : x.advanceCommit = .ok y)
    (hlt : x.node.commitIndex < y.node.commitIndex) : Counted y.node := by
  rcases advanceCommitFrom_cases _ h with rfl | ⟨k, t, z, hk, -, -, hq, hz, rfl⟩
  · exact absurd hlt (lt_irrefl _)
  · obtain ⟨hvoters, hmatch, hcommit⟩ := setCommitIndex_count hk hz
    refine ⟨rfl, ?_⟩
    change z.node.voters.length < 2*z.node.voters.countP fun v =>
      decide (z.node.commitIndex ≤ (z.node.matchIndex.lookup v).getD 0)
    rw [hvoters, hmatch, hcommit, Nat.mul_comm]
    exact hq

/-- Entries and images are taken by followers. -/
theorem handle_counted {msg : Message} (h : x.handle msg = .ok y)
    (hr : y.node.role = .leader) (hlt : x.node.commitIndex < y.node.commitIndex) :
    Counted y.node := by
  have hquiet {z : Exec} (hz : z.node.progress = x.node.progress)
      (hlt : x.node.commitIndex < z.node.commitIndex) : False := by
    have hsame : z.node.commitIndex = x.node.commitIndex := congrArg (fun p => p.2.2.1) hz
    omega
  have hfollows {z : Exec} {leader : NodeId} (hz : z.node.role = .follower)
      (hs : (z.heed leader).Steady y) : Counted y.node := by
    have hrole : y.node.role = z.node.role := congrArg (fun k => k.2.2.1) hs.clock
    rw [hrole, hz] at hr
    cases hr
  unfold handle at h
  split at h
  · obtain rfl := Except.ok.inj h
    exact absurd hlt (lt_irrefl _)
  cases msg with
  | requestVote m => exact (hquiet (onRequestVote_quiet h).progress hlt).elim
  | voteReply m => exact (hquiet (onVoteReply_quiet h).progress hlt).elim
  | appendEntries m =>
    rcases onAppendEntries_cases h with ⟨-, rfl⟩ | ⟨z, hz, h⟩
    · exact (hquiet (catchUp_quiet x m.term).progress hlt).elim
    · exact hfollows hz.follower.2.1 (appendFromLeader_steady h)
  | appendReply m =>
    rcases onAppendReply_cases h with ⟨-, rfl⟩ | ⟨-, rfl⟩ | ⟨-, -, ⟨-, h⟩ | ⟨-, h⟩⟩
    · exact (hquiet (becomeFollower_quiet x m.term).progress hlt).elim
    · exact absurd hlt (lt_irrefl _)
    · exact advanceCommit_counted h hlt
    · rw [sendAppendEntries_node h] at hlt
      exact absurd hlt (lt_irrefl _)
  | installSnapshot m =>
    -- whoever takes an image has become a follower
    rcases onInstallSnapshot_cases h with ⟨-, rfl⟩ | ⟨z, hz, h⟩
    · exact absurd hlt (lt_irrefl _)
    · exact hfollows hz.follower.2.1 (installFromLeader_steady h)
  | readHeartbeat m =>
    obtain rfl := Except.ok.inj h
    exact (hquiet (onReadHeartbeat_quiet x m).progress hlt).elim
  | readAck m =>
    obtain rfl := Except.ok.inj h
    exact (hquiet (onReadAck_serves x m).progress hlt).elim

end Exec
open Exec

theorem callback_counted (hy : w.callback n e = .ok y) (hr : y.node.role = .leader)
    (hlt : n.commitIndex < y.node.commitIndex) : Counted y.node := by
  have hquiet {m : RaftNode} (hm : m.progress = n.progress)
      (hlt : n.commitIndex < m.commitIndex) : Counted y.node := by
    have hsame : m.commitIndex = n.commitIndex := congrArg (fun p => p.2.2.1) hm
    omega
  cases e with
  | electionTimeout j seq => exact hquiet (onElectionTimeout_quiet hy).progress hlt
  | heartbeat j seq => exact hquiet (onHeartbeat_quiet hy).progress hlt
  | clientCommand j command =>
    obtain ⟨b, hy⟩ := map_fst_ok hy
    exact hquiet (clientCommand_quiet hy).progress hlt
  | changeConfig j newVoters =>
    obtain ⟨b, hy⟩ := map_fst_ok hy
    exact hquiet (changeConfig_quiet hy).progress hlt
  | requestRead j command =>
    obtain rfl := Except.ok.inj hy
    exact hquiet (requestRead_serves _ command).progress hlt
  | deliver k =>
    rw [World.callback] at hy
    cases hp : w.sent[k]? with
    | none =>
      rw [hp] at hy
      obtain rfl := Except.ok.inj hy
      exact absurd hlt (lt_irrefl _)
    | some p =>
      rw [hp] at hy
      exact handle_counted hy hr hlt
  | pause j =>
    obtain rfl := Except.ok.inj hy
    cases hr
  | resume j =>
    obtain rfl := Except.ok.inj hy
    exact absurd hlt (lt_irrefl _)

namespace Explains

/-- Whoever acknowledged what a leader has committed holds it now. -/
theorem counted_backs (h : Explains c a (w :: past)) (ht : c.config.snapshotThreshold = 0)
    (hi : i ∈ c.ids) (hv : ∀ v ∈ (w.nodes i).voters, v ∈ c.ids)
    (hr : (w.nodes i).role = .leader) (hc : Counted (w.nodes i)) {k : ℕ} {entry : Entry}
    (hk : k < (w.nodes i).commitIndex) (he : (w.nodes i).log[k]? = some entry) :
    w.Backs c i k entry := by
  have hrel := h.now w rfl
  have hn := hrel.nodes i hi
  obtain ⟨j, hchosen⟩ := hn.committed hr hc.own
  obtain ⟨-, htrunk⟩ := hn.leader h.inv hr
  have hall : ∀ v ∈ (w.nodes i).voters,
      (w.nodes i).commitIndex ≤ ((w.nodes i).matchIndex.lookup v).getD 0 →
        v ∈ c.ids ∧ (w.nodes v).log[k]? = some entry := by
    intro v hmem hle
    have hid := hv v hmem
    refine ⟨hid, ?_⟩
    cases hm : (w.nodes i).matchIndex.lookup v with
    | none =>
      rw [hm, Option.getD_none] at hle
      omega
    | some m =>
      rw [hm, Option.getD_some] at hle
      rcases hn.acks hr v m hm with rfl | ⟨m', hm', hacked⟩
      · omega
      -- only a leader that lacks it could have displaced it, and none does
      have hheld : (a.trunk (w.nodes i).term).take (w.nodes i).commitIndex <+:
          (a.server v).log := by
        rcases h.inv.acked_kept _ _ _ hacked _ (hle.trans hm') with
          hkept | ⟨u, q, B, hlt, -, hB, hlost⟩
        · exact hkept
        · exact absurd (h.inv.elected_complete hB _ _ j hlt hchosen) hlost
      have hnv := hrel.nodes v hid
      rw [hnv.view] at hheld
      rw [← (flat_node hnv.ok ht).2]
      refine prefix_getElem? hheld ?_
      rw [List.getElem?_take_of_lt hk, htrunk, (flat_node hn.ok ht).2]
      exact he
  -- so those counted for the commit are among those counted for holding the entry
  have hle := List.countP_mono_left (l := (w.nodes i).voters)
    (p := fun v => decide ((w.nodes i).commitIndex ≤ ((w.nodes i).matchIndex.lookup v).getD 0))
    (q := fun v => decide (v ∈ c.ids ∧ (w.nodes v).log[k]? = some entry))
    (fun v hmem hd => decide_eq_true (hall v hmem (of_decide_eq_true hd)))
  have hq := hc.quorum
  unfold World.Backs
  omega

/-- Past the highest commit so far only the node that the event ran at covers anything, and it
leads. -/
theorem fresh_backs (h : Explains c a (w' :: past)) (ht : c.config.snapshotThreshold = 0)
    (hstep : w.step c e = .ok w') {top : ℕ}
    (hseen : ∀ v ∈ past, ∀ j ∈ c.ids, (v.nodes j).commitIndex ≤ top) (hw : w ∈ past)
    (hi : i ∈ c.ids) (hv : ∀ v ∈ (w'.nodes i).voters, v ∈ c.ids) {k : ℕ} {entry : Entry}
    (htop : top ≤ k) (hk : k < (w'.nodes i).commitIndex)
    (he : (w'.nodes i).log[k]? = some entry) : w'.Backs c i k entry := by
  have hmoved {j : NodeId} (hj : j ∈ c.ids) (hgt : k < (w'.nodes j).commitIndex) :
      w.target e = some j ∧ ∃ y, w.callback (w.nodes j) e = .ok y ∧ w'.nodes j = y.node := by
    rcases World.step_node hstep j with ⟨hsame, -⟩ | ⟨-, htarget, hy⟩
    · have hle := hseen w hw j hj
      rw [hsame] at hgt
      omega
    · exact ⟨htarget, hy⟩
  have hlog := (flat_node ((h.now w' rfl).nodes i hi).ok ht).2
  rw [← hlog] at he
  obtain ⟨t, m, q, -, hchosen, hkm, -⟩ := h.covered_chosen List.mem_cons_self hi hk he
  obtain ⟨v, hmem, l, hl, hlead, -, hcommit⟩ := h.commits t m q hchosen
  rcases List.mem_cons.mp hmem with rfl | hmem
  -- chosen in this step: the node that has it now is the leader that counted it
  · obtain ⟨hti, y, hy, hnode⟩ := hmoved hi hk
    obtain ⟨htl, -⟩ := hmoved hl (by omega)
    obtain rfl := Option.some.inj (hti.symm.trans htl)
    have hle := hseen w hw i hi
    rw [hlog] at he
    refine h.counted_backs ht hi hv hlead ?_ hk he
    rw [hnode] at hlead hk ⊢
    exact callback_counted hy hlead (by omega)
  -- chosen before: then it was committed before, within what has been seen
  · have hle := hseen v hmem l hl
    omega

theorem orderly (h : Explains c a (w :: past)) (ht : c.config.snapshotThreshold = 0)
    (hlast : ∀ v ∈ w :: past, ∀ i ∈ c.ids, (v.nodes i).incarnation = (w.nodes i).incarnation →
      (v.nodes i).commitIndex ≤ (w.nodes i).commitIndex) : Orderly c w (w :: past) := by
  have hnow := h.now w rfl
  have hflat : ∀ v ∈ w :: past, ∀ i ∈ c.ids, (v.nodes i).baseIndex = 0 ∧
      (v.nodes i).logical = (v.nodes i).log := by
    intro v hv i hi
    obtain ⟨b, -, -, hrel⟩ := h.past v hv
    exact flat_node (hrel.nodes i hi).ok ht
  have hlog : ∀ i ∈ c.ids, (w.nodes i).logical = (w.nodes i).log :=
    fun i hi => (hflat w List.mem_cons_self i hi).2
  refine {
    mem := List.mem_cons_self
    ids := fun i hi => (hnow.nodes i hi).id
    flat := fun v hv i hi => (hflat v hv i hi).1
    lasting := hlast
    leads := fun v hv i hi j hj hri hrj hterm =>
      h.one_leader hv List.mem_cons_self hi hj hri hrj hterm
    applied := fun v hv i hi j hj k s s' hs hs' =>
      h.applied_agree ht hv List.mem_cons_self hi hj hs hs'
    reach := ?_, grows := ?_, matching := ?_, agreed := ?_, complete := ?_ }
  · intro i hi
    rw [← hlog i hi]
    exact (hnow.nodes i hi).ok.commit_le
  · intro v hv i hi hrv hrw hterm
    obtain ⟨-, htrunk⟩ := h.leader_trunk hv hi hrv
    obtain ⟨-, hown⟩ := (hnow.nodes i hi).leader h.inv hrw
    rw [hterm, hown, (hflat v hv i hi).2, hlog i hi] at htrunk
    exact htrunk
  · intro i hi j hj k e f he hf hterm
    rw [← hlog i hi] at he ⊢
    rw [← hlog j hj] at hf ⊢
    exact h.nodes_match hi hj he hf hterm
  · intro v hv i hi j hj k e f hk he hk' hf
    rw [← (hflat v hv i hi).2] at he
    rw [← hlog j hj] at hf
    exact h.covered_agree hv List.mem_cons_self hi hj hk he hk' hf
  · intro v hv i hi j hj k e hk he hr hle
    rw [← (hflat v hv i hi).2] at he
    rw [← hlog j hj]
    exact h.leader_has hv hi hj hk he hr hle

end Explains

/-! ### Steps and checks -/

/-- What an unplanted cluster without compaction needs to be set up right. -/
structure Setup.Sound (c : Setup) : Prop where
  bugs : c.bugs = NO_BUGS
  threshold : c.config.snapshotThreshold = 0
  accepted : c.Accepted
  distinct : c.voters.Nodup

theorem Run.orderly (hc : c.Sound) (hr : Run c (ServerChange c) (w :: past)) :
    Orderly c w (w :: past) := by
  obtain ⟨a, ha⟩ := changes_explained hc.bugs hc.threshold hc.distinct hr
  refine ha.orderly hc.threshold fun v hv i _ hinc => ?_
  -- no image is ever under way, so none takes a commit back
  refine ((run_keeps_commits hc.bugs hr ?_ v hv i).2 hinc).1
  rintro u before e hrun - j - hstale
  have himages := (run_derived hc.threshold (hrun.mono fun _ _ _ h => h.anyChange)).2
  cases e with
  | deliver k =>
    obtain ⟨p, hp, m, hm, -⟩ := hstale
    refine himages p (List.mem_of_getElem? hp) m ?_
    cases hmsg : p.msg <;> rw [hmsg] at hm <;> cases hm
    rfl
  | _ => exact hstale.elim

theorem Run.callback_returns (hc : c.Sound) (hr : Run c (ServerChange c) (w :: past))
    (hi : i ∈ c.ids) (he : ServerChange c (w :: past) e) :
    ∃ y, w.callback (w.nodes i) e = .ok y := by
  obtain ⟨hreach, hlog⟩ := changes_inReach hc.bugs hc.threshold hc.accepted hc.distinct hr i hi
  obtain ⟨y, -, hy, -⟩ := change_returns hreach hlog hc.threshold.le he
  exact ⟨y, hy⟩

theorem Run.step_returns (hc : c.Sound) (hr : Run c (ServerChange c) (w :: past))
    (he : ServerChange c (w :: past) e) :
    ∃ w', w.step c e = .ok w' ∧ Run c (ServerChange c) (w' :: w :: past) := by
  suffices hex : ∃ w', w.step c e = .ok w' by
    obtain ⟨w', hw'⟩ := hex
    exact ⟨w', hw', hr.step he hw'⟩
  unfold World.step
  split
  · exact ⟨w, rfl⟩
  next i _ =>
    split
    next hi =>
      obtain ⟨y, hy⟩ := hr.callback_returns hc hi he
      rw [hy]
      exact ⟨_, rfl⟩
    next => exact ⟨w, rfl⟩

/-- No node has committed more than `top` in any of the states. -/
def Below (c : Setup) (top : ℕ) (ws : List World) : Prop :=
  ∀ v ∈ ws, ∀ i ∈ c.ids, (v.nodes i).commitIndex ≤ top

/-- Changes of the voting set commit nothing. -/
theorem configs_return (hc : c.Sound) {top : ℕ} (es : List Event)
    (hr : Run c (ServerChange c) (w :: past)) (hs : Below c top (w :: past))
    (hconf : ∀ e ∈ es, ∃ i vs, e = .changeConfig i vs)
    (he : ∀ e ∈ es, ServerChange c [] e) :
    ∃ w' apps past', runCallbacks c w es = .ok (w', apps) ∧
      Run c (ServerChange c) (w' :: past') ∧ (∀ v ∈ w :: past, v ∈ w' :: past') ∧
      Below c top (w' :: past') := by
  induction es generalizing w past with
  | nil => exact ⟨w, [], past, rfl, hr, fun v hv => hv, hs⟩
  | cons e es ih =>
    obtain ⟨u, hu, hru⟩ := hr.step_returns hc (he e List.mem_cons_self)
    obtain ⟨j, vs, rfl⟩ := hconf e List.mem_cons_self
    have hbelow : Below c top (u :: w :: past) := by
      intro v hv i hi
      rcases List.mem_cons.mp hv with rfl | hv
      · have hold := hs w List.mem_cons_self i hi
        rcases World.step_node hu i with ⟨hsame, -⟩ | ⟨-, -, y, hy, hnode⟩
        · rwa [hsame]
        · obtain ⟨b, hy⟩ := map_fst_ok hy
          have hcommit : y.node.commitIndex = (w.nodes i).commitIndex :=
            congrArg (fun p => p.2.2.1) (changeConfig_quiet hy).progress
          rwa [hnode, hcommit]
      · exact hs v hv i hi
    obtain ⟨w', apps, past', hrun, hr', hsub, hb⟩ := ih hru hbelow
      (fun e he => hconf e (List.mem_cons_of_mem _ he)) fun e' he' =>
        he e' (List.mem_cons_of_mem _ he')
    refine ⟨w', w.applications c (.changeConfig j vs) ++ apps, past', ?_, hr',
      fun v hv => hsub v (List.mem_cons_of_mem u hv), hb⟩
    unfold runCallbacks
    rw [hu]
    show (runCallbacks c u es >>= _) = _
    rw [hrun]
    rfl

/-- One simulator step returns, and whatever it has committed is backed. -/
theorem runCallbacks_returns (hc : c.Sound) {top : ℕ} {es : List Event}
    (hr : Run c (ServerChange c) (w :: past)) (hs : Below c top (w :: past)) (hsim : SimStep es)
    (he : ∀ e ∈ es, ServerChange c [] e) :
    ∃ w' apps past', runCallbacks c w es = .ok (w', apps) ∧
      Run c (ServerChange c) (w' :: past') ∧ (∀ v ∈ w :: past, v ∈ w' :: past') ∧
      Below c top past' ∧ ∀ i ∈ c.ids, ∀ k entry, top ≤ k → k < (w'.nodes i).commitIndex →
        (w'.nodes i).log[k]? = some entry → w'.Backs c i k entry := by
  have hquiet {u : World} {before : List World} (hb : Below c top (u :: before)) :
      Below c top before ∧ ∀ i ∈ c.ids, ∀ k entry, top ≤ k → k < (u.nodes i).commitIndex →
        (u.nodes i).log[k]? = some entry → u.Backs c i k entry := by
    refine ⟨fun v hv => hb v (List.mem_cons_of_mem u hv), fun i hi k entry htop hk => ?_⟩
    have hle := hb u List.mem_cons_self i hi
    omega
  rcases hsim with hlen | hconf
  · cases es with
    | nil =>
      obtain ⟨hb, hback⟩ := hquiet hs
      exact ⟨w, [], past, rfl, hr, fun v hv => hv, hb, hback⟩
    | cons e es =>
      obtain rfl : es = [] := List.length_eq_zero_iff.mp (by
        rw [List.length_cons] at hlen
        omega)
      obtain ⟨w', hw', hr'⟩ := hr.step_returns hc (he e List.mem_cons_self)
      obtain ⟨a, ha⟩ := changes_explained hc.bugs hc.threshold hc.distinct hr'
      refine ⟨w', w.applications c e ++ [], w :: past, ?_, hr',
        fun v hv => List.mem_cons_of_mem w' hv, hs, ?_⟩
      · unfold runCallbacks
        rw [hw']
        rfl
      · intro i hi k entry htop hk hentry
        have hv := (run_known hc.threshold hc.accepted hr').voters i hi
        exact ha.fresh_backs hc.threshold hw' hs List.mem_cons_self hi hv htop hk hentry
  · obtain ⟨w', apps, past', hrun, hr', hsub, hb⟩ := configs_return hc es hr hs hconf he
    obtain ⟨hpast, hback⟩ := hquiet hb
    exact ⟨w', apps, past', hrun, hr', hsub, hpast, hback⟩

namespace Watched

/-- The checker has seen all states of the run, the last one included. -/
structure Sighted (c : Setup) (s : Watched) (past : List World) : Prop where
  run : RaftVerified.Run c (ServerChange c) (s.world :: past)
  remembers : s.checker.Remembers c (s.world :: past)
  seen : Below c s.checker.maxCommit (s.world :: past)

theorem sighted_init (c : Setup) (seed : ℤ) (replayHint : Str) :
    (init c seed replayHint).Sighted c [] := by
  refine ⟨.init, InvariantChecker.remembers_new seed replayHint c _, ?_⟩
  intro v hv i _
  obtain rfl := List.mem_singleton.mp hv
  exact le_rfl

theorem Sighted.step {s : Watched} (hc : c.Sound) (h : s.Sighted c past) {es : List Event}
    (hsim : SimStep es) (he : ∀ e ∈ es, ServerChange c [] e) :
    ∃ s' past', s.step c es = .ok s' ∧ s'.Sighted c past' := by
  obtain ⟨w', apps, past', hrun, hr, hsub, hbelow, hback⟩ :=
    runCallbacks_returns hc h.run h.seen hsim he
  obtain ⟨ck, hck, hrem, hle, htop⟩ :=
    InvariantChecker.check_returns (hr.orderly hc) hback (h.remembers.mono hsub) (s.steps+1)
  refine ⟨{ world := w', checker := ck, steps := s.steps+1, history := s.history ++ apps }, past',
    ?_, hr, hrem, fun v hv i hi => ?_⟩
  · unfold Watched.step
    rw [hrun]
    show (s.checker.check w'.nodes c.ids (s.steps+1) >>= _) = _
    rw [hck]
    rfl
  · rcases List.mem_cons.mp hv with rfl | hv
    · exact htop i hi
    · exact (hbelow v hv i hi).trans hle

end Watched
end RaftVerified
