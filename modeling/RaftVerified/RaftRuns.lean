import RaftVerified.RaftCallbacks

/-! Runs of the cluster as runs of the protocol. One protocol state explains a whole run:
it extends the states that explain its past, and every leader and every commit in it was
seen in some state of the run. -/
namespace RaftVerified
open Consensus

variable {c : Setup} {a a' : Protocol}

structure WorldRel (c : Setup) (a : Protocol) (w : World) : Prop where
  nodes : ∀ i ∈ c.ids, NodeRel c a i (w.nodes i)
  sent : ∀ p ∈ w.sent, MsgRel c a p

/-- What the refinement asks of an event. -/
def Benign (c : Setup) (a : Protocol) (w : World) : Event → Prop
  | .clientCommand _ command => decodeConfig command = none
  | .changeConfig i newVoters => i ∈ c.ids → Exec.SoundChange (w.nodes i) newVoters
  | .deliver k => ∀ p, w.sent[k]? = some p → p.dst ∈ c.ids →
      Exec.Harmless a (w.nodes p.dst) p.msg
  | _ => True

theorem worldRel_init (c : Setup) : WorldRel c State.initial (World.init c) where
  nodes i hi := by
    have hinit := c.node_initialVoters hi
    have hok : NodeOk c (c.node i) :=
      { bugs := rfl
        config := rfl
        initial := hinit
        base := rfl
        base_term := rfl
        no_snapshot := fun _ => rfl
        snapshot := nofun
        compacts := nofun
        governs := ⟨hinit, fun _ _ _ h => absurd h (Nat.not_lt_zero _)⟩
        base_le := le_rfl
        applied_le := le_rfl
        commit_le := le_rfl
        kv := rfl
        applied := rfl }
    exact ⟨hok.congr rfl, rfl, rfl, rfl, nofun, nofun, nofun⟩
  sent := nofun

theorem map_fst_ok {ε α β : Type} {r : Except ε (α × β)} {y : α} (h : r.map Prod.fst = .ok y) :
    ∃ b, r = .ok (y, b) := by
  obtain ⟨⟨y', b⟩, hr, rfl⟩ := map_ok.mp h
  exact ⟨b, hr⟩

theorem callback_refines {w : World} (hI : Inv c.reading quorums a) (h : WorldRel c a w)
    (hb : c.bugs = NO_BUGS) {e : Event} (he : Benign c a w e) {i : NodeId} (hi : i ∈ c.ids)
    (ht : w.target e = some i) {y : Exec} (hy : w.callback (w.nodes i) e = .ok y) :
    Refines c a i y := by
  have hx : ExecRel c a i { node := w.nodes i } := ⟨h.nodes i hi, nofun⟩
  cases e with
  | electionTimeout j seq => exact Exec.onElectionTimeout_rel hI hx hy
  | heartbeat j seq => exact Exec.onHeartbeat_rel hI hx hy
  | clientCommand j command =>
    obtain ⟨b, hy⟩ := map_fst_ok hy
    exact Exec.clientCommand_rel hI hx he hy
  | changeConfig j newVoters =>
    obtain ⟨b, hy⟩ := map_fst_ok hy
    obtain rfl := Option.some.inj ht
    exact Exec.changeConfig_rel hI hx hb (he hi) hy
  | requestRead j command =>
    obtain rfl := Except.ok.inj hy
    exact Exec.requestRead_rel hx command
  | deliver k =>
    rw [World.callback] at hy
    cases hp : w.sent[k]? with
    | none =>
      rw [hp] at hy
      obtain rfl := Except.ok.inj hy
      exact hx.refines
    | some p =>
      rw [hp] at hy
      rw [World.target, hp] at ht
      obtain rfl := Option.some.inj ht
      exact Exec.handle_rel hI hx hb (h.sent p (List.mem_of_getElem? hp)) (he p hp hi) hy
  | pause j =>
    obtain rfl := Except.ok.inj hy
    exact Exec.pause_rel hx.node
  | resume j =>
    obtain rfl := Except.ok.inj hy
    exact Exec.resume_rel hx

/-- Storing what a callback left behind keeps the relation of every node. -/
theorem worldRel_put {w : World} (h : WorldRel c a w) {i : NodeId} {y : Exec}
    (hx : Ext a a') (hs : Steps c.reading quorums i a a') (hy : ExecRel c a' i y) :
    WorldRel c a' (w.put i y) where
  nodes := World.put_nodes_forall h.nodes
    (fun _ _ hne hn => hn.ext hx (steps_server hs hne)) hy.node
  sent := World.put_sent_forall h.sent (fun _ hp => hp.ext hx) hy.sent

/-- `a` explains the run whose states are `ws`, the newest first. -/
structure Explains (c : Setup) (a : Protocol) (ws : List World) : Prop where
  inv : Inv c.reading quorums a
  now : ∀ w, ws.head? = some w → WorldRel c a w
  past : ∀ w ∈ ws, ∃ b, Inv c.reading quorums b ∧ Ext b a ∧ WorldRel c b w
  leaders : ∀ u, a.Led u → ∃ w ∈ ws, ∃ i ∈ c.ids, (w.nodes i).role = .leader ∧
    (w.nodes i).term = u ∧ (w.nodes i).logical = a.trunk u
  commits : ∀ t k j, a.chosen t k j → ∃ w ∈ ws, ∃ i ∈ c.ids, (w.nodes i).role = .leader ∧
    (w.nodes i).term = t ∧ (w.nodes i).commitIndex = k

theorem explains_init (c : Setup) : Explains c State.initial [World.init c] where
  inv := inv_initial
  now := by
    rintro w ⟨⟩
    exact worldRel_init c
  past w hw := by
    obtain rfl := List.mem_singleton.mp hw
    exact ⟨_, inv_initial, Ext.refl _, worldRel_init c⟩
  leaders u hu := by
    obtain ⟨_, _, hf⟩ := hu
    exact hf.elim
  commits t k j hc := hc.elim

theorem explains_stutter {w : World} {past : List World} (h : Explains c a (w :: past)) :
    Explains c a (w :: w :: past) where
  inv := h.inv
  now := by
    rintro w' ⟨⟩
    exact h.now w rfl
  past w' hw := h.past w' (by simpa using hw)
  leaders u hu := by
    obtain ⟨w', hw, hrest⟩ := h.leaders u hu
    exact ⟨w', List.mem_cons_of_mem _ hw, hrest⟩
  commits t k j hc := by
    obtain ⟨w', hw, hrest⟩ := h.commits t k j hc
    exact ⟨w', List.mem_cons_of_mem _ hw, hrest⟩

theorem leader_view {n : RaftNode} (h : n.role.view = .leader) : n.role = .leader := by
  cases hr : n.role with
  | leader => rfl
  | follower => rw [hr] at h; cases h
  | candidate => rw [hr] at h; cases h

theorem explains_put {w : World} {past : List World} (h : Explains c a (w :: past)) {i : NodeId}
    (hi : i ∈ c.ids) {y : Exec} (hm : Moves c.reading quorums i a a') (hy : ExecRel c a' i y) :
    Explains c a' (w.put i y :: w :: past) := by
  obtain ⟨hI', hx⟩ := steps_inv h.inv hm.steps
  have hrel := worldRel_put (h.now w rfl) hx hm.steps hy
  have hnode := World.put_nodes_self w i y
  have hlead : ∀ u, (a'.server i).role = .leader ∧ (a'.server i).term = u →
      (y.node.role = .leader ∧ y.node.term = u) ∧ y.node.logical = a'.trunk u := by
    rintro u ⟨hr, ht⟩
    rw [hy.node.view] at hr ht
    have hr := leader_view hr
    refine ⟨⟨hr, ht⟩, ?_⟩
    rw [← ht]
    exact (hy.node.leader hI' hr).2.symm
  refine ⟨hI', ?_, ?_, ?_, ?_⟩
  · rintro w' ⟨⟩
    exact hrel
  · intro w' hw
    rcases List.mem_cons.mp hw with rfl | hw
    · exact ⟨a', hI', Ext.refl _, hrel⟩
    · obtain ⟨b, hb, hba, hbw⟩ := h.past w' hw
      exact ⟨b, hb, hba.trans hx, hbw⟩
  · intro u hu
    -- a new trunk is seen in the new world, an old one where it was seen before
    have hnew : (a'.server i).role = .leader ∧ (a'.server i).term = u →
        ∃ w' ∈ w.put i y :: w :: past, ∃ j ∈ c.ids, (w'.nodes j).role = .leader ∧
          (w'.nodes j).term = u ∧ (w'.nodes j).logical = a'.trunk u := by
      intro hl
      obtain ⟨⟨hr, ht⟩, hlog⟩ := hlead u hl
      exact ⟨_, List.mem_cons_self, i, hi, by rw [hnode]; exact ⟨hr, ht, hlog⟩⟩
    obtain ⟨j, B, hB⟩ := hu
    rcases hm.elected u j B hB with hB | hl
    · rcases hm.trunk u with htr | hl
      · obtain ⟨w', hw, hrest⟩ := h.leaders u ⟨j, B, hB⟩
        rw [htr]
        exact ⟨w', List.mem_cons_of_mem _ hw, hrest⟩
      · exact hnew hl
    · exact hnew hl
  · intro t k j hc
    rcases hm.chosen t k j hc with hc | ⟨hr, ht, hk⟩
    · obtain ⟨w', hw, hrest⟩ := h.commits t k j hc
      exact ⟨w', List.mem_cons_of_mem _ hw, hrest⟩
    -- a new commit is the running node's own
    · obtain ⟨⟨hr', ht'⟩, -⟩ := hlead t ⟨hr, ht⟩
      rw [hy.node.view] at hk
      exact ⟨_, List.mem_cons_self, i, hi, by rw [hnode]; exact ⟨hr', ht', hk⟩⟩

/-- One event of the cluster, explained. -/
theorem explains_step {w w' : World} {past : List World} (h : Explains c a (w :: past))
    (hb : c.bugs = NO_BUGS) {e : Event} (he : Benign c a w e) (hs : w.step c e = .ok w') :
    ∃ a', Explains c a' (w' :: w :: past) := by
  rcases World.step_cases hs with ⟨-, rfl⟩ | ⟨i, hi, y, ht, hy, rfl⟩
  · exact ⟨a, explains_stutter h⟩
  · obtain ⟨a', hm, hrel⟩ := callback_refines h.inv (h.now w rfl) hb he hi ht hy
    exact ⟨a', explains_put h hi hm hrel⟩

/-- Every run whose events are benign is a run of the protocol. -/
theorem run_explained {allowed : List World → Event → Prop} (hb : c.bugs = NO_BUGS)
    (hgood : ∀ w past e a, Run c allowed (w :: past) → allowed (w :: past) e →
      Explains c a (w :: past) → Benign c a w e) {ws : List World} (hr : Run c allowed ws) :
    ∃ a, Explains c a ws := by
  induction hr with
  | init => exact ⟨_, explains_init c⟩
  | step hrun hall hstep ih =>
    obtain ⟨a, ha⟩ := ih
    exact explains_step ha hb (hgood _ _ _ a hrun hall ha) hstep

end RaftVerified
