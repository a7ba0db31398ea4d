import RaftVerified.HarnessClock
import RaftVerified.NetworkPartition
import RaftVerified.RaftAlarms

/-! A cluster without planted defects runs for as long as it is told to: nothing raises, and no
check reports a violation. -/
namespace RaftVerified

/-- Periods that lie in the future. -/
structure Timers.Sane (t : Timers) : Prop where
  future : 0 ≤ t.electionTimeoutMin
  range : t.electionTimeoutMin ≤ t.electionTimeoutMax
  heartbeat : 0 ≤ t.heartbeatInterval

/-- A cluster all of whose delays lie in the future. -/
structure HarnessSetup.Timely (c : HarnessSetup) : Prop where
  profile : c.profile.toFaultProfile.Sane
  timers : c.timers.Sane
  client : 0 ≤ c.clientInterval.getD 0

/-- A cluster without planted defects and without compaction, all of whose delays lie in the
future. -/
structure HarnessSetup.Sane (c : HarnessSetup) : Prop extends c.Timely where
  sound : c.toSetup.Sound

theorem timers_sane : ({} : Timers).Sane := ⟨by decide, by decide, by decide⟩

theorem profiles_sane : ∀ p ∈ profiles, p.toFaultProfile.Sane := by
  intro p hp
  simp only [profiles, List.mem_cons, List.not_mem_nil, or_false] at hp
  rcases hp with rfl | rfl | rfl
  · exact ⟨by decide, by decide⟩
  · exact ⟨by decide, by decide⟩
  · exact ⟨by decide, by decide⟩

/-- What `Cluster.__init__` keeps of its arguments. -/
theorem ClusterOptions.setup_ok {json : Json} {o : ClusterOptions} {c : HarnessSetup}
    (h : o.setup json = .ok c) : c.bugs = o.bugs ∧ c.config = o.config ∧ c.timers = o.timers ∧
      c.clientInterval = o.clientInterval ∧ c.initialVoters = o.voters ∧ c.profile ∈ profiles ∧
      c.membership = o.membership ∧ c.nemesis = o.nemesis ∧ c.suppressed = o.suppressed ∧
      c.seed = o.seed ∧ c.recordHistory = o.recordHistory := by
  unfold setup at h
  split at h
  · cases h
  split at h
  · cases h
  next profile hprofile =>
    split at h
    · cases h
    dsimp only at h
    split at h
    · split at h
      · obtain rfl := Except.ok.inj h
        exact ⟨rfl, rfl, rfl, rfl, rfl, List.mem_of_find?_eq_some hprofile, rfl, rfl, rfl, rfl, rfl⟩
      · cases h
    · cases h

/-- The servers that membership mode starts with are distinct. -/
theorem ClusterOptions.voters_nodup {o : ClusterOptions} (hv : ∀ vs ∈ o.initialVoters, vs.Nodup) :
    ∀ vs ∈ o.voters, vs.Nodup := by
  intro vs hvs
  unfold voters at hvs
  split at hvs
  next ws hws =>
    obtain rfl := Option.some.inj hvs
    exact hv ws hws
  · split at hvs
    · obtain rfl := Option.some.inj hvs
      exact List.nodup_range.map fun _ _ heq => Int.ofNat.inj heq
    · cases hvs

theorem ClusterOptions.timely {json : Json} {o : ClusterOptions} {c : HarnessSetup}
    (h : o.setup json = .ok c) (htimers : o.timers.Sane)
    (hclient : 0 ≤ o.clientInterval.getD 0) : c.Timely := by
  obtain ⟨-, -, hperiods, hinterval, -, hprofile, -, -⟩ := setup_ok h
  exact ⟨profiles_sane _ hprofile, hperiods ▸ htimers, hinterval ▸ hclient⟩

/-- Accepted arguments without planted defects and compaction make a sane cluster. -/
theorem ClusterOptions.sane {json : Json} {o : ClusterOptions} {c : HarnessSetup}
    (h : o.setup json = .ok c) (hb : o.bugs = NO_BUGS) (ht : o.config.snapshotThreshold = 0)
    (hv : ∀ vs ∈ o.initialVoters, vs.Nodup) (htimers : o.timers.Sane)
    (hclient : 0 ≤ o.clientInterval.getD 0) : c.Sane := by
  obtain ⟨hbugs, hconfig, -, -, hvoters, -, -, -⟩ := setup_ok h
  refine ⟨timely h htimers hclient, hbugs.trans hb, hconfig ▸ ht, c.accepted, ?_⟩
  unfold Setup.voters
  split
  next vs hvs =>
    rw [hvoters] at hvs
    exact (List.perm_insertionSort _ _).nodup_iff.mpr (voters_nodup hv vs hvs)
  next => exact (List.perm_insertionSort _ _).nodup_iff.mpr c.ids_nodup

theorem HarnessSetup.Timely.interval {c : HarnessSetup} (hc : c.Timely) : 0 ≤ c.interval := by
  have h := hc.client
  unfold HarnessSetup.interval
  split
  · decide
  next z _ hz =>
    rw [hz] at h
    exact h
  · decide

theorem HarnessSetup.injections_future (c : HarnessSetup) : ∀ i ∈ c.injections, 0 ≤ i.atTime := by
  intro i hi
  have hvalid : i.op.Valid := Injects.valid ⟨i.atTime, hi⟩
  unfold injections at hi
  cases hs : c.nemesis with
  | none =>
    rw [hs] at hi
    cases hi
  | some s =>
    rw [hs] at hi
    have hi : i ∈ s.injections := hi
    obtain ⟨op, -, hmem⟩ := List.mem_flatMap.mp ((List.mem_insertionSort _).mp hi)
    cases op with
    | flappingLink a b t period cycles =>
      obtain ⟨k, hk, rfl⟩ := List.mem_map.mp hmem
      -- the flaps are numbered by natural numbers, read as integers
      obtain ⟨m, -, hm⟩ := List.mem_flatMap.mp hk
      obtain rfl := List.mem_singleton.mp hm
      obtain ⟨-, ht, hperiod, -⟩ := hvalid
      exact Int.add_nonneg ht (Int.mul_nonneg (by omega) (Int.natCast_nonneg m))
    | partitionHalves t duration =>
      obtain rfl := List.mem_singleton.mp hmem
      exact hvalid.1
    | isolateLeader t duration =>
      obtain rfl := List.mem_singleton.mp hmem
      exact hvalid.1
    | lossyLink a b t duration dropP =>
      obtain rfl := List.mem_singleton.mp hmem
      exact hvalid.2.1.1
    | crashNode node t duration =>
      obtain rfl := List.mem_singleton.mp hmem
      exact hvalid.2.1

theorem Platform.fair {σ : Type} (D : Platform σ) : D.toRng.Fair := by
  intro a b s hab
  obtain ⟨k, s', hk, hle, -⟩ := D.randint_mem a b s hab
  exact ⟨(k, s'), hk, hle⟩

/-- A proposal names servers of the cluster only. -/
theorem Proposes.within {c : HarnessSetup} {leader : RaftNode} {vs : List NodeId}
    (h : Proposes c leader vs) (hv : ∀ v ∈ leader.voters, v ∈ c.ids) : ∀ v ∈ vs, v ∈ c.ids := by
  cases h with
  | adds hspare _ =>
    intro v hmem
    rcases List.mem_append.mp ((List.mem_insertionSort _).mp hmem) with hmem | hmem
    · exact hv v hmem
    · rwa [List.mem_singleton.mp hmem]
  | removes _ _ _ => exact fun v hmem => hv v (List.mem_of_mem_filter hmem)

namespace Harness
variable {σ : Type} {D : Platform σ} {c : HarnessSetup} {h h' : Harness σ} {i : NodeId}
  {faults : Network} {jobs : List (ℤ × Job)} {run : Runs} {e : Event}

/-! ### Random numbers and the queue -/

theorem schedule_returns {delay : ℤ} (hd : 0 ≤ delay) (h : Harness σ) (job : Job) :
    ∃ h', h.schedule delay job = .ok h' := by
  obtain ⟨net, hnet⟩ := MessageNetwork.schedule_returns hd h.net (.other job)
  unfold schedule
  rw [hnet]
  exact ⟨_, rfl⟩

theorem randint_returns {a b : ℤ} (hab : a ≤ b) (h : Harness σ) :
    ∃ r, h.randint D a b = .ok r ∧ a ≤ r.1 ∧ r.1 ≤ b := by
  obtain ⟨k, s, hk, hlo, hhi⟩ := D.randint_mem a b h.net.rng hab
  unfold randint
  rw [hk]
  exact ⟨_, rfl, hlo, hhi⟩

theorem choice_returns {xs : List NodeId} (hne : xs ≠ []) (h : Harness σ) :
    ∃ r, h.choice D xs = .ok r := by
  have hlt := D.choice_lt xs.length h.net.rng (List.length_pos_iff.mpr hne)
  unfold choice
  dsimp only
  rw [List.getElem?_eq_getElem hlt]
  exact ⟨_, rfl⟩

/-! ### Callbacks -/

/-- Whatever a node calls returns. -/
theorem call_returns (hc : c.Timely) (i : NodeId) (h : Harness σ) (x : Call) :
    ∃ h', h.call D c i x = .ok h' := by
  cases x with
  | send dst msg =>
    obtain ⟨net, hnet⟩ := MessageNetwork.send_returns D.fair hc.profile h.net ⟨i, dst, msg⟩
    unfold call send
    dsimp only
    rw [hnet]
    exact ⟨_, rfl⟩
  | record event => exact ⟨_, rfl⟩
  | schedule timer =>
    cases timer with
    | electionTimeout seq =>
      obtain ⟨r, hr, hlo, -⟩ := randint_returns (D := D) hc.timers.range h
      obtain ⟨h', hs⟩ :=
        schedule_returns (hc.timers.future.trans hlo) r.2 (.timer i (.electionTimeout seq))
      exact ⟨h', bind_ok.mpr ⟨r, hr, hs⟩⟩
    | heartbeat seq => exact schedule_returns hc.timers.heartbeat h _
  | onApply command result => exact ⟨_, rfl⟩

theorem calls_return (hc : c.Timely) (i : NodeId) (calls : List Call) (h : Harness σ) :
    ∃ h', calls.foldlM (call D c i) h = .ok h' :=
  foldlM_always (fun x _ h => call_returns hc i h x) h

theorem perform_returns (hc : c.Timely) (h : Harness σ) (i : NodeId) (y : Exec) :
    ∃ h', h.perform D c i (.ok y) = .ok h' := calls_return hc i y.calls _

/-- The nodes have come from the start by callbacks, and the network knows them. -/
structure Poised (c : HarnessSetup) (h : Harness σ) : Prop where
  world : ∃ past, RaftVerified.Run c.toSetup (ServerChange c.toSetup) (h.world :: past)
  faults : h.faults.Knows c.ids

theorem Poised.still (hp : h.Poised c) (he : Effect c .ok jobs faults h h')
    (hk : faults.Knows c.ids) : h'.Poised c := by
  have hworld : h'.world = h.world := congrArg Service.world he.still
  refine ⟨?_, he.faults ▸ hk⟩
  rw [hworld]
  exact hp.world

theorem Poised.callback (hp : h.Poised c)
    (he : Effect c (·.perform c.toServiceSetup e) jobs faults h h') (hk : faults.Knows c.ids)
    (hall : ServerChange c.toSetup [] e) : h'.Poised c := by
  obtain ⟨past, hrun⟩ := hp.world
  have hstep : h.world.step c.toSetup e = .ok h'.world := (Service.perform_world he.service).1
  exact ⟨⟨_, hrun.step hall hstep⟩, he.faults ▸ hk⟩

theorem Poised.known (hc : c.Sane) (hp : h.Poised c) : h.world.Known c.toSetup := by
  obtain ⟨past, hrun⟩ := hp.world
  exact run_known hc.sound.threshold hc.sound.accepted hrun

theorem callback_returns (hc : c.Sane) (hp : h.Poised c) (hi : i ∈ c.ids)
    (he : ServerChange c.toSetup [] e) :
    ∃ h', h.perform D c i (h.world.callback (h.nodes i) e) = .ok h' := by
  obtain ⟨past, hrun⟩ := hp.world
  obtain ⟨y, hy⟩ := hrun.callback_returns hc.sound hi he
  have hy : h.world.callback (h.nodes i) e = .ok y := hy
  rw [hy]
  exact perform_returns hc.toTimely h i y

/-! ### The drivers -/

theorem submit_returns (hc : c.Sane) (hp : h.Poised c) (hi : i ∈ c.ids) (cmd : Command) :
    ∃ h', h.submit D c i cmd.encode = .ok h' := by
  unfold submit
  dsimp only
  split
  · split
    · exact ⟨_, rfl⟩
    split
    · exact perform_returns hc.toTimely h i _
    · exact callback_returns (e := .clientCommand i cmd.encode) hc hp hi (encode_plain cmd)
  · exact ⟨_, rfl⟩

theorem clientTick_returns (hc : c.Sane) (hp : h.Poised c) (hd : h.clients.Encoded) :
    ∃ h', h.clientTick D c = .ok h' := by
  have hne : c.ids ≠ [] := by
    intro hnil
    have hzero : (0 : NodeId) ∈ c.ids := by
      have hone : 0 < c.numNodes := c.accepted.1
      exact HarnessSetup.mem_ids.mpr ⟨le_rfl, Int.natCast_pos.mpr hone⟩
    rw [hnil] at hzero
    cases hzero
  obtain ⟨t, ht⟩ := choice_returns (D := D) hne h
  obtain ⟨hmem, hdraw⟩ := choice_effect (c := c) ht
  have hclients : t.2.clients = h.clients := congrArg Service.clients hdraw.still
  obtain ⟨-, cmd, hcmd⟩ : (t.2.clients.attempt c.toServiceSetup t.2.steps).2.Encoded ∧
      ∃ cmd : Command, (t.2.clients.attempt c.toServiceSetup t.2.steps).1 = cmd.encode := by
    rw [hclients]
    exact hd.attempt
  have hnote := noteAttempt_effect (c := c) (h := { t.2 with
    clients := (t.2.clients.attempt c.toServiceSetup t.2.steps).2 }) t.1
    (h.clients.clientTurn % WORKLOAD_CLIENTS) (t.2.clients.attempt c.toServiceSetup t.2.steps).1
    (decide (t.2.clients.outstanding.lookup (h.clients.clientTurn % WORKLOAD_CLIENTS) = none))
  have hdrawn := hp.still hdraw hp.faults
  have hpoised := Poised.still (h := { t.2 with
    clients := (t.2.clients.attempt c.toServiceSetup t.2.steps).2 })
    ⟨hdrawn.world, hdrawn.faults⟩ hnote hdrawn.faults
  obtain ⟨h₁, h₁ok⟩ := submit_returns (D := D) hc hpoised hmem cmd
  obtain ⟨h', hok⟩ := schedule_returns hc.interval h₁ .clientTick
  rw [← hcmd] at h₁ok
  exact ⟨h', bind_ok.mpr ⟨t, ht, bind_ok.mpr ⟨h₁, h₁ok, hok⟩⟩⟩

theorem setPartition_returns (hk : h.faults.Knows c.ids) {groups : List (List NodeId)}
    (hcov : Covers groups c.ids) : ∃ h', h.setPartition groups = .ok h' := by
  unfold setPartition
  rw [Network.setPartition_of_covers (hk.nodeIds ▸ hcov)]
  exact ⟨_, rfl⟩

/-- Every node gets one of the two sides. -/
theorem drawSides_returns (is : List NodeId) (h : Harness σ) :
    ∃ r, h.drawSides D is = .ok r ∧ r.1.map Prod.fst = is ∧ ∀ p ∈ r.1, p.2 = 0 ∨ p.2 = 1 := by
  induction is generalizing h with
  | nil => exact ⟨_, rfl, rfl, fun p hp => by cases hp⟩
  | cons i is ih =>
    obtain ⟨s, hs, hlo, hhi⟩ := randint_returns (D := D) (show (0 : ℤ) ≤ 1 by decide) h
    obtain ⟨r, hr, hfst, hsides⟩ := ih s.2
    refine ⟨((i, s.1) :: r.1, r.2), bind_ok.mpr ⟨s, hs, bind_ok.mpr ⟨r, hr, rfl⟩⟩, ?_, ?_⟩
    · rw [List.map_cons, hfst]
    · intro p hp
      rcases List.mem_cons.mp hp with rfl | hp
      · dsimp only
        omega
      · exact hsides p hp

theorem covers_sides {sides : List (NodeId × ℤ)} {is : List NodeId}
    (hfst : sides.map Prod.fst = is) (hsides : ∀ p ∈ sides, p.2 = 0 ∨ p.2 = 1) :
    Covers [side sides 0, side sides 1] is := by
  intro i
  rw [← hfst]
  constructor
  · rintro ⟨g, hg, hi⟩
    rcases List.mem_cons.mp hg with rfl | hg
    · exact List.map_subset _ (List.filter_subset_self _) hi
    · obtain rfl := List.mem_singleton.mp hg
      exact List.map_subset _ (List.filter_subset_self _) hi
  · intro hi
    obtain ⟨p, hp, rfl⟩ := List.mem_map.mp hi
    rcases hsides p hp with h0 | h1
    · exact ⟨_, List.mem_cons_self,
        List.mem_map_of_mem (List.mem_filter.mpr ⟨hp, by simpa using h0⟩)⟩
    · exact ⟨_, List.mem_cons_of_mem _ List.mem_cons_self,
        List.mem_map_of_mem (List.mem_filter.mpr ⟨hp, by simpa using h1⟩)⟩

theorem partitionTick_returns (hk : h.faults.Knows c.ids) : ∃ h', h.partitionTick D c = .ok h' := by
  unfold partitionTick
  dsimp only
  split
  · exact ⟨_, rfl⟩
  split
  · exact ⟨_, rfl⟩
  split
  · obtain ⟨s, hs, hfst, hsides⟩ := drawSides_returns (D := D) c.ids (h.random D).2
    have hfaults : s.2.faults = h.faults := (drawSides_effect (c := c) hs).faults
    refine bind_returns hs ?_
    split
    · exact ⟨_, rfl⟩
    split
    · exact ⟨_, rfl⟩
    next h₁ heq =>
      have hfire : h₁.faults = s.2.faults := by
        have hsnd := (fireFault_effect (c := c) (h := s.2)).faults
        rwa [heq] at hsnd
      exact setPartition_returns (hfire ▸ hfaults ▸ hk) (covers_sides hfst hsides)
  · exact ⟨_, rfl⟩

theorem pause_returns (hc : c.Timely) (h : Harness σ) (i : NodeId) :
    ∃ h', h.pause D c i = .ok h' := by
  obtain ⟨h₁, h₁ok⟩ := perform_returns (D := D) hc
    (h.setFaults { h.faults with crashed := insert i h.faults.crashed }) i
    { node := (h.nodes i).pause }
  exact ⟨_, bind_ok.mpr ⟨h₁, h₁ok, rfl⟩⟩

theorem resume_returns (hc : c.Timely) (h : Harness σ) (i : NodeId) :
    ∃ h', h.resume D c i = .ok h' := by
  obtain ⟨h₁, h₁ok⟩ := perform_returns (D := D) hc
    (h.setFaults { h.faults with crashed := h.faults.crashed.erase i }) i (h.enter i).resume
  exact ⟨_, bind_ok.mpr ⟨h₁, h₁ok, rfl⟩⟩

theorem crashTick_returns (hc : c.Timely) (h : Harness σ) : ∃ h', h.crashTick D c = .ok h' := by
  unfold crashTick
  dsimp only
  split
  · exact ⟨_, rfl⟩
  split
  · split
    · exact ⟨_, rfl⟩
    next hne =>
      obtain ⟨v, hv⟩ := choice_returns (D := D) hne (h.random D).2
      obtain ⟨delay, hdelay, hlo, -⟩ :=
        randint_returns (D := D) (show (100 : ℤ) ≤ 400 by decide) v.2
      refine bind_returns hv (bind_returns hdelay ?_)
      split
      · exact ⟨_, rfl⟩
      next h₁ _ =>
        obtain ⟨h₂, h₂ok⟩ := pause_returns (D := D) hc h₁ v.1
        exact bind_returns h₂ok
          (schedule_returns ((show (0 : ℤ) ≤ 100 by decide).trans hlo) h₂ _)
  · exact ⟨_, rfl⟩

theorem faultTick_returns (hc : c.Timely) (hk : h.faults.Knows c.ids) :
    ∃ h', h.faultTick D c = .ok h' := by
  obtain ⟨h₁, h₁ok⟩ := partitionTick_returns (D := D) hk
  obtain ⟨h₂, h₂ok⟩ := crashTick_returns (D := D) hc h₁
  obtain ⟨h', hok⟩ := schedule_returns (show 0 ≤ FAULT_INTERVAL by decide) h₂ .faultTick
  exact ⟨h', bind_ok.mpr ⟨h₁, h₁ok, bind_ok.mpr ⟨h₂, h₂ok, hok⟩⟩⟩

theorem maybeResume_returns (hc : c.Timely) (h : Harness σ) (i : NodeId) :
    ∃ h', h.maybeResume D c i = .ok h' := by
  unfold maybeResume
  split
  · exact resume_returns hc h i
  · exact ⟨_, rfl⟩

theorem propose_returns (hc : c.Sane) (hn : 2 ≤ c.numNodes) (hp : h.Poised c) (hi : i ∈ c.ids) :
    ∃ h', h.propose D c i = .ok h' ∧ h'.Poised c := by
  have hknown := hp.known hc
  have hwithin {vs : List NodeId} (hvs : Proposes c (h.nodes i) vs) :
      ServerChange c.toSetup [] (.changeConfig i vs) := hvs.within (hknown.voters i hi)
  suffices hex : ∃ h', h.propose D c i = .ok h' by
    obtain ⟨h', hok⟩ := hex
    obtain ⟨vs, hvs, -, he⟩ := propose_effect hi hn hok
    exact ⟨h', hok, hp.callback he hp.faults (hwithin hvs)⟩
  obtain ⟨past, hrun⟩ := hp.world
  obtain ⟨y, hy⟩ := hrun.callback_returns
    (e := .changeConfig i (proposal c.ids h.memberTurn (h.nodes i)).1) hc.sound hi
    (hwithin (proposes_proposal hn h.memberTurn (h.nodes i)))
  obtain ⟨b, hr⟩ := map_fst_ok hy
  unfold propose
  dsimp only
  split
  next e he =>
    cases hr.symm.trans he
  next r _ =>
    obtain ⟨h₁, h₁ok⟩ := perform_returns (D := D) hc.toTimely
      { h with memberTurn := (proposal c.ids h.memberTurn (h.nodes i)).2.1 } i r.1
    exact ⟨_, bind_ok.mpr ⟨h₁, h₁ok, rfl⟩⟩

theorem proposals_return (hc : c.Sane) (hn : 2 ≤ c.numNodes) (is : List NodeId)
    (his : ∀ i ∈ is, i ∈ c.ids) (hp : h.Poised c) :
    ∃ h', is.foldlM (propose D c) h = .ok h' := by
  -- each proposal leaves the cluster poised for the next one
  obtain ⟨h', hok, -⟩ :=
    foldlM_returns is (fun i hi h hp => propose_returns (D := D) hc hn hp (his i hi)) hp
  exact ⟨h', hok⟩

theorem membershipTick_returns (hc : c.Sane) (hm : c.membership = true) (hp : h.Poised c) :
    ∃ h', h.membershipTick D c = .ok h' := by
  have hn := c.enough hm
  obtain ⟨h₁, h₁ok⟩ := proposals_return (D := D) hc (by omega) (h.leaders c)
    (fun i hi => (List.mem_filter.mp hi).1) hp
  obtain ⟨h', hok⟩ := schedule_returns (show 0 ≤ MEMBERSHIP_INTERVAL by decide) h₁ .membershipTick
  exact ⟨h', bind_ok.mpr ⟨h₁, h₁ok, hok⟩⟩

/-! ### The fault schedule -/

theorem inject_returns {fault : Harness σ → Except Failure (Harness σ)} {delay : ℤ} {recovery : Job}
    (hd : 1 ≤ delay) (hf : ∀ h₁ : Harness σ, h₁.faults = h.faults → ∃ h₂, fault h₁ = .ok h₂) :
    ∃ h', h.inject c fault delay recovery = .ok h' := by
  have hfire := (fireFault_effect (c := c) (h := h)).faults
  unfold inject
  split
  · exact ⟨_, rfl⟩
  next h₁ heq =>
    rw [heq] at hfire
    obtain ⟨h₂, h₂ok⟩ := hf h₁ hfire
    obtain ⟨h', hok⟩ := schedule_returns (show 0 ≤ delay by omega) h₂ recovery
    exact ⟨h', bind_ok.mpr ⟨h₂, h₂ok, hok⟩⟩

theorem covers_halves (is : List NodeId) (k : ℕ) : Covers [is.take k, is.drop k] is := by
  intro i
  conv_rhs => rw [← List.take_append_drop k is, List.mem_append]
  simp

theorem covers_isolated {is : List NodeId} (hi : i ∈ is) : Covers [[i], is.filter (· ≠ i)] is := by
  intro j
  by_cases hj : j = i
  · simp [hj, hi]
  · simp [hj]

theorem nemesisFire_returns {op : NemesisOp} (hc : c.Sane) (hk : h.faults.Knows c.ids)
    (hop : c.Injects op) : ∃ h', h.nemesisFire D c op = .ok h' := by
  have hsplit {groups : List (List NodeId)} (hcov : Covers groups c.ids) (h₁ : Harness σ)
      (hf : h₁.faults = h.faults) : ∃ h₂, h₁.setPartition groups = .ok h₂ :=
    setPartition_returns (hf ▸ hk) hcov
  have hvalid := hop.valid
  cases op with
  | partitionHalves t duration =>
    unfold nemesisFire
    dsimp only
    split
    · exact ⟨_, rfl⟩
    · exact inject_returns hvalid.2 (hsplit (covers_halves _ _))
  | isolateLeader t duration =>
    unfold nemesisFire
    dsimp only
    split
    · exact ⟨_, rfl⟩
    next victim hl =>
      split
      · exact ⟨_, rfl⟩
      · exact inject_returns hvalid.2 (hsplit (covers_isolated (leader_mem hl)))
  | flappingLink a b t period cycles =>
    exact inject_returns hvalid.2.2.1 fun h₁ _ => ⟨_, rfl⟩
  | lossyLink a b t duration dropP =>
    exact inject_returns hvalid.2.1.2 fun h₁ _ => ⟨_, rfl⟩
  | crashNode node t duration =>
    unfold nemesisFire
    dsimp only
    split
    · exact ⟨_, rfl⟩
    · exact inject_returns hvalid.2.2 fun h₁ _ => pause_returns hc.toTimely h₁ node

/-! ### Steps and runs -/

theorem execute_returns {job : Job} (hc : c.Sane) (hj : job.Wired c) (hp : h.Poised c)
    (hd : h.clients.Encoded) : ∃ h', h.execute D c job = .ok h' := by
  cases job with
  | timer i t =>
    cases t with
    | electionTimeout seq => exact callback_returns (e := .electionTimeout i seq) hc hp hj trivial
    | heartbeat seq => exact callback_returns (e := .heartbeat i seq) hc hp hj trivial
  | clientTick => exact clientTick_returns hc hp hd
  | faultTick => exact faultTick_returns hc.toTimely hp.faults
  | membershipTick => exact membershipTick_returns hc hj hp
  | maybeResume i => exact maybeResume_returns hc.toTimely h i
  | nemesisFire op => exact nemesisFire_returns hc hp.faults hj
  | healPartition => exact ⟨_, rfl⟩
  | linkUp a b => exact ⟨_, rfl⟩
  | clearLossyLink a b => exact ⟨_, rfl⟩

theorem Poised.turned {h₁ : Harness σ} {turn : Turn} (hp : h.Poised c) (ht : Turned h h₁ turn) :
    h₁.Poised c := by
  refine ⟨?_, ht.faults ▸ hp.faults⟩
  rw [ht.world]
  exact hp.world

theorem deliver_returns {k : ℕ} {l : Letter Message} {net : MessageNetwork σ Message Job}
    (hc : c.Sane) (hw : h.Wired c) (hp : h.Poised c)
    (hpop : h.net.pop = some (.delivery k l, net)) :
    ∃ h', ({ h with net } : Harness σ).deliver D c k l = .ok h' := by
  obtain ⟨hqueue, sim, rfl⟩ := MessageNetwork.pop_some hpop
  have hletter : h.net.letters[k]? = some l :=
    hw.balanced.queued (k, l) (hqueue ▸ List.mem_cons_self)
  have hsent : h.world.sent[k]? = some l.packet := by
    show (h.net.letters.map Letter.packet)[k]? = _
    rw [List.getElem?_map, hletter]
    rfl
  obtain ⟨hsrc, hdst, -⟩ := (hp.known hc).sent _ (List.mem_of_getElem? hsent)
  have hsrc : l.src ∈ c.ids := hsrc
  have hdst : l.dst ∈ c.ids := hdst
  obtain ⟨⟨b, net'⟩, hdel⟩ := MessageNetwork.delivery_returns (s := { h.net with sim }) (n := k)
    ((hp.faults.group _).mpr hsrc) ((hp.faults.group _).mpr hdst)
  unfold deliver
  dsimp only
  rw [hdel]
  cases b with
  | false => exact ⟨_, rfl⟩
  | true =>
    have hp₁ := hp.turned (turned_delivery (t := .arrival k) hpop hdel rfl)
    obtain ⟨h', hok⟩ := callback_returns (D := D) (e := .deliver k) hc hp₁ hdst trivial
    refine ⟨h', ?_⟩
    have hsame : net'.letters = h.net.letters := (MessageNetwork.delivery_onward_ok hdel).2
    unfold World.callback at hok
    dsimp only [absorb, world] at hok
    rw [hsame, show (h.net.letters.map Letter.packet)[k]? = some l.packet from hsent] at hok
    exact hok

theorem simStep_returns (hc : c.Sane) (hw : h.Wired c) (hp : h.Poised c)
    (hd : h.clients.Encoded) : ∃ r, h.simStep D c = .ok r := by
  unfold simStep
  split
  · exact ⟨_, rfl⟩
  next k l net hpop =>
    obtain ⟨h', hok⟩ := deliver_returns (D := D) hc hw hp hpop
    rw [hok]
    exact ⟨_, rfl⟩
  next job net hpop =>
    have hturned := turned_job hpop
    obtain ⟨h', hok⟩ :=
      execute_returns (D := D) hc (hw.turn hturned job rfl) (hp.turned hturned) hd
    rw [hok]
    exact ⟨_, rfl⟩

/-- The checker has seen every state of the nodes, and nothing was wrong. -/
structure Guarded (c : HarnessSetup) (h : Harness σ) : Prop where
  reached : h.Reached c
  sighted : ∃ history past, Watched.Sighted c.toSetup ⟨h.world, h.checker, h.steps, history⟩ past

theorem Guarded.poised (hg : h.Guarded c) : h.Poised c := by
  obtain ⟨history, past, hs⟩ := hg.sighted
  exact ⟨⟨past, hs.run⟩, hg.reached.wired.faults⟩

/-- The callbacks of a step change the voters to servers of the cluster only. -/
theorem Fires.changes {turn : Turn} {net : Network} {s s' : Service}
    (hf : Fires c h turn run jobs net) (hd : s.clients.Encoded) (hrun : run s = .ok s')
    (hk : h.world.Known c.toSetup) : ∃ es, SimStep es ∧
      (∀ e ∈ es, ServerChange c.toSetup [] e) ∧
      ∃ apps, runCallbacks c.toSetup s.world es = .ok (s'.world, apps) := by
  obtain ⟨-, es, hsim, ⟨-, hfixed⟩ | ⟨-, hes⟩, hcalls⟩ := hf.callbacks hd hrun
  · exact ⟨es, hsim, fun e he => serverChange_of_fixed (hfixed [] e he), hcalls⟩
  · refine ⟨es, hsim, fun e he => ?_, hcalls⟩
    obtain ⟨i, hi, vs, rfl, hvs⟩ := hes e he
    exact hvs.within (hk.voters i hi)

/-- A step of a cluster that is guarded returns, and the cluster stays guarded. -/
theorem Guarded.step_returns (hc : c.Sane) (hg : h.Guarded c) :
    ∃ r, step D c h = .ok r ∧ ∀ h', r = some h' → h'.Guarded c := by
  obtain ⟨hw, -, hd⟩ := hg.reached
  obtain ⟨r, hr⟩ := simStep_returns (D := D) hc hw hg.poised hd
  cases r with
  | none =>
    refine ⟨none, ?_, nofun⟩
    unfold step
    rw [hr]
  | some h₂ =>
    obtain ⟨h₁, turn, run, jobs, net, ht, hf, he⟩ := simStep_cases hw hr
    obtain ⟨es, hsim, hes, apps, hcalls⟩ :=
      hf.changes (ht.encoded hd) he.service ((hg.poised.turned ht).known hc)
    have hworld : h₁.service.world = h.world := ht.world
    rw [hworld] at hcalls
    -- the same callbacks and the same check of a run under the checker, which raises no alarm
    obtain ⟨history, past, hs⟩ := hg.sighted
    obtain ⟨s', past', hs', hnext⟩ := hs.step hc.sound hsim hes
    unfold Watched.step at hs'
    rw [hcalls] at hs'
    obtain ⟨u, hu, hs'⟩ := bind_ok.mp hs'
    obtain rfl := Except.ok.inj hu
    obtain ⟨checker, hck, hs'⟩ := bind_ok.mp hs'
    obtain rfl := Except.ok.inj hs'
    have hcheck : h₂.checker.check h₂.nodes c.ids h₂.steps = .ok checker := by
      rw [he.checker, ht.checker, he.steps, ht.steps]
      exact hck
    have hok : step D c h = .ok (some { h₂ with checker }) := step_ok hr hcheck
    refine ⟨_, hok, fun h' heq => ?_⟩
    obtain rfl := Option.some.inj heq
    have hsteps : h₂.steps = h.steps+1 := he.steps.trans ht.steps
    refine ⟨hg.reached.step hok, history ++ apps, past', ?_⟩
    show Watched.Sighted c.toSetup ⟨h₂.world, checker, h₂.steps, history ++ apps⟩ past'
    rw [hsteps]
    exact hnext

/-! ### The start -/

theorem starts_return (hc : c.Timely) (is : List NodeId) (h : Harness σ) :
    ∃ h', is.foldlM (fun h i =>
      ({ node := c.node i } : Exec).start.calls.foldlM (call D c i) h) h = .ok h' :=
  foldlM_always (fun i _ h => calls_return hc i _ h) h

theorem startDriver_returns {delay : ℤ} (hd : 0 ≤ delay) (h : Harness σ) (on : Bool) (job : Job) :
    ∃ h', h.startDriver on delay job = .ok h' := by
  unfold startDriver
  split
  · exact schedule_returns hd h job
  · exact ⟨h, rfl⟩

theorem injections_return (is : List Injection) (hi : ∀ i ∈ is, 0 ≤ i.atTime) (h : Harness σ) :
    ∃ h', is.foldlM (fun h i => h.schedule i.atTime (.nemesisFire i.op)) h = .ok h' :=
  foldlM_always (fun i hmem h => schedule_returns (hi i hmem) h (.nemesisFire i.op)) h

theorem init_returns (hc : c.Timely) : ∃ h, init D c = .ok h := by
  obtain ⟨h₁, h₁ok⟩ := starts_return (D := D) hc c.ids (blank D c)
  obtain ⟨h₂, h₂ok⟩ := startDriver_returns hc.interval h₁
    (decide (c.clientInterval.getD 0 ≠ 0)) .clientTick
  obtain ⟨h₃, h₃ok⟩ := startDriver_returns (show 0 ≤ FAULT_INTERVAL by decide) h₂
    (c.profile.partitions || c.profile.crashes) .faultTick
  obtain ⟨h₄, h₄ok⟩ := startDriver_returns (show 0 ≤ MEMBERSHIP_INTERVAL by decide) h₃
    c.membership .membershipTick
  obtain ⟨h, hok⟩ := injections_return c.injections c.injections_future h₄
  exact ⟨h, bind_ok.mpr ⟨h₁, h₁ok, bind_ok.mpr ⟨h₂, h₂ok, bind_ok.mpr ⟨h₃, h₃ok,
    bind_ok.mpr ⟨h₄, h₄ok, hok⟩⟩⟩⟩⟩

theorem init_guarded (h₀ : init D c = .ok h) : h.Guarded c := by
  have he := init_effect h₀
  have hworld : h.world = World.init c.toSetup := congrArg Service.world he.still
  refine ⟨init_reached h₀, [], [], ?_⟩
  rw [hworld, he.checker, he.steps]
  exact Watched.sighted_init c.toSetup _ _

/-- Whatever its seed, its faults and its fault schedule, a sane cluster can be built and run for
any number of steps: no callback raises, and the checker has nothing to report. -/
theorem run_returns (D : Platform σ) (hc : c.Sane) (n : ℕ) : ∃ h h' past,
    init D c = .ok h ∧ Harness.run D c n h = .ok h' ∧ Run D c (h' :: past) ∧ h'.Guarded c ∧
      (∀ job T, c.Ticks job T → past.length = n) := by
  obtain ⟨h, h₀⟩ := init_returns (D := D) hc.toTimely
  have hguarded : ∀ t past, Machine.Path (step D c) h (t :: past) → t.Guarded c := by
    intro t past hpath
    refine hpath.rule (init_guarded h₀) (fun u u' hu hs => ?_) t List.mem_cons_self
    obtain ⟨r, hr, hkeep⟩ := hu.step_returns (D := D) hc
    exact hkeep u' (Except.ok.inj (hr.symm.trans hs))
  have hstart : Machine.Path (step D c) h [h] := .init
  obtain ⟨h', hrun⟩ := hstart.returns (fun t later hpath => by
    obtain ⟨r, hr, -⟩ := (hguarded t later hpath).step_returns (D := D) hc
    exact ⟨r, hr⟩) n
  by_cases hidle : ∃ job T, c.Ticks job T
  · obtain ⟨job, T, hk⟩ := hidle
    obtain ⟨past, hpath, hlen⟩ := hstart.run_all hrun fun u later hu =>
      step_some hk (run_path h₀ hu)
    exact ⟨h, h', past, h₀, hrun, run_path h₀ hpath, hguarded h' past hpath,
      fun _ _ _ => by simpa using hlen⟩
  · obtain ⟨past, hpath, -⟩ := hstart.run hrun
    exact ⟨h, h', past, h₀, hrun, run_path h₀ hpath, hguarded h' past hpath,
      fun job T hk => absurd ⟨job, T, hk⟩ hidle⟩

/-- Arguments that `Cluster.__init__` accepts, with no planted defect and no compaction, give a
cluster that can be built and run for any number of steps, all of which it makes while a driver is
on. -/
theorem accepted_run (D : Platform σ) {o : ClusterOptions} (h : o.setup D.json = .ok c)
    (hb : o.bugs = NO_BUGS) (ht : o.config.snapshotThreshold = 0)
    (hv : ∀ vs ∈ o.initialVoters, vs.Nodup) (htimers : o.timers.Sane)
    (hclient : 0 ≤ o.clientInterval.getD 0) (n : ℕ) : ∃ h h', init D c = .ok h ∧
      Harness.run D c n h = .ok h' ∧ ((∃ job T, c.Ticks job T) → h'.steps = n) := by
  obtain ⟨h, h', past, h₀, hrun, hr, -, hlen⟩ :=
    run_returns D (o.sane h hb ht hv htimers hclient) n
  exact ⟨h, h', h₀, hrun, fun ⟨job, T, hk⟩ => (run_steps hr).trans (hlen job T hk)⟩

/-- On such a cluster `run_until` returns whatever it is to wait for, and its answer is right: it
stops at the first state that is as wanted, and gives up only when no state within the budget
is. -/
theorem accepted_until (D : Platform σ) {o : ClusterOptions} (h : o.setup D.json = .ok c)
    (hb : o.bugs = NO_BUGS) (ht : o.config.snapshotThreshold = 0)
    (hv : ∀ vs ∈ o.initialVoters, vs.Nodup) (htimers : o.timers.Sane)
    (hclient : 0 ≤ o.clientInterval.getD 0) (wanted : Harness σ → Bool) (n : ℕ) :
    ∃ h, init D c = .ok h ∧ ∃ found t, runUntil D c wanted n h = .ok (found, t) ∧
      wanted t = found ∧ ∃ m ≤ n, Harness.run D c m h = .ok t ∧
        (∀ k < m, ∀ u, Harness.run D c k h = .ok u → wanted u = false) ∧
        (found = false → Harness.run D c n h = .ok t) := by
  obtain ⟨h, h', past, h₀, hrun, -⟩ := run_returns D (o.sane h hb ht hv htimers hclient) n
  refine ⟨h, h₀, ?_⟩
  cases hu : runUntil D c wanted n h with
  | error e =>
    -- a run of as many steps would raise too
    have hraise : Harness.run D c n h = .error e := Machine.runUntil_error hu
    rw [hrun] at hraise
    cases hraise
  | ok r => exact ⟨r.1, r.2, rfl, Machine.runUntil_ok hu⟩

end Harness

/-! ### Five nodes under random faults -/

/-- The successor of a state of the generator. -/
def lcgNext (s : ℕ) : ℕ := (1103515245*s+12345) % 2^31

/-- A number below `n`, from the high bits. -/
def lcgBelow (s n : ℕ) : ℕ := lcgNext s / 2^16 % n

/-- The random numbers of a linear congruential generator. -/
def lcg : Platform ℕ where
  random s := (lcgBelow s 1000/1000, lcgNext s)
  randint a b s :=
    if a ≤ b then .ok (a+lcgBelow s (b-a+1).toNat, lcgNext s) else .error "empty range".toList
  json := { dumps := fun _ => [], loads := fun _ => none, repr := fun _ => [] }
  seeded := Int.natAbs
  choice n s := (lcgBelow s n, lcgNext s)
  choice_lt _ _ h := Nat.mod_lt _ h
  randint_mem a b s h := by
    have hlt : lcgBelow s (b-a+1).toNat < (b-a+1).toNat := Nat.mod_lt _ (by omega)
    exact ⟨_, _, if_pos h, by omega, by omega⟩

/-- Five nodes under random faults, with churn or without. -/
def chaos (membership : Bool) : ClusterOptions where
  numNodes := 5
  seed := if membership then 64 else 39
  faults := "chaos".toList
  membership := membership

/-- The cluster has a leader, an entry has been committed, and a node is down. -/
def Harness.Busy {σ : Type} (c : HarnessSetup) (h : Harness σ) : Prop :=
  h.leader c ≠ none ∧ (∃ i ∈ c.ids, 0 < (h.nodes i).commitIndex) ∧
    ∃ i ∈ c.ids, (h.nodes i).alive = false

instance {σ : Type} (c : HarnessSetup) (h : Harness σ) : Decidable (h.Busy c) :=
  inferInstanceAs (Decidable (_ ∧ _ ∧ _))

theorem chaos_busy (membership : Bool) : ∃ c, (chaos membership).setup lcg.json = .ok c ∧ ∃ h,
    Harness.init lcg c = .ok h ∧ ∃ t, Harness.run lcg c 80 h = .ok t ∧ t.steps = 80 ∧ t.Busy c := by
  revert membership
  decide +kernel

/-- The states up to one in which the cluster is busy. -/
theorem chaos_run (membership : Bool) : ∃ c, (chaos membership).setup lcg.json = .ok c ∧
    ∃ t past, Harness.Run lcg c (t :: past) ∧ past.length = 80 ∧ t.Busy c := by
  obtain ⟨c, hc, h, h₀, t, hrun, hsteps, hbusy⟩ := chaos_busy membership
  obtain ⟨past, hr, -⟩ := Harness.run_reaches h₀ hrun
  exact ⟨c, hc, t, past, hr, (Harness.run_steps hr).symm.trans hsteps, hbusy⟩

theorem accepted_run_chaos : ∃ c, (chaos true).setup lcg.json = .ok c ∧ ∃ h,
    Harness.init lcg c = .ok h ∧ (∃ t, Harness.run lcg c 80 h = .ok t ∧ t.steps = 80 ∧ t.Busy c) ∧
      ∃ h', Harness.run lcg c 100000 h = .ok h' ∧
        ((∃ job T, c.Ticks job T) → h'.steps = 100000) := by
  obtain ⟨c, hc, h, h₀, hbusy⟩ := chaos_busy true
  obtain ⟨h₁, h', h₁ok, hrun, hsteps⟩ := Harness.accepted_run (o := chaos true) lcg hc rfl rfl
    (fun _ h => (by cases h)) timers_sane (by decide) 100000
  obtain rfl := Except.ok.inj (h₀.symm.trans h₁ok)
  exact ⟨c, hc, h, h₀, hbusy, h', hrun, hsteps⟩

/-- A leader comes up long before the budget is spent. -/
theorem accepted_until_chaos : ∃ c, (chaos true).setup lcg.json = .ok c ∧ ∃ h,
    Harness.init lcg c = .ok h ∧ ∃ t,
      Harness.runUntil lcg c (fun h => (h.leader c).isSome) 50000 h = .ok (true, t) ∧
        (t.leader c).isSome = true ∧ ∃ m ≤ 50000, Harness.run lcg c m h = .ok t ∧
          ∀ k < m, ∀ u, Harness.run lcg c k h = .ok u → (u.leader c).isSome = false := by
  have hfound : ∃ c, (chaos true).setup lcg.json = .ok c ∧ ∃ h, Harness.init lcg c = .ok h ∧
      ∃ r, Harness.runUntil lcg c (fun h => (h.leader c).isSome) 50000 h = .ok r ∧ r.1 = true := by
    decide +kernel
  obtain ⟨c, hc, h, h₀, ⟨found, t⟩, hr, htrue⟩ := hfound
  obtain rfl : found = true := htrue
  obtain ⟨h', h₀', found, t', hr', hwanted, m, hle, hrun, hbefore, -⟩ :=
    Harness.accepted_until (o := chaos true) lcg hc rfl rfl (fun _ h => (by cases h)) timers_sane
      (by decide) (fun h => (h.leader c).isSome) 50000
  obtain rfl := Except.ok.inj (h₀.symm.trans h₀')
  obtain ⟨rfl, rfl⟩ := Prod.mk.inj (Except.ok.inj (hr.symm.trans hr'))
  exact ⟨c, hc, h, h₀, t, hr, hwanted, m, hle, hrun, hbefore⟩

theorem run_refines_chaos : ∃ c, (chaos false).setup lcg.json = .ok c ∧ ∃ t past,
    Harness.Run lcg c (t :: past) ∧ past.length = 80 ∧ t.Busy c ∧
      (∃ ss, Watched.Run c.toSetup ss ∧ ss.map (fun s => (s.world, s.checker, s.steps)) =
        (t :: past).map fun h => (h.world, h.checker, h.steps)) ∧
      Service.Run c.toServiceSetup ((t :: past).map Harness.service) ∧
        Run c.toSetup FixedVoters ((t :: past).map Harness.world) := by
  obtain ⟨c, hc, t, past, hr, hlen, hbusy⟩ := chaos_run false
  have hoff : c.membership = false := (ClusterOptions.setup_ok hc).2.2.2.2.2.2.1
  obtain ⟨hwatched, hsteady⟩ := Harness.run_refines hr
  exact ⟨c, hc, t, past, hr, hlen, hbusy, hwatched, hsteady hoff⟩

theorem run_clock_chaos : ∃ c, (chaos true).setup lcg.json = .ok c ∧ ∃ h past,
    Harness.Run lcg c (h :: past) ∧ past.length = 80 ∧ h.Busy c ∧ ∃ k : ℕ,
      h.Punctual .membershipTick MEMBERSHIP_INTERVAL k ∧ h.now ≤ MEMBERSHIP_INTERVAL*(k+1) := by
  obtain ⟨c, hc, h, past, hr, hlen, hbusy⟩ := chaos_run true
  have hon : c.membership = true := (ClusterOptions.setup_ok hc).2.2.2.2.2.2.1
  obtain ⟨k, hp, hle, -⟩ := Harness.run_clock (.membership hon) hr List.mem_cons_self
  exact ⟨c, hc, h, past, hr, hlen, hbusy, k, hp, hle⟩

end RaftVerified
