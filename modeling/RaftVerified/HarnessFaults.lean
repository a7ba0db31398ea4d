import RaftVerified.HarnessReturns
import RaftVerified.RaftRecords

/-! Faults and recoveries in a run of a cluster: every fault in force has its recovery in the queue,
and random faults leave a majority of the nodes up. -/
namespace RaftVerified

/-- A node goes down and comes up by nothing but a crash and a restart. -/
theorem World.step_alive {c : Setup} {w w' : World} {e : Event} (h : w.step c e = .ok w')
    (he : e.Inner) (i : NodeId) : (w'.nodes i).alive = (w.nodes i).alive := by
  rcases World.step_node h i with ⟨hsame, -⟩ | ⟨-, -, y, hy, hnode⟩
  · rw [hsame]
  · rw [hnode]
    exact (callback_told he hy).alive

theorem runCallbacks_alive {c : Setup} {w w' : World} {es : List Event}
    {apps : List Application} (h : runCallbacks c w es = .ok (w', apps))
    (he : ∀ e ∈ es, e.Inner) (i : NodeId) : (w'.nodes i).alive = (w.nodes i).alive := by
  induction es generalizing w apps with
  | nil =>
    obtain ⟨rfl, -⟩ := Prod.mk.inj (Except.ok.inj h)
    rfl
  | cons e es ih =>
    obtain ⟨v, hv, h⟩ := bind_ok.mp h
    obtain ⟨r, hr, h⟩ := bind_ok.mp h
    obtain ⟨rfl, -⟩ := Prod.mk.inj (Except.ok.inj h)
    have hrest := ih hr fun e' he' => he e' (List.mem_cons_of_mem e he')
    exact hrest.trans (World.step_alive hv (he e List.mem_cons_self) i)

/-- Nodes that are all in one group are not partitioned. -/
theorem Network.whole {net : Network} (h : ∀ i ∈ net.nodeIds, net.group.lookup i = some 0) :
    net.isPartitioned = false := by
  unfold isPartitioned
  rw [decide_eq_false_iff_not, not_lt]
  refine Finset.card_le_one.mpr fun a ha b hb => ?_
  obtain ⟨i, hi, rfl⟩ := Finset.mem_image.mp ha
  obtain ⟨j, hj, rfl⟩ := Finset.mem_image.mp hb
  rw [h i (List.mem_toFinset.mp hi), h j (List.mem_toFinset.mp hj)]

theorem Network.heal_whole (net : Network) : net.heal.isPartitioned = false := by
  refine whole fun i hi => ?_
  have hi : i ∈ net.nodeIds := hi
  unfold heal
  rw [lookup_foldl_insert, if_pos hi]

theorem Network.init_whole (ids : List NodeId) : (init ids).isPartitioned = false := by
  refine whole fun i hi => ?_
  have hi : i ∈ sorted ids := hi
  unfold init
  rw [Dict.lookup_fromKeys, if_pos hi]

theorem plans_start (c : HarnessSetup) : ∀ p ∈ c.plans, ∀ i, p.2 ≠ .maybeResume i := by
  intro p hp i
  unfold HarnessSetup.plans at hp
  simp only [List.mem_append, List.mem_map] at hp
  rcases hp with ⟨j, -, rfl⟩ | hp | hp | hp
  · nofun
  all_goals
    split at hp
    · rw [List.mem_singleton.mp hp]
      nofun
    · cases hp

namespace Harness
variable {σ : Type} {D : Platform σ} {c : HarnessSetup} {h h' h₁ h₂ : Harness σ} {i : NodeId}
  {turn : Turn} {run : Runs} {jobs : List (ℤ × Job)} {net : Network} {hs : List (Harness σ)}

/-- The jobs in the queue. -/
def pending (h : Harness σ) : List Job := h.agenda.map Prod.snd

theorem Turned.pending (ht : Turned h h₁ turn) :
    h.pending.Perm (turn.job?.toList ++ h₁.pending) := by
  have hp := ht.agenda.map Prod.snd
  rw [List.map_append] at hp
  refine hp.trans (List.Perm.of_eq ?_)
  cases turn.job? with
  | none => rfl
  | some job => rfl

theorem Effect.pending {faults : Network} (he : Effect c run jobs faults h h') :
    ∃ timers, h'.pending.Perm (timers ++ (jobs.map Prod.snd ++ h.pending)) ∧
      ∀ job ∈ timers, ∃ i ∈ c.ids, ∃ t, job = .timer i t := by
  obtain ⟨timers, hp, ht⟩ := he.agenda
  have hp := hp.map Prod.snd
  rw [List.map_append, List.map_append] at hp
  refine ⟨timers.map Prod.snd, hp, fun job hjob => ?_⟩
  obtain ⟨p, hmem, rfl⟩ := List.mem_map.mp hjob
  exact ht p hmem

/-- Every fault in force has its recovery in the queue. -/
structure Recovers (c : HarnessSetup) (h : Harness σ) : Prop where
  down : ∀ i ∈ c.ids, (h.nodes i).alive = false ↔ i ∈ h.faults.crashed
  resumes : ∀ i, h.pending.count (.maybeResume i) = if i ∈ h.faults.crashed then 1 else 0
  heals : c.profile.partitions = false → h.faults.isPartitioned = true →
    Job.healPartition ∈ h.pending
  links : ∀ l ∈ h.faults.downLinks, ∃ a b, link a b = l ∧ Job.linkUp a b ∈ h.pending
  lossy : ∀ l ∈ h.faults.lossyLinks, ∃ a b, link a b = l ∧ Job.clearLossyLink a b ∈ h.pending

/-! ### Who is up -/

/-- Callbacks that leave everybody as they are, up or down. -/
def Inert (run : Runs) : Prop :=
  ∀ s s' : Service, s.clients.Encoded → run s = .ok s' →
    ∀ i, (s'.world.nodes i).alive = (s.world.nodes i).alive

theorem perform_inert {e : Event} (he : e.Inner) : Inert (·.perform c.toServiceSetup e) :=
  fun _ _ _ hrun i => World.step_alive (Service.perform_world hrun).1 he i

theorem clientTick_inert (target : NodeId) : Inert (·.clientTick c.toServiceSetup target) := by
  intro s s' hd hrun i
  obtain ⟨-, es, -, hasks, apps, happs⟩ := Service.clientTick_callbacks hd hrun
  refine runCallbacks_alive happs (fun e he => ?_) i
  obtain ⟨cmd, rfl | rfl⟩ := hasks e he
  · trivial
  · trivial

theorem proposals_inert {es : List Event} (hes : ∀ e ∈ es, e.Inner) :
    Inert (fun s => es.foldlM (·.perform c.toServiceSetup) s) := by
  intro s s' _ hrun i
  obtain ⟨⟨apps, happs⟩, -⟩ := Service.runCallbacks_all es hrun
  exact runCallbacks_alive happs hes i

/-- What a step makes of those who are down. -/
inductive Shifts (c : HarnessSetup) (h : Harness σ) :
    Turn → Runs → List Job → Finset NodeId → Prop
  | stays {turn : Turn} {run : Runs} {jobs : List Job} : Inert run →
      (∀ i, turn = .job (.maybeResume i) → i ∉ h.faults.crashed) →
      (∀ i, .maybeResume i ∉ jobs) → Shifts c h turn run jobs h.faults.crashed
  | falls {turn : Turn} {jobs : List Job} {victim : NodeId} : victim ∈ c.ids →
      (h.nodes victim).alive = true → (∀ i, turn ≠ .job (.maybeResume i)) →
      (∀ i, jobs.count (.maybeResume i) = if i = victim then 1 else 0) →
      Shifts c h turn (·.perform c.toServiceSetup (.pause victim)) jobs
        (insert victim h.faults.crashed)
  | rises {i : NodeId} : i ∈ c.ids → i ∈ h.faults.crashed →
      Shifts c h (.job (.maybeResume i)) (·.perform c.toServiceSetup (.resume i)) []
        (h.faults.crashed.erase i)

theorem still_inert : Inert .ok := by
  intro s s' _ hrun i
  obtain rfl := Except.ok.inj hrun
  rfl

/-- A partition, and its end, are about groups only. -/
theorem setPartition_rest {net' : Network} {groups : List (List NodeId)}
    (hs : net.setPartition groups = .ok net') : net'.crashed = net.crashed ∧
      net'.downLinks = net.downLinks ∧ net'.lossyLinks = net.lossyLinks := by
  unfold Network.setPartition at hs
  dsimp only at hs
  split at hs
  · cases hs
  · obtain rfl := Except.ok.inj hs
    exact ⟨rfl, rfl, rfl⟩

theorem Reparts.rest {net' : Network} (hp : Reparts c net net') : net'.crashed = net.crashed ∧
    net'.downLinks = net.downLinks ∧ net'.lossyLinks = net.lossyLinks := by
  cases hp with
  | stays => exact ⟨rfl, rfl, rfl⟩
  | heals => exact ⟨rfl, rfl, rfl⟩
  | splits _ _ _ _ hs => exact setPartition_rest hs

/-- Crashes leave the network alone. -/
theorem Crashes.rest {nodes : NodeId → RaftNode} {now : ℤ} {net' : Network}
    (hc : Crashes c nodes now net run jobs net') : net'.isPartitioned = net.isPartitioned ∧
      net'.downLinks = net.downLinks ∧ net'.lossyLinks = net.lossyLinks := by
  cases hc with
  | spares => exact ⟨rfl, rfl, rfl⟩
  | strikes => exact ⟨rfl, rfl, rfl⟩

theorem Fires.shifts (hf : Fires c h turn run jobs net) :
    Shifts c h turn run (jobs.map Prod.snd) net.crashed := by
  have hnone : ∀ (job : Job), (∀ i, job ≠ .maybeResume i) → ∀ i, Job.maybeResume i ∉ [job] :=
    fun job hjob i hmem => hjob i (List.mem_singleton.mp hmem).symm
  cases hf with
  | arrival => exact .stays (perform_inert trivial) nofun nofun
  | loss => exact .stays still_inert nofun nofun
  | electionTimeout => exact .stays (perform_inert trivial) nofun nofun
  | heartbeat => exact .stays (perform_inert trivial) nofun nofun
  | client => exact .stays (clientTick_inert _) nofun (hnone _ nofun)
  | fault hparts hcrash =>
    cases hcrash with
    | spares =>
      rw [hparts.rest.1]
      exact .stays still_inert nofun (hnone _ nofun)
    | @strikes victim delay _ _ hi halive =>
      have hsame : insert victim _ = insert victim h.faults.crashed :=
        congrArg (insert victim) hparts.rest.1
      dsimp only
      rw [hsame]
      refine .falls hi halive nofun fun i => ?_
      by_cases hv : i = victim
      · subst hv
        simp
      · simp [hv, Ne.symm hv]
  | membership hes =>
    refine .stays (proposals_inert fun e he => ?_) nofun (hnone _ nofun)
    obtain ⟨i, -, vs, rfl, -⟩ := mem_of_forall₂ hes e he
    trivial
  | resume hi hdown => exact .rises hi hdown
  | up hup =>
    refine .stays still_inert (fun i heq => ?_) nofun
    cases heq
    exact hup
  | skip => exact .stays still_inert nofun nofun
  | halves hs =>
    rw [(setPartition_rest hs).1]
    exact .stays still_inert nofun (hnone _ nofun)
  | isolate _ hs =>
    rw [(setPartition_rest hs).1]
    exact .stays still_inert nofun (hnone _ nofun)
  | flap => exact .stays still_inert nofun (hnone _ nofun)
  | lossy => exact .stays still_inert nofun (hnone _ nofun)
  | @crash node t duration hi halive =>
    refine .falls hi halive nofun fun i => ?_
    by_cases hv : i = node
    · subst hv
      simp
    · simp [hv, Ne.symm hv]
  | heal => exact .stays still_inert nofun nofun
  | linkUp => exact .stays still_inert nofun nofun
  | clear => exact .stays still_inert nofun nofun

/-- Who is down is crashed, and the other way round, after a step as before. -/
theorem Shifts.down {down : Finset NodeId} {pend : List Job} {s s' : Service}
    (hs : Shifts c h turn run pend down) (hd : s.clients.Encoded) (hrun : run s = .ok s')
    (hworld : s.world = h.world)
    (hdown : ∀ i ∈ c.ids, (h.nodes i).alive = false ↔ i ∈ h.faults.crashed) :
    ∀ i ∈ c.ids, (s'.world.nodes i).alive = false ↔ i ∈ down := by
  intro i hi
  have hnodes : ∀ j, s.world.nodes j = h.nodes j := fun j => congrArg (·.nodes j) hworld
  -- a crash or a restart moves the node it is for and no other
  have hone : ∀ {e : Event} {j : NodeId} {y : Exec}, s.world.target e = some j → j ∈ c.ids →
      s.world.callback (s.world.nodes j) e = .ok y → s.perform c.toServiceSetup e = .ok s' →
      (s'.world.nodes j).alive = y.node.alive ∧
        ∀ k, k ≠ j → (s'.world.nodes k).alive = (h.nodes k).alive := by
    intro e j y ht hj hy hrun
    have hstep := (Service.perform_world hrun).1
    refine ⟨?_, fun k hk => ?_⟩
    · rcases World.step_node hstep j with ⟨-, hnot⟩ | ⟨-, -, y', hy', hnode⟩
      · exact absurd ht (hnot hj)
      · rw [hnode, Except.ok.inj (hy.symm.trans hy')]
    · rcases World.step_node hstep k with ⟨hsame, -⟩ | ⟨-, ht', -⟩
      · rw [hsame, hnodes]
      · exact absurd (Option.some.inj (ht'.symm.trans ht)) hk
  cases hs with
  | stays hinert =>
    rw [hinert s s' hd hrun i, hnodes]
    exact hdown i hi
  | @falls _ _ victim hv =>
    obtain ⟨hthis, hothers⟩ := hone (e := .pause victim) rfl hv rfl hrun
    rw [Finset.mem_insert]
    by_cases heq : i = victim
    · rw [heq, hthis]
      exact iff_of_true rfl (Or.inl rfl)
    · rw [hothers i heq, hdown i hi]
      exact ⟨Or.inr, fun hor => hor.resolve_left heq⟩
  | @rises j hj =>
    obtain ⟨hthis, hothers⟩ := hone (e := .resume j) rfl hj rfl hrun
    rw [Finset.mem_erase]
    by_cases heq : i = j
    · rw [heq, hthis]
      exact iff_of_false Bool.true_eq_false.mp fun hand => hand.1 rfl
    · rw [hothers i heq, hdown i hi]
      exact ⟨fun hmem => ⟨heq, hmem⟩, And.right⟩

/-- As many restarts are to come after a step as nodes are down. -/
theorem Shifts.resumes {down : Finset NodeId} {pend rest timers before after : List Job}
    (hs : Shifts c h turn run pend down)
    (hdown : ∀ i ∈ c.ids, (h.nodes i).alive = false ↔ i ∈ h.faults.crashed)
    (hbefore : before.Perm (turn.job?.toList ++ rest))
    (hafter : after.Perm (timers ++ (pend ++ rest)))
    (htimers : ∀ job ∈ timers, ∃ i ∈ c.ids, ∃ t, job = .timer i t)
    (hcount : ∀ i, before.count (.maybeResume i) = if i ∈ h.faults.crashed then 1 else 0)
    (i : NodeId) :
    after.count (.maybeResume i) = if i ∈ down then 1 else 0 := by
  have hnone : timers.count (.maybeResume i) = 0 := by
    refine List.count_eq_zero.mpr fun hmem => ?_
    obtain ⟨j, -, t, heq⟩ := htimers _ hmem
    cases heq
  have hold := hcount i
  rw [hbefore.count_eq, List.count_append] at hold
  rw [hafter.count_eq, List.count_append, List.count_append, hnone]
  -- a step counts one restart less only when that restart is its turn
  have hother : (∀ j, turn ≠ .job (.maybeResume j)) →
      turn.job?.toList.count (.maybeResume i) = 0 := by
    intro hturn
    exact List.count_eq_zero.mpr fun hmem => hturn i (Turn.eq_of_mem hmem)
  cases hs with
  | stays _ hturn hpend =>
    rw [List.count_eq_zero.mpr (hpend i)]
    by_cases hup : i ∈ h.faults.crashed
    · have hzero : turn.job?.toList.count (.maybeResume i) = 0 :=
        List.count_eq_zero.mpr fun hmem => hturn i (Turn.eq_of_mem hmem) hup
      omega
    · rw [if_neg hup] at hold ⊢
      omega
  | @falls _ _ victim hv halive hturn hpend =>
    have hzero := hother hturn
    rw [hpend i]
    by_cases heq : i = victim
    · subst heq
      have hup : i ∉ h.faults.crashed := fun hmem => by
        rw [(hdown i hv).mpr hmem] at halive
        cases halive
      rw [if_neg hup] at hold
      rw [if_pos rfl, if_pos (Finset.mem_insert_self _ _)]
      omega
    · rw [if_neg heq]
      have hiff : i ∈ insert victim h.faults.crashed ↔ i ∈ h.faults.crashed := by
        rw [Finset.mem_insert]
        exact ⟨fun hor => hor.resolve_left heq, Or.inr⟩
      simp only [hiff]
      omega
  | @rises j hj hmem =>
    have hturn : (Turn.job (.maybeResume j)).job?.toList = [.maybeResume j] := rfl
    rw [hturn] at hold
    by_cases heq : i = j
    · subst heq
      rw [if_pos hmem, List.count_singleton_self] at hold
      rw [if_neg (Finset.notMem_erase _ _), List.count_nil]
      omega
    · have hzero : [Job.maybeResume j].count (.maybeResume i) = 0 :=
        List.count_eq_zero.mpr fun hm => heq (by cases List.mem_singleton.mp hm; rfl)
      have hiff : i ∈ h.faults.crashed.erase j ↔ i ∈ h.faults.crashed := by
        rw [Finset.mem_erase]
        exact ⟨And.right, fun hm => ⟨heq, hm⟩⟩
      rw [List.count_nil]
      simp only [hiff]
      omega

/-! ### Partitions and links -/

/-- A partition outlives its step only with its end in the queue. -/
theorem Fires.partition_ends (hf : Fires c h turn run jobs net) (hp : c.profile.partitions = false)
    (hnet : net.isPartitioned = true) :
    h.faults.isPartitioned = true ∧ turn ≠ .job .healPartition ∨
      Job.healPartition ∈ jobs.map Prod.snd := by
  cases hf with
  | fault hparts hcrash =>
    rw [hcrash.rest.1] at hnet
    cases hparts with
    | stays => exact Or.inl ⟨hnet, nofun⟩
    | heals hon => exact absurd hon (by rw [hp]; exact Bool.false_ne_true)
    | splits hon => exact absurd hon (by rw [hp]; exact Bool.false_ne_true)
  | halves => exact Or.inr List.mem_cons_self
  | isolate => exact Or.inr List.mem_cons_self
  | heal =>
    rw [Network.heal_whole] at hnet
    cases hnet
  | _ => exact Or.inl ⟨hnet, nofun⟩

theorem Fires.link_rises {l : Finset NodeId} (hf : Fires c h turn run jobs net)
    (hl : l ∈ net.downLinks) :
    l ∈ h.faults.downLinks ∧ (∀ a b, turn = .job (.linkUp a b) → link a b ≠ l) ∨
      ∃ a b, link a b = l ∧ Job.linkUp a b ∈ jobs.map Prod.snd := by
  cases hf with
  | fault hparts hcrash =>
    rw [hcrash.rest.2.1, hparts.rest.2.1] at hl
    exact Or.inl ⟨hl, nofun⟩
  | halves hs => exact Or.inl ⟨(setPartition_rest hs).2.1 ▸ hl, nofun⟩
  | isolate _ hs => exact Or.inl ⟨(setPartition_rest hs).2.1 ▸ hl, nofun⟩
  | @flap a b =>
    rcases Finset.mem_insert.mp hl with rfl | hl
    · exact Or.inr ⟨a, b, rfl, List.mem_cons_self⟩
    · exact Or.inl ⟨hl, nofun⟩
  | @linkUp a b =>
    obtain ⟨hne, hl⟩ := Finset.mem_erase.mp hl
    refine Or.inl ⟨hl, fun a' b' heq => ?_⟩
    cases heq
    exact hne.symm
  | _ => exact Or.inl ⟨hl, nofun⟩

theorem Fires.link_clears {l : Finset NodeId} (hf : Fires c h turn run jobs net)
    (hl : l ∈ net.lossyLinks) :
    l ∈ h.faults.lossyLinks ∧ (∀ a b, turn = .job (.clearLossyLink a b) → link a b ≠ l) ∨
      ∃ a b, link a b = l ∧ Job.clearLossyLink a b ∈ jobs.map Prod.snd := by
  cases hf with
  | fault hparts hcrash =>
    rw [hcrash.rest.2.2, hparts.rest.2.2] at hl
    exact Or.inl ⟨hl, nofun⟩
  | halves hs => exact Or.inl ⟨(setPartition_rest hs).2.2 ▸ hl, nofun⟩
  | isolate _ hs => exact Or.inl ⟨(setPartition_rest hs).2.2 ▸ hl, nofun⟩
  | @lossy a b =>
    rcases Finmap.mem_insert.mp hl with rfl | hl
    · exact Or.inr ⟨a, b, rfl, List.mem_cons_self⟩
    · exact Or.inl ⟨hl, nofun⟩
  | @clear a b =>
    obtain ⟨hne, hl⟩ := Finmap.mem_erase.mp hl
    refine Or.inl ⟨hl, fun a' b' heq => ?_⟩
    cases heq
    exact hne.symm
  | _ => exact Or.inl ⟨hl, nofun⟩

/-- What was to come and is not over is still to come. -/
theorem waits {job : Job} {before after rest timers pend : List Job}
    (hbefore : before.Perm (turn.job?.toList ++ rest))
    (hafter : after.Perm (timers ++ (pend ++ rest))) (hmem : job ∈ before)
    (hturn : turn ≠ .job job) : job ∈ after := by
  refine hafter.mem_iff.mpr (List.mem_append_right _ (List.mem_append_right _ ?_))
  exact (List.mem_append.mp (hbefore.mem_iff.mp hmem)).resolve_left
    fun hmem => hturn (Turn.eq_of_mem hmem)

theorem Recovers.step (hr : h.Reached c) (hv : h.Recovers c)
    (hs : Harness.step D c h = .ok (some h')) : h'.Recovers c := by
  obtain ⟨h₁, h₂, turn, run, jobs, net, checker, ht, hf, he, -, -, rfl⟩ := step_effect hr.wired hs
  have hbefore := ht.pending
  obtain ⟨timers, hafter, htimers⟩ := he.pending
  have hpend : ∀ {job}, job ∈ jobs.map Prod.snd → job ∈ h₂.pending := fun hmem =>
    hafter.mem_iff.mpr (List.mem_append_right _ (List.mem_append_left _ hmem))
  have hnodes : ∀ i, h₁.nodes i = h.nodes i := fun i => congrArg (·.nodes i) ht.world
  have hdown : ∀ i ∈ c.ids, (h₁.nodes i).alive = false ↔ i ∈ h₁.faults.crashed := by
    intro i hi
    rw [hnodes, ht.faults]
    exact hv.down i hi
  have hshifts := hf.shifts
  refine ⟨fun i hi => ?_, fun i => ?_, fun hp hnet => ?_, fun l hl => ?_, fun l hl => ?_⟩
  · show (h₂.nodes i).alive = false ↔ i ∈ h₂.faults.crashed
    rw [he.faults]
    exact hshifts.down (ht.encoded hr.encoded) he.service rfl hdown i hi
  · show h₂.pending.count _ = if i ∈ h₂.faults.crashed then 1 else 0
    rw [he.faults]
    refine hshifts.resumes hdown hbefore hafter htimers (fun j => ?_) i
    rw [ht.faults]
    exact hv.resumes j
  · have hnet : h₂.faults.isPartitioned = true := hnet
    rw [he.faults] at hnet
    rcases hf.partition_ends hp hnet with ⟨hold, hturn⟩ | hmem
    · rw [ht.faults] at hold
      exact waits hbefore hafter (hv.heals hp hold) hturn
    · exact hpend hmem
  · have hl : l ∈ h₂.faults.downLinks := hl
    rw [he.faults] at hl
    rcases hf.link_rises hl with ⟨hold, hturn⟩ | ⟨a, b, heq, hmem⟩
    · rw [ht.faults] at hold
      obtain ⟨a, b, heq, hmem⟩ := hv.links l hold
      exact ⟨a, b, heq, waits hbefore hafter hmem fun h => hturn a b h heq⟩
    · exact ⟨a, b, heq, hpend hmem⟩
  · have hl : l ∈ h₂.faults.lossyLinks := hl
    rw [he.faults] at hl
    rcases hf.link_clears hl with ⟨hold, hturn⟩ | ⟨a, b, heq, hmem⟩
    · rw [ht.faults] at hold
      obtain ⟨a, b, heq, hmem⟩ := hv.lossy l hold
      exact ⟨a, b, heq, waits hbefore hafter hmem fun h => hturn a b h heq⟩
    · exact ⟨a, b, heq, hpend hmem⟩

theorem init_recovers (h₀ : Harness.init D c = .ok h) : h.Recovers c := by
  have he := init_effect h₀
  obtain ⟨timers, hafter, htimers⟩ := he.pending
  have hfaults := he.faults
  refine ⟨fun i _ => ?_, fun i => ?_, fun _ hp => ?_, fun l hl => ?_, fun l hl => ?_⟩
  · have hnode : h.nodes i = (blank D c).nodes i := congrFun he.nodes i
    rw [hnode, hfaults]
    exact iff_of_false Bool.true_eq_false.mp (Finset.notMem_empty i)
  · rw [hfaults, if_neg (show i ∉ (Network.init c.ids).crashed from Finset.notMem_empty i)]
    refine List.count_eq_zero.mpr fun hmem => ?_
    rcases List.mem_append.mp (hafter.mem_iff.mp hmem) with hmem | hmem
    · obtain ⟨j, -, t, heq⟩ := htimers _ hmem
      cases heq
    rcases List.mem_append.mp hmem with hmem | hmem
    · obtain ⟨p, hp, heq⟩ := List.mem_map.mp hmem
      exact plans_start c p hp i heq
    · cases hmem
  · rw [hfaults, Network.init_whole] at hp
    cases hp
  · rw [hfaults] at hl
    exact absurd hl (Finset.notMem_empty l)
  · rw [hfaults] at hl
    exact absurd hl (Finmap.notMem_empty)

/-- In every state of every run a node is down exactly when it is crashed, and then exactly one
restart of it is in the queue; every link that is down or lossy, and every partition of the fault
schedule, has its end there. -/
theorem run_recovers (hr : Run D c hs) (hh : h ∈ hs) : h.Recovers c :=
  (hr.rule (fun _ h₀ => init_recovers h₀) (fun _ _ hr hv hs => hv.step hr hs) h hh).2

/-- A crash, a flapping link, a lossy link and a partition within the first milliseconds. -/
def barrage : ClusterOptions where
  numNodes := 3
  seed := 1
  faults := "light".toList
  nemesis := some {
    ops := [.crashNode 2 1 400, .flappingLink 0 1 2 100 3, .lossyLink 0 2 3 300 (.float (1/2)),
      .partitionHalves 4 200]
    valid := by decide +kernel }

/-- All four faults of the schedule are in force, and each has its end in the queue. -/
theorem run_recovers_barrage : ∃ c, barrage.setup lcg.json = .ok c ∧ ∃ h past,
    Run lcg c (h :: past) ∧ (h.faults.crashed = {2} ∧ h.faults.downLinks = {link 0 1} ∧
      h.faults.lossyLinks.keys = {link 0 2} ∧ h.faults.isPartitioned = true) ∧ h.Recovers c := by
  have hbeset : ∃ c, barrage.setup lcg.json = .ok c ∧ ∃ h, Harness.init lcg c = .ok h ∧ ∃ t,
      Harness.run lcg c 4 h = .ok t ∧ t.faults.crashed = {2} ∧ t.faults.downLinks = {link 0 1} ∧
        t.faults.lossyLinks.keys = {link 0 2} ∧ t.faults.isPartitioned = true := by
    decide +kernel
  obtain ⟨c, hc, h, h₀, t, hrun, hforce⟩ := hbeset
  obtain ⟨past, hr, -⟩ := run_reaches h₀ hrun
  exact ⟨c, hc, t, past, hr, hforce, run_recovers hr List.mem_cons_self⟩

/-! ### Random faults -/

/-- The fault driver is within its limit. -/
theorem Fires.within (hn : c.nemesis = none) (hj : ∀ j ∈ turn.job?, j.Wired c)
    (hf : Fires c h turn run jobs net) (hle : h.faults.crashed.card ≤ c.crashLimit) :
    net.crashed.card ≤ c.crashLimit := by
  have hnone : ∀ op, ¬ c.Injects op := by
    intro op hop
    obtain ⟨s, hs, -⟩ := hop.mem
    rw [hn] at hs
    cases hs
  cases hf with
  | fault hparts hcrash =>
    cases hcrash with
    | spares => exact hparts.rest.1.symm ▸ hle
    | strikes _ hlt => exact (Finset.card_insert_le _ _).trans hlt
  | resume => exact (Finset.card_le_card (Finset.erase_subset _ _)).trans hle
  | halves hs => exact (setPartition_rest hs).1.symm ▸ hle
  | isolate _ hs => exact (setPartition_rest hs).1.symm ▸ hle
  | crash => exact absurd (hj _ rfl) (hnone _)
  | _ => exact hle

theorem crashed_within (hn : c.nemesis = none) (hr : Run D c hs) (hh : h ∈ hs) :
    h.faults.crashed.card ≤ c.crashLimit := by
  refine (hr.rule (P := fun h => h.faults.crashed.card ≤ c.crashLimit) (fun h h₀ => ?_)
    (fun h h' hr hle hs => ?_) h hh).2
  · rw [(init_effect h₀).faults]
    exact Nat.zero_le _
  · obtain ⟨h₁, h₂, turn, run, jobs, net, checker, ht, hf, he, -, -, rfl⟩ :=
      step_effect hr.wired hs
    show h₂.faults.crashed.card ≤ _
    rw [he.faults]
    exact hf.within hn (hr.wired.turn ht) (ht.faults.symm ▸ hle)

/-- Random faults leave a majority of the servers up in every state of every run. -/
theorem majority_up (hn : c.nemesis = none) (hr : Run D c hs) (hh : h ∈ hs) :
    c.numNodes < 2*c.ids.countP fun i => (h.nodes i).alive := by
  have hv : h.Recovers c := (hr.rule (fun _ h₀ => init_recovers h₀)
    (fun _ _ hr hv hs => hv.step hr hs) h hh).2
  -- those who are down are those whom the network counts as crashed
  have hle := crashed_within hn hr hh
  have hknows := (hr.reached hh).wired.faults
  have hdown : (c.ids.filter fun i => (h.nodes i).alive = false).toFinset = h.faults.crashed := by
    ext i
    rw [List.mem_toFinset, List.mem_filter, decide_eq_true_eq]
    exact ⟨fun hand => (hv.down i hand.1).mp hand.2,
      fun hmem => ⟨hknows.crashed i hmem, (hv.down i (hknows.crashed i hmem)).mpr hmem⟩⟩
  have hcard := List.toFinset_card_of_nodup
    (c.ids_nodup.filter fun i => decide ((h.nodes i).alive = false))
  rw [hdown] at hcard
  have hlen := c.length_ids
  have hsplit := List.length_eq_countP_add_countP (l := c.ids) fun i => (h.nodes i).alive
  have hrest : c.ids.countP (fun i => decide ¬ (h.nodes i).alive = true) =
      (c.ids.filter fun i => decide ((h.nodes i).alive = false)).length := by
    rw [List.countP_eq_length_filter]
    simp only [Bool.not_eq_true]
  have hone : 1 ≤ c.numNodes := c.accepted.1
  unfold HarnessSetup.crashLimit at hle
  omega

end Harness

/-- A node is down, and still more than half of the five are up. -/
theorem majority_up_chaos : ∃ c, (chaos true).setup lcg.json = .ok c ∧ ∃ h past,
    Harness.Run lcg c (h :: past) ∧ past.length = 80 ∧
      (∃ i ∈ c.ids, (h.nodes i).alive = false) ∧
        c.numNodes < 2*c.ids.countP fun i => (h.nodes i).alive := by
  obtain ⟨c, hc, h, past, hr, hlen, -, -, hdown⟩ := chaos_run true
  have hnone : c.nemesis = none := (ClusterOptions.setup_ok hc).2.2.2.2.2.2.2.1
  exact ⟨c, hc, h, past, hr, hlen, hdown, Harness.majority_up hnone hr List.mem_cons_self⟩

end RaftVerified
