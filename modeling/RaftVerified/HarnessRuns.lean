import RaftVerified.HarnessSteps
import RaftVerified.RaftWatched
import RaftVerified.ServiceRuns

/-! Runs of a cluster: how they start, what all their states share, and that they are runs of the
other models. -/
namespace RaftVerified

/-- What is in the queue at the start, the timers of the nodes apart. -/
def HarnessSetup.plans (c : HarnessSetup) : List (ℤ × Job) :=
  c.injections.map (fun i => (i.atTime, .nemesisFire i.op)) ++
    ((if c.membership then [(MEMBERSHIP_INTERVAL, .membershipTick)] else []) ++
      ((if c.profile.partitions || c.profile.crashes then [(FAULT_INTERVAL, .faultTick)] else []) ++
        if c.clientInterval.getD 0 ≠ 0 then [(c.interval, .clientTick)] else []))

/-! ### Callbacks -/

/-- Whether every outstanding operation is an encoded command. -/
def Clients.Encoded (d : Clients) : Prop :=
  ∀ client encoded, d.outstanding.lookup client = some encoded →
    ∃ cmd : Command, encoded = cmd.encode

namespace Clients
variable {c : ServiceSetup} {d : Clients} {steps : ℤ}

theorem Encoded.onApply (h : d.Encoded) (encoded result : Str) :
    (d.onApply c steps encoded result).Encoded := by
  have hmove : ∀ cmd, (d.moveOn cmd encoded).Encoded := by
    intro cmd client e he
    unfold moveOn at he
    split at he
    · by_cases hcl : client = cmd.clientId
      · rw [hcl, Finmap.lookup_erase] at he
        cases he
      · rw [Finmap.lookup_erase_ne hcl] at he
        exact h client e he
    · exact h client e he
  unfold Clients.onApply
  dsimp only
  split
  · exact h
  · unfold close
    split
    · exact hmove _
    · split
      · exact hmove _
      · exact hmove _

theorem Encoded.onApplies (h : d.Encoded) (rs : List (Str × Str)) :
    (rs.foldl (fun d r => d.onApply c steps r.1 r.2) d).Encoded := by
  induction rs generalizing d with
  | nil => exact h
  | cons r rs ih => exact ih (h.onApply r.1 r.2)

theorem Encoded.attempt (h : d.Encoded) : (d.attempt c steps).2.Encoded ∧
    ∃ cmd : Command, (d.attempt c steps).1 = cmd.encode := by
  unfold Clients.attempt
  dsimp only
  split
  next encoded he => exact ⟨h, h _ _ he⟩
  next he =>
    refine ⟨?_, _, rfl⟩
    have hins : ∀ client e, (d.outstanding.insert (d.clientTurn % WORKLOAD_CLIENTS)
        (clientWorkload (d.clientTurn % WORKLOAD_CLIENTS)
          (d.nextReq (d.clientTurn % WORKLOAD_CLIENTS))).encode).lookup client = some e →
        ∃ cmd : Command, e = cmd.encode := by
      intro client e hl
      rw [Dict.lookup_insert_eq] at hl
      split at hl
      · exact ⟨_, (Option.some.inj hl).symm⟩
      · exact h client e hl
    unfold invoke
    split
    · exact hins
    · exact hins

end Clients

namespace Service
variable {c : ServiceSetup} {s s' : Service}

/-- A callback of the nodes under the clients is a step of the nodes. -/
theorem perform_world {e : Event} (h : s.perform c e = .ok s') :
    s.world.step c.toSetup e = .ok s'.world ∧ (s.clients.Encoded → s'.clients.Encoded) ∧
      s'.steps = s.steps := by
  unfold perform at h
  unfold World.step
  cases ht : s.world.target e with
  | none =>
    rw [ht] at h
    obtain rfl := Except.ok.inj h
    exact ⟨rfl, id, rfl⟩
  | some i =>
    rw [ht] at h
    dsimp only at h ⊢
    split at h
    next hi =>
      obtain ⟨y, hy, h⟩ := bind_ok.mp h
      obtain rfl := Except.ok.inj h
      rw [if_pos hi, hy]
      exact ⟨rfl, fun hd => hd.onApplies _, rfl⟩
    next hi =>
      obtain rfl := Except.ok.inj h
      rw [if_neg hi]
      exact ⟨rfl, id, rfl⟩

theorem runCallbacks_one {e : Event} (h : s.perform c e = .ok s') :
    ∃ apps, runCallbacks c.toSetup s.world [e] = .ok (s'.world, apps) := by
  unfold runCallbacks
  rw [(perform_world h).1]
  exact ⟨_, rfl⟩

theorem runCallbacks_all (es : List Event) (h : es.foldlM (perform c) s = .ok s') :
    (∃ apps, runCallbacks c.toSetup s.world es = .ok (s'.world, apps)) ∧
      (s.clients.Encoded → s'.clients.Encoded) ∧ s'.steps = s.steps := by
  induction es generalizing s with
  | nil =>
    obtain rfl := Except.ok.inj h
    exact ⟨⟨_, rfl⟩, id, rfl⟩
  | cons e es ih =>
    rw [List.foldlM_cons] at h
    obtain ⟨s₁, hs₁, h⟩ := bind_ok.mp h
    obtain ⟨hworld, hd, hsteps⟩ := perform_world hs₁
    obtain ⟨⟨apps, happs⟩, hd', hsteps'⟩ := ih h
    refine ⟨?_, hd' ∘ hd, hsteps'.trans hsteps⟩
    unfold runCallbacks
    rw [hworld]
    refine ⟨s.world.applications c.toSetup e ++ apps, ?_⟩
    show (runCallbacks c.toSetup s₁.world es >>= _) = _
    rw [happs]
    rfl

/-- A client sends an encoded command, or asks for it to be read. -/
def Asks (target : NodeId) (e : Event) : Prop :=
  ∃ cmd : Command, e = .requestRead target cmd.encode ∨ e = .clientCommand target cmd.encode

/-- An encoded command is no configuration. -/
theorem Asks.fixed {target : NodeId} {e : Event} (h : Asks target e) (ws : List World) :
    FixedVoters ws e := by
  obtain ⟨cmd, rfl | rfl⟩ := h
  · trivial
  · exact encode_plain cmd

theorem clientTick_callbacks {target : NodeId} (hd : s.clients.Encoded)
    (h : s.clientTick c target = .ok s') :
    s'.clients.Encoded ∧ ∃ es : List Event, es.length ≤ 1 ∧ (∀ e ∈ es, Asks target e) ∧
      ∃ apps, runCallbacks c.toSetup s.world es = .ok (s'.world, apps) := by
  obtain ⟨hd, cmd, hcmd⟩ : (s.clients.attempt c s.steps).2.Encoded ∧
      ∃ cmd : Command, (s.clients.attempt c s.steps).1 = cmd.encode := hd.attempt
  unfold clientTick submit at h
  dsimp only at h
  rw [hcmd] at h
  have hcall : ∀ e, Asks target e →
      ({ s with clients := (s.clients.attempt c s.steps).2 } : Service).perform c e = .ok s' →
      s'.clients.Encoded ∧ ∃ es : List Event, es.length ≤ 1 ∧ (∀ e ∈ es, Asks target e) ∧
        ∃ apps, runCallbacks c.toSetup s.world es = .ok (s'.world, apps) := by
    intro e he hs
    refine ⟨(perform_world hs).2.1 hd, [e], le_rfl, fun e' he' => ?_, ?_⟩
    · rwa [List.mem_singleton.mp he']
    · have hone := runCallbacks_one hs
      exact hone
  split at h
  · split at h
    · obtain rfl := Except.ok.inj h
      exact ⟨hd.onApply _ _, [], Nat.zero_le 1, fun _ he => (by cases he), _, rfl⟩
    split at h
    · exact hcall _ ⟨cmd, Or.inl rfl⟩ h
    · exact hcall _ ⟨cmd, Or.inr rfl⟩ h
  · obtain rfl := Except.ok.inj h
    exact ⟨hd, [], Nat.zero_le 1, fun _ he => (by cases he), _, rfl⟩

end Service

namespace Harness
variable {σ : Type} {D : Platform σ} {c : HarnessSetup} {h h' : Harness σ} {i : NodeId}
  {past later hs : List (Harness σ)} {jobs jobs' : List (ℤ × Job)} {faults : Network} {run : Runs}

theorem Effect.perm (he : Effect c run jobs faults h h') (hp : jobs.Perm jobs') :
    Effect c run jobs' faults h h' :=
  { he with
    agenda := by
      obtain ⟨timers, hperm, hids⟩ := he.agenda
      exact ⟨timers, hperm.trans ((hp.append_right _).append_left _), hids⟩ }

theorem started_effect (is : List NodeId) (hi : ∀ i ∈ is, i ∈ c.ids)
    (hs : is.foldlM (fun h i => ({ node := c.node i } : Exec).start.calls.foldlM (call D c i) h)
      h = .ok h') : Effect c .ok [] h.faults h h' := by
  induction is generalizing h with
  | nil =>
    obtain rfl := Except.ok.inj hs
    exact idle_effect
  | cons i is ih =>
    rw [List.foldlM_cons] at hs
    obtain ⟨h₁, h₁ok, hs⟩ := bind_ok.mp hs
    have hc := calls_ok _ h₁ok
    have hd := hc.drivers
    simp only [drivers, Prod.mk.injEq] at hd
    have he : Effect c .ok [] h.faults h h₁ := by
      refine ⟨?_, hd.1, hd.2.1, hd.2.2.1, hd.2.2.2.2.2, hd.2.2.2.2.1.ge, ?_, hc.logged, hc.balanced⟩
      · have hsent : h₁.world.sent = h.world.sent := hc.sent.trans (List.append_nil _)
        show Except.ok (Service.mk ⟨h.nodes, h.world.sent⟩ h.clients h.steps) =
          .ok (Service.mk ⟨h₁.nodes, h₁.world.sent⟩ h₁.clients h₁.steps)
        rw [hsent, hc.nodes, hc.clients, hd.2.2.1]
        rfl
      · obtain ⟨timers, hperm, hjobs⟩ := hc.agenda
        refine ⟨timers, hperm, fun p hmem => ?_⟩
        have hjob := hjobs ▸ List.mem_map_of_mem hmem
        obtain ⟨t, -, heq⟩ := List.mem_map.mp hjob
        exact ⟨i, hi i List.mem_cons_self, t, heq.symm⟩
    have hrest := ih (fun j hj => hi j (List.mem_cons_of_mem i hj)) hs
    rw [he.faults] at hrest
    exact he.after hrest

theorem startDriver_effect {on : Bool} {delay : ℤ} {job : Job}
    (hs : h.startDriver on delay job = .ok h') :
    Effect c .ok (if on then [(h.now+delay, job)] else []) h.faults h h' := by
  unfold startDriver at hs
  split at hs
  next hon =>
    rw [if_pos hon]
    exact schedule_effect hs
  next hoff =>
    obtain rfl := Except.ok.inj hs
    rw [if_neg hoff]
    exact idle_effect

theorem injections_effect (is : List Injection)
    (hs : is.foldlM (fun h i => h.schedule i.atTime (.nemesisFire i.op)) h = .ok h') :
    Effect c .ok (is.map fun i => (h.now+i.atTime, .nemesisFire i.op)) h.faults h h' := by
  induction is generalizing h with
  | nil =>
    obtain rfl := Except.ok.inj hs
    exact idle_effect
  | cons i is ih =>
    rw [List.foldlM_cons] at hs
    obtain ⟨h₁, h₁ok, hs⟩ := bind_ok.mp hs
    have he := schedule_effect (c := c) h₁ok
    have hrest := ih hs
    rw [he.faults, he.now] at hrest
    exact (he.and hrest).perm List.perm_append_comm

/-- A cluster that has been built: its nodes are up, and its drivers are in the queue. -/
theorem init_effect (hs : init D c = .ok h) :
    Effect c .ok c.plans (Network.init c.ids) (blank D c) h := by
  obtain ⟨h₁, h₁ok, hs⟩ := bind_ok.mp hs
  obtain ⟨h₂, h₂ok, hs⟩ := bind_ok.mp hs
  obtain ⟨h₃, h₃ok, hs⟩ := bind_ok.mp hs
  obtain ⟨h₄, h₄ok, hs⟩ := bind_ok.mp hs
  have he₁ := started_effect (c := c) c.ids (fun _ hi => hi) h₁ok
  have he₂ := startDriver_effect (c := c) h₂ok
  have he₃ := startDriver_effect (c := c) h₃ok
  have he₄ := startDriver_effect (c := c) h₄ok
  have he₅ := injections_effect (c := c) _ hs
  rw [he₁.faults, he₁.now] at he₂
  rw [he₂.faults, he₂.now, he₁.now] at he₃
  rw [he₃.faults, he₃.now, he₂.now, he₁.now] at he₄
  rw [he₄.faults, he₄.now, he₃.now, he₂.now, he₁.now] at he₅
  -- nothing so far has moved the clock
  have hall := he₁.after (((he₂.and he₃).and he₄).and he₅)
  have hnow : (blank D c).now = 0 := rfl
  simp only [hnow, zero_add, decide_eq_true_eq] at hall
  exact hall

/-! ### What a step is to the other models -/

theorem mem_of_forall₂ {α β : Type} {R : α → β → Prop} {xs : List α} {ys : List β}
    (h : List.Forall₂ R xs ys) : ∀ y ∈ ys, ∃ x ∈ xs, R x y := by
  induction h with
  | nil => exact fun y hy => by cases hy
  | cons hr _ ih =>
    intro y hy
    rcases List.mem_cons.mp hy with rfl | hy
    · exact ⟨_, List.mem_cons_self, hr⟩
    · obtain ⟨x, hx, hr⟩ := ih y hy
      exact ⟨x, List.mem_cons_of_mem _ hx, hr⟩

/-- A step runs no callback, that of a timer, a message or a fault, that of a client, or those of
some proposals. -/
theorem Fires.kinds {turn : Turn} {net : Network} (hf : Fires c h turn run jobs net) :
    run = .ok ∨ (∃ e : Event, e.Ambient ∧ run = (·.perform c.toServiceSetup e)) ∨
      (∃ target ∈ c.ids, run = (·.clientTick c.toServiceSetup target)) ∨
      (turn = .job .membershipTick ∧ ∃ es : List Event, (∀ e ∈ es, ∃ i ∈ c.ids, ∃ vs,
          e = .changeConfig i vs ∧ Proposes c (h.nodes i) vs) ∧
        run = fun s => es.foldlM (·.perform c.toServiceSetup) s) := by
  have hone : ∀ e : Event, run = (·.perform c.toServiceSetup e) → e.Ambient →
      run = .ok ∨ (∃ e : Event, e.Ambient ∧ run = (·.perform c.toServiceSetup e)) ∨
      (∃ target ∈ c.ids, run = (·.clientTick c.toServiceSetup target)) ∨
      (turn = .job .membershipTick ∧ ∃ es : List Event, (∀ e ∈ es, ∃ i ∈ c.ids, ∃ vs,
          e = .changeConfig i vs ∧ Proposes c (h.nodes i) vs) ∧
        run = fun s => es.foldlM (·.perform c.toServiceSetup) s) :=
    fun e hrun he => Or.inr (Or.inl ⟨e, he, hrun⟩)
  cases hf with
  | arrival => exact hone _ rfl trivial
  | electionTimeout => exact hone _ rfl trivial
  | heartbeat => exact hone _ rfl trivial
  | client hi => exact Or.inr (Or.inr (Or.inl ⟨_, hi, rfl⟩))
  | fault _ hcrash =>
    cases hcrash with
    | spares => exact Or.inl rfl
    | strikes => exact hone _ rfl trivial
  | membership hes =>
    refine Or.inr (Or.inr (Or.inr ⟨rfl, _, fun e he => ?_, rfl⟩))
    obtain ⟨i, hi, vs, hvs⟩ := mem_of_forall₂ hes e he
    exact ⟨i, List.mem_of_mem_filter hi, vs, hvs⟩
  | resume => exact hone _ rfl trivial
  | crash => exact hone _ rfl trivial
  | _ => exact Or.inl rfl

theorem ambient_fixed {e : Event} (he : e.Ambient) (ws : List World) : FixedVoters ws e := by
  cases e with
  | clientCommand => cases he
  | changeConfig => cases he
  | requestRead => cases he
  | _ => trivial

/-- The callbacks of a step, which no client makes change the voters. -/
theorem Fires.callbacks {turn : Turn} {net : Network} {s s' : Service}
    (hf : Fires c h turn run jobs net) (hd : s.clients.Encoded) (hrun : run s = .ok s') :
    s'.clients.Encoded ∧ ∃ es, SimStep es ∧
      (es.length ≤ 1 ∧ (∀ ws, ∀ e ∈ es, FixedVoters ws e) ∨
        turn = .job .membershipTick ∧ ∀ e ∈ es, ∃ i ∈ c.ids, ∃ vs,
          e = .changeConfig i vs ∧ Proposes c (h.nodes i) vs) ∧
      ∃ apps, runCallbacks c.toSetup s.world es = .ok (s'.world, apps) := by
  rcases hf.kinds with rfl | ⟨e, he, rfl⟩ | ⟨target, -, rfl⟩ | ⟨hturn, es, hes, rfl⟩
  · obtain rfl := Except.ok.inj hrun
    exact ⟨hd, [], Or.inl (Nat.zero_le 1),
      Or.inl ⟨Nat.zero_le 1, fun _ _ he => by cases he⟩, _, rfl⟩
  · refine ⟨(Service.perform_world hrun).2.1 hd, [e], Or.inl le_rfl,
      Or.inl ⟨le_rfl, fun ws e' he' => ?_⟩, Service.runCallbacks_one hrun⟩
    rw [List.mem_singleton.mp he']
    exact ambient_fixed he ws
  · obtain ⟨hd', es, hlen, hasks, hcalls⟩ := Service.clientTick_callbacks hd hrun
    exact ⟨hd', es, Or.inl hlen, Or.inl ⟨hlen, fun ws e he => (hasks e he).fixed ws⟩, hcalls⟩
  · obtain ⟨hcalls, hd', -⟩ := Service.runCallbacks_all es hrun
    refine ⟨hd' hd, es, Or.inr fun e he => ?_, Or.inr ⟨hturn, hes⟩, hcalls⟩
    obtain ⟨i, -, vs, heq, -⟩ := hes e he
    exact ⟨i, vs, heq⟩

/-! ### Runs -/

/-- What holds between any two steps. -/
structure Reached (c : HarnessSetup) (h : Harness σ) : Prop where
  wired : h.Wired c
  logged : h.Logged
  encoded : h.clients.Encoded

theorem sorted_ids (c : HarnessSetup) : sorted c.ids = c.ids := by
  refine List.Pairwise.insertionSort_eq ?_
  unfold Setup.ids
  rw [List.pairwise_map]
  exact List.pairwise_le_range.imp fun hle => Int.ofNat_le.mpr hle

theorem plans_wired (c : HarnessSetup) : ∀ p ∈ c.plans, p.2.Wired c := by
  intro p hp
  unfold HarnessSetup.plans at hp
  rcases List.mem_append.mp hp with hp | hp
  · obtain ⟨i, hi, rfl⟩ := List.mem_map.mp hp
    exact ⟨i.atTime, hi⟩
  rcases List.mem_append.mp hp with hp | hp
  · split at hp
    next hm =>
      rw [List.mem_singleton.mp hp]
      exact hm
    next => cases hp
  rcases List.mem_append.mp hp with hp | hp
  · split at hp
    next hf =>
      rw [List.mem_singleton.mp hp]
      exact hf
    next => cases hp
  · split at hp
    next hc =>
      rw [List.mem_singleton.mp hp]
      exact hc
    next => cases hp

theorem init_reached (hs : init D c = .ok h) : h.Reached c := by
  have he := init_effect hs
  refine ⟨⟨fun p hp => ?_, ?_, he.balanced (MessageNetwork.balanced_init _ _)⟩,
    he.logged ⟨rfl, rfl, rfl, ⟨rfl, rfl, rfl, rfl⟩⟩, ?_⟩
  · rcases he.mem_agenda hp with ⟨i, hi, t, heq⟩ | hp | hp
    · rw [heq]
      exact hi
    · exact plans_wired c p hp
    · cases hp
  · rw [he.faults]
    exact .init (sorted_ids c)
  · have hclients : h.clients = {} := congrArg Service.clients he.still
    rw [hclients]
    exact fun client encoded hl => by cases hl

/-- A step is that of the simulator, whose effect is known, and a check that passes. -/
theorem step_effect (hw : h.Wired c) (hs : step D c h = .ok (some h')) :
    ∃ h₁ h₂ turn run jobs net checker, Turned h h₁ turn ∧ Fires c h₁ turn run jobs net ∧
      Effect c run jobs net h₁ h₂ ∧ h₂.Wired c ∧
      h₂.checker.check h₂.nodes c.ids h₂.steps = .ok checker ∧ h' = { h₂ with checker } := by
  obtain ⟨h₂, checker, hsim, hck, rfl⟩ := step_cases hs
  obtain ⟨h₁, turn, run, jobs, net, hturned, hfires, he⟩ := simStep_cases hw hsim
  exact ⟨h₁, h₂, turn, run, jobs, net, checker, hturned, hfires, he, hw.simStep hsim, hck, rfl⟩

theorem Turned.service {h₁ : Harness σ} {turn : Turn} (ht : Turned h h₁ turn) :
    h₁.service = { h.service with steps := h.service.steps+1 } := by
  show Service.mk h₁.world h₁.clients h₁.steps = ⟨h.world, h.clients, (h.steps : ℤ)+1⟩
  rw [ht.world, ht.clients, ht.steps]
  rfl

theorem Turned.encoded {h₁ : Harness σ} {turn : Turn} (ht : Turned h h₁ turn)
    (hd : h.clients.Encoded) : h₁.service.clients.Encoded := by
  rw [ht.service]
  exact hd

theorem Reached.step (hr : h.Reached c) (hs : step D c h = .ok (some h')) : h'.Reached c := by
  obtain ⟨h₁, h₂, turn, run, jobs, net, checker, ht, hf, he, hw, -, rfl⟩ := step_effect hr.wired hs
  have hl := he.logged (ht.logged hr.logged)
  exact ⟨⟨hw.jobs, hw.faults, hw.balanced⟩, (hl.congr rfl),
    (hf.callbacks (ht.encoded hr.encoded) he.service).1⟩

theorem Run.exists_cons (hr : Run D c hs) : ∃ h past, hs = h :: past := by
  cases hr with
  | init _ => exact ⟨_, _, rfl⟩
  | step _ _ => exact ⟨_, _, rfl⟩

/-- What holds at the start and is kept by every step holds all along. -/
theorem Run.rule {P : Harness σ → Prop} (hr : Run D c hs)
    (hinit : ∀ h, Harness.init D c = .ok h → P h)
    (hstep : ∀ h h', h.Reached c → P h → Harness.step D c h = .ok (some h') → P h') :
    ∀ h ∈ hs, h.Reached c ∧ P h := by
  induction hr with
  | init h₀ =>
    intro h hh
    rw [List.mem_singleton.mp hh]
    exact ⟨init_reached h₀, hinit _ h₀⟩
  | step _ hs ih =>
    intro h hh
    rcases List.mem_cons.mp hh with rfl | hh
    · obtain ⟨hr, hp⟩ := ih _ List.mem_cons_self
      exact ⟨hr.step hs, hstep _ _ hr hp hs⟩
    · exact ih h hh

theorem Run.reached (hr : Run D c hs) (hh : h ∈ hs) : h.Reached c :=
  (hr.rule (P := fun _ => True) (fun _ _ => trivial) (fun _ _ _ _ _ => trivial) h hh).1

theorem Run.tail (hr : Run D c (h' :: h :: past)) :
    Run D c (h :: past) ∧ Harness.step D c h = .ok (some h') := by
  cases hr with
  | step hr hs => exact ⟨hr, hs⟩

/-! ### Refinement -/

/-- A run of a cluster is a run of its nodes under the checker. -/
theorem run_watched (hr : Run D c hs) : ∃ ss, Watched.Run c.toSetup ss ∧
    ss.map (fun s => (s.world, s.checker, s.steps)) =
      hs.map fun h => (h.world, h.checker, h.steps) := by
  induction hr with
  | @init h h₀ =>
    have he := init_effect h₀
    refine ⟨_, .init c.seed (replayHint D.json c.numNodes c.seed c.profile.name c.membership
      c.nemesis), ?_⟩
    have hworld : h.world = (blank D c).world := congrArg Service.world he.still
    rw [List.map_singleton, List.map_singleton, hworld, he.checker, he.steps]
    rfl
  | @step h h' past hr hs ih =>
    obtain ⟨ss, hss, heq⟩ := ih
    -- the newest state of the model has the world, the checker and the clock of the cluster
    cases ss with
    | nil => cases hss
    | cons s before =>
      have hhead := (List.cons.inj heq).1
      rw [Prod.mk.injEq, Prod.mk.injEq] at hhead
      obtain ⟨hworld, hchecker, hsteps⟩ := hhead
      have hreach := hr.reached List.mem_cons_self
      obtain ⟨h₁, h₂, turn, run, jobs, net, checker, ht, hf, he, -, hck, rfl⟩ :=
        step_effect hreach.wired hs
      obtain ⟨-, es, hsim, -, apps, happs⟩ :=
        hf.callbacks (ht.encoded hreach.encoded) he.service
      have hcalls : runCallbacks c.toSetup s.world es = .ok (h₂.world, apps) := by
        rw [hworld, ← ht.world]
        exact happs
      rw [he.checker, ht.checker, he.steps, ht.steps] at hck
      refine ⟨⟨h₂.world, checker, s.steps+1, s.history ++ apps⟩ :: s :: before,
        .step hss hsim ?_, ?_⟩
      · unfold Watched.step
        rw [hcalls]
        show (s.checker.check h₂.nodes c.ids (s.steps+1) >>= _) = _
        rw [hchecker, hsteps, hck]
        rfl
      · refine congrArg₂ List.cons ?_ heq
        show (h₂.world, checker, s.steps+1) = (h₂.world, checker, h₂.steps)
        rw [he.steps, ht.steps, hsteps]

theorem no_churn (hm : c.membership = false) (hw : h.Wired c) {h₁ : Harness σ} {turn : Turn}
    (ht : Turned h h₁ turn) : turn ≠ .job .membershipTick := by
  rintro rfl
  have hon : c.membership = true := hw.turn ht .membershipTick rfl
  rw [hm] at hon
  cases hon

/-- The nodes stand still when a message is delivered that was never sent. -/
theorem step_unsent (c : Setup) (w : World) : w.step c (.deliver w.sent.length) = .ok w := by
  have hnone : w.target (.deliver w.sent.length) = none := by
    unfold World.target
    dsimp only
    rw [List.getElem?_eq_none le_rfl]
    rfl
  unfold World.step
  rw [hnone]

/-- A run without churn is a run of its nodes in which the voters stay. -/
theorem run_fixed (hm : c.membership = false) (hr : Run D c hs) :
    RaftVerified.Run c.toSetup FixedVoters (hs.map world) := by
  induction hr with
  | @init h h₀ =>
    have hworld : h.world = World.init c.toSetup :=
      congrArg Service.world (init_effect h₀).still
    rw [List.map_singleton, hworld]
    exact .init
  | @step h h' past hr hs ih =>
    have hreach := hr.reached List.mem_cons_self
    obtain ⟨h₁, h₂, turn, run, jobs, net, checker, ht, hf, he, -, -, rfl⟩ :=
      step_effect hreach.wired hs
    obtain ⟨-, es, -, ⟨hlen, hfixed⟩ | ⟨hturn, -⟩, apps, happs⟩ :=
      hf.callbacks (ht.encoded hreach.encoded) he.service
    · have hworld : h₁.service.world = h.world := ht.world
      rw [hworld] at happs
      match es, hlen with
      -- a step without a callback is a delivery of nothing: a run of nodes has no idle step
      | [], _ =>
        have hstill : h.world = h₂.world := (Prod.mk.inj (Except.ok.inj happs)).1
        refine .step ih (e := .deliver h.world.sent.length) trivial ?_
        show _ = Except.ok h₂.world
        rw [← hstill]
        exact step_unsent _ _
      | [e], _ =>
        obtain ⟨w, hw, happs⟩ := bind_ok.mp happs
        have hlast : w = h₂.world := (Prod.mk.inj (Except.ok.inj happs)).1
        exact .step ih (hfixed _ e List.mem_cons_self) (hlast ▸ hw)
    · exact absurd hturn (no_churn hm hreach.wired ht)

/-- A run without churn is a run of its nodes under the clients. -/
theorem run_service (hm : c.membership = false) (hr : Run D c hs) :
    Service.Run c.toServiceSetup (hs.map service) := by
  induction hr with
  | @init h h₀ =>
    have hservice : h.service = Service.init c.toServiceSetup := (init_effect h₀).still
    rw [List.map_singleton, hservice]
    exact .init
  | @step h h' past hr hs ih =>
    have hreach := hr.reached List.mem_cons_self
    obtain ⟨h₁, h₂, turn, run, jobs, net, checker, ht, hf, he, -, -, rfl⟩ :=
      step_effect hreach.wired hs
    have hrun := he.service
    rw [ht.service] at hrun
    rcases hf.kinds with rfl | ⟨e, hamb, rfl⟩ | ⟨target, hi, rfl⟩ | ⟨hturn, -⟩
    · exact .step (e := .quiet) ih trivial hrun
    · exact .step (e := .callback e) ih hamb hrun
    · exact .step (e := .clientTick target) ih hi hrun
    · exact absurd hturn (no_churn hm hreach.wired ht)

/-- Every run of a cluster is one of the models of its parts: of the nodes under the checker, and
without churn of the nodes under their clients and of the nodes whose voters stay. -/
theorem run_refines (hr : Run D c hs) :
    (∃ ss, Watched.Run c.toSetup ss ∧ ss.map (fun s => (s.world, s.checker, s.steps)) =
      hs.map fun h => (h.world, h.checker, h.steps)) ∧
    (c.membership = false → Service.Run c.toServiceSetup (hs.map service) ∧
      RaftVerified.Run c.toSetup FixedVoters (hs.map world)) :=
  ⟨run_watched hr, fun hm => ⟨run_service hm hr, run_fixed hm hr⟩⟩

end Harness
end RaftVerified
