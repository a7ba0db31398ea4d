import RaftVerified.HarnessCalls

/-! What each driver does to its cluster: the callbacks it runs, the faults it sets and the jobs
it schedules. Every result about whole runs follows from this. -/
namespace RaftVerified
namespace Harness
variable {σ : Type} {D : Platform σ} {c : HarnessSetup} {h h' h'' : Harness σ} {i : NodeId}
  {faults faults' : Network} {jobs jobs' : List (ℤ × Job)}

/-- The callbacks of a driver, as the model of a cluster under its clients runs them. -/
abbrev Runs := Service → Except PyError Service

/-- A cluster as the model of a cluster under its clients has it. -/
def service (h : Harness σ) : Service := ⟨h.world, h.clients, h.steps⟩

/-- What some code of a driver has done. -/
structure Effect (c : HarnessSetup) (run : Runs) (jobs : List (ℤ × Job)) (faults : Network)
    (h h' : Harness σ) : Prop where
  service : run h.service = .ok h'.service
  faults : h'.faults = faults
  now : h'.now = h.now
  steps : h'.steps = h.steps
  checker : h'.checker = h.checker
  seq : h.faultSeq ≤ h'.faultSeq
  agenda : ∃ timers, h'.agenda.Perm (timers ++ (jobs ++ h.agenda)) ∧
    ∀ p ∈ timers, ∃ i ∈ c.ids, ∃ t, p.2 = .timer i t
  logged : h.Logged → h'.Logged
  balanced : h.net.Balanced → h'.net.Balanced

namespace Effect
variable {run run' : Runs}

theorem trans (h₁ : Effect c run jobs faults h h') (h₂ : Effect c run' jobs' faults' h' h'') :
    Effect c (fun s => run s >>= run') (jobs' ++ jobs) faults' h h'' where
  service := bind_ok.mpr ⟨_, h₁.service, h₂.service⟩
  faults := h₂.faults
  now := h₂.now.trans h₁.now
  steps := h₂.steps.trans h₁.steps
  checker := h₂.checker.trans h₁.checker
  seq := h₁.seq.trans h₂.seq
  agenda := by
    obtain ⟨ts, hts, hids⟩ := h₁.agenda
    obtain ⟨ts', hts', hids'⟩ := h₂.agenda
    refine ⟨ts' ++ ts, ?_, fun p hp => (List.mem_append.mp hp).elim (hids' p) (hids p)⟩
    -- the timers of both come to the front of the jobs of both
    have hswap : (jobs' ++ (ts ++ (jobs ++ h.agenda))).Perm
        (ts ++ (jobs' ++ (jobs ++ h.agenda))) := by
      rw [← List.append_assoc, ← List.append_assoc ts]
      exact List.perm_append_comm.append_right _
    refine hts'.trans ?_
    rw [List.append_assoc, List.append_assoc]
    exact (((hts.append_left jobs').trans hswap).append_left ts')
  logged := h₂.logged ∘ h₁.logged
  balanced := h₂.balanced ∘ h₁.balanced

/-- What follows code that has run no callback and scheduled nothing. -/
theorem after (h₁ : Effect c .ok [] faults h h') (h₂ : Effect c run jobs faults' h' h'') :
    Effect c run jobs faults' h h'' := by
  have ht := h₁.trans h₂
  rw [List.append_nil] at ht
  exact ht

theorem and (h₁ : Effect c run jobs faults h h') (h₂ : Effect c .ok jobs' faults' h' h'') :
    Effect c run (jobs' ++ jobs) faults' h h'' :=
  { h₁.trans h₂ with
    service := by
      rw [h₁.service]
      exact h₂.service }

/-- A job in the queue is a timer, one of the new jobs, or was there before. -/
theorem mem_agenda {p : ℤ × Job} (he : Effect c run jobs faults h h') (hp : p ∈ h'.agenda) :
    (∃ i ∈ c.ids, ∃ t, p.2 = .timer i t) ∨ p ∈ jobs ∨ p ∈ h.agenda := by
  obtain ⟨timers, hperm, htimers⟩ := he.agenda
  rcases List.mem_append.mp (hperm.mem_iff.mp hp) with hp | hp
  · exact Or.inl (htimers p hp)
  · exact Or.inr (List.mem_append.mp hp)

/-- Code that has run no callback has left the nodes and the clients alone. -/
theorem still (he : Effect c .ok jobs faults h h') : h'.service = h.service :=
  (Except.ok.inj he.service).symm

theorem nodes (he : Effect c .ok jobs faults h h') : h'.nodes = h.nodes :=
  congrArg (fun s : Service => s.world.nodes) he.still

/-- The clients have moved first. -/
theorem ofClients (run' : Runs) {d : Clients}
    (he : Effect c run jobs faults { h with clients := d } h')
    (hrun : run' h.service = run { h.service with clients := d }) :
    Effect c run' jobs faults h h' :=
  ⟨hrun.trans he.service, he.faults, he.now, he.steps, he.checker, he.seq, he.agenda,
    fun hl => he.logged (hl.congr rfl), he.balanced⟩

end Effect

/-! ### Code that runs no callback -/

theorem rng_effect (rng : σ) :
    Effect c .ok [] h.faults h { h with net := { h.net with rng } } :=
  ⟨rfl, rfl, rfl, rfl, rfl, le_rfl, ⟨[], .refl _, fun _ hp => by cases hp⟩,
    fun hl => hl.congr rfl, fun hb => balanced_rng hb rng⟩

theorem turn_effect (memberTurn : ℕ) {faultSeq : ℕ} (hle : h.faultSeq ≤ faultSeq) :
    Effect c .ok [] h.faults h { h with memberTurn, faultSeq } :=
  ⟨rfl, rfl, rfl, rfl, rfl, hle, ⟨[], .refl _, fun _ hp => by cases hp⟩,
    fun hl => hl.congr rfl, id⟩

theorem idle_effect : Effect c .ok [] h.faults h h := turn_effect h.memberTurn le_rfl

theorem setFaults_effect (faults : Network) : Effect c .ok [] faults h (h.setFaults faults) :=
  ⟨rfl, rfl, rfl, rfl, rfl, le_rfl, ⟨[], .refl _, fun _ hp => by cases hp⟩,
    fun hl => hl.congr rfl, fun hb => hb.aside (List.Perm.refl _)⟩

theorem record_effect (r : Record) (stats : Stats)
    (hs : stats.count r.kind r.detail = h.stats.add r) :
    Effect c .ok [] h.faults h ({ h with stats }.record r) :=
  ⟨rfl, rfl, rfl, rfl, rfl, le_rfl, ⟨[], .refl _, fun _ hp => by cases hp⟩,
    fun hl => hl.book hs, id⟩

theorem schedule_effect {delay : ℤ} {job : Job} (hs : h.schedule delay job = .ok h') :
    Effect c .ok [(h.now+delay, job)] h.faults h h' := by
  have hb := schedule_balanced hs
  obtain ⟨-, sim, rfl, hnow, hsteps, hheap⟩ := schedule_ok hs
  refine ⟨?_, rfl, hnow, hsteps, rfl, le_rfl, ⟨[], hheap.filterMap MessageNetwork.due?,
    fun _ hp => by cases hp⟩, fun hl => hl.congr rfl, hb⟩
  unfold service steps
  rw [hsteps]
  rfl

theorem randint_effect {a b : ℤ} {r : ℤ × Harness σ} (hr : h.randint D a b = .ok r) :
    Effect c .ok [] h.faults h r.2 := by
  obtain ⟨rng, hrng⟩ := randint_ok hr
  rw [hrng]
  exact rng_effect rng

theorem randint_between {a b : ℤ} {r : ℤ × Harness σ} (hr : h.randint D a b = .ok r)
    (hab : a ≤ b) : a ≤ r.1 ∧ r.1 ≤ b := by
  obtain ⟨k, s, hk, hlo, hhi⟩ := D.randint_mem a b h.net.rng hab
  unfold randint at hr
  rw [hk] at hr
  obtain rfl := Except.ok.inj hr
  exact ⟨hlo, hhi⟩

theorem choice_effect {xs : List NodeId} {r : NodeId × Harness σ} (hr : h.choice D xs = .ok r) :
    r.1 ∈ xs ∧ Effect c .ok [] h.faults h r.2 := by
  unfold choice at hr
  dsimp only at hr
  split at hr
  next x hx =>
    obtain rfl := Except.ok.inj hr
    exact ⟨List.mem_of_getElem? hx, rng_effect _⟩
  next => cases hr

theorem drawSides_effect {is : List NodeId} {r : List (NodeId × ℤ) × Harness σ}
    (hr : h.drawSides D is = .ok r) : Effect c .ok [] h.faults h r.2 := by
  induction is generalizing h r with
  | nil =>
    obtain rfl := Except.ok.inj hr
    exact idle_effect
  | cons i is ih =>
    obtain ⟨s, hs, hr⟩ := bind_ok.mp hr
    obtain ⟨r', hr', hr⟩ := bind_ok.mp hr
    obtain rfl := Except.ok.inj hr
    have hdraw := randint_effect (c := c) hs
    have hrest := ih hr'
    rw [hdraw.faults] at hrest
    exact hdraw.after hrest

theorem fireFault_effect : Effect c .ok [] h.faults h (h.fireFault c).2 :=
  turn_effect h.memberTurn (Nat.le_succ h.faultSeq)

/-! ### Callbacks -/

/-- A callback does what the other models say it does. -/
theorem perform_effect {e : Event} (ht : h.world.target e = some i) (hi : i ∈ c.ids)
    (hs : h.perform D c i (h.world.callback (h.nodes i) e) = .ok h') :
    Effect c (·.perform c.toServiceSetup e) [] h.faults h h' := by
  obtain ⟨y, hy, hp⟩ := perform_ok hs
  have hd := hp.drivers
  simp only [drivers, Prod.mk.injEq] at hd
  refine ⟨?_, hd.1, hd.2.1, hd.2.2.1, hd.2.2.2.2.2, hd.2.2.2.2.1.ge, ?_, hp.logged, hp.balanced⟩
  · show Service.perform _ h.service e = _
    unfold Service.perform
    rw [show h.service.world.target e = some i from ht]
    dsimp only
    rw [if_pos hi, show h.service.world.callback (h.service.world.nodes i) e = .ok y from hy]
    unfold service
    rw [hp.world, hp.clients, hd.2.2.1]
    rfl
  · obtain ⟨timers, hperm, hjobs⟩ := hp.agenda
    refine ⟨timers, hperm, fun p hmem => ?_⟩
    have hjob : p.2 ∈ (armed y.calls).reverse.map (Job.timer i) :=
      hjobs ▸ List.mem_map_of_mem hmem
    obtain ⟨t, -, heq⟩ := List.mem_map.mp hjob
    exact ⟨i, hi, t, heq.symm⟩

/-- A node that is paused is down to the network as well. -/
theorem pause_effect (hi : i ∈ c.ids) (hs : h.pause D c i = .ok h') :
    Effect c (·.perform c.toServiceSetup (.pause i)) []
      { h.faults with crashed := insert i h.faults.crashed } h h' := by
  obtain ⟨h₁, h₁ok, hs⟩ := bind_ok.mp hs
  obtain rfl := Except.ok.inj hs
  have hdown := setFaults_effect (c := c) (h := h)
    { h.faults with crashed := insert i h.faults.crashed }
  have hperform := hdown.after (perform_effect (e := .pause i) rfl hi h₁ok)
  have hcount := record_effect (c := c) (h := h₁) (.crash i)
    { h₁.stats with crashes := h₁.stats.crashes+1 } rfl
  rw [hperform.faults] at hcount
  exact hperform.and hcount

theorem resume_effect (hi : i ∈ c.ids) (hs : h.resume D c i = .ok h') :
    Effect c (·.perform c.toServiceSetup (.resume i)) []
      { h.faults with crashed := h.faults.crashed.erase i } h h' := by
  obtain ⟨h₁, h₁ok, hs⟩ := bind_ok.mp hs
  obtain rfl := Except.ok.inj hs
  have hup := setFaults_effect (c := c) (h := h)
    { h.faults with crashed := h.faults.crashed.erase i }
  have hperform := hup.after (perform_effect (e := .resume i) rfl hi h₁ok)
  have hcount := record_effect (c := c) (h := h₁) (.resume i)
    { h₁.stats with resumes := h₁.stats.resumes+1 } rfl
  rw [hperform.faults] at hcount
  exact hperform.and hcount

/-! ### The clients -/

theorem submit_effect {target : NodeId} {encoded : Str} (hi : target ∈ c.ids)
    (hs : h.submit D c target encoded = .ok h') :
    Effect c (·.submit c.toServiceSetup target encoded) [] h.faults h h' := by
  have hrun : ∀ {run : Runs}, run h.service = h.service.submit c.toServiceSetup target encoded →
      Effect c run [] h.faults h h' →
      Effect c (·.submit c.toServiceSetup target encoded) [] h.faults h h' :=
    fun heq he => { he with service := heq.symm.trans he.service }
  have hnode : h.service.world.nodes target = h.nodes target := rfl
  unfold submit at hs
  dsimp only at hs
  split at hs
  next hl =>
    split at hs
    next hstale =>
      obtain rfl := Except.ok.inj hs
      -- a leader with the planted defect answers from its own state
      have hrec := record_effect (c := c) (h := h) (.driver
        (.staleread target encoded (((h.nodes target).kv.store.lookup
          (Command.decode encoded).key).getD []))) h.stats rfl
      refine ⟨?_, hrec.faults, hrec.now, hrec.steps, hrec.checker, hrec.seq, hrec.agenda,
        fun h₁ => (hrec.logged h₁).congr rfl,
        hrec.balanced⟩
      unfold Service.submit
      rw [hnode]
      dsimp only
      rw [if_pos hl, if_pos hstale]
      rfl
    next hstale =>
      split at hs
      next hread =>
        refine hrun ?_ (perform_effect (e := .requestRead target encoded) rfl hi hs)
        unfold Service.submit
        rw [hnode]
        dsimp only
        rw [if_pos hl, if_neg hstale, if_pos hread]
      next hread =>
        refine hrun ?_ (perform_effect (e := .clientCommand target encoded) rfl hi hs)
        unfold Service.submit
        rw [hnode]
        dsimp only
        rw [if_pos hl, if_neg hstale, if_neg hread]
  next hl =>
    obtain rfl := Except.ok.inj hs
    refine hrun ?_ idle_effect
    unfold Service.submit
    rw [hnode]
    dsimp only
    rw [if_neg hl]

theorem noteAttempt_effect (target clientId : NodeId) (encoded : Str) (idle : Bool) :
    Effect c .ok [] h.faults h (h.noteAttempt target clientId encoded idle) := by
  cases idle with
  | true => exact record_effect (.driver (.client target clientId encoded)) _ rfl
  | false => exact record_effect (.driver (.retry target clientId encoded)) _ rfl

theorem clientTick_effect (hs : h.clientTick D c = .ok h') : ∃ target ∈ c.ids,
    Effect c (·.clientTick c.toServiceSetup target) [(h.now+c.interval, .clientTick)]
      h.faults h h' := by
  obtain ⟨t, ht, hs⟩ := bind_ok.mp hs
  obtain ⟨h₁, h₁ok, hs⟩ := bind_ok.mp hs
  obtain ⟨hmem, hdraw⟩ := choice_effect (c := c) ht
  refine ⟨t.1, hmem, ?_⟩
  have hnote := noteAttempt_effect (c := c) (h := { t.2 with
    clients := (t.2.clients.attempt c.toServiceSetup t.2.steps).2 }) t.1
    (h.clients.clientTurn % WORKLOAD_CLIENTS) (t.2.clients.attempt c.toServiceSetup t.2.steps).1
    (decide (t.2.clients.outstanding.lookup (h.clients.clientTurn % WORKLOAD_CLIENTS) = none))
  have hsubmit := submit_effect hmem h₁ok
  rw [hnote.faults] at hsubmit
  have htick := Effect.ofClients (fun s => s.clientTick c.toServiceSetup t.1)
    (hnote.after hsubmit) rfl
  have hsched := schedule_effect (c := c) hs
  rw [htick.faults, htick.now] at hsched
  have hall : Effect c (·.clientTick c.toServiceSetup t.1) [(t.2.now+c.interval, .clientTick)]
      t.2.faults h h' := hdraw.after (htick.and hsched)
  rwa [hdraw.faults, hdraw.now] at hall

/-! ### Random faults -/

/-- What the fault driver makes of a partition. -/
inductive Reparts (c : HarnessSetup) (net : Network) : Network → Prop
  | stays : Reparts c net net
  | heals : c.profile.partitions = true → net.isPartitioned = true → Reparts c net net.heal
  | splits {low high : List NodeId} {net' : Network} : c.profile.partitions = true →
      net.isPartitioned = false → low ≠ [] → high ≠ [] →
      net.setPartition [low, high] = .ok net' → Reparts c net net'

/-- What the fault driver makes of the nodes that are up. -/
inductive Crashes (c : HarnessSetup) (nodes : NodeId → RaftNode) (now : ℤ) (net : Network) :
    Runs → List (ℤ × Job) → Network → Prop
  | spares : Crashes c nodes now net .ok [] net
  | strikes {victim : NodeId} {delay : ℤ} : c.profile.crashes = true →
      net.crashed.card < c.crashLimit → victim ∈ c.ids → (nodes victim).alive = true →
      100 ≤ delay → delay ≤ 400 →
      Crashes c nodes now net (·.perform c.toServiceSetup (.pause victim))
        [(now+delay, .maybeResume victim)] { net with crashed := insert victim net.crashed }

theorem healPartition_effect : Effect c .ok [] h.faults.heal h h.healPartition := by
  have hheal := setFaults_effect (c := c) (h := h) h.faults.heal
  exact hheal.after (record_effect (h := h.setFaults h.faults.heal) (.driver .heal)
    { h.stats with heals := h.stats.heals+1 } rfl)

theorem setPartition_effect {groups : List (List NodeId)} (hs : h.setPartition groups = .ok h') :
    ∃ net, h.faults.setPartition groups = .ok net ∧ Effect c .ok [] net h h' := by
  unfold setPartition at hs
  split at hs
  next net hnet =>
    obtain rfl := Except.ok.inj hs
    exact ⟨net, hnet, (setFaults_effect net).after
      (record_effect (h := h.setFaults net) (.driver (.partition groups))
        { h.stats with partitions := h.stats.partitions+1 } rfl)⟩
  next => cases hs

theorem partitionTick_effect (hs : h.partitionTick D c = .ok h') :
    ∃ net, Reparts c h.faults net ∧ Effect c .ok [] net h h' := by
  unfold partitionTick at hs
  dsimp only at hs
  split at hs
  · obtain rfl := Except.ok.inj hs
    exact ⟨_, .stays, idle_effect⟩
  rename_i hp
  rw [Bool.not_eq_false] at hp
  have hdraw : Effect c .ok [] h.faults h (h.random D).2 := rng_effect _
  split at hs
  next hpart =>
    split at hs
    · obtain rfl := Except.ok.inj hs
      exact ⟨_, .heals hp hpart, hdraw.after (healPartition_effect (h := (h.random D).2))⟩
    · obtain rfl := Except.ok.inj hs
      exact ⟨_, .stays, hdraw⟩
  next hpart =>
    split at hs
    · obtain ⟨s, hs₁, hs⟩ := bind_ok.mp hs
      have hsides : Effect c .ok [] h.faults h s.2 := hdraw.after (drawSides_effect hs₁)
      have hfire := hsides.after (fireFault_effect (c := c) (h := s.2))
      rw [hsides.faults] at hfire
      split at hs
      -- a side that no node was drawn for: no fault, and no ordinal is used up
      · obtain rfl := Except.ok.inj hs
        exact ⟨_, .stays, hsides⟩
      next hside =>
        rw [not_or] at hside
        split at hs
        next h₁ heq =>
          obtain rfl := Except.ok.inj hs
          rw [heq] at hfire
          exact ⟨_, .stays, hfire⟩
        next h₁ heq =>
          rw [heq] at hfire
          obtain ⟨net, hnet, hset⟩ := setPartition_effect (c := c) hs
          rw [hfire.faults] at hnet
          exact ⟨net, .splits hp (Bool.eq_false_iff.mpr hpart) hside.1 hside.2 hnet,
            hfire.after hset⟩
    · obtain rfl := Except.ok.inj hs
      exact ⟨_, .stays, hdraw⟩

theorem crashTick_effect (hs : h.crashTick D c = .ok h') :
    ∃ run jobs net, Crashes c h.nodes h.now h.faults run jobs net ∧
      Effect c run jobs net h h' := by
  unfold crashTick at hs
  dsimp only at hs
  split at hs
  · obtain rfl := Except.ok.inj hs
    exact ⟨_, _, _, .spares, idle_effect⟩
  rename_i hc
  rw [Bool.not_eq_false] at hc
  have hdraw : Effect c .ok [] h.faults h (h.random D).2 := rng_effect _
  split at hs
  · split at hs
    · obtain rfl := Except.ok.inj hs
      exact ⟨_, _, _, .spares, hdraw⟩
    · obtain ⟨v, hv, hs⟩ := bind_ok.mp hs
      obtain ⟨delay, hdelay, hs⟩ := bind_ok.mp hs
      obtain ⟨hmem, hchoice⟩ := choice_effect (c := c) hv
      have hdrawn : Effect c .ok [] h.faults h delay.2 := by
        have hrand := randint_effect (c := c) hdelay
        have hchosen : Effect c .ok [] h.faults h v.2 := hdraw.after hchoice
        rw [hchosen.faults] at hrand
        exact hchosen.after hrand
      have hfire := hdrawn.after (fireFault_effect (c := c) (h := delay.2))
      rw [hdrawn.faults] at hfire
      split at hs
      -- the mask keeps the node up after the victim and the delay have been drawn
      next h₁ heq =>
        obtain rfl := Except.ok.inj hs
        rw [heq] at hfire
        exact ⟨_, _, _, .spares, hfire⟩
      next h₁ heq =>
        rw [heq] at hfire
        obtain ⟨h₂, h₂ok, hs⟩ := bind_ok.mp hs
        -- the candidates are those of the cluster before any number was drawn
        have hmem : v.1 ∈ h.candidates c := hmem
        unfold candidates at hmem
        split at hmem
        next hcard =>
          obtain ⟨hid, halive⟩ := List.mem_filter.mp hmem
          have hpause := pause_effect hid h₂ok
          rw [hfire.faults] at hpause
          have hsched := schedule_effect (c := c) hs
          rw [hpause.faults, hpause.now, hfire.now] at hsched
          obtain ⟨hlo, hhi⟩ := randint_between hdelay (by decide)
          exact ⟨_, _, _, .strikes hc hcard hid (of_decide_eq_true halive) hlo hhi,
            hfire.after (hpause.and hsched)⟩
        next => cases hmem
  · obtain rfl := Except.ok.inj hs
    exact ⟨_, _, _, .spares, hdraw⟩

theorem faultTick_effect (hs : h.faultTick D c = .ok h') :
    ∃ net run jobs faults, Reparts c h.faults net ∧ Crashes c h.nodes h.now net run jobs faults ∧
      Effect c run ((h.now+FAULT_INTERVAL, .faultTick) :: jobs) faults h h' := by
  obtain ⟨h₁, h₁ok, hs⟩ := bind_ok.mp hs
  obtain ⟨h₂, h₂ok, hs⟩ := bind_ok.mp hs
  obtain ⟨net, hnet, he₁⟩ := partitionTick_effect h₁ok
  obtain ⟨run, jobs, faults, hcrash, he₂⟩ := crashTick_effect h₂ok
  have hsched := schedule_effect (c := c) hs
  rw [he₂.faults, he₂.now, he₁.now] at hsched
  -- the partition has left nodes and clock alone, so crashes see them as they were
  rw [he₁.nodes, he₁.now, he₁.faults] at hcrash
  exact ⟨net, run, jobs, faults, hnet, hcrash, he₁.after (he₂.and hsched)⟩

end Harness
end RaftVerified
