import RaftVerified.HarnessRuns

/-! The drivers of a cluster tick on the multiples of their periods, each once, and a cluster whose
clients are active never runs out of events. -/
namespace RaftVerified

/-- The ticks of the drivers, each with its period. -/
inductive HarnessSetup.Ticks (c : HarnessSetup) : Job → ℤ → Prop
  | client : c.clientInterval.getD 0 ≠ 0 → Ticks c .clientTick c.interval
  | fault : (c.profile.partitions || c.profile.crashes) = true → Ticks c .faultTick FAULT_INTERVAL
  | membership : c.membership = true → Ticks c .membershipTick MEMBERSHIP_INTERVAL

namespace Clients
variable {c : ServiceSetup} {d : Clients} {steps : ℤ}

theorem onApply_turn (encoded result : Str) :
    (d.onApply c steps encoded result).clientTurn = d.clientTurn := by
  have hmove : ∀ cmd, (d.moveOn cmd encoded).clientTurn = d.clientTurn := by
    intro cmd
    unfold moveOn
    split
    · rfl
    · rfl
  unfold onApply
  dsimp only
  split
  · rfl
  · unfold close
    split
    · exact hmove _
    · split
      · exact hmove _
      · exact hmove _

theorem onApplies_turn (rs : List (Str × Str)) :
    (rs.foldl (fun d r => d.onApply c steps r.1 r.2) d).clientTurn = d.clientTurn := by
  induction rs generalizing d with
  | nil => rfl
  | cons r rs ih => exact ih.trans (onApply_turn r.1 r.2)

theorem attempt_turn : (d.attempt c steps).2.clientTurn = d.clientTurn+1 := by
  unfold attempt
  dsimp only
  split
  · rfl
  · unfold invoke
    split
    · rfl
    · rfl

end Clients

namespace Service
variable {c : ServiceSetup} {s s' : Service}

theorem perform_turn {e : Event} (h : s.perform c e = .ok s') :
    s'.clients.clientTurn = s.clients.clientTurn := by
  unfold perform at h
  split at h
  · obtain rfl := Except.ok.inj h
    rfl
  · split at h
    · obtain ⟨y, -, h⟩ := bind_ok.mp h
      obtain rfl := Except.ok.inj h
      exact Clients.onApplies_turn _
    · obtain rfl := Except.ok.inj h
      rfl

theorem performs_turn (es : List Event) (h : es.foldlM (perform c) s = .ok s') :
    s'.clients.clientTurn = s.clients.clientTurn :=
  foldlM_keeps (P := fun t => t.clients.clientTurn = s.clients.clientTurn)
    (fun _ _ _ _ hsame ht => (perform_turn ht).trans hsame) rfl h

theorem clientTick_turn {target : NodeId} (h : s.clientTick c target = .ok s') :
    s'.clients.clientTurn = s.clients.clientTurn+1 := by
  unfold clientTick submit at h
  dsimp only at h
  have hbase : (s.clients.attempt c s.steps).2.clientTurn = s.clients.clientTurn+1 :=
    Clients.attempt_turn
  split at h
  · split at h
    · obtain rfl := Except.ok.inj h
      exact (Clients.onApply_turn _ _).trans hbase
    split at h
    · exact (perform_turn h).trans hbase
    · exact (perform_turn h).trans hbase
  · obtain rfl := Except.ok.inj h
    exact hbase

end Service

namespace Harness
variable {σ : Type} {D : Platform σ} {c : HarnessSetup} {h h' h₁ : Harness σ} {turn : Turn}
  {run : Runs} {jobs : List (ℤ × Job)} {net : Network} {hs past : List (Harness σ)} {job : Job}
  {T : ℤ}

/-- Nothing in the queue is overdue. -/
theorem agenda_ahead (h : Harness σ) : ∀ p ∈ h.agenda, h.now ≤ p.1 := by
  intro p hp
  obtain ⟨q, hq, heq⟩ := List.mem_filterMap.mp hp
  have hle := h.net.sim.ahead q hq
  unfold MessageNetwork.due? at heq
  split at heq
  · cases heq
  · cases heq
    exact hle

/-- When the ticks of a driver are due. -/
def due (h : Harness σ) (job : Job) : List ℤ := (h.agenda.filter (·.2 = job)).map Prod.fst

/-- A driver schedules its next tick at its tick and at no other time. -/
theorem Fires.ticks (hf : Fires c h turn run jobs net) (hk : c.Ticks job T) :
    jobs.filter (·.2 = job) = if turn.job? = some job then [(h.now+T, job)] else [] := by
  cases hk with
  | client =>
    cases hf with
    | client => rfl
    | fault _ hcrash =>
      cases hcrash with
      | spares => rfl
      | strikes => rfl
    | _ => rfl
  | fault =>
    cases hf with
    | fault _ hcrash =>
      cases hcrash with
      | spares => rfl
      | strikes => rfl
    | _ => rfl
  | membership =>
    cases hf with
    | fault _ hcrash =>
      cases hcrash with
      | spares => rfl
      | strikes => rfl
    | _ => rfl

theorem plans_tick (hk : c.Ticks job T) : c.plans.filter (·.2 = job) = [(T, job)] := by
  have hinj : ∀ {j : Job}, (∀ op, j ≠ .nemesisFire op) →
      (c.injections.map fun i => (i.atTime, Job.nemesisFire i.op)).filter (·.2 = j) = [] := by
    intro j hj
    refine List.filter_eq_nil_iff.mpr fun p hp => ?_
    obtain ⟨i, -, rfl⟩ := List.mem_map.mp hp
    exact fun heq => hj i.op (of_decide_eq_true heq).symm
  have hother : ∀ {j j' : Job} {t : ℤ} {b : Bool}, j' ≠ j →
      (if b then [(t, j')] else []).filter (·.2 = j) = [] := by
    intro j j' t b hne
    cases b with
    | true => exact List.filter_cons_of_neg fun heq => hne (of_decide_eq_true heq)
    | false => rfl
  have hclients : ∀ {j : Job}, Job.clientTick ≠ j →
      (if c.clientInterval.getD 0 ≠ 0 then [(c.interval, Job.clientTick)] else []).filter
        (·.2 = j) = [] := by
    intro j hne
    split
    · exact List.filter_cons_of_neg fun heq => hne (of_decide_eq_true heq)
    · rfl
  unfold HarnessSetup.plans
  simp only [List.filter_append]
  cases hk with
  | client hon =>
    rw [hinj (by intro op heq; cases heq), hother (by intro heq; cases heq),
      hother (by intro heq; cases heq), if_pos hon]
    rfl
  | fault hon =>
    rw [hinj (by intro op heq; cases heq), hother (by intro heq; cases heq), if_pos hon,
      hclients (by intro heq; cases heq)]
    rfl
  | membership hon =>
    rw [hinj (by intro op heq; cases heq), if_pos hon, hother (by intro heq; cases heq),
      hclients (by intro heq; cases heq)]
    rfl

/-- A driver has ticked `k` times, at the first `k` multiples of its period, and is due at the
next. -/
structure Punctual (h : Harness σ) (job : Job) (T : ℤ) (k : ℕ) : Prop where
  due : h.due job = [T*(k+1)]
  began : T*k ≤ h.now

theorem due_perm (job : Job) {ps : List (ℤ × Job)} (hp : h.agenda.Perm ps) :
    (h.due job).Perm ((ps.filter (·.2 = job)).map Prod.fst) := (hp.filter _).map _

theorem due_one (t : ℤ) (j job : Job) :
    ([(t, j)].filter (·.2 = job)).map Prod.fst = if j = job then [t] else [] := by
  split
  next heq => rw [List.filter_cons_of_pos (by exact decide_eq_true heq)]; rfl
  next hne => rw [List.filter_cons_of_neg (by exact fun h => hne (of_decide_eq_true h))]; rfl

theorem ticks_no_timer (hk : c.Ticks job T) {timers : List (ℤ × Job)}
    (ht : ∀ p ∈ timers, ∃ i ∈ c.ids, ∃ t, p.2 = .timer i t) :
    timers.filter (·.2 = job) = [] := by
  refine List.filter_eq_nil_iff.mpr fun p hp heq => ?_
  obtain ⟨i, -, t, htimer⟩ := ht p hp
  have heq : p.2 = job := of_decide_eq_true heq
  rw [htimer] at heq
  cases hk <;> cases heq

theorem Punctual.step {k : ℕ} (hk : c.Ticks job T) (hp : h.Punctual job T k)
    (ht : Turned h h₁ turn) (hf : Fires c h₁ turn run jobs net) (he : Effect c run jobs net h₁ h') :
    h'.Punctual job T (if turn.job? = some job then k+1 else k) := by
  -- the queue before and after the step, as far as this driver is concerned
  obtain ⟨timers, hafter, htimers⟩ := he.agenda
  have hbefore := due_perm job ht.agenda
  have hafter := due_perm job hafter
  rw [List.filter_append, List.map_append] at hbefore
  rw [List.filter_append, List.filter_append, ticks_no_timer hk htimers, hf.ticks hk,
    List.nil_append, List.map_append] at hafter
  have hnow : h₁.now ≤ h'.now := he.now.ge
  by_cases hturn : turn.job? = some job
  · rw [if_pos hturn] at hafter
    rw [hp.due, hturn] at hbefore
    -- the tick that was due is the one that has come
    have hsplit : [T*(k+1)].Perm ([h₁.now] ++ h₁.due job) := by
      have hone : (((some job).map fun job => (h₁.now, job)).toList.filter (·.2 = job)).map
          Prod.fst = [h₁.now] := (due_one _ _ _).trans (if_pos rfl)
      rwa [hone] at hbefore
    obtain ⟨heq, hnil⟩ := List.cons.inj (List.singleton_perm.mp hsplit)
    have hdue : (h'.due job).Perm ([h₁.now+T] ++ h₁.due job) := hafter
    rw [if_pos hturn]
    refine ⟨?_, ?_⟩
    · have hnil : h₁.due job = [] := hnil.symm
      rw [hnil, List.append_nil] at hdue
      rw [List.perm_singleton.mp hdue, ← heq, Nat.cast_succ, Int.mul_add T (k+1), Int.mul_one]
    · rw [Nat.cast_succ, heq]
      exact hnow
  -- another's turn takes no tick of this driver out and puts none in
  · rw [if_neg hturn] at hafter ⊢
    refine ⟨?_, hp.began.trans (ht.now.trans hnow)⟩
    have hsame : (h.due job).Perm (h₁.due job) := by
      refine hbefore.trans (List.Perm.of_eq ?_)
      cases hj : turn.job? with
      | none => rfl
      | some j =>
        have hne : j ≠ job := fun heq => hturn (hj.trans (congrArg some heq))
        have hnone : (((some j).map fun job => (h₁.now, job)).toList.filter (·.2 = job)).map
          Prod.fst = [] := (due_one _ _ _).trans (if_neg hne)
        rw [hnone]
        rfl
    have hall : (h'.due job).Perm (h.due job) := hafter.trans hsame.symm
    rw [hp.due] at hall
    exact List.perm_singleton.mp hall

theorem init_punctual (hk : c.Ticks job T) (h₀ : Harness.init D c = .ok h) :
    h.Punctual job T 0 := by
  have he := init_effect h₀
  obtain ⟨timers, hafter, htimers⟩ := he.agenda
  have hafter := due_perm job hafter
  rw [List.filter_append, List.filter_append, ticks_no_timer hk htimers, plans_tick hk] at hafter
  have hone : (h.due job).Perm [T] := hafter
  refine ⟨?_, ?_⟩
  · rw [List.perm_singleton.mp hone, Nat.cast_zero, Int.zero_add, Int.mul_one]
  · rw [Nat.cast_zero, Int.mul_zero, he.now]
    exact le_rfl

/-- What a step makes of the turn of the clients. -/
theorem Fires.clientTurn {s s' : Service} (hf : Fires c h turn run jobs net)
    (hrun : run s = .ok s') : s'.clients.clientTurn =
      if turn.job? = some .clientTick then s.clients.clientTurn+1 else s.clients.clientTurn := by
  have hsame : ∀ {s' : Service}, Except.ok (ε := PyError) s = .ok s' →
      s'.clients.clientTurn = s.clients.clientTurn := by
    intro s' heq
    rw [Except.ok.inj heq]
  cases hf with
  | client => exact Service.clientTick_turn hrun
  | arrival => exact Service.perform_turn hrun
  | electionTimeout => exact Service.perform_turn hrun
  | heartbeat => exact Service.perform_turn hrun
  | fault _ hcrash =>
    cases hcrash with
    | spares => exact hsame hrun
    | strikes => exact Service.perform_turn hrun
  | membership => exact Service.performs_turn _ hrun
  | resume => exact Service.perform_turn hrun
  | crash => exact Service.perform_turn hrun
  | _ => exact hsame hrun

theorem run_punctual (hk : c.Ticks job T) (hr : Run D c hs) (hh : h ∈ hs) :
    ∃ k : ℕ, h.Punctual job T k ∧ (job = .clientTick → h.clients.clientTurn = k) := by
  refine (hr.rule (P := fun h => ∃ k : ℕ, h.Punctual job T k ∧
    (job = .clientTick → h.clients.clientTurn = k)) (fun h h₀ => ?_)
    (fun h h' hr hprev hs => ?_) h hh).2
  · refine ⟨0, init_punctual hk h₀, fun _ => ?_⟩
    have hclients : h.clients = {} := congrArg Service.clients (init_effect h₀).still
    rw [hclients]
    rfl
  · obtain ⟨k, hp, hturn⟩ := hprev
    obtain ⟨h₁, h₂, turn, run, jobs, net, checker, ht, hf, he, -, -, rfl⟩ :=
      step_effect hr.wired hs
    obtain ⟨hdue, hbegan⟩ := hp.step hk ht hf he
    refine ⟨_, ⟨hdue, hbegan⟩, fun hjob => ?_⟩
    have hclients : h₁.clients.clientTurn = h.clients.clientTurn := by rw [ht.clients]
    have hmove : h₂.clients.clientTurn = if turn.job? = some .clientTick then
        h₁.clients.clientTurn+1 else h₁.clients.clientTurn := hf.clientTurn he.service
    show h₂.clients.clientTurn = _
    rw [hmove, hclients, hturn hjob, hjob]
    split
    · rw [Nat.cast_succ]
    · rfl

/-- In every state of every run each driver that is on has ticked at all multiples of its period
up to now, and is due at the next one, once. The clients have acted at each of their ticks. -/
theorem run_clock (hk : c.Ticks job T) (hr : Run D c hs) (hh : h ∈ hs) :
    ∃ k : ℕ, h.Punctual job T k ∧ h.now ≤ T*(k+1) ∧
      (job = .clientTick → h.clients.clientTurn = k) := by
  obtain ⟨k, hp, hturn⟩ := run_punctual hk hr hh
  refine ⟨k, hp, ?_, hturn⟩
  have hmem : T*(k+1) ∈ h.due job := hp.due ▸ List.mem_cons_self
  obtain ⟨p, hp, heq⟩ := List.mem_map.mp hmem
  rw [← heq]
  exact h.agenda_ahead p (List.mem_of_mem_filter hp)

/-! ### The length of a run -/

/-- While any driver is on there is always something to do. -/
theorem step_some (hk : c.Ticks job T) (hr : Run D c (h :: past)) :
    Harness.step D c h ≠ .ok none := by
  obtain ⟨k, hp, -⟩ := run_punctual hk hr List.mem_cons_self
  have hmem : T*(k+1) ∈ h.due job := hp.due ▸ List.mem_cons_self
  obtain ⟨p, hp, -⟩ := List.mem_map.mp hmem
  obtain ⟨q, hq, -⟩ := List.mem_filterMap.mp (List.mem_of_mem_filter hp)
  intro hnone
  have hempty : h.net.sim.heap = [] :=
    Simulator.pop_none.mp (Option.map_eq_none_iff.mp (step_none.mp hnone))
  rw [hempty] at hq
  cases hq

theorem run_steps (hr : Run D c (h :: past)) : h.steps = past.length := by
  generalize hss : h :: past = hs at hr
  induction hr generalizing h past with
  | init h₀ =>
    obtain ⟨rfl, rfl⟩ := List.cons.inj hss
    exact (init_effect h₀).steps
  | @step h₁ h' before hr hs ih =>
    obtain ⟨rfl, rfl⟩ := List.cons.inj hss
    obtain ⟨h₂, h₃, turn, run, jobs, net, checker, ht, hf, he, -, -, rfl⟩ :=
      step_effect (hr.reached List.mem_cons_self).wired hs
    have hsteps : h₃.steps = h₁.steps+1 := he.steps.trans ht.steps
    rw [ih rfl] at hsteps
    exact hsteps

/-- A run of a cluster, from what its machine does. -/
theorem run_path (h₀ : Harness.init D c = .ok h)
    (hp : Machine.Path (Harness.step D c) h hs) : Run D c hs := by
  induction hp with
  | init => exact .init h₀
  | step _ hs ih => exact .step ih hs

/-- What `n` steps leave is the newest state of a run. -/
theorem run_reaches {n : ℕ} (h₀ : Harness.init D c = .ok h)
    (hrun : Harness.run D c n h = .ok h') : ∃ past, Run D c (h' :: past) ∧ past.length ≤ n := by
  have hstart : Machine.Path (Harness.step D c) h [h] := .init
  obtain ⟨past, hpath, hlen, -⟩ := hstart.run hrun
  exact ⟨past, run_path h₀ hpath, by simpa using hlen⟩

end Harness
end RaftVerified
