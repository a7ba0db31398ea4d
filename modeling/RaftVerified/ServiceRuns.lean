import RaftVerified.ClientRows
import RaftVerified.RaftReads

/-! Runs of a cluster under its clients as runs of the nodes: what one simulator step can do,
and how the rows of the history move with it. -/
namespace RaftVerified
namespace Service

variable {c : ServiceSetup} {s s' u : Service} {past later before ss : List Service}
  {e : ServiceEvent}

/-! ### One step -/

/-- Whether an operation goes through a read index instead of the log. -/
def Reads (c : ServiceSetup) (encoded : Str) : Prop :=
  c.readIndex = true ∧ (Command.decode encoded).op = .get

instance (c : ServiceSetup) (encoded : Str) : Decidable (Reads c encoded) :=
  inferInstanceAs (Decidable (_ ∧ _))

/-- What the client whose turn it is sends in the next step, and the clients after that. -/
def tries (c : ServiceSetup) (s : Service) : Str × Clients := s.clients.attempt c (s.steps+1)

/-- The callbacks that a step may run, with the clients by then. -/
inductive Offers (c : ServiceSetup) (s : Service) : Event → Clients → Prop
  | ambient {e : Event} : e.Ambient → Offers c s e s.clients
  | read (target : NodeId) : Reads c (s.tries c).1 →
      Offers c s (.requestRead target (s.tries c).1) (s.tries c).2
  | command (target : NodeId) : ¬ Reads c (s.tries c).1 →
      Offers c s (.clientCommand target (s.tries c).1) (s.tries c).2

/-- A step that runs the callback of `e` at server `i`, which leaves `y` behind. -/
structure Ran (c : ServiceSetup) (s s' : Service) (d : Clients) (e : Event) (i : NodeId)
    (y : Exec) : Prop where
  offers : Offers c s e d
  target : s.world.target e = some i
  server : i ∈ c.ids
  callback : s.world.callback (s.world.nodes i) e = .ok y
  world : s'.world = s.world.put i y
  clients : s'.clients = (onApplies y.calls).foldl (fun d r => d.onApply c s'.steps r.1 r.2) d

/-- A step that leaves the nodes alone. -/
structure Stood (c : ServiceSetup) (s s' : Service) (d : Clients) : Prop where
  tried : d = s.clients ∨ d = (s.tries c).2
  world : s'.world = s.world
  clients : s'.clients = d

theorem perform_cases {e : Event} (h : s.perform c e = .ok s') :
    s' = s ∨ ∃ i y, s.world.target e = some i ∧ i ∈ c.ids ∧
      s.world.callback (s.world.nodes i) e = .ok y ∧ s' = { s with
        world := s.world.put i y
        clients := (onApplies y.calls).foldl (fun d r => d.onApply c s.steps r.1 r.2)
          s.clients } := by
  unfold perform at h
  split at h
  · exact Or.inl (Except.ok.inj h).symm
  next i hi =>
    split at h
    next hid =>
      obtain ⟨y, hy, h⟩ := bind_ok.mp h
      exact Or.inr ⟨i, y, hi, hid, hy, (Except.ok.inj h).symm⟩
    next => exact Or.inl (Except.ok.inj h).symm

/-- What one step can do. -/
theorem step_cases (hb : c.bugs = NO_BUGS) (hp : Possible c e) (h : s.step c e = .ok s') :
    s'.steps = s.steps+1 ∧ ∃ d, Stood c s s' d ∨ ∃ e i y, Ran c s s' d e i y := by
  have hran : ∀ (d : Clients) (e : Event), Offers c s e d → (d = s.clients ∨ d = (s.tries c).2) →
      ({ s with clients := d, steps := s.steps+1 } : Service).perform c e = .ok s' →
      s'.steps = s.steps+1 ∧ ∃ d, Stood c s s' d ∨ ∃ e i y, Ran c s s' d e i y := by
    intro d e ho hd h
    rcases perform_cases h with rfl | ⟨i, y, ht, hi, hy, rfl⟩
    · exact ⟨rfl, d, Or.inl ⟨hd, rfl, rfl⟩⟩
    · exact ⟨rfl, d, Or.inr ⟨e, i, y, ho, ht, hi, hy, rfl, rfl⟩⟩
  cases e with
  | quiet =>
    obtain rfl := Except.ok.inj h
    exact ⟨rfl, _, Or.inl ⟨Or.inl rfl, rfl, rfl⟩⟩
  | callback e => exact hran s.clients e (.ambient hp) (Or.inl rfl) h
  | clientTick target =>
    have h : ({ s with clients := (s.tries c).2, steps := s.steps+1 } : Service).submit c target
      (s.tries c).1 = .ok s' := h
    unfold submit at h
    rw [hb] at h
    dsimp only at h
    split at h
    · rw [if_neg (by rintro ⟨hs, -⟩; cases hs)] at h
      split at h
      next hr => exact hran _ _ (.read target hr) (Or.inr rfl) h
      next hr => exact hran _ _ (.command target hr) (Or.inr rfl) h
    · obtain rfl := Except.ok.inj h
      exact ⟨rfl, _, Or.inl ⟨Or.inr rfl, rfl, rfl⟩⟩

/-- Every step counts, so the states of a run are in the order of their steps. -/
theorem run_steps (hb : c.bugs = NO_BUGS) (hr : Run c ss) :
    ss.Pairwise fun v u => u.steps < v.steps := by
  induction hr with
  | init => exact List.pairwise_singleton _ _
  | @step s s' past e hr hp hs ih =>
    have hstep := (step_cases hb hp hs).1
    refine List.pairwise_cons.mpr ⟨fun u hu => ?_, ih⟩
    rcases List.mem_cons.mp hu with rfl | hu
    · omega
    · have := List.rel_of_pairwise_cons ih hu
      omega

/-- A state of a step up to that of `s` is `s` or comes before it. -/
theorem mem_before (hb : c.bugs = NO_BUGS) (hr : Run c (later ++ s :: before))
    (hu : u ∈ later ++ s :: before) (hle : u.steps ≤ s.steps) : u ∈ s :: before := by
  rcases List.mem_append.mp hu with hu | hu
  · have := (List.pairwise_append.mp (run_steps hb hr)).2.2 u hu s List.mem_cons_self
    omega
  · exact hu

theorem Run.earlier (h : Run c (later ++ s :: past)) : Run c (s :: past) := by
  induction later with
  | nil => exact h
  | cons v later ih =>
    refine ih ?_
    rw [List.cons_append] at h
    generalize hl : later ++ s :: past = l at h
    cases h with
    | init => simp at hl
    | step hr _ _ => exact hl ▸ hr

/-! ### Rows across a step -/

/-- The rows once the client has tried, with the answers still to come. -/
theorem tried_rows (hc : c.recordHistory = true) {d : Clients}
    (hk : Clients.Kept s.steps s.clients) (hd : d = s.clients ∨ d = (s.tries c).2) :
    Clients.Kept (s.steps+1) d ∧ (d.history = s.clients.history ∨ ∃ row : HistoryEntry,
      row.returnStep = none ∧ row.invokeStep = s.steps+1 ∧
        d.history = s.clients.history ++ [row]) := by
  have hk := hk.mono (show s.steps ≤ s.steps+1 by omega)
  rcases hd with rfl | rfl
  · exact ⟨hk, Or.inl rfl⟩
  · obtain ⟨hk', hrows, -⟩ := Clients.attempt_kept hk hc
    exact ⟨hk', hrows⟩

theorem Offers.tried {e : Event} {d : Clients} (h : Offers c s e d) :
    d = s.clients ∨ d = (s.tries c).2 := by
  cases h with
  | ambient _ => exact Or.inl rfl
  | read _ _ => exact Or.inr rfl
  | command _ _ => exact Or.inr rfl

/-- What becomes of the rows in a step: a new one may be opened, and answers close some. -/
structure RowStep (c : ServiceSetup) (s s' : Service) (answers : List (Str × Str)) : Prop where
  kept : Clients.Kept s'.steps s'.clients
  old : ∀ row ∈ s.clients.history, ∃ row' ∈ s'.clients.history, row'.command = row.command ∧
    row'.invokeStep = row.invokeStep ∧ (row.returnStep ≠ none → row' = row)
  new : ∀ row' ∈ s'.clients.history, row' ∈ s.clients.history ∨ row'.returnStep = none ∨
    ∃ r ∈ answers, r.1 = row'.command.encode ∧ row'.returnStep = some s'.steps ∧
      row'.observed = some r.2
  answered : ∀ r ∈ answers, ∀ row' ∈ s'.clients.history, row'.command.encode = r.1 →
    row'.returnStep ≠ none

theorem rowStep_of_closes (hc : c.recordHistory = true)
    (hk : Clients.Kept s.steps s.clients) {d : Clients}
    (hd : d = s.clients ∨ d = (s.tries c).2) {answers : List (Str × Str)}
    (hk' : Clients.Kept s'.steps s'.clients)
    (hcl : Closes answers s'.steps d.history s'.clients.history)
    (hans : ∀ r ∈ answers, (Command.decode r.1).isStructured = true →
      ∀ row ∈ s'.clients.history, row.command.encode = r.1 → row.returnStep ≠ none) :
    RowStep c s s' answers := by
  obtain ⟨-, hrows⟩ := tried_rows hc hk hd
  refine ⟨hk', fun row hrow => ?_, fun row' hrow' => ?_, fun r hr row' hrow' hcmd => ?_⟩
  · obtain ⟨k, hget⟩ : ∃ k : ℕ, d.history[k]? = some row := by
      refine List.getElem?_of_mem ?_
      rcases hrows with heq | ⟨row₀, -, -, heq⟩
      · rwa [heq]
      · rw [heq]
        exact List.mem_append_left _ hrow
    obtain ⟨row', hrow', heq⟩ := hcl.forward hget
    refine ⟨row', List.mem_of_getElem? hrow', ?_⟩
    rcases heq with rfl | ⟨hopen, r, -, -, rfl⟩
    · exact ⟨rfl, rfl, fun _ => rfl⟩
    · exact ⟨rfl, rfl, fun hne => absurd hopen hne⟩
  · obtain ⟨k, hget⟩ := List.getElem?_of_mem hrow'
    obtain ⟨row, hrow, heq⟩ := hcl.rows k row' hget
    rcases heq with rfl | ⟨-, r, hr, hcmd, rfl⟩
    · have hmem := List.mem_of_getElem? hrow
      rcases hrows with heq | ⟨row₀, hopen, -, heq⟩
      · exact Or.inl (heq ▸ hmem)
      · rw [heq] at hmem
        rcases List.mem_append.mp hmem with hmem | hmem
        · exact Or.inl hmem
        · obtain rfl := List.mem_singleton.mp hmem
          exact Or.inr (Or.inl hopen)
    · exact Or.inr (Or.inr ⟨r, hr, hcmd, rfl, rfl⟩)
  · refine hans r hr ?_ row' hrow' hcmd
    have hsent := (hk'.rows row' hrow').1
    rw [← hcmd, hsent.decode]
    exact hsent.structured

theorem Stood.rowStep {d : Clients} (h : Stood c s s' d) (hc : c.recordHistory = true)
    (hs : s'.steps = s.steps+1) (hk : Clients.Kept s.steps s.clients) : RowStep c s s' [] := by
  have hk' := (tried_rows hc hk h.tried).1
  rw [← hs, ← h.clients] at hk'
  exact rowStep_of_closes hc hk h.tried hk' (by rw [h.clients]; exact Closes.refl _) nofun

theorem Ran.rowStep {d : Clients} {e : Event} {i : NodeId} {y : Exec} (h : Ran c s s' d e i y)
    (hc : c.recordHistory = true) (hs : s'.steps = s.steps+1)
    (hk : Clients.Kept s.steps s.clients) : RowStep c s s' (onApplies y.calls) := by
  have hk' := (tried_rows hc hk h.offers.tried).1
  rw [← hs] at hk'
  obtain ⟨hkept, hcl, hans⟩ := Clients.onApplies_kept (onApplies y.calls) hk' hc
  rw [← h.clients] at hkept hcl hans
  exact rowStep_of_closes hc hk h.offers.tried hkept hcl hans

/-- The row of what a client sends in a step. -/
theorem Ran.sent_row {d : Clients} {e : Event} {i : NodeId} {y : Exec} (h : Ran c s s' d e i y)
    (hc : c.recordHistory = true) (hs : s'.steps = s.steps+1)
    (hk : Clients.Kept s.steps s.clients) (hd : d = (s.tries c).2) :
    ∃ row ∈ s'.clients.history, row.command.encode = (s.tries c).1 := by
  have hk := hk.mono (show s.steps ≤ s.steps+1 by omega)
  obtain ⟨hk', -, row, hrow, hcmd⟩ := Clients.attempt_kept hk hc
  have hkept : Clients.Kept s'.steps d := by
    rw [hs, hd]
    exact hk'
  obtain ⟨k, hget⟩ := List.getElem?_of_mem hrow
  obtain ⟨-, hcl, -⟩ := Clients.onApplies_kept (onApplies y.calls) hkept hc
  rw [← h.clients, hd] at hcl
  obtain ⟨row', hrow', heq⟩ := hcl.forward hget
  refine ⟨row', List.mem_of_getElem? hrow', ?_⟩
  rcases heq with rfl | ⟨-, r, -, -, rfl⟩
  · exact hcmd
  · exact hcmd

/-! ### Runs of the nodes -/

/-- A step that runs a callback is a step of the nodes. -/
theorem Ran.step {d : Clients} {e : Event} {i : NodeId} {y : Exec} (h : Ran c s s' d e i y)
    (hc : c.recordHistory = true) (hs : s'.steps = s.steps+1)
    (hk : Clients.Kept s.steps s.clients) (ws : List World) :
    FixedVoters ws e ∧ s.world.step c.toSetup e = .ok s'.world := by
  refine ⟨?_, ?_⟩
  · cases h.offers with
    | ambient ha => cases e <;> trivial
    | read target hreads => trivial
    | command target hreads =>
      obtain ⟨row, -, hcmd⟩ := h.sent_row hc hs hk rfl
      rw [← hcmd]
      exact encode_plain row.command
  · unfold World.step
    rw [h.target]
    dsimp only
    rw [if_pos h.server, h.callback, h.world]
    rfl

/-- A run of a cluster that records the history of its clients keeps their rows, and is a run
of its nodes. -/
theorem run_world (hb : c.bugs = NO_BUGS) (hc : c.recordHistory = true)
    (hr : Run c (s :: past)) : Clients.Kept s.steps s.clients ∧
      RaftVerified.Run c.toSetup FixedVoters ((s :: past).map world) := by
  generalize hss : s :: past = ss at hr
  induction hr generalizing s past with
  | init =>
    obtain ⟨rfl, rfl⟩ := List.cons.inj hss
    exact ⟨Clients.kept_init, .init⟩
  | @step s₁ s₂ past₁ e hr hp hs ih =>
    obtain ⟨rfl, rfl⟩ := List.cons.inj hss
    obtain ⟨hk, hw⟩ := ih rfl
    obtain ⟨hsteps, d, hstood | ⟨e, i, y, hran⟩⟩ := step_cases hb hp hs
    · refine ⟨(hstood.rowStep hc hsteps hk).kept, ?_⟩
      -- a step that leaves the nodes alone delivers a message that was never sent
      refine .step (e := .deliver s₁.world.sent.length) hw trivial ?_
      have hnone : s₁.world.target (.deliver s₁.world.sent.length) = none := by
        unfold World.target
        dsimp only
        rw [List.getElem?_eq_none le_rfl]
        rfl
      rw [hstood.world]
      unfold World.step
      rw [hnone]
    · obtain ⟨hfix, hstep⟩ := hran.step hc hsteps hk ((s₁ :: past₁).map world)
      exact ⟨(hran.rowStep hc hsteps hk).kept, .step hw hfix hstep⟩

/-- What holds at first and survives each kind of step holds in every run. -/
theorem run_induction (hb : c.bugs = NO_BUGS) (hc : c.recordHistory = true)
    {P : Service → List Service → Prop} (hinit : P (init c) [])
    (hstood : ∀ s s' past d, Run c (s' :: s :: past) → s'.steps = s.steps+1 →
      Stood c s s' d → RowStep c s s' [] → P s past → P s' (s :: past))
    (hran : ∀ s s' past d e i y, Run c (s' :: s :: past) → s'.steps = s.steps+1 →
      Ran c s s' d e i y → RowStep c s s' (onApplies y.calls) → P s past → P s' (s :: past))
    (hr : Run c (s :: past)) : P s past := by
  generalize hss : s :: past = ss at hr
  induction hr generalizing s past with
  | init =>
    obtain ⟨rfl, rfl⟩ := List.cons.inj hss
    exact hinit
  | @step s₁ s₂ past₁ e hr hp hs ih =>
    obtain ⟨rfl, rfl⟩ := List.cons.inj hss
    obtain ⟨hk, -⟩ := run_world hb hc hr
    obtain ⟨hsteps, d, h | ⟨e, i, y, h⟩⟩ := step_cases hb hp hs
    · exact hstood _ _ _ d (.step hr hp hs) hsteps h (h.rowStep hc hsteps hk) (ih rfl)
    · exact hran _ _ _ d e i y (.step hr hp hs) hsteps h (h.rowStep hc hsteps hk) (ih rfl)

theorem Run.tail (h : Run c (s' :: s :: past)) : Run c (s :: past) := by
  have h : Run c ([s'] ++ s :: past) := h
  exact h.earlier

/-- Every state of a run of the service has its place in the run of the nodes. -/
theorem mem_worlds (hu : u ∈ s :: past) : u.world ∈ (s :: past).map world :=
  List.mem_map_of_mem hu

end Service
end RaftVerified
