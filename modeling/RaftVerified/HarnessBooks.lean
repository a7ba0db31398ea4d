import RaftVerified.HarnessReturns
import RaftVerified.RaftCertified

/-! What a run leaves on record: the numbers of its result are those of its trace, every step has
been checked, and a violation names the run and the step that it ends. -/
namespace RaftVerified
namespace Harness
variable {σ : Type} {D : Platform σ} {c : HarnessSetup} {h h' left : Harness σ} {n : ℕ}
  {hs past : List (Harness σ)}

/-- The hint that a cluster gives its checker. -/
def hint (D : Platform σ) (c : HarnessSetup) : Str :=
  replayHint D.json c.numNodes c.seed c.profile.name c.membership c.nemesis

theorem hint_ne (D : Platform σ) (c : HarnessSetup) : hint D c ≠ [] := by
  intro hnil
  unfold hint replayHint at hnil
  have hfirst := congrArg List.head? hnil
  cases hfirst

theorem run_label (hr : Run D c hs) (hh : h ∈ hs) :
    h.checker.label = (c.seed, hint D c, h.steps) := by
  refine (hr.rule (P := fun h => h.checker.label = (c.seed, hint D c, h.steps))
    (fun h h₀ => ?_) (fun h h' hr hlabel hs => ?_) h hh).2
  · have he := init_effect h₀
    rw [he.checker, he.steps]
    exact InvariantChecker.new_label c.seed (hint_ne D c)
  · obtain ⟨h₁, h₂, turn, run, jobs, net, checker, ht, -, he, -, hck, rfl⟩ :=
      step_effect hr.wired hs
    have hsame : h₂.checker = h.checker := he.checker.trans ht.checker
    have hsteps : h₂.steps = h.steps+1 := he.steps.trans ht.steps
    simp only [InvariantChecker.label, Prod.mk.injEq] at hlabel
    obtain ⟨hseed, hhint, hcount⟩ := hlabel
    have hkept := (InvariantChecker.check_label h₂.checker h₂.nodes c.ids h₂.steps).result _ hck
    show checker.label = (c.seed, hint D c, h₂.steps)
    rw [hkept, hsame, hsteps, hseed, hhint, hcount]

/-- What a state of a run has on record. -/
structure Recorded (c : HarnessSetup) (h : Harness σ) : Prop where
  events : h.events = h.trace.filterMap Note.event?
  stats : h.stats = (h.events.map Prod.snd).foldl Stats.add {}
  traffic : h.net.trace = h.trace.filterMap Note.traffic?
  tally : h.net.Tallied
  conserved : h.net.sent+h.net.duplicated = h.net.delivered+h.net.dropped+h.net.inFlight.length
  checked : h.checker.checksRun = h.steps

/-- In every state of every run the events are the trace without the traffic, the statistics and
the counters of the network are counts of records, no message is unaccounted for, and the checker
has run after every step. -/
theorem run_recorded (hr : Run D c hs) (hh : h ∈ hs) : h.Recorded c := by
  have hreached := hr.reached hh
  have hl := hreached.logged
  have hlabel := run_label hr hh
  exact ⟨hl.events, hl.stats, hl.traffic, hl.tally, hreached.wired.balanced.books,
    congrArg (fun l => l.2.2) hlabel⟩

/-- A cluster all of whose defects are planted. -/
def broken : ClusterOptions where
  numNodes := 3
  seed := 1677
  faults := "chaos".toList
  bugs := ⟨true, true, true, true, true, true⟩

/-- For a while there is a leader, and what it has committed is on the books. -/
theorem broken_leads : ∃ c, broken.setup lcg.json = .ok c ∧ ∃ h, Harness.init lcg c = .ok h ∧
    ∃ t, Harness.run lcg c 90 h = .ok t ∧ t.leader c = some 1 ∧ (t.nodes 1).commitIndex = 1 ∧
      (t.checker.committed.lookup 1).isSome = true := by
  decide +kernel

/-- A run that a violation ends has come to a state whose next step it is found in. -/
theorem violated_cases (h₀ : Harness.init D c = .ok h) {v : InvariantViolation}
    (hv : Harness.run D c n h = .error (.violated v left)) : ∃ t past, Run D c (t :: past) ∧
      past.length < n ∧ t.simStep D c = .ok (some left) ∧
      left.checker.check left.nodes c.ids left.steps = .error (.violation v) := by
  have hstart : Machine.Path (Harness.step D c) h [h] := .init
  obtain ⟨t, past, hpath, hraise, hlen⟩ := hstart.raise hv
  exact ⟨t, past, run_path h₀ hpath, by simpa using hlen, step_violated.mp hraise⟩

/-- What a violation that ends a run within `n` steps says: the seed of the run, the step it is
found in and the command that replays the run. All steps before have been checked. -/
structure Named (D : Platform σ) (c : HarnessSetup) (n : ℕ) (v : InvariantViolation)
    (left : Harness σ) : Prop where
  seed : v.seed = c.seed
  replay : v.replay = hint D c
  step : v.step = left.steps
  within : v.step ≤ n
  checked : left.checker.checksRun+1 = v.step

theorem violation_named (h₀ : Harness.init D c = .ok h) {v : InvariantViolation}
    (hv : Harness.run D c n h = .error (.violated v left)) : Named D c n v left := by
  obtain ⟨t, past, hr, hlen, hsim, hck⟩ := violated_cases h₀ hv
  obtain ⟨h₁, turn, run, jobs, net, ht, -, he⟩ :=
    simStep_cases (hr.reached List.mem_cons_self).wired hsim
  have hlabel := run_label hr List.mem_cons_self
  simp only [InvariantChecker.label, Prod.mk.injEq] at hlabel
  obtain ⟨hseed, hhint, hcount⟩ := hlabel
  have hsame : left.checker = t.checker := he.checker.trans ht.checker
  have hsteps : left.steps = t.steps+1 := he.steps.trans ht.steps
  have hpast := run_steps hr
  obtain ⟨hs, hr, hst⟩ :=
    (InvariantChecker.check_label left.checker left.nodes c.ids left.steps).named v hck
  -- the checker that finds the violation is the one that has passed all steps before
  rw [hsame] at hs hr
  refine ⟨hs.trans hseed, hr.trans hhint, hst, by omega, ?_⟩
  rw [hsame, hcount, hst, hsteps]

/-- Whatever is planted and whatever is compacted, a run that returns has its books in order and
has made no more steps than it may, and one that a violation ends names itself in it. -/
theorem run_reports (h₀ : Harness.init D c = .ok h) (n : ℕ) :
    (∀ h', Harness.run D c n h = .ok h' → h'.Recorded c ∧ h'.steps ≤ n) ∧
      ∀ v left, Harness.run D c n h = .error (.violated v left) → Named D c n v left := by
  refine ⟨fun h' hrun => ?_, fun v left hv => violation_named h₀ hv⟩
  obtain ⟨past, hr, hlen⟩ := run_reaches h₀ hrun
  exact ⟨run_recorded hr List.mem_cons_self, (run_steps hr).trans_le hlen⟩

/-- Which violation a run ends with can be looked at. -/
instance decidableViolated {α : Type} {x : Except (Stopped σ) α}
    {P : InvariantViolation → Harness σ → Prop} [∀ v left, Decidable (P v left)] :
    Decidable (∃ v left, x = .error (.violated v left) ∧ P v left) :=
  match x with
  | .error (.violated v left) => decidable_of_iff (P v left) (by simp)
  | .error (.raised _) => .isFalse (by simp)
  | .ok _ => .isFalse (by simp)

/-- After 90 steps the books of the run are in order, and the violation that ends it names its
step. -/
theorem run_reports_broken : ∃ c, broken.setup lcg.json = .ok c ∧ ∃ h,
    Harness.init lcg c = .ok h ∧
      (∃ t, Harness.run lcg c 90 h = .ok t ∧ t.leader c = some 1 ∧ t.Recorded c ∧ t.steps ≤ 90) ∧
        ∃ v left, Harness.run lcg c 1000 h = .error (.violated v left) ∧ v.step = 108 ∧
          Named lcg c 1000 v left := by
  obtain ⟨c, hc, h, h₀, t, hrun, hleads, -⟩ := broken_leads
  have hends : ∃ c, broken.setup lcg.json = .ok c ∧ ∃ h, Harness.init lcg c = .ok h ∧
      ∃ v left, Harness.run lcg c 1000 h = .error (.violated v left) ∧ v.step = 108 := by
    decide +kernel
  obtain ⟨c', hc', h', h₀', v, left, hv, hstep⟩ := hends
  obtain rfl := Except.ok.inj (hc.symm.trans hc')
  obtain rfl := Except.ok.inj (h₀.symm.trans h₀')
  obtain ⟨hbooks, hsteps⟩ := (run_reports h₀ 90).1 t hrun
  exact ⟨c, hc, h, h₀, ⟨t, hrun, hleads, hbooks, hsteps⟩, v, left, hv, hstep,
    (run_reports h₀ 1000).2 v left hv⟩

end Harness
end RaftVerified
