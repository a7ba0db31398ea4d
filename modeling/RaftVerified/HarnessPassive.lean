import RaftVerified.HarnessScenario

/-! The history is recorded and never read: a cluster that records goes through what the same
cluster goes through when it does not, and differs from it in the history alone. -/
namespace RaftVerified

/-- A cluster that does not record. -/
abbrev HarnessSetup.unrecorded (c : HarnessSetup) : HarnessSetup :=
  { c with recordHistory := false }

namespace Clients
variable {c c' : ServiceSetup} {steps : ℤ}

/-- The clients without what has been recorded of them. -/
def unobserved (d : Clients) : Clients := { d with history := [], pending := ∅ }

theorem onApply_unobserved (hc : c'.recordHistory = false) (encoded result : Str) (d : Clients) :
    (d.onApply c steps encoded result).unobserved =
      d.unobserved.onApply c' steps encoded result := by
  have hmove : ∀ cmd : Command, (d.moveOn cmd encoded).unobserved =
      d.unobserved.moveOn cmd encoded := fun cmd => apply_ite unobserved _ _ _
  have hclose : ∀ e : Clients, (e.close c steps encoded result).unobserved = e.unobserved := by
    intro e
    unfold close
    split
    · rfl
    · split
      · rfl
      · rfl
  unfold onApply
  dsimp only
  split
  · rfl
  · rw [hclose, hmove]
    exact (if_pos hc).symm

theorem attempt_unobserved (hc : c'.recordHistory = false) (d : Clients) :
    (d.attempt c steps).1 = (d.unobserved.attempt c' steps).1 ∧
      (d.attempt c steps).2.unobserved = (d.unobserved.attempt c' steps).2 := by
  have hinvoke : ∀ (cmd : Command) (encoded : Str) (e : Clients),
      (e.invoke c steps cmd encoded).unobserved = e.unobserved.invoke c' steps cmd encoded := by
    intro cmd encoded e
    unfold invoke
    rw [if_pos hc]
    split
    · rfl
    · rfl
  unfold attempt
  dsimp only
  rw [show d.unobserved.outstanding = d.outstanding from rfl,
    show d.unobserved.clientTurn = d.clientTurn from rfl]
  cases d.outstanding.lookup (d.clientTurn % WORKLOAD_CLIENTS) with
  | some encoded => exact ⟨rfl, rfl⟩
  | none => exact ⟨rfl, hinvoke _ _ _⟩

end Clients

namespace Harness
variable {σ : Type} {D : Platform σ} {c : HarnessSetup}

/-- The cluster without what it has recorded of its clients. -/
def unobserved (h : Harness σ) : Harness σ := { h with clients := h.clients.unobserved }

/-- A draw, and the cluster after it. -/
abbrev unobservedAfter {α : Type} (r : α × Harness σ) : α × Harness σ := (r.1, r.2.unobserved)

theorem randint_unobserved (a b : ℤ) (h : Harness σ) :
    (h.randint D a b).map unobservedAfter = h.unobserved.randint D a b := by
  unfold randint
  rw [show h.unobserved.net = h.net from rfl]
  cases D.randint a b h.net.rng <;> rfl

theorem choice_unobserved (xs : List NodeId) (h : Harness σ) :
    (h.choice D xs).map unobservedAfter = h.unobserved.choice D xs := by
  unfold choice
  dsimp only
  rw [show h.unobserved.net = h.net from rfl]
  cases xs[(D.choice xs.length h.net.rng).1]? <;> rfl

theorem schedule_unobserved (delay : ℤ) (job : Job) (h : Harness σ) :
    (h.schedule delay job).map unobserved = h.unobserved.schedule delay job := by
  unfold schedule
  rw [show h.unobserved.net = h.net from rfl]
  cases h.net.schedule delay (.other job) <;> rfl

theorem send_unobserved (src dst : NodeId) (msg : Message) (h : Harness σ) :
    (h.send D c src dst msg).map unobserved = h.unobserved.send D c.unrecorded src dst msg := by
  unfold send
  rw [show h.unobserved.net = h.net from rfl]
  cases h.net.send D.toRng c.profile.toFaultProfile ⟨src, dst, msg⟩ <;> rfl

theorem call_unobserved (i : NodeId) (h : Harness σ) (x : Call) :
    (h.call D c i x).map unobserved = h.unobserved.call D c.unrecorded i x := by
  cases x with
  | send dst msg => exact send_unobserved i dst msg h
  | record event => rfl
  | onApply command result =>
    refine congrArg (fun d => Except.ok { h with clients := d }) ?_
    exact Clients.onApply_unobserved rfl command result h.clients
  | schedule timer =>
    cases timer with
    | electionTimeout seq =>
      exact bind_through (randint_unobserved _ _ h) fun r => schedule_unobserved _ _ r.2
    | heartbeat seq => exact schedule_unobserved _ _ h

theorem perform_unobserved (i : NodeId) (x : Except PyError Exec) (h : Harness σ) :
    (h.perform D c i x).map unobserved = h.unobserved.perform D c.unrecorded i x := by
  cases x with
  | error e => rfl
  | ok y => exact foldlM_through (call_unobserved i) y.calls _

/-! ### The drivers -/

theorem submit_unobserved (target : NodeId) (encoded : Str) (h : Harness σ) :
    (h.submit D c target encoded).map unobserved =
      h.unobserved.submit D c.unrecorded target encoded := by
  unfold submit
  dsimp only
  rw [show h.unobserved.nodes = h.nodes from rfl]
  split
  · split
    -- a stale read answers its client at once, so the history moves here too
    · refine congrArg (fun d => Except.ok { (h.record _) with clients := d }) ?_
      exact Clients.onApply_unobserved rfl encoded _ h.clients
    · split
      · exact perform_unobserved target _ h
      · exact perform_unobserved target _ h
  · rfl

theorem noteAttempt_unobserved (target clientId : NodeId) (encoded : Str) (idle : Bool)
    (h : Harness σ) : (h.noteAttempt target clientId encoded idle).unobserved =
      h.unobserved.noteAttempt target clientId encoded idle := by
  cases idle <;> rfl

theorem clientTick_unobserved (h : Harness σ) :
    (h.clientTick D c).map unobserved = h.unobserved.clientTick D c.unrecorded := by
  refine bind_through (choice_unobserved c.ids h) fun t => ?_
  -- the same command goes out, since what is outstanding is no part of the history
  obtain ⟨hencoded, hclients⟩ : _ ∧ (t.2.clients.attempt c.toServiceSetup t.2.steps).2.unobserved =
    (t.2.clients.unobserved.attempt c.unrecorded.toServiceSetup t.2.steps).2 :=
      Clients.attempt_unobserved rfl t.2.clients
  refine bind_through ?_ fun h => schedule_unobserved _ _ h
  rw [submit_unobserved, noteAttempt_unobserved, hencoded]
  exact congrArg
    (fun d => submit D c.unrecorded (noteAttempt { t.2 with clients := d } _ _ _ _) _ _) hclients

theorem drawSides_unobserved (is : List NodeId) (h : Harness σ) :
    (h.drawSides D is).map unobservedAfter = h.unobserved.drawSides D is := by
  induction is generalizing h with
  | nil => rfl
  | cons i rest ih =>
    refine bind_through (randint_unobserved 0 1 h) fun s => ?_
    exact bind_through (ih s.2) fun r => rfl

theorem setPartition_unobserved (groups : List (List NodeId)) (h : Harness σ) :
    (h.setPartition groups).map unobserved = h.unobserved.setPartition groups := by
  unfold setPartition
  rw [show h.unobserved.faults = h.faults from rfl]
  cases h.faults.setPartition groups <;> rfl

theorem partitionTick_unobserved (h : Harness σ) :
    (h.partitionTick D c).map unobserved = h.unobserved.partitionTick D c.unrecorded := by
  unfold partitionTick
  dsimp only
  rw [show h.unobserved.faults = h.faults from rfl,
    show h.unobserved.random D = unobservedAfter (h.random D) from rfl]
  split
  · rfl
  split
  · exact congrArg Except.ok (apply_ite unobserved _ _ _)
  split
  · refine bind_through (drawSides_unobserved c.ids _) fun s => ?_
    dsimp only
    split
    · rfl
    rw [show s.2.unobserved.fireFault c.unrecorded = unobservedAfter (s.2.fireFault c) from rfl]
    cases hf : s.2.fireFault c with
    | mk fires h₁ =>
      cases fires with
      | false => rfl
      | true => exact setPartition_unobserved _ h₁
  · rfl

theorem pause_unobserved (i : NodeId) (h : Harness σ) :
    (h.pause D c i).map unobserved = h.unobserved.pause D c.unrecorded i :=
  bind_through (perform_unobserved i _ _) fun _ => rfl

theorem resume_unobserved (i : NodeId) (h : Harness σ) :
    (h.resume D c i).map unobserved = h.unobserved.resume D c.unrecorded i :=
  bind_through (perform_unobserved i _ _) fun _ => rfl

theorem crashTick_unobserved (h : Harness σ) :
    (h.crashTick D c).map unobserved = h.unobserved.crashTick D c.unrecorded := by
  unfold crashTick
  dsimp only
  rw [show h.unobserved.random D = unobservedAfter (h.random D) from rfl]
  split
  · rfl
  split
  · rw [show (h.random D).2.unobserved.candidates c.unrecorded = (h.random D).2.candidates c from
      rfl]
    split
    · rfl
    refine bind_through (choice_unobserved _ _) fun v => ?_
    refine bind_through (randint_unobserved 100 400 v.2) fun delay => ?_
    rw [show delay.2.unobserved.fireFault c.unrecorded = unobservedAfter (delay.2.fireFault c) from
      rfl]
    cases hf : delay.2.fireFault c with
    | mk fires h₁ =>
      cases fires with
      | false => rfl
      | true =>
        exact bind_through (pause_unobserved v.1 h₁) fun h₂ => schedule_unobserved _ _ h₂
  · rfl

theorem faultTick_unobserved (h : Harness σ) :
    (h.faultTick D c).map unobserved = h.unobserved.faultTick D c.unrecorded :=
  bind_through (partitionTick_unobserved h) fun h₁ =>
    bind_through (crashTick_unobserved h₁) fun h₂ => schedule_unobserved _ _ h₂

theorem maybeResume_unobserved (i : NodeId) (h : Harness σ) :
    (h.maybeResume D c i).map unobserved = h.unobserved.maybeResume D c.unrecorded i := by
  unfold maybeResume
  rw [show h.unobserved.faults = h.faults from rfl]
  split
  · exact resume_unobserved i h
  · rfl

theorem propose_unobserved (h : Harness σ) (leader : NodeId) :
    (h.propose D c leader).map unobserved = h.unobserved.propose D c.unrecorded leader := by
  unfold propose
  dsimp only [enter]
  rw [show h.unobserved.memberTurn = h.memberTurn from rfl,
    show h.unobserved.nodes = h.nodes from rfl]
  cases ({ node := h.nodes leader } : Exec).changeConfig
      (proposal c.ids h.memberTurn (h.nodes leader)).1 with
  | error e => rfl
  | ok r =>
    exact bind_through (perform_unobserved leader _ _) fun h₁ => congrArg Except.ok
      (apply_ite unobserved _ _ _)

theorem membershipTick_unobserved (h : Harness σ) :
    (h.membershipTick D c).map unobserved = h.unobserved.membershipTick D c.unrecorded :=
  bind_through (foldlM_through propose_unobserved (h.leaders c) h) fun h₁ =>
    schedule_unobserved _ _ h₁

theorem inject_unobserved (fault fault' : Harness σ → Except Failure (Harness σ)) {delay : ℤ}
    {recovery : Job} (hfault : ∀ h, (fault h).map unobserved = fault' h.unobserved)
    (h : Harness σ) : (h.inject c fault delay recovery).map unobserved =
      h.unobserved.inject c.unrecorded fault' delay recovery := by
  unfold inject
  rw [show h.unobserved.fireFault c.unrecorded = unobservedAfter (h.fireFault c) from rfl]
  cases hf : h.fireFault c with
  | mk fires h₁ =>
    cases fires with
    | false => rfl
    | true => exact bind_through (hfault h₁) fun h₂ => schedule_unobserved _ _ h₂

theorem nemesisFire_unobserved (op : NemesisOp) (h : Harness σ) :
    (h.nemesisFire D c op).map unobserved = h.unobserved.nemesisFire D c.unrecorded op := by
  cases op with
  | partitionHalves t duration =>
    unfold nemesisFire
    dsimp only
    split
    · rfl
    · exact inject_unobserved _ _ (setPartition_unobserved _) h
  | isolateLeader t duration =>
    unfold nemesisFire
    dsimp only
    rw [show h.unobserved.leader c.unrecorded = h.leader c from rfl]
    cases h.leader c with
    | none => rfl
    | some victim =>
      dsimp only
      split
      · rfl
      · exact inject_unobserved _ _ (setPartition_unobserved _) h
  | flappingLink a b t period cycles =>
    exact inject_unobserved (fun h => .ok (h.linkDown a b)) (fun h => .ok (h.linkDown a b))
      (fun h => congrArg Except.ok (apply_ite unobserved _ _ _)) h
  | lossyLink a b t duration dropP => exact inject_unobserved _ _ (fun _ => rfl) h
  | crashNode node t duration =>
    unfold nemesisFire
    dsimp only
    rw [show h.unobserved.nodes = h.nodes from rfl]
    split
    · rfl
    · exact inject_unobserved _ _ (pause_unobserved node) h

/-! ### Steps -/

theorem execute_unobserved (job : Job) (h : Harness σ) :
    (h.execute D c job).map unobserved = h.unobserved.execute D c.unrecorded job := by
  cases job with
  | timer i t => cases t <;> exact perform_unobserved i _ h
  | clientTick => exact clientTick_unobserved h
  | faultTick => exact faultTick_unobserved h
  | membershipTick => exact membershipTick_unobserved h
  | maybeResume i => exact maybeResume_unobserved i h
  | nemesisFire op => exact nemesisFire_unobserved op h
  | healPartition => rfl
  | linkUp a b => exact congrArg Except.ok (apply_ite unobserved _ _ _)
  | clearLossyLink a b => exact congrArg Except.ok (apply_ite unobserved _ _ _)

theorem deliver_unobserved (k : ℕ) (l : Letter Message) (h : Harness σ) :
    (h.deliver D c k l).map unobserved = h.unobserved.deliver D c.unrecorded k l := by
  unfold deliver
  rw [show h.unobserved.net = h.net from rfl]
  cases h.net.delivery k l with
  | error e => rfl
  | ok r =>
    obtain ⟨arrived, net⟩ := r
    cases arrived with
    | false => rfl
    | true => exact perform_unobserved l.dst _ _

theorem simStep_unobserved (h : Harness σ) : (h.simStep D c).map (Option.map unobserved) =
    h.unobserved.simStep D c.unrecorded := by
  have hsome : ∀ x : Except Failure (Harness σ),
      (x.map some).map (Option.map unobserved) = (x.map unobserved).map some := by
    intro x
    cases x <;> rfl
  unfold simStep
  rw [show h.unobserved.net = h.net from rfl]
  cases h.net.pop with
  | none => rfl
  | some r =>
    obtain ⟨e, net⟩ := r
    cases e with
    | delivery k l =>
      refine (hsome _).trans (congrArg (Except.map some) ?_)
      exact deliver_unobserved k l { h with net }
    | other job =>
      refine (hsome _).trans (congrArg (Except.map some) ?_)
      exact execute_unobserved job { h with net }

end Harness

/-- What has stopped a run, without what the cluster has recorded of its clients. -/
def Stopped.unobserved {σ : Type} : Stopped σ → Stopped σ
  | .violated v left => .violated v left.unobserved
  | .raised e => .raised e

namespace Harness
variable {σ : Type} {D : Platform σ} {c : HarnessSetup}

theorem step_unobserved (h : Harness σ) :
    Machine.view (Option.map unobserved) Stopped.unobserved (step D c h) =
      step D c.unrecorded h.unobserved := by
  unfold step
  -- the checker sees nodes and steps, which both clusters share
  rw [← simStep_unobserved]
  cases h.simStep D c with
  | error e => rfl
  | ok r =>
    cases r with
    | none => rfl
    | some h₁ =>
      dsimp only [Except.map, Option.map]
      rw [show h₁.unobserved.checker.check h₁.unobserved.nodes c.unrecorded.ids
        h₁.unobserved.steps = h₁.checker.check h₁.nodes c.ids h₁.steps from rfl]
      cases h₁.checker.check h₁.nodes c.ids h₁.steps with
      | ok checker => rfl
      | error e => cases e <;> rfl

theorem startDriver_unobserved (on : Bool) (delay : ℤ) (job : Job) (h : Harness σ) :
    (h.startDriver on delay job).map unobserved = h.unobserved.startDriver on delay job := by
  cases on with
  | false => rfl
  | true => exact schedule_unobserved delay job h

theorem init_unobserved (D : Platform σ) (c : HarnessSetup) :
    (init D c).map unobserved = init D c.unrecorded := by
  refine bind_through (foldlM_through (u := unobserved) (fun h i => ?_) c.ids (blank D c))
    fun h₁ => ?_
  · exact foldlM_through (call_unobserved i) _ h
  refine bind_through (startDriver_unobserved _ _ _ h₁) fun h₂ => ?_
  refine bind_through (startDriver_unobserved _ _ _ h₂) fun h₃ => ?_
  refine bind_through (startDriver_unobserved _ _ _ h₃) fun h₄ => ?_
  exact foldlM_through (fun h i => schedule_unobserved _ _ h) c.injections h₄

end Harness

/-- What a run leaves behind, without what it has recorded of its clients. -/
def Ending.unobserved {σ : Type} (out : Ending σ) : Ending σ :=
  { out with cluster := out.cluster.unobserved }

theorem ClusterOptions.setup_unrecorded (json : Json) (opts : ClusterOptions) :
    ({ opts with recordHistory := false } : ClusterOptions).setup json =
      (opts.setup json).map HarnessSetup.unrecorded := by
  refine (setup_map json opts opts.suppressed opts.seed false).trans ?_
  cases hc : opts.setup json with
  | error text => rfl
  | ok c =>
    obtain ⟨-, -, -, -, -, -, -, -, hmask, hseed, -⟩ := setup_ok hc
    dsimp only [Except.map]
    rw [← hmask, ← hseed]

/-- Whatever a cluster is built from and however long it runs: what it leaves behind when it
records a history is, apart from the history, what it leaves behind when it records none, and so
are its violation and its exception. -/
theorem ClusterOptions.play_unobserved {σ : Type} (D : Platform σ) (opts : ClusterOptions)
    (steps : ℤ) : (opts.play D steps).map Ending.unobserved =
      ({ opts with recordHistory := false } : ClusterOptions).play D steps := by
  unfold play
  rw [setup_unrecorded]
  cases opts.setup D.json with
  | error text => rfl
  | ok c =>
    dsimp only [Except.map]
    rw [← Harness.init_unobserved]
    cases Harness.init D c with
    | error e => rfl
    | ok h =>
      dsimp only [Except.map]
      rw [Harness.run, Harness.run, ← Machine.run_view Harness.step_unobserved]
      cases Machine.run (Harness.step D c) steps.toNat h with
      | ok h' => rfl
      | error e => cases e <;> rfl

end RaftVerified
