import RaftVerified.HarnessReturns

/-! A suppression mask acts on the faults it names and on nothing before them: runs under masks
that agree below an ordinal are the same run for as long as no later ordinal is assigned. -/
namespace RaftVerified

/-- The cluster under another mask. -/
abbrev HarnessSetup.masked (c : HarnessSetup) (mask : Finset ℕ) : HarnessSetup :=
  { c with suppressed := mask }

/-- Two masks that name the same of the first `k` ordinals. -/
def AlikeBelow (k : ℕ) (mask mask' : Finset ℕ) : Prop := ∀ o < k, o ∈ mask ↔ o ∈ mask'

/-- The mask, the seed and whether a history is recorded decide nothing about whether arguments
are accepted. -/
theorem ClusterOptions.setup_map (json : Json) (opts : ClusterOptions) (mask : Finset ℕ) (z : ℤ)
    (b : Bool) :
    ({ opts with suppressed := mask, seed := z, recordHistory := b } : ClusterOptions).setup json =
      (opts.setup json).map fun c =>
        { c with suppressed := mask, seed := z, recordHistory := b } := by
  unfold setup
  by_cases hn : opts.numNodes < 1
  · rw [if_pos hn, if_pos hn]
    rfl
  rw [if_neg hn, if_neg hn]
  dsimp only
  cases Profile.named opts.faults with
  | none => rfl
  | some profile =>
    dsimp only
    by_cases hm : opts.membership = true ∧ opts.numNodes < 3
    · rw [dif_pos hm, dif_pos hm]
      rfl
    rw [dif_neg hm, dif_neg hm]
    -- the voters are the same, so the remaining checks are
    by_cases hv : (⟨opts.numNodes.toNat, opts.voters, opts.config, opts.bugs⟩ : Setup).Accepted
    · by_cases hk : ∀ s ∈ opts.nemesis, s.maxNode < (opts.numNodes.toNat : ℤ)
      · refine ((dif_pos hv).trans (dif_pos hk)).trans ?_
        rw [dif_pos hv, dif_pos hk]
        rfl
      · refine ((dif_pos hv).trans (dif_neg hk)).trans ?_
        rw [dif_pos hv, dif_neg hk]
        rfl
    · refine (dif_neg hv).trans ?_
      rw [dif_neg hv]
      rfl

namespace Harness
variable {σ : Type} {D : Platform σ} {c : HarnessSetup} {h h' : Harness σ} {mask : Finset ℕ}
  {k : ℕ}

/-- A fault with an ordinal below `k` happens under both masks or under neither. -/
theorem fireFault_masked (hm : AlikeBelow k c.suppressed mask) {r : Bool × Harness σ}
    (hr : h.fireFault c = r) (hk : r.2.faultSeq ≤ k) : h.fireFault (c.masked mask) = r := by
  rw [← hr] at hk ⊢
  have hlt : h.faultSeq < k := hk
  unfold fireFault
  rw [Prod.mk.injEq]
  exact ⟨decide_eq_decide.mpr (not_congr (hm h.faultSeq hlt).symm), rfl⟩

theorem partitionTick_masked (hm : AlikeBelow k c.suppressed mask)
    (hs : h.partitionTick D c = .ok h') (hk : h'.faultSeq ≤ k) :
    h.partitionTick D (c.masked mask) = .ok h' := by
  unfold partitionTick at hs ⊢
  dsimp only at hs ⊢
  split at hs
  next hoff =>
    rw [if_pos hoff]
    exact hs
  next hon =>
    rw [if_neg hon]
    split at hs
    next hpart =>
      rw [if_pos hpart]
      exact hs
    next hwhole =>
      rw [if_neg hwhole]
      split at hs
      next hlow =>
        rw [if_pos hlow]
        obtain ⟨s, hs₁, hs⟩ := bind_ok.mp hs
        refine bind_ok.mpr ⟨s, hs₁, ?_⟩
        split at hs
        next hempty =>
          rw [if_pos hempty]
          exact hs
        next hsides =>
          rw [if_neg hsides]
          split at hs
          next h₁ heq =>
            obtain rfl := Except.ok.inj hs
            rw [show s.2.fireFault _ = _ from fireFault_masked hm heq hk]
          -- the ordinal is below what the tick leaves, since nothing takes ordinals back
          next h₁ heq =>
            obtain ⟨net, -, hset⟩ := setPartition_effect (c := c) hs
            rw [show s.2.fireFault _ = _ from fireFault_masked hm heq (hset.seq.trans hk)]
            exact hs
      next hhigh =>
        rw [if_neg hhigh]
        exact hs

theorem crashTick_masked (hm : AlikeBelow k c.suppressed mask)
    (hs : h.crashTick D c = .ok h') (hk : h'.faultSeq ≤ k) :
    h.crashTick D (c.masked mask) = .ok h' := by
  unfold crashTick at hs ⊢
  dsimp only at hs ⊢
  split at hs
  next hoff =>
    rw [if_pos hoff]
    exact hs
  next hon =>
    rw [if_neg hon]
    split at hs
    next hlow =>
      rw [if_pos hlow]
      split at hs
      next hnone =>
        rw [show (h.random D).2.candidates (c.masked mask) = _ from hnone, if_pos rfl]
        exact hs
      next hsome =>
        obtain ⟨v, hv, hs⟩ := bind_ok.mp hs
        obtain ⟨delay, hdelay, hs⟩ := bind_ok.mp hs
        rw [if_neg (show (h.random D).2.candidates (c.masked mask) ≠ [] from hsome)]
        refine bind_ok.mpr ⟨v, hv, bind_ok.mpr ⟨delay, hdelay, ?_⟩⟩
        split at hs
        next h₁ heq =>
          obtain rfl := Except.ok.inj hs
          rw [show delay.2.fireFault _ = _ from fireFault_masked hm heq hk]
        next h₁ heq =>
          obtain ⟨h₂, h₂ok, hsched⟩ := bind_ok.mp hs
          have hmem : v.1 ∈ (h.random D).2.candidates c := (choice_effect (c := c) hv).1
          unfold candidates at hmem
          split at hmem
          next =>
            have hpause := pause_effect (List.mem_filter.mp hmem).1 h₂ok
            have hle : h₁.faultSeq ≤ h'.faultSeq :=
              hpause.seq.trans (schedule_effect (c := c) hsched).seq
            rw [show delay.2.fireFault _ = _ from fireFault_masked hm heq (hle.trans hk)]
            exact hs
          next => cases hmem
    next hhigh =>
      rw [if_neg hhigh]
      exact hs

theorem faultTick_masked (hm : AlikeBelow k c.suppressed mask)
    (hs : h.faultTick D c = .ok h') (hk : h'.faultSeq ≤ k) :
    h.faultTick D (c.masked mask) = .ok h' := by
  obtain ⟨h₁, h₁ok, hs⟩ := bind_ok.mp hs
  obtain ⟨h₂, h₂ok, hs⟩ := bind_ok.mp hs
  obtain ⟨run, jobs, net, -, hcrash⟩ := crashTick_effect h₂ok
  have hk₂ : h₂.faultSeq ≤ k := (schedule_effect (c := c) hs).seq.trans hk
  exact bind_ok.mpr ⟨h₁, partitionTick_masked hm h₁ok (hcrash.seq.trans hk₂),
    bind_ok.mpr ⟨h₂, crashTick_masked hm h₂ok hk₂, hs⟩⟩

theorem inject_masked {fault : Harness σ → Except Failure (Harness σ)} {delay : ℤ} {recovery : Job}
    (hfault : ∀ h₁ h₂, fault h₁ = .ok h₂ → h₁.faultSeq ≤ h₂.faultSeq)
    (hm : AlikeBelow k c.suppressed mask) (hs : h.inject c fault delay recovery = .ok h')
    (hk : h'.faultSeq ≤ k) : h.inject (c.masked mask) fault delay recovery = .ok h' := by
  unfold inject at hs ⊢
  split at hs
  next h₁ heq =>
    obtain rfl := Except.ok.inj hs
    rw [fireFault_masked hm heq hk]
  next h₁ heq =>
    obtain ⟨h₂, h₂ok, hsched⟩ := bind_ok.mp hs
    have hle := (hfault h₁ h₂ h₂ok).trans (schedule_effect (c := c) hsched).seq
    rw [fireFault_masked hm heq (hle.trans hk)]
    exact hs

theorem setPartition_seq {groups : List (List NodeId)} {h₁ h₂ : Harness σ}
    (hs : h₁.setPartition groups = .ok h₂) : h₁.faultSeq ≤ h₂.faultSeq := by
  unfold setPartition at hs
  split at hs
  · obtain rfl := Except.ok.inj hs
    exact le_rfl
  · cases hs

theorem nemesisFire_masked {op : NemesisOp} (hop : c.Injects op)
    (hm : AlikeBelow k c.suppressed mask) (hs : h.nemesisFire D c op = .ok h')
    (hk : h'.faultSeq ≤ k) : h.nemesisFire D (c.masked mask) op = .ok h' := by
  cases op with
  | partitionHalves t duration =>
    unfold nemesisFire at hs ⊢
    dsimp only at hs ⊢
    split at hs
    next hempty =>
      rw [if_pos hempty]
      exact hs
    next hsides =>
      rw [if_neg hsides]
      exact inject_masked (fun _ _ => setPartition_seq) hm hs hk
  | isolateLeader t duration =>
    unfold nemesisFire at hs ⊢
    dsimp only at hs ⊢
    rw [show h.leader (c.masked mask) = h.leader c from rfl]
    split at hs
    next hl => exact hs
    next victim hl =>
      split at hs
      next hfew =>
        rw [if_pos hfew]
        exact hs
      next hmany =>
        rw [if_neg hmany]
        exact inject_masked (fun _ _ => setPartition_seq) hm hs hk
  | flappingLink a b t period cycles =>
    refine inject_masked (fun h₁ h₂ hok => ?_) hm hs hk
    obtain rfl := Except.ok.inj hok
    exact (linkDown_effect (c := c) a b).seq
  | lossyLink a b t duration dropP =>
    refine inject_masked (fun h₁ h₂ hok => ?_) hm hs hk
    obtain rfl := Except.ok.inj hok
    exact (setLossyLink_effect (c := c) a b dropP).seq
  | crashNode node t duration =>
    have hid : node ∈ c.ids := hop.named List.mem_cons_self hop.valid.1
    unfold nemesisFire at hs ⊢
    dsimp only at hs ⊢
    split at hs
    next hdown =>
      rw [if_pos hdown]
      exact hs
    next hup =>
      rw [if_neg hup]
      exact inject_masked (fun h₁ h₂ hok => (pause_effect hid hok).seq) hm hs hk

theorem execute_masked {job : Job} (hj : job.Wired c) (hm : AlikeBelow k c.suppressed mask)
    (hs : h.execute D c job = .ok h') (hk : h'.faultSeq ≤ k) :
    h.execute D (c.masked mask) job = .ok h' := by
  cases job with
  | faultTick => exact faultTick_masked hm hs hk
  | nemesisFire op => exact nemesisFire_masked hj hm hs hk
  -- the other jobs assign no ordinal
  | timer i t => cases t <;> exact hs
  | clientTick => exact hs
  | membershipTick => exact hs
  | maybeResume i => exact hs
  | healPartition => exact hs
  | linkUp a b => exact hs
  | clearLossyLink a b => exact hs

theorem simStep_masked (hw : h.Wired c) (hm : AlikeBelow k c.suppressed mask)
    (hs : h.simStep D c = .ok (some h')) (hk : h'.faultSeq ≤ k) :
    h.simStep D (c.masked mask) = .ok (some h') := by
  unfold simStep at hs ⊢
  split at hs
  next => cases hs
  next => exact hs
  next job net hpop =>
    have hjob : job.Wired c := hw.turn (turned_job hpop) job rfl
    obtain ⟨h₁, h₁ok, hs⟩ := map_ok.mp hs
    obtain rfl := Option.some.inj hs
    exact map_ok.mpr ⟨h₁, execute_masked hjob hm h₁ok hk, rfl⟩

theorem simStep_seq (hw : h.Wired c) (hs : h.simStep D c = .ok (some h')) :
    h.faultSeq ≤ h'.faultSeq := by
  obtain ⟨h₁, turn, run, jobs, net, ht, -, he⟩ := simStep_cases hw hs
  exact ht.seq.ge.trans he.seq

theorem step_seq (hr : h.Reached c) (hs : Harness.step D c h = .ok (some h')) :
    h.faultSeq ≤ h'.faultSeq := by
  obtain ⟨h₁, checker, hsim, -, rfl⟩ := step_cases hs
  have hle := simStep_seq hr.wired hsim
  exact hle

/-- Ordinals are never taken back. -/
theorem run_seq (hr : h.Reached c) (n : ℕ) :
    (∀ h', Harness.run D c n h = .ok h' → h.faultSeq ≤ h'.faultSeq) ∧
      ∀ v left, Harness.run D c n h = .error (.violated v left) →
        h.faultSeq ≤ left.faultSeq := by
  -- on the path from `h` every state is reached and has ordinals beyond those of `h`
  have hkeep : ∀ t past, Machine.Path (Harness.step D c) h (t :: past) →
      t.Reached c ∧ h.faultSeq ≤ t.faultSeq := fun t past hp =>
    hp.rule (P := fun t => t.Reached c ∧ h.faultSeq ≤ t.faultSeq) ⟨hr, le_rfl⟩
      (fun u u' hu hs => ⟨hu.1.step hs, hu.2.trans (step_seq hu.1 hs)⟩) t List.mem_cons_self
  have hstart : Machine.Path (Harness.step D c) h [h] := .init
  refine ⟨fun t ht => ?_, fun v left hv => ?_⟩
  · obtain ⟨past, hpath, -⟩ := hstart.run ht
    exact (hkeep t past hpath).2
  · obtain ⟨u, past, hpath, hraise, -⟩ := hstart.raise hv
    obtain ⟨hru, hle⟩ := hkeep u past hpath
    exact hle.trans (simStep_seq hru.wired (step_violated.mp hraise).1)

/-- Where a run that stops has left its cluster, if that is known, no ordinal is beyond `k`. -/
def Stopped.Within (k : ℕ) : Stopped σ → Prop
  | .violated _ left => left.faultSeq ≤ k
  | .raised _ => False

/-- Under a mask that is alike below `k`, the cluster takes the steps it takes under its own for
as long as no ordinal from `k` on is assigned. -/
theorem step_masked (hm : AlikeBelow k c.suppressed mask) :
    Machine.Follows (step D c) (step D (c.masked mask)) (Reached c) (fun h => h.faultSeq ≤ k)
      (Stopped.Within k) where
  error := by
    intro h e hr hs hk
    cases e with
    -- where a step raises, nothing is known of the ordinals
    | raised e => exact hk.elim
    | violated v left =>
      obtain ⟨hsim, hck⟩ := step_violated.mp hs
      exact ⟨(simStep_seq hr.wired hsim).trans hk,
        step_violated.mpr ⟨simStep_masked hr.wired hm hsim hk, hck⟩⟩
  none := fun h _ hs => step_none.mpr (step_none.mp hs)
  some := by
    intro h h' hr hs
    refine ⟨hr.step hs, fun hk => ?_⟩
    obtain ⟨h₁, checker, hsim, hck, rfl⟩ := step_cases hs
    exact ⟨(simStep_seq hr.wired hsim).trans hk,
      step_ok (simStep_masked hr.wired hm hsim hk) hck⟩

/-- What a run has come to, or the violation that has ended it, stands under every mask that is
alike below the number of ordinals assigned. -/
theorem run_masked (h₀ : Harness.init D c = .ok h) (hm : AlikeBelow k c.suppressed mask) (n : ℕ) :
    (∀ h', Harness.run D c n h = .ok h' → h'.faultSeq ≤ k →
      Harness.run D (c.masked mask) n h = .ok h') ∧
    ∀ v left, Harness.run D c n h = .error (.violated v left) → left.faultSeq ≤ k →
      Harness.run D (c.masked mask) n h = .error (.violated v left) := by
  obtain ⟨hok, hraise⟩ := (step_masked (D := D) hm).run (init_reached h₀) n
  exact ⟨fun h' hrun hk => (hok h' hrun hk).2, fun v left hrun hk => (hraise _ hrun hk).2⟩

end Harness
end RaftVerified
