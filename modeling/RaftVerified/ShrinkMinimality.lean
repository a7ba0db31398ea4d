import Mathlib
import RaftVerified.ShrinkReproduction

/-! Whether a shrunk scenario needs each of its faults. The faults are minimised among the
ordinals of the original run at the original budget; the run that is delivered may assign
other ordinals, and is cut earlier. -/
namespace RaftVerified
namespace Shrink

/-! ### Delta debugging to a minimum -/

section
variable {α : Type} [DecidableEq α] {reproduces : List α → Bool} {elements r : List α} {fuel : ℕ}

theorem sublist_of_mem_complements {kept c : List α} {n : ℕ} (h : c ∈ complements kept n) :
    c.Sublist kept := by
  obtain ⟨⟨sub, -, rfl⟩, -⟩ := mem_complements.mp h
  exact List.filter_sublist

theorem ddmin_sublist (h : ddmin reproduces elements fuel = some r) : r.Sublist elements := by
  unfold ddmin at h
  split at h
  · obtain rfl := Option.some.inj h
    exact List.nil_sublist _
  · refine Loop.run_rule (I := fun s : List α × ℕ => s.1.Sublist elements)
      (Q := fun r => r.Sublist elements) ?_ ?_ (List.Sublist.refl _) h
    · intro s s' hs hround
      rcases ddminRound_next hround with ⟨c, hc, -, rfl⟩ | ⟨-, -, rfl⟩
      · exact (sublist_of_mem_complements hc).trans hs
      · exact hs
    · intro s r hs hround
      rw [(ddminRound_return hround).1]
      exact hs

/-- At the finest granularity every single element is left out once. -/
theorem mem_complements_single {kept : List α} {n : ℕ} (hnodup : kept.Nodup)
    (hlen : 2 ≤ kept.length) (hn : kept.length ≤ n) {e : α} (he : e ∈ kept) :
    kept.filter (· ≠ e) ∈ complements kept n := by
  have hchunk : max 1 (kept.length/n) = 1 := by
    have hdiv : kept.length/n ≤ 1 := Nat.div_le_of_le_mul (by omega)
    omega
  obtain ⟨i, hi, rfl⟩ := List.mem_iff_getElem.mp he
  rw [mem_complements, hchunk]
  refine ⟨⟨[kept[i]], List.mem_map.mpr ⟨i, ?_, ?_⟩, ?_⟩, ?_⟩
  · exact List.mem_range'.mpr ⟨i, by omega, by omega⟩
  · rw [List.drop_eq_getElem_cons hi]
    rfl
  · exact List.filter_congr fun x _ => decide_eq_decide.mpr (not_congr List.mem_singleton.symm)
  · -- another element is left
    obtain ⟨j, hj, hne⟩ : ∃ j, ∃ hj : j < kept.length, j ≠ i := by
      rcases Nat.eq_zero_or_pos i with rfl | hpos
      · exact ⟨1, by omega, Nat.one_ne_zero⟩
      · exact ⟨0, by omega, hpos.ne⟩
    refine List.ne_nil_of_mem (List.mem_filter.mpr ⟨List.getElem_mem hj, decide_eq_true ?_⟩)
    exact fun heq => hne (hnodup.getElem_inj_iff.mp heq)

/-- Without any one of its elements the result of `ddmin` does not reproduce. -/
theorem ddmin_minimal (hnodup : elements.Nodup)
    (h : ddmin reproduces elements fuel = some r) :
    ∀ e ∈ r, reproduces (r.filter (· ≠ e)) = false := by
  unfold ddmin at h
  split at h
  -- the empty list has no element to leave out
  · obtain rfl := Option.some.inj h
    exact nofun
  next hnil =>
    refine Loop.run_rule (I := fun s : List α × ℕ => s.1.Nodup)
      (Q := fun r => ∀ e ∈ r, reproduces (r.filter (· ≠ e)) = false) ?_ ?_ hnodup h
    · intro s s' hs hround
      rcases ddminRound_next hround with ⟨c, hc, -, rfl⟩ | ⟨-, -, rfl⟩
      · exact hs.sublist (sublist_of_mem_complements hc)
      · exact hs
    · intro s r hs hround e he
      obtain ⟨rfl, hend⟩ := ddminRound_return hround
      rcases Nat.lt_or_ge s.1.length 2 with hshort | hlen
      -- a single element: the empty list was tried first
      · obtain ⟨a, ha⟩ : ∃ a, s.1 = [a] := List.length_eq_one_iff.mp (by
          have hpos := List.length_pos_of_mem he
          omega)
        rw [ha] at he ⊢
        obtain rfl := List.mem_singleton.mp he
        have hgone : [e].filter (· ≠ e) = [] := by simp
        rw [hgone]
        simpa using hnil
      -- at full granularity the complements are the lists less one element
      · rcases hend with hshort | ⟨hle, hall⟩
        · exact absurd hshort (not_lt.mpr hlen)
        · exact hall _ (mem_complements_single hs hlen hle he)

theorem ddmin_reproduces (hall : reproduces elements = true)
    (h : ddmin reproduces elements fuel = some r) : reproduces r = true := by
  rcases ddmin_seen h with hr | ⟨rfl, -⟩
  · exact hr
  · exact hall

/-- `ddmin` ends with a subsequence that reproduces and from which no element can be removed,
whatever `reproduces` says of the lists in between. -/
theorem ddmin_one_minimal {α : Type} [DecidableEq α] (reproduces : List α → Bool)
    (elements : List α) (hnodup : elements.Nodup) (hall : reproduces elements = true) :
    ∃ r, (∃ fuel, ∀ fuel', fuel ≤ fuel' → ddmin reproduces elements fuel' = some r) ∧
      r.Sublist elements ∧ reproduces r = true ∧
      ∀ i < r.length, reproduces (r.eraseIdx i) = false := by
  obtain ⟨r, fuel, hfuel⟩ := ddmin_total reproduces elements
  have hr := hfuel fuel le_rfl
  have hsub := ddmin_sublist hr
  refine ⟨r, ⟨fuel, hfuel⟩, hsub, ddmin_reproduces hall hr, fun i hi => ?_⟩
  have hgone : r.eraseIdx i = r.filter (· ≠ r[i]) := by
    rw [← (hnodup.sublist hsub).erase_getElem i hi, (hnodup.sublist hsub).erase_eq_filter]
    exact List.filter_congr fun x _ => by rw [decide_not, bne, beq_eq_decide]
  rw [hgone]
  exact ddmin_minimal hnodup hr _ (List.getElem_mem hi)

/-- A failure of two faults that a third one hides, unless a fourth is there as well. -/
theorem masked_fault_minimal : ∃ r : List ℕ,
    (∃ fuel, ∀ fuel', fuel ≤ fuel' → ddmin (fun kept => decide (1 ∈ kept ∧ 4 ∈ kept ∧
      (2 ∈ kept → 5 ∈ kept))) (List.range 7) fuel' = some r) ∧
    r.Sublist (List.range 7) ∧ (1 ∈ r ∧ 4 ∈ r ∧ (2 ∈ r → 5 ∈ r)) ∧
    ∀ i < r.length, ¬ (1 ∈ r.eraseIdx i ∧ 4 ∈ r.eraseIdx i ∧
      (2 ∈ r.eraseIdx i → 5 ∈ r.eraseIdx i)) := by
  obtain ⟨r, hr, hsub, hrep, hmin⟩ := ddmin_one_minimal
    (fun kept => decide (1 ∈ kept ∧ 4 ∈ kept ∧ (2 ∈ kept → 5 ∈ kept))) (List.range 7)
    List.nodup_range (by decide)
  exact ⟨r, hr, hsub, of_decide_eq_true hrep, fun i hi => of_decide_eq_false (hmin i hi)⟩

end

/-! ### Runs -/

/-- The runs of a scenario under all masks: the first violation of each, whether the history
up to a step is linearizable, and how many ordinals have been assigned up to a step. -/
structure Runs where
  violation : Finset ℕ → Option (ℤ × Str)
  nonlinearizable : Finset ℕ → ℤ → Bool
  assigned : Finset ℕ → ℤ → ℕ
  started : ∀ mask k inv, violation mask = some (k, inv) →
    1 ≤ k ∧ inv ≠ "nonlinearizable".toList
  empty : ∀ mask steps, steps < 1 → nonlinearizable mask steps = false
  grows : ∀ mask, Monotone (assigned mask)

namespace Runs

def verdict (V : Runs) (s : Scenario) : Option Str :=
  if V.nonlinearizable s.suppressed s.steps then some "nonlinearizable".toList else none

/-- A run stops at its first violation, or else at the step budget. -/
def runner (V : Runs) : Runner where
  failureSignature s :=
    match V.violation s.suppressed with
    | some (k, inv) => if k ≤ s.steps then some inv else V.verdict s
    | none => V.verdict s
  faultCount s :=
    match V.violation s.suppressed with
    | some (k, _) => V.assigned s.suppressed (min k s.steps)
    | none => V.assigned s.suppressed s.steps
  events _ := []

variable (V : Runs) (scenario : Scenario)

/-- A mask of original ordinals under which the run still fails, and to which no other of them
can be added. -/
structure Saturated (signature : Str) (mask : Finset ℕ) : Prop where
  inside : mask ⊆ Finset.range (V.runner.faultCount scenario)
  fails : V.runner.failureSignature { scenario with suppressed := mask } = some signature
  full : ∀ o < V.runner.faultCount scenario, o ∉ mask →
    V.runner.failureSignature { scenario with suppressed := insert o mask } ≠ some signature

/-- No such mask, but the empty one, makes the run assign an ordinal that the original run has
not assigned. -/
def Bounded (signature : Str) : Prop :=
  ∀ mask : Finset ℕ, mask.Nonempty → V.Saturated scenario signature mask →
    V.runner.faultCount { scenario with suppressed := mask } ≤ V.runner.faultCount scenario

/-- Runs with as many ordinals and the same run without a mask, in which no other mask is
saturated; under those that are, the runs are cut by the same violation. -/
structure Alike (signature : Str) (V' : Runs) : Prop where
  assigned : V'.assigned = V.assigned
  unmasked : V'.violation ∅ = V.violation ∅
  saturated : ∀ mask : Finset ℕ, mask.Nonempty → V'.Saturated scenario signature mask →
    V.Saturated scenario signature mask ∧ V'.violation mask = V.violation mask

variable {V scenario}

theorem verdict_ne {signature : Str} (h : signature ≠ "nonlinearizable".toList) (s : Scenario) :
    V.verdict s ≠ some signature := by
  unfold verdict
  split
  · exact fun heq => h (Option.some.inj heq).symm
  · exact nofun

theorem signature_of_violation {s : Scenario} {k : ℤ} {inv : Str}
    (hv : V.violation s.suppressed = some (k, inv)) :
    V.runner.failureSignature s = if k ≤ s.steps then some inv else V.verdict s := by
  unfold runner
  dsimp only
  rw [hv]

theorem signature_of_none {s : Scenario} (hv : V.violation s.suppressed = none) :
    V.runner.failureSignature s = V.verdict s := by
  unfold runner
  dsimp only
  rw [hv]

theorem faultCount_of_violation {s : Scenario} {k : ℤ} {inv : Str}
    (hv : V.violation s.suppressed = some (k, inv)) :
    V.runner.faultCount s = V.assigned s.suppressed (min k s.steps) := by
  unfold runner
  dsimp only
  rw [hv]

/-- A failure that is not the verdict of the oracle is the first violation of the run. -/
theorem violation_of_signature {s : Scenario} {signature : Str}
    (hname : signature ≠ "nonlinearizable".toList)
    (h : V.runner.failureSignature s = some signature) :
    ∃ k, V.violation s.suppressed = some (k, signature) ∧ k ≤ s.steps := by
  cases hv : V.violation s.suppressed with
  | none =>
    rw [signature_of_none hv] at h
    exact absurd h (verdict_ne hname s)
  | some first =>
    obtain ⟨k, inv⟩ := first
    rw [signature_of_violation hv] at h
    split at h
    next hk =>
      obtain rfl := Option.some.inj h
      exact ⟨k, rfl, hk⟩
    next => exact absurd h (verdict_ne hname s)

end Runs

variable {V : Runs} {scenario : Scenario} {target : Option Str} {signature : Str} {fuel : ℕ}

section
variable {mask m : Finset ℕ} {extra : ℕ} {k : ℤ} {hk : 1 ≤ k}
  {hinv : signature ≠ "nonlinearizable".toList}

end

section
variable {V' : Runs}

/-- Runs with the same first violation and as many ordinals assign equally many before it. -/
theorem Runs.faultCount_congr {s : Scenario} (hassigned : V'.assigned = V.assigned)
    (hv : V'.violation s.suppressed = V.violation s.suppressed) :
    V'.runner.faultCount s = V.runner.faultCount s := by
  unfold runner
  dsimp only
  rw [hv, hassigned]

theorem Runs.faultCount_unmasked (hmask : scenario.suppressed = ∅)
    (hassigned : V'.assigned = V.assigned) (hv : V'.violation ∅ = V.violation ∅) :
    V'.runner.faultCount scenario = V.runner.faultCount scenario :=
  faultCount_congr hassigned (by rw [hmask, hv])

theorem Runs.Alike.fails (h : V.Alike scenario signature V')
    (hmask : scenario.suppressed = ∅) (hname : signature ≠ "nonlinearizable".toList)
    (hsig : V.runner.failureSignature scenario = some signature) :
    V'.runner.failureSignature scenario = some signature := by
  obtain ⟨k, hv, hle⟩ := violation_of_signature hname hsig
  rw [hmask, ← h.unmasked, ← hmask] at hv
  rw [signature_of_violation hv, if_pos hle]

theorem Runs.Alike.bounded (h : V.Alike scenario signature V') (hmask : scenario.suppressed = ∅)
    (hbounded : V.Bounded scenario signature) : V'.Bounded scenario signature := by
  intro mask hsome hsat
  obtain ⟨hsat, hv⟩ := h.saturated mask hsome hsat
  rw [faultCount_congr (s := { scenario with suppressed := mask }) h.assigned hv,
    faultCount_unmasked hmask h.assigned h.unmasked]
  exact hbounded mask hsome hsat

end

end Shrink
end RaftVerified
