import Mathlib.Tactic.Ring
import RaftVerified.Shrink

/-! What the two searches of the shrinker come to, for any predicate: both end, and each
returns either a candidate it has seen reproduce or what it started from. -/
namespace RaftVerified
namespace Shrink

/-! ### Delta debugging -/

section
variable {α : Type} {reproduces : List α → Bool} {elements kept c r : List α} {n fuel : ℕ}
  {s : List α × ℕ}

/-- Every chunk has a first element. -/
theorem exists_mem_subset {sub : List α} {chunk : ℕ} (hchunk : 1 ≤ chunk)
    (h : sub ∈ subsets kept chunk) : ∃ e ∈ kept, e ∈ sub := by
  obtain ⟨i, hi, rfl⟩ := List.mem_map.mp h
  obtain ⟨j, hj, rfl⟩ := List.mem_range'.mp hi
  have hlt : 0+chunk*j < kept.length := by
    have hmul : (j+1)*chunk ≤ kept.length+chunk-1 := (Nat.le_div_iff_mul_le hchunk).mp hj
    have hexp : (j+1)*chunk = chunk*j+chunk := by
      rw [Nat.add_mul, Nat.one_mul, Nat.mul_comm]
    omega
  refine ⟨kept[0+chunk*j], List.getElem_mem hlt, ?_⟩
  rw [List.drop_eq_getElem_cons hlt]
  obtain ⟨k, rfl⟩ : ∃ k, chunk = k+1 := ⟨chunk-1, by omega⟩
  exact List.mem_cons_self

variable [DecidableEq α]

theorem mem_complements : c ∈ complements kept n ↔
    (∃ sub ∈ subsets kept (max 1 (kept.length/n)), c = kept.filter (· ∉ sub)) ∧ c ≠ [] := by
  unfold complements
  rw [List.mem_filter, List.mem_map, decide_eq_true_iff]
  simp only [eq_comm]

theorem length_of_mem_complements (h : c ∈ complements kept n) : c.length < kept.length := by
  obtain ⟨⟨sub, hsub, rfl⟩, -⟩ := mem_complements.mp h
  obtain ⟨e, he, hes⟩ := exists_mem_subset (le_max_left _ _) hsub
  exact List.length_filter_lt_length_iff_exists.mpr ⟨e, he, by simpa using hes⟩

theorem complements_of_short (h : kept.length < 2) : complements kept n = [] := by
  refine List.eq_nil_iff_forall_not_mem.mpr fun c hc => ?_
  have hlt := length_of_mem_complements hc
  exact (mem_complements.mp hc).2 (List.length_eq_zero_iff.mp (by omega))

/-- What a round that goes on has done. -/
theorem ddminRound_next {s' : List α × ℕ} (h : ddminRound reproduces s = .inl s') :
    (∃ c ∈ complements s.1 s.2, reproduces c = true ∧ s' = (c, max (s.2-1) 2)) ∨
    ((∀ c ∈ complements s.1 s.2, reproduces c = false) ∧ s.2 < s.1.length ∧
      s' = (s.1, min s.1.length (s.2*2))) := by
  unfold ddminRound at h
  split at h
  · cases h
  · split at h
    next c hfind =>
      obtain rfl := Sum.inl.inj h
      exact Or.inl ⟨c, List.mem_of_find?_eq_some hfind, List.find?_some hfind, rfl⟩
    next hfind =>
      split at h
      · cases h
      next hlt =>
        obtain rfl := Sum.inl.inj h
        refine Or.inr ⟨fun c hc => ?_, not_le.mp hlt, rfl⟩
        simpa using List.find?_eq_none.mp hfind c hc

/-- A round returns its list when no candidate of the finest granularity reproduces. -/
theorem ddminRound_return (h : ddminRound reproduces s = .inr r) :
    r = s.1 ∧ (s.1.length < 2 ∨
      s.1.length ≤ s.2 ∧ ∀ c ∈ complements s.1 s.2, reproduces c = false) := by
  unfold ddminRound at h
  split at h
  next hshort => exact ⟨(Sum.inr.inj h).symm, Or.inl hshort⟩
  next =>
    split at h
    · cases h
    next hfind =>
      split at h
      next hle =>
        refine ⟨(Sum.inr.inj h).symm, Or.inr ⟨hle, fun c hc => ?_⟩⟩
        simpa using List.find?_eq_none.mp hfind c hc
      next => cases h

/-- The loop ends: a round shortens the list or refines the chunks. -/
theorem ddmin_total (reproduces : List α → Bool) (elements : List α) :
    ∃ r fuel, ∀ fuel', fuel ≤ fuel' → ddmin reproduces elements fuel' = some r := by
  unfold ddmin
  by_cases hnil : reproduces [] = true
  · exact ⟨[], 0, fun _ _ => if_pos hnil⟩
  · simp only [if_neg hnil]
    have hstep : ∀ s s' : List α × ℕ, 2 ≤ s.2 → ddminRound reproduces s = .inl s' → 2 ≤ s'.2 := by
      intro s s' hs h
      rcases ddminRound_next h with ⟨c, -, -, rfl⟩ | ⟨-, hlt, rfl⟩
      · exact le_max_right _ _
      · exact le_min (hs.trans hlt.le) (by omega)
    -- a round drops elements, or the granularity comes closer to their number
    have hlt : ∀ s s' : List α × ℕ, 2 ≤ s.2 → ddminRound reproduces s = .inl s' →
        s'.1.length*s'.1.length+(s'.1.length-s'.2) < s.1.length*s.1.length+(s.1.length-s.2) := by
      intro s s' hs h
      rcases ddminRound_next h with ⟨c, hc, -, rfl⟩ | ⟨-, hlt, rfl⟩
      · have hshort := length_of_mem_complements hc
        have hmul : (c.length+1)*(c.length+1) ≤ s.1.length*s.1.length :=
          Nat.mul_le_mul hshort hshort
        have hexp : (c.length+1)*(c.length+1) = c.length*c.length+2*c.length+1 := by ring
        change c.length*c.length+(c.length-_) < _
        omega
      · change s.1.length*s.1.length+(s.1.length-min s.1.length (s.2*2)) < _
        have hmin : s.2 < min s.1.length (s.2*2) := lt_min hlt (by omega)
        omega
    obtain ⟨r, hr⟩ := Loop.run_total hstep hlt (s := (elements, 2)) le_rfl
    exact ⟨r, _, fun fuel' hle => Loop.run_mono hr hle⟩

/-- How many chunks the list is cut into while nothing reproduces. -/
def granularity (length : ℕ) : ℕ → ℕ
  | 0 => 2
  | k+1 => min length (granularity length k*2)

/-- The lists that `ddmin` tries while nothing reproduces. -/
def Probe (elements c : List α) : Prop :=
  c = [] ∨ ∃ k, c ∈ complements elements (granularity elements.length k)

theorem granularity_last {length k : ℕ} (hlen : 2 ≤ length) (h : length ≤ granularity length k)
    (j : ℕ) : granularity length (k+j) = length := by
  induction j with
  | zero =>
    refine le_antisymm ?_ h
    cases k with
    | zero => exact hlen
    | succ k => exact min_le_left _ _
  | succ j ih =>
    change min length (granularity length (k+j)*2) = length
    rw [ih]
    omega

/-- What is returned reproduces, unless it is all of the list and nothing tried has. -/
theorem ddmin_seen (h : ddmin reproduces elements fuel = some r) :
    reproduces r = true ∨ r = elements ∧ ∀ c, Probe elements c → reproduces c = false := by
  unfold ddmin at h
  split at h
  next hnil =>
    obtain rfl := Option.some.inj h
    exact Or.inl hnil
  next hnil =>
    refine Loop.run_rule
      -- until something smaller reproduces, every complement tried so far has failed
      (I := fun s : List α × ℕ => reproduces s.1 = true ∨ s.1 = elements ∧
        ∃ k, s.2 = granularity elements.length k ∧ ∀ j < k,
          ∀ c ∈ complements elements (granularity elements.length j), reproduces c = false)
      (Q := fun r => reproduces r = true ∨
        r = elements ∧ ∀ c, Probe elements c → reproduces c = false)
      ?_ ?_ (Or.inr ⟨rfl, 0, rfl, nofun⟩) h
    -- a round that goes on
    · intro s s' hs hround
      rcases ddminRound_next hround with ⟨c, -, hc, rfl⟩ | ⟨hall, hlt, rfl⟩
      · exact Or.inl hc
      · rcases hs with hs | ⟨hs, k, hk, hfail⟩
        · exact Or.inl hs
        · refine Or.inr ⟨hs, k+1, ?_, fun j hj => ?_⟩
          · change min s.1.length (s.2*2) = min elements.length (granularity elements.length k*2)
            rw [hs, hk]
          · rcases Nat.lt_succ_iff_lt_or_eq.mp hj with hj | rfl
            · exact hfail j hj
            · rwa [hs, hk] at hall
    -- a round that returns: the granularity cannot grow any more
    · rintro s r hs hround
      obtain ⟨rfl, hend⟩ := ddminRound_return hround
      rcases hs with hs | ⟨hs, k, hk, hfail⟩
      · exact Or.inl hs
      · refine Or.inr ⟨hs, fun c hc => ?_⟩
        rw [hs] at hend
        rcases hc with rfl | ⟨j, hj⟩
        · simpa using hnil
        · rcases hend with hshort | ⟨hle, hall⟩
          · rw [complements_of_short hshort] at hj
            cases hj
          · rcases lt_or_ge j k with hlt | hge
            · exact hfail j hlt c hj
            · have hlen : 2 ≤ elements.length := by
                by_contra hshort
                rw [complements_of_short (by omega)] at hj
                cases hj
              rw [hk] at hle hall
              -- from here on the granularity is the number of elements
              obtain ⟨i, rfl⟩ := Nat.exists_eq_add_of_le hge
              rw [granularity_last hlen hle i, ← granularity_last hlen hle 0] at hj
              exact hall c hj

/-- When nothing tried reproduces, all of the list is returned. -/
theorem ddmin_unseen (hall : ∀ c, Probe elements c → reproduces c = false)
    (h : ddmin reproduces elements fuel = some r) : r = elements := by
  unfold ddmin at h
  split at h
  next hnil =>
    rw [hall [] (Or.inl rfl)] at hnil
    cases hnil
  next =>
    refine Loop.run_rule (I := fun s : List α × ℕ => s.1 = elements ∧
        ∃ k, s.2 = granularity elements.length k)
      (Q := fun r => r = elements) ?_ ?_ ⟨rfl, 0, rfl⟩ h
    · rintro s s' ⟨hs, k, hk⟩ hround
      rcases ddminRound_next hround with ⟨c, hc, hr, -⟩ | ⟨-, -, rfl⟩
      · rw [hs, hk] at hc
        rw [hall c (Or.inr ⟨k, hc⟩)] at hr
        cases hr
      · refine ⟨hs, k+1, ?_⟩
        change min s.1.length (s.2*2) = min elements.length (granularity elements.length k*2)
        rw [hs, hk]
    · rintro s r ⟨hs, -⟩ hround
      exact (ddminRound_return hround).1.trans hs

end

/-! ### The step budget -/

variable {fails : ℤ → Bool} {top : ℤ}

/-- The lower end of the search while no budget fails. -/
def lower (top : ℤ) : ℕ → ℤ
  | 0 => 1
  | j+1 => (lower top j+top)/2+1

/-- The budget that is tried next while no budget has failed. -/
def budget (top : ℤ) (j : ℕ) : ℤ := (lower top j+top)/2

theorem minStepsRound_next {s s' : ℤ × ℤ} (h : minStepsRound fails s = .inl s') : s.1 < s.2 ∧
    (fails ((s.1+s.2)/2) = true ∧ s' = (s.1, (s.1+s.2)/2) ∨
      fails ((s.1+s.2)/2) = false ∧ s' = ((s.1+s.2)/2+1, s.2)) := by
  unfold minStepsRound at h
  split at h
  next hlt =>
    dsimp only at h
    split at h
    next hf => exact ⟨hlt, Or.inl ⟨hf, (Sum.inl.inj h).symm⟩⟩
    next hf => exact ⟨hlt, Or.inr ⟨by simpa using hf, (Sum.inl.inj h).symm⟩⟩
  next => cases h

theorem minStepsRound_return {s : ℤ × ℤ} {r : ℤ} (h : minStepsRound fails s = .inr r) :
    r = s.1 ∧ s.2 ≤ s.1 := by
  unfold minStepsRound at h
  split at h
  · dsimp only at h
    split at h <;> cases h
  next hlt => exact ⟨(Sum.inr.inj h).symm, not_lt.mp hlt⟩

theorem minStepsRound_total (fails : ℤ → Bool) (top : ℤ) :
    ∃ r fuel, ∀ fuel', fuel ≤ fuel' → Loop.run (minStepsRound fails) fuel' (1, top) = some r := by
  have hlt : ∀ s s' : ℤ × ℤ, True → minStepsRound fails s = .inl s' →
      (s'.2-s'.1).toNat < (s.2-s.1).toNat := by
    intro s s' _ h
    obtain ⟨hlt, ⟨-, rfl⟩ | ⟨-, rfl⟩⟩ := minStepsRound_next h <;> dsimp only <;> omega
  obtain ⟨r, hr⟩ := Loop.run_total (I := fun _ => True) (fun _ _ _ _ => trivial) hlt
    (s := (1, top)) trivial
  exact ⟨r, _, fun fuel' hle => Loop.run_mono hr hle⟩

theorem lower_le (htop : 1 ≤ top) (j : ℕ) : lower top j ≤ top+1 := by
  induction j with
  | zero =>
    change (1 : ℤ) ≤ top+1
    omega
  | succ j ih =>
    change (lower top j+top)/2+1 ≤ top+1
    omega

theorem budget_last {j : ℕ} (htop : 1 ≤ top) (h : top ≤ lower top j) (i : ℕ) :
    budget top (j+i) = top := by
  have hle : top ≤ lower top (j+i) := by
    induction i with
    | zero => exact h
    | succ i ih =>
      change top ≤ (lower top (j+i)+top)/2+1
      omega
  have hge := lower_le htop (j+i)
  unfold budget
  omega

/-- The budget that is returned fails, unless it is the one started from and none of those
tried has failed. -/
theorem minSteps_seen {r : ℤ} {fuel : ℕ} (htop : 1 ≤ top)
    (h : Loop.run (minStepsRound fails) fuel (1, top) = some r) :
    fails r = true ∨ r = top ∧ ∀ j, fails (budget top j) = false := by
  by_cases hf : fails top = true
  · left
    -- the upper end has been seen to fail from the start
    refine Loop.run_rule (I := fun s : ℤ × ℤ => s.1 ≤ s.2 ∧ fails s.2 = true)
      (Q := fun r => fails r = true) ?_ ?_ ⟨htop, hf⟩ h
    · rintro s s' ⟨hle, hs⟩ hround
      obtain ⟨hlt, ⟨hmid, rfl⟩ | ⟨-, rfl⟩⟩ := minStepsRound_next hround
      · exact ⟨by dsimp only; omega, hmid⟩
      · exact ⟨by dsimp only; omega, hs⟩
    · rintro s r ⟨hle, hs⟩ hround
      obtain ⟨rfl, hge⟩ := minStepsRound_return hround
      rwa [le_antisymm hle hge]
  · -- the upper end is the full budget until a smaller one fails
    refine Loop.run_rule
      (I := fun s : ℤ × ℤ => s.1 ≤ s.2 ∧ (fails s.2 = true ∨ s.2 = top ∧
        ∃ j, s.1 = lower top j ∧ ∀ i < j, fails (budget top i) = false))
      (Q := fun r => fails r = true ∨ r = top ∧ ∀ j, fails (budget top j) = false)
      ?_ ?_ ⟨htop, Or.inr ⟨rfl, 0, rfl, nofun⟩⟩ h
    · rintro s s' ⟨hle, hs⟩ hround
      obtain ⟨hlt, ⟨hmid, rfl⟩ | ⟨hmid, rfl⟩⟩ := minStepsRound_next hround
      · exact ⟨by dsimp only; omega, Or.inl hmid⟩
      · refine ⟨by dsimp only; omega, hs.imp_right ?_⟩
        rintro ⟨htop', j, hj, hfail⟩
        rw [hj, htop'] at hmid
        refine ⟨htop', j+1, ?_, fun i hi => ?_⟩
        · change (s.1+s.2)/2+1 = (lower top j+top)/2+1
          rw [hj, htop']
        · rcases Nat.lt_succ_iff_lt_or_eq.mp hi with hi | rfl
          · exact hfail i hi
          · exact hmid
    · rintro s r ⟨hle, hs⟩ hround
      obtain ⟨rfl, hge⟩ := minStepsRound_return hround
      -- the search has ended at the full budget, which was never probed below
      have heq : s.1 = s.2 := le_antisymm hle hge
      rcases hs with hs | ⟨htop', j, hj, hfail⟩
      · exact Or.inl (heq ▸ hs)
      · refine Or.inr ⟨heq.trans htop', fun i => ?_⟩
        rcases lt_or_ge i j with hi | hi
        · exact hfail i hi
        · obtain ⟨k, rfl⟩ := Nat.exists_eq_add_of_le hi
          rw [budget_last htop (by omega) k]
          simpa using hf

theorem minSteps_unseen {r : ℤ} {fuel : ℕ} (htop : 1 ≤ top)
    (hall : ∀ j, fails (budget top j) = false)
    (h : Loop.run (minStepsRound fails) fuel (1, top) = some r) : r = top := by
  refine Loop.run_rule (I := fun s : ℤ × ℤ => s.1 ≤ s.2 ∧ s.2 = top ∧ ∃ j, s.1 = lower top j)
    (Q := fun r => r = top) ?_ ?_ ⟨htop, rfl, 0, rfl⟩ h
  · rintro s s' ⟨hle, hs, j, hj⟩ hround
    obtain ⟨hlt, ⟨hmid, -⟩ | ⟨-, rfl⟩⟩ := minStepsRound_next hround
    · rw [hj, hs] at hmid
      exact absurd hmid (by rw [← budget, hall j]; exact nofun)
    · refine ⟨by dsimp only; omega, hs, j+1, ?_⟩
      change (s.1+s.2)/2+1 = (lower top j+top)/2+1
      rw [hj, hs]
  · rintro s r ⟨hle, hs, -⟩ hround
    obtain ⟨rfl, hge⟩ := minStepsRound_return hround
    exact (le_antisymm hle hge).trans hs

end Shrink
end RaftVerified
