import Mathlib.Order.WellFounded

/-! Loops over a state: a round goes on with a new state or returns a result. -/
namespace Loop
variable {σ ρ : Type*} {body : σ → σ ⊕ ρ} {s s' : σ} {r : ρ} {fuel fuel' : ℕ}

/-- What the loop returns, if it does within `fuel` rounds. -/
def run (body : σ → σ ⊕ ρ) : ℕ → σ → Option ρ
  | 0, _ => none
  | fuel+1, s =>
    match body s with
    | .inl s' => run body fuel s'
    | .inr r => some r

theorem run_next (h : body s = .inl s') : run body (fuel+1) s = run body fuel s' := by
  rw [run, h]

theorem run_return (h : body s = .inr r) : run body (fuel+1) s = some r := by
  rw [run, h]

/-- More rounds than needed change nothing. -/
theorem run_mono (h : run body fuel s = some r) (hle : fuel ≤ fuel') :
    run body fuel' s = some r := by
  induction fuel generalizing s fuel' with
  | zero => cases h
  | succ fuel ih =>
    obtain ⟨k, rfl⟩ : ∃ k, fuel' = k+1 := ⟨fuel'-1, by omega⟩
    cases hb : body s with
    | inl s' =>
      rw [run_next hb] at h ⊢
      exact ih h (by omega)
    | inr r' =>
      rw [run_return hb] at h ⊢
      exact h

/-- The invariant rule: what every round preserves and every return turns into `Q`. -/
theorem run_rule {I : σ → Prop} {Q : ρ → Prop}
    (hstep : ∀ s s', I s → body s = .inl s' → I s')
    (hreturn : ∀ s r, I s → body s = .inr r → Q r)
    (hs : I s) (h : run body fuel s = some r) : Q r := by
  induction fuel generalizing s with
  | zero => cases h
  | succ fuel ih =>
    cases hb : body s with
    | inl s' =>
      rw [run_next hb] at h
      exact ih (hstep s s' hs hb) h
    | inr r' =>
      rw [run_return hb] at h
      obtain rfl := Option.some.inj h
      exact hreturn s r' hs hb

/-- A loop whose every round lowers a measure returns. -/
theorem run_total {I : σ → Prop} {size : σ → ℕ} (hstep : ∀ s s', I s → body s = .inl s' → I s')
    (hlt : ∀ s s', I s → body s = .inl s' → size s' < size s) (hs : I s) :
    ∃ r, run body (size s+1) s = some r := by
  generalize hn : size s = n
  induction n using Nat.strongRecOn generalizing s with
  | _ n ih =>
    cases hb : body s with
    | inl s' =>
      have hlt' := hlt s s' hs hb
      obtain ⟨r, hr⟩ := ih (size s') (by omega) (hstep s s' hs hb) rfl
      refine ⟨r, ?_⟩
      rw [run_next hb]
      exact run_mono hr (by omega)
    | inr r => exact ⟨r, run_return hb⟩

end Loop
