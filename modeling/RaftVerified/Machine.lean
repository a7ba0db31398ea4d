import Mathlib.Data.List.Basic

/-! Deterministic machines: a step raises, finds nothing to do or goes on. -/

abbrev Machine (σ ε : Type*) := σ → Except ε (Option σ)

namespace Machine
variable {σ ε : Type*} {step step' : Machine σ ε} {s s' t : σ} {e : ε} {past : List σ} {n m : ℕ}

/-- At most `n` steps. A machine that finds nothing to do stays where it is. -/
def run (step : Machine σ ε) : ℕ → σ → Except ε σ
  | 0, s => .ok s
  | n+1, s =>
    match step s with
    | .error e => .error e
    | .ok none => .ok s
    | .ok (some s') => run step n s'

/-- Steps until the state is as wanted, at most `n`. -/
def runUntil (step : Machine σ ε) (wanted : σ → Bool) : ℕ → σ → Except ε (Bool × σ)
  | 0, s => .ok (wanted s, s)
  | n+1, s =>
    if wanted s then .ok (true, s)
    else match step s with
      | .error e => .error e
      | .ok none => .ok (false, s)
      | .ok (some s') => runUntil step wanted n s'

/-- The states of a run from `start`, the newest first. -/
inductive Path (step : Machine σ ε) (start : σ) : List σ → Prop
  | init : Path step start [start]
  | step {s s' : σ} {past : List σ} : Path step start (s :: past) → step s = .ok (some s') →
      Path step start (s' :: s :: past)

theorem run_error (h : step s = .error e) : run step (n+1) s = .error e := by
  rw [run, h]

theorem run_none (h : step s = .ok none) : run step n s = .ok s := by
  cases n with
  | zero => rfl
  | succ n => rw [run, h]

theorem run_some (h : step s = .ok (some s')) : run step (n+1) s = run step n s' := by
  rw [run, h]

/-- What has ended a run ends every longer one. -/
theorem run_more (h : run step n s = .error e) (hle : n ≤ m) : run step m s = .error e := by
  induction n generalizing s m with
  | zero => cases h
  | succ n ih =>
    obtain ⟨m, rfl⟩ : ∃ k, m = k+1 := ⟨m-1, by omega⟩
    cases hs : step s with
    | error e' =>
      rw [run_error hs] at h ⊢
      exact h
    | ok r =>
      cases r with
      | none =>
        rw [run_none hs] at h
        cases h
      | some s' =>
        rw [run_some hs] at h ⊢
        exact ih h (by omega)

/-- Two runs in a row are one. -/
theorem run_add (n m : ℕ) (s : σ) : run step (n+m) s = run step n s >>= run step m := by
  induction n generalizing s with
  | zero => rw [Nat.zero_add]; rfl
  | succ n ih =>
    rw [Nat.add_right_comm]
    cases hs : step s with
    | error e =>
      rw [run_error hs, run_error hs]
      rfl
    | ok r =>
      cases r with
      | none =>
        rw [run_none hs, run_none hs]
        exact (run_none hs).symm
      | some s' =>
        rw [run_some hs, run_some hs]
        exact ih s'

/-! ### Until something is seen -/

variable {wanted : σ → Bool} {found : Bool}

/-- What `runUntil` leaves is the end of a run. Nothing before it was as wanted, and it is where the
full run ends if it is not as wanted either. -/
theorem runUntil_ok (h : runUntil step wanted n s = .ok (found, t)) : wanted t = found ∧
    ∃ m ≤ n, run step m s = .ok t ∧ (∀ k < m, ∀ u, run step k s = .ok u → wanted u = false) ∧
      (found = false → run step n s = .ok t) := by
  induction n generalizing s with
  | zero =>
    obtain ⟨rfl, rfl⟩ := Prod.mk.inj (Except.ok.inj h)
    exact ⟨rfl, 0, Nat.le_refl _, rfl, fun k hk => absurd hk k.not_lt_zero, fun _ => rfl⟩
  | succ n ih =>
    rw [runUntil] at h
    by_cases hw : wanted s
    · rw [if_pos hw] at h
      obtain ⟨rfl, rfl⟩ := Prod.mk.inj (Except.ok.inj h)
      exact ⟨hw, 0, Nat.zero_le _, rfl, fun k hk => absurd hk k.not_lt_zero, fun hf => by cases hf⟩
    · rw [if_neg hw] at h
      replace hw : wanted s = false := Bool.eq_false_iff.mpr hw
      cases hs : step s with
      | error e =>
        rw [hs] at h
        cases h
      | ok r =>
        rw [hs] at h
        cases r with
        | none =>
          -- the queue is empty: the source returns without asking again
          obtain ⟨rfl, rfl⟩ := Prod.mk.inj (Except.ok.inj h)
          exact ⟨hw, 0, Nat.zero_le _, rfl, fun k hk => absurd hk k.not_lt_zero,
            fun _ => run_none hs⟩
        | some s' =>
          obtain ⟨heq, m, hle, hrun, hbefore, hmissed⟩ := ih h
          refine ⟨heq, m+1, Nat.succ_le_succ hle, (run_some hs).trans hrun, fun k hk u hu => ?_,
            fun hf => (run_some hs).trans (hmissed hf)⟩
          cases k with
          | zero =>
            obtain rfl := Except.ok.inj hu
            exact hw
          | succ k => exact hbefore k (Nat.lt_of_succ_lt_succ hk) u ((run_some hs).symm.trans hu)

/-- `runUntil` raises what a run of as many steps raises. -/
theorem runUntil_error (h : runUntil step wanted n s = .error e) : run step n s = .error e := by
  induction n generalizing s with
  | zero => cases h
  | succ n ih =>
    rw [runUntil] at h
    by_cases hw : wanted s
    · rw [if_pos hw] at h
      cases h
    · rw [if_neg hw] at h
      cases hs : step s with
      | error e' =>
        rw [hs] at h
        rw [run_error hs, Except.error.inj h]
      | ok r =>
        rw [hs] at h
        cases r with
        | none => cases h
        | some s' => exact (run_some hs).trans (ih h)

namespace Path
variable {start : σ}

theorem exists_cons {ss : List σ} (h : Path step start ss) : ∃ s past, ss = s :: past := by
  cases h with
  | init => exact ⟨_, _, rfl⟩
  | step _ _ => exact ⟨_, _, rfl⟩

/-- What `n` steps leave is the newest state of a run that has made them. -/
theorem run (h : Path step start (s :: past)) (hr : run step n s = .ok t) :
    ∃ later, Path step start (t :: later) ∧ later.length ≤ past.length+n ∧
      ∃ between, t :: later = between ++ s :: past := by
  induction n generalizing s past with
  | zero =>
    obtain rfl := Except.ok.inj hr
    exact ⟨past, h, Nat.le_add_right _ _, [], rfl⟩
  | succ n ih =>
    cases hs : step s with
    | error e =>
      rw [run_error hs] at hr
      cases hr
    | ok r =>
      cases r with
      | none =>
        rw [run_none hs] at hr
        obtain rfl := Except.ok.inj hr
        exact ⟨past, h, Nat.le_add_right _ _, [], rfl⟩
      | some s' =>
        rw [run_some hs] at hr
        obtain ⟨later, hpath, hlen, between, heq⟩ := ih (.step h hs) hr
        refine ⟨later, hpath, ?_, between ++ [s'], ?_⟩
        · rw [List.length_cons] at hlen
          omega
        · rw [heq, List.append_assoc, List.singleton_append]

/-- A machine that always finds something to do makes all its steps. -/
theorem run_all (h : Path step start (s :: past)) (hr : Machine.run step n s = .ok t)
    (hmore : ∀ u later, Path step start (u :: later) → step u ≠ .ok none) :
    ∃ later, Path step start (t :: later) ∧ later.length = past.length+n := by
  induction n generalizing s past with
  | zero =>
    obtain rfl := Except.ok.inj hr
    exact ⟨past, h, rfl⟩
  | succ n ih =>
    cases hs : step s with
    | error e =>
      rw [run_error hs] at hr
      cases hr
    | ok r =>
      cases r with
      | none => exact absurd hs (hmore s past h)
      | some s' =>
        rw [run_some hs] at hr
        obtain ⟨later, hpath, hlen⟩ := ih (.step h hs) hr
        refine ⟨later, hpath, ?_⟩
        rw [List.length_cons] at hlen
        omega

/-- A run that raises has come to a state whose step raises. -/
theorem raise (h : Path step start (s :: past)) (hr : Machine.run step n s = .error e) :
    ∃ t later, Path step start (t :: later) ∧ step t = .error e ∧
      later.length < past.length+n := by
  induction n generalizing s past with
  | zero => cases hr
  | succ n ih =>
    cases hs : step s with
    | error e' =>
      rw [run_error hs] at hr
      obtain rfl := Except.error.inj hr
      exact ⟨s, past, h, hs, by omega⟩
    | ok r =>
      cases r with
      | none =>
        rw [run_none hs] at hr
        cases hr
      | some s' =>
        rw [run_some hs] at hr
        obtain ⟨t, later, hpath, hraise, hlen⟩ := ih (.step h hs) hr
        refine ⟨t, later, hpath, hraise, ?_⟩
        rw [List.length_cons] at hlen
        omega

/-- A machine none of whose steps raises can be run for any number of steps. -/
theorem returns (h : Path step start (s :: past))
    (hstep : ∀ t later, Path step start (t :: later) → ∃ r, step t = .ok r) (n : ℕ) :
    ∃ t, Machine.run step n s = .ok t := by
  cases hr : Machine.run step n s with
  | ok t => exact ⟨t, rfl⟩
  | error e =>
    obtain ⟨t, later, hpath, hraise, -⟩ := h.raise hr
    obtain ⟨r, hok⟩ := hstep t later hpath
    rw [hraise] at hok
    cases hok

/-- The run that a path is. -/
theorem length_run (h : Path step start (s :: past)) :
    Machine.run step past.length start = .ok s := by
  generalize hss : s :: past = ss at h
  induction h generalizing s past with
  | init =>
    obtain ⟨rfl, rfl⟩ := List.cons.inj hss
    rfl
  | @step u u' before hpath hs ih =>
    obtain ⟨rfl, rfl⟩ := List.cons.inj hss
    rw [List.length_cons, run_add, ih rfl]
    exact run_some hs

/-- What holds at the start and is kept by every step holds all along. -/
theorem rule {P : σ → Prop} (h : Path step start (s :: past)) (hinit : P start)
    (hkeep : ∀ t t', P t → step t = .ok (some t') → P t') : ∀ t ∈ s :: past, P t := by
  generalize hss : s :: past = ss at h
  induction h generalizing s past with
  | init =>
    intro t ht
    rw [List.mem_singleton.mp ht]
    exact hinit
  | step hpath hs ih =>
    intro t ht
    rcases List.mem_cons.mp ht with rfl | ht
    · exact hkeep _ _ (ih rfl _ List.mem_cons_self) hs
    · exact ih rfl t ht

end Path

/-! ### Two machines -/

/-- A result seen through `u`, an error through `w`. -/
def view {σ τ ε δ : Type*} (u : σ → τ) (w : ε → δ) : Except ε σ → Except δ τ
  | .ok s => .ok (u s)
  | .error e => .error (w e)

/-- A machine whose steps, seen through two maps, are those of another has its runs too. -/
theorem run_view {τ δ : Type*} {other : Machine τ δ} {u : σ → τ} {w : ε → δ}
    (h : ∀ s, view (Option.map u) w (step s) = other (u s)) (n : ℕ) (s : σ) :
    view u w (run step n s) = run other n (u s) := by
  induction n generalizing s with
  | zero => rfl
  | succ n ih =>
    have hstep := h s
    cases hs : step s with
    | error e =>
      rw [hs] at hstep
      rw [run_error hs, run_error hstep.symm]
      rfl
    | ok r =>
      rw [hs] at hstep
      cases r with
      | none =>
        rw [run_none hs, run_none hstep.symm]
        rfl
      | some s' =>
        rw [run_some hs, run_some hstep.symm]
        exact ih s'

/-- From the states of `I`, the other machine does all that ends where `P` and `Q` still hold. -/
structure Follows (step other : Machine σ ε) (I P : σ → Prop) (Q : ε → Prop) : Prop where
  error : ∀ s e, I s → step s = .error e → Q e → P s ∧ other s = .error e
  none : ∀ s, I s → step s = .ok none → other s = .ok none
  some : ∀ s s', I s → step s = .ok (some s') →
    I s' ∧ (P s' → P s ∧ other s = .ok (some s'))

namespace Follows
variable {other : Machine σ ε} {I P : σ → Prop} {Q : ε → Prop}

theorem run (h : Follows step other I P Q) (hI : I s) (n : ℕ) :
    (∀ t, Machine.run step n s = .ok t → P t → P s ∧ Machine.run other n s = .ok t) ∧
      ∀ e, Machine.run step n s = .error e → Q e → P s ∧ Machine.run other n s = .error e := by
  induction n generalizing s with
  | zero =>
    refine ⟨fun t ht hP => ?_, fun e he => by cases he⟩
    obtain rfl := Except.ok.inj ht
    exact ⟨hP, rfl⟩
  | succ n ih =>
    cases hs : step s with
    | error e =>
      rw [run_error hs]
      refine ⟨fun t ht => (by cases ht), fun e' he hQ => ?_⟩
      obtain rfl := Except.error.inj he
      obtain ⟨hP, hother⟩ := h.error s e hI hs hQ
      exact ⟨hP, run_error hother⟩
    | ok r =>
      cases r with
      | none =>
        rw [run_none hs, run_none (h.none s hI hs)]
        refine ⟨fun t ht hP => ?_, fun e he => by cases he⟩
        obtain rfl := Except.ok.inj ht
        exact ⟨hP, rfl⟩
      | some s' =>
        obtain ⟨hI', hback⟩ := h.some s s' hI hs
        obtain ⟨hok, hraise⟩ := ih hI'
        rw [run_some hs]
        -- the rest of the run ends in `P`, hence this step does
        refine ⟨fun t ht hP => ?_, fun e he hQ => ?_⟩
        · obtain ⟨hP', hrun⟩ := hok t ht hP
          obtain ⟨hPs, hother⟩ := hback hP'
          exact ⟨hPs, (run_some hother).trans hrun⟩
        · obtain ⟨hP', hrun⟩ := hraise e he hQ
          obtain ⟨hPs, hother⟩ := hback hP'
          exact ⟨hPs, (run_some hother).trans hrun⟩

end Follows
end Machine
