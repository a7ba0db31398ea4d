import Mathlib.Data.List.Basic

/-! Computations that may raise: one after the other, and loops of them over a list. -/
namespace RaftVerified
variable {ε α β γ δ σ τ : Type}

/-- Sequencing of two calls either of which may raise. -/
theorem bind_ok {x : Except ε α} {f : α → Except ε β} {b : β} :
    (x >>= f) = .ok b ↔ ∃ a, x = .ok a ∧ f a = .ok b := by
  cases x with
  | error e => simp [bind, Except.bind]
  | ok a => simp [bind, Except.bind]

theorem map_ok {x : Except ε α} {f : α → β} {b : β} :
    x.map f = .ok b ↔ ∃ a, x = .ok a ∧ f a = b := by
  cases x with
  | error e => simp [Except.map]
  | ok a => simp [Except.map]

theorem bind_returns {x : Except ε α} {f : α → Except ε β} {a : α} (hx : x = .ok a)
    (hf : ∃ b, f a = .ok b) : ∃ b, (x >>= f) = .ok b := by
  rw [hx]
  exact hf

theorem map_bind (x : Except ε α) (f : α → Except ε β) (g : β → γ) :
    (x >>= f).map g = x >>= fun a => (f a).map g := by
  cases x <;> rfl

theorem bind_map (x : Except ε α) (f : α → β) (g : β → Except ε γ) :
    (x.map f >>= g) = x >>= fun a => g (f a) := by
  cases x <;> rfl

/-- Two computations that agree through `u` go on alike when what follows agrees through `v` in
every state that the first can leave behind. -/
theorem bind_project {x : Except ε α} {y : Except ε β} {u : α → β} {f : α → Except ε γ}
    {g : β → Except ε δ} {v : γ → δ} (hx : x.map u = y)
    (hf : ∀ a, x = .ok a → (f a).map v = g (u a)) : (x >>= f).map v = y >>= g := by
  rw [← hx]
  cases x with
  | error e => rfl
  | ok a => exact hf a rfl

theorem bind_through {x : Except ε α} {y : Except ε β} {u : α → β} {f : α → Except ε γ}
    {g : β → Except ε δ} {v : γ → δ} (hx : x.map u = y) (hf : ∀ a, (f a).map v = g (u a)) :
    (x >>= f).map v = y >>= g := bind_project hx fun a _ => hf a

/-- What a computation returns can be looked at. -/
instance decidableReturns {x : Except ε α} {P : α → Prop} [DecidablePred P] :
    Decidable (∃ a, x = .ok a ∧ P a) :=
  match x with
  | .ok a => decidable_of_iff (P a) (by simp)
  | .error _ => .isFalse (by simp)

/-! ### Loops -/

section
variable {f : σ → α → Except ε σ} {P : σ → Prop} {xs : List α} {s s' : σ}

/-- A loop that raises nothing keeps what each of its rounds keeps. -/
theorem foldlM_keeps (hstep : ∀ x ∈ xs, ∀ t t', P t → f t x = .ok t' → P t') (hs : P s)
    (h : xs.foldlM f s = .ok s') : P s' := by
  induction xs generalizing s with
  | nil =>
    obtain rfl := Except.ok.inj h
    exact hs
  | cons x xs ih =>
    rw [List.foldlM_cons] at h
    obtain ⟨t, ht, h⟩ := bind_ok.mp h
    exact ih (fun y hy => hstep y (List.mem_cons_of_mem x hy))
      (hstep x List.mem_cons_self s t hs ht) h

/-- A loop that has run has run its round at each element, between the rounds before it and
the rounds after it. -/
theorem foldlM_split {x : α} (h : xs.foldlM f s = .ok s') (hx : x ∈ xs) :
    ∃ before after t t', xs = before ++ x :: after ∧ before.foldlM f s = .ok t ∧
      f t x = .ok t' ∧ after.foldlM f t' = .ok s' := by
  obtain ⟨before, after, rfl⟩ := List.append_of_mem hx
  rw [List.foldlM_append] at h
  obtain ⟨t, ht, h⟩ := bind_ok.mp h
  rw [List.foldlM_cons] at h
  obtain ⟨t', ht', h⟩ := bind_ok.mp h
  exact ⟨before, after, t, t', rfl, ht, ht', h⟩

/-- A loop whose rounds return where `P` holds, and keep it, returns. -/
theorem foldlM_returns (xs : List α) (hstep : ∀ x ∈ xs, ∀ s, P s → ∃ s', f s x = .ok s' ∧ P s')
    {s : σ} (hs : P s) : ∃ s', xs.foldlM f s = .ok s' ∧ P s' := by
  induction xs generalizing s with
  | nil => exact ⟨s, rfl, hs⟩
  | cons x xs ih =>
    obtain ⟨s₁, hs₁, hp⟩ := hstep x List.mem_cons_self s hs
    obtain ⟨s', hs', hp'⟩ := ih (fun y hy => hstep y (List.mem_cons_of_mem x hy)) hp
    refine ⟨s', ?_, hp'⟩
    rw [List.foldlM_cons, hs₁]
    exact hs'

theorem foldlM_always (hstep : ∀ x ∈ xs, ∀ s, ∃ s', f s x = .ok s') (s : σ) :
    ∃ s', xs.foldlM f s = .ok s' := by
  obtain ⟨s', hs', -⟩ := foldlM_returns (P := fun _ => True) xs (fun x hx s _ => by
    obtain ⟨s', hs'⟩ := hstep x hx s
    exact ⟨s', hs', trivial⟩) (s := s) trivial
  exact ⟨s', hs'⟩

variable {g : τ → α → Except ε τ} {u : σ → τ}

/-- Two loops whose rounds agree after a projection, as long as `P` holds, agree. -/
theorem foldlM_project (hs : P s) (hstep : ∀ x ∈ xs, ∀ t, P t → (f t x).map u = g (u t) x)
    (hkeep : ∀ x ∈ xs, ∀ t t', P t → f t x = .ok t' → P t') :
    (xs.foldlM f s).map u = xs.foldlM g (u s) := by
  induction xs generalizing s with
  | nil => rfl
  | cons x xs ih =>
    rw [List.foldlM_cons, List.foldlM_cons]
    refine bind_project (hstep x List.mem_cons_self s hs) fun t ht => ?_
    exact ih (hkeep x List.mem_cons_self s t hs ht)
      (fun y hy => hstep y (List.mem_cons_of_mem x hy))
      (fun y hy => hkeep y (List.mem_cons_of_mem x hy))

theorem foldlM_through (hf : ∀ t x, (f t x).map u = g (u t) x) (xs : List α) (s : σ) :
    (xs.foldlM f s).map u = xs.foldlM g (u s) :=
  foldlM_project (P := fun _ => True) trivial (fun x _ t _ => hf t x) fun _ _ _ _ _ _ => trivial

end

section
variable {f : α → Except ε β}

theorem mapM_returns {P : β → Prop} (hf : ∀ a, ∃ b, f a = .ok b ∧ P b) (as : List α) :
    ∃ bs, as.mapM f = .ok bs ∧ bs.length = as.length ∧ ∀ b ∈ bs, P b := by
  induction as with
  | nil => exact ⟨[], rfl, rfl, nofun⟩
  | cons a as ih =>
    obtain ⟨b, hb, hP⟩ := hf a
    obtain ⟨bs, hbs, hlen, hall⟩ := ih
    refine ⟨b :: bs, ?_, congrArg (·+1) hlen, List.forall_mem_cons.mpr ⟨hP, hall⟩⟩
    rw [List.mapM_cons]
    exact bind_ok.mpr ⟨b, hb, bind_ok.mpr ⟨bs, hbs, rfl⟩⟩

theorem mem_of_mapM_ok {xs : List α} {ys : List β} {y : β} (h : xs.mapM f = .ok ys)
    (hy : y ∈ ys) : ∃ x ∈ xs, f x = .ok y := by
  induction xs generalizing ys with
  | nil =>
    cases h
    cases hy
  | cons x xs ih =>
    rw [List.mapM_cons] at h
    obtain ⟨z, hz, h⟩ := bind_ok.mp h
    obtain ⟨zs, hzs, h⟩ := bind_ok.mp h
    cases h
    rcases List.mem_cons.mp hy with rfl | hy
    · exact ⟨x, List.mem_cons_self, hz⟩
    · obtain ⟨x', hx', hfx⟩ := ih hzs hy
      exact ⟨x', List.mem_cons_of_mem _ hx', hfx⟩

end
end RaftVerified
