import Mathlib.Data.List.Infix

/-! Writing entries over a log: equal terms keep what is there, and the first conflict
drops the rest. -/
namespace Consensus

variable {ε : Type*} (term : ε → ℕ)

/-- The log `xs` after a follower has taken the entries `es` from its first index on. -/
def overlay : List ε → List ε → List ε
  | xs, [] => xs
  | [], es => es
  | x :: xs, e :: es => if term x = term e then x :: overlay xs es else e :: es

/-- Entries that reach to the end of the log or conflict with it. -/
def Rewrites (xs es : List ε) : Prop :=
  xs.length ≤ es.length ∨ ∃ (k : ℕ) (x e : ε), xs[k]? = some x ∧ es[k]? = some e ∧ term x ≠ term e

/-- Log matching at equal indices. -/
def Matched (xs es : List ε) : Prop :=
  ∀ (k : ℕ) (x e : ε), xs[k]? = some x → es[k]? = some e → term x = term e → x = e

variable {term} {xs es : List ε}

@[simp] theorem overlay_nil (xs : List ε) : overlay term xs [] = xs := by
  cases xs <;> rfl

@[simp] theorem nil_overlay (es : List ε) : overlay term [] es = es := by
  cases es <;> rfl

theorem overlay_cons_same {x e : ε} (h : term x = term e) (xs es : List ε) :
    overlay term (x :: xs) (e :: es) = x :: overlay term xs es := if_pos h

theorem overlay_cons_conflict {x e : ε} (h : term x ≠ term e) (xs es : List ε) :
    overlay term (x :: xs) (e :: es) = e :: es := if_neg h

theorem length_le_overlay (xs es : List ε) : es.length ≤ (overlay term xs es).length := by
  induction xs generalizing es with
  | nil => rw [nil_overlay]
  | cons x xs ih =>
    cases es with
    | nil => exact Nat.zero_le _
    | cons e es =>
      by_cases h : term x = term e
      · rw [overlay_cons_same h]
        exact Nat.succ_le_succ (ih es)
      · rw [overlay_cons_conflict h]

/-- Entries that are there already change nothing. -/
theorem overlay_append_self (pre xs es : List ε) :
    overlay term (pre ++ xs) (pre ++ es) = pre ++ overlay term xs es := by
  induction pre with
  | nil => rfl
  | cons x pre ih =>
    rw [List.cons_append, List.cons_append, overlay_cons_same rfl, ih]
    rfl

theorem overlay_of_isPrefix (h : es <+: xs) : overlay term xs es = xs := by
  obtain ⟨ys, rfl⟩ := h
  have hself : overlay term (es ++ ys) (es ++ []) = es ++ overlay term ys [] :=
    overlay_append_self es ys []
  rwa [List.append_nil, overlay_nil] at hself

theorem Matched.tail {x e : ε} (h : Matched term (x :: xs) (e :: es)) : Matched term xs es :=
  fun k y f hy hf => h (k+1) y f hy hf

theorem Rewrites.tail {x e : ε} (hte : term x = term e) (h : Rewrites term (x :: xs) (e :: es)) :
    Rewrites term xs es := by
  rcases h with hle | ⟨k, y, f, hy, hf, hne⟩
  · exact Or.inl (Nat.le_of_succ_le_succ hle)
  · cases k with
    | zero =>
      obtain rfl := Option.some.inj hy
      obtain rfl := Option.some.inj hf
      exact absurd hte hne
    | succ k => exact Or.inr ⟨k, y, f, hy, hf, hne⟩

/-- Entries that rewrite a log they match with take its place. -/
theorem overlay_of_rewrites (hm : Matched term xs es) (hr : Rewrites term xs es) :
    overlay term xs es = es := by
  induction xs generalizing es with
  | nil => exact nil_overlay es
  | cons x xs ih =>
    cases es with
    | nil =>
      rcases hr with hle | ⟨k, y, f, -, hf, -⟩
      · exact absurd hle (Nat.not_succ_le_zero _)
      · cases hf
    | cons e es =>
      by_cases h : term x = term e
      · rw [overlay_cons_same h, ih hm.tail (hr.tail h), hm 0 x e rfl rfl h]
      · exact overlay_cons_conflict h xs es

/-- Entries that a log matches with are what it starts with afterwards. -/
theorem overlay_take (hm : Matched term xs es) : (overlay term xs es).take es.length = es := by
  induction xs generalizing es with
  | nil => rw [nil_overlay, List.take_length]
  | cons x xs ih =>
    cases es with
    | nil => rfl
    | cons e es =>
      by_cases h : term x = term e
      · rw [overlay_cons_same h, List.length_cons, List.take_succ_cons, ih hm.tail,
          hm 0 x e rfl rfl h]
      · rw [overlay_cons_conflict h, List.take_length]

/-- Any other entries leave the log as it is. -/
theorem overlay_of_not_rewrites (hr : ¬ Rewrites term xs es) : overlay term xs es = xs := by
  induction xs generalizing es with
  | nil => exact absurd (Or.inl (Nat.zero_le _)) hr
  | cons x xs ih =>
    cases es with
    | nil => exact overlay_nil _
    | cons e es =>
      have h : term x = term e := by
        by_contra hne
        exact hr (Or.inr ⟨0, x, e, rfl, rfl, hne⟩)
      rw [overlay_cons_same h, ih]
      rintro (hle | ⟨k, y, f, hy, hf, hne⟩)
      · exact hr (Or.inl (Nat.succ_le_succ hle))
      · exact hr (Or.inr ⟨k+1, y, f, hy, hf, hne⟩)

/-- A stray entry at the end of a shortened log shows exactly when the entries do not
write over it: they are none, or they end before the log does without a conflict. -/
theorem overlay_stray {r : ℕ} {g : ε} (hr : r = 0 ∨ r < xs.length)
    (hxs : ∀ x ∈ xs, term g ≠ term x) (hes : ∀ e ∈ es, term g ≠ term e)
    (hm : Matched term xs es) :
    overlay term (xs.take r ++ [g]) es = overlay term xs es ↔ es ≠ [] ∧ Rewrites term xs es := by
  have hlen : (xs.take r).length = r := by
    rw [List.length_take]
    omega
  have hget : (xs.take r ++ [g])[r]? = some g := by
    rw [List.getElem?_append_right hlen.le, hlen, Nat.sub_self]
    rfl
  have hbelow : ∀ k, k < r → (xs.take r ++ [g])[k]? = xs[k]? := by
    intro k hk
    rw [List.getElem?_append_left (by omega), List.getElem?_take_of_lt hk]
  have hmatch : Matched term (xs.take r ++ [g]) es := by
    intro k x e hx he hte
    rcases Nat.lt_trichotomy k r with hk | rfl | hk
    · rw [hbelow k hk] at hx
      exact hm k x e hx he hte
    · obtain rfl := Option.some.inj (hget.symm.trans hx)
      exact absurd hte (hes e (List.mem_of_getElem? he))
    · have hlt := (List.getElem?_eq_some_iff.mp hx).1
      rw [List.length_append, hlen, List.length_singleton] at hlt
      omega
  -- the stray entry is in no log that the entries leave alone
  have hnot : overlay term (xs.take r ++ [g]) es = xs.take r ++ [g] →
      overlay term (xs.take r ++ [g]) es ≠ xs := by
    intro heq hx
    refine hxs g ?_ rfl
    rw [← hx, heq]
    exact List.mem_append_right _ (List.mem_singleton_self g)
  constructor
  · intro heq
    constructor
    · rintro rfl
      refine hnot (overlay_nil _) ?_
      rw [heq, overlay_nil]
    · by_contra hrw
      rw [overlay_of_not_rewrites hrw] at heq
      by_cases hy : Rewrites term (xs.take r ++ [g]) es
      · rw [overlay_of_rewrites hmatch hy] at heq
        exact hrw (Or.inl (heq ▸ le_rfl))
      · exact hnot (overlay_of_not_rewrites hy) heq
  · rintro ⟨hne, hrw⟩
    rw [overlay_of_rewrites hm hrw]
    apply overlay_of_rewrites hmatch
    rcases Nat.lt_or_ge r es.length with hlt | hge
    · -- the stray entry itself conflicts
      have he := List.getElem?_eq_getElem hlt
      exact Or.inr ⟨r, g, _, hget, he, hes _ (List.getElem_mem hlt)⟩
    · have hpos := List.length_pos_of_ne_nil hne
      rcases hrw with hle | ⟨k, x, e, hx, he, hte⟩
      · omega
      · have hk := (List.getElem?_eq_some_iff.mp he).1
        exact Or.inr ⟨k, x, e, (hbelow k (by omega)).trans hx, he, hte⟩

end Consensus
