import Mathlib.Data.Finset.Basic
import Mathlib.Data.List.Infix

/-! Replicated logs in general: entries carry a term and possibly a configuration,
and the last configuration of a log governs it. Quorums are judged per configuration. -/
namespace Consensus

/-- Quorums of a family of configurations. `near` relates two configurations whose
quorums still meet, and `change c d` allows `d` to follow `c`. -/
structure QuorumSystem (ι κ : Type*) where
  elects : κ → Finset ι → Prop
  commits : κ → Finset ι → Prop
  near : κ → κ → Prop
  change : κ → κ → Prop
  change_near : ∀ {c d}, change c d → near c d
  near_refl : ∀ c, near c c
  near_symm : ∀ {c d}, near c d → near d c
  elects_meet : ∀ {c d P Q}, near c d → elects c P → elects d Q → ∃ q, q ∈ P ∧ q ∈ Q
  commits_meet : ∀ {c d P Q}, near c d → elects c P → commits d Q → ∃ q, q ∈ P ∧ q ∈ Q

/-- How the entries of a log are read. -/
structure Reading (ε κ : Type*) where
  term : ε → ℕ
  config : ε → Option κ
  initial : κ

variable {ε κ : Type*}

namespace Reading
variable (R : Reading ε κ)

def lastTerm (xs : List ε) : ℕ := (xs.getLast?.map R.term).getD 0

/-- The configuration that governs a log. -/
def conf (xs : List ε) : κ := (xs.filterMap R.config).getLast?.getD R.initial

/-- The election restriction: a log `B` at least as up to date as `V`. -/
def UpToDate (B V : List ε) : Prop :=
  R.lastTerm V < R.lastTerm B ∨ (R.lastTerm V = R.lastTerm B ∧ V.length ≤ B.length)

theorem upToDate_refl (B : List ε) : R.UpToDate B B := Or.inr ⟨rfl, le_rfl⟩

/-- No configuration stands at the positions from `a` up to `b`. -/
def Quiet (xs : List ε) (a b : ℕ) : Prop :=
  ∀ n e, a ≤ n → n < b → xs[n]? = some e → R.config e = none

end Reading

/-! ### Prefixes -/

theorem prefix_getElem? {xs ys : List ε} (h : xs <+: ys) {n : ℕ} {e : ε}
    (he : xs[n]? = some e) : ys[n]? = some e := by
  obtain ⟨hn, hx⟩ := List.getElem?_eq_some_iff.mp he
  rw [List.getElem?_eq_getElem (lt_of_lt_of_le hn h.length_le), ← h.getElem hn, hx]

theorem prefix_getElem?_eq {xs ys : List ε} (h : xs <+: ys) {n : ℕ} (hn : n < xs.length) :
    xs[n]? = ys[n]? := by
  rw [List.getElem?_eq_getElem hn, List.getElem?_eq_getElem (lt_of_lt_of_le hn h.length_le),
    h.getElem hn]

theorem take_prefix_take (xs : List ε) {a b : ℕ} (h : a ≤ b) : xs.take a <+: xs.take b := by
  rw [← Nat.min_eq_left h, ← List.take_take]
  exact List.take_prefix _ _

theorem prefix_take_mono {xs ys : List ε} (h : xs <+: ys) (k : ℕ) :
    xs.take k <+: ys.take k := by
  obtain ⟨zs, rfl⟩ := h
  rw [List.take_append]
  exact List.prefix_append _ _

/-- A prefix is not changed by extending the list it is taken from. -/
theorem prefix_take_eq {xs ys : List ε} (h : xs <+: ys) {k : ℕ} (hk : k ≤ xs.length) :
    ys.take k = xs.take k := by
  obtain ⟨zs, rfl⟩ := h
  rw [List.take_append_of_le_length hk]

theorem prefix_take_iff {xs ys : List ε} {k : ℕ} :
    xs <+: ys.take k ↔ xs <+: ys ∧ xs.length ≤ k := by
  constructor
  · intro h
    exact ⟨h.trans ( List.take_prefix _ _), h.length_le.trans (List.length_take_le _ _)⟩
  · rintro ⟨h, hk⟩
    rw [List.prefix_iff_eq_take.mp h]
    exact take_prefix_take _ hk

theorem take_succ_of_getElem? {xs : List ε} {n : ℕ} {e : ε} (h : xs[n]? = some e) :
    xs.take (n+1) = xs.take n ++ [e] := by
  rw [List.take_add_one, h]
  rfl

theorem length_lt_of_getElem? {xs : List ε} {n : ℕ} {e : ε} (h : xs[n]? = some e) :
    n < xs.length := (List.getElem?_eq_some_iff.mp h).1

namespace Reading
variable (R : Reading ε κ)

/-! ### Last terms -/

theorem lastTerm_of_getElem? {xs : List ε} {n : ℕ} {e : ε} (h : xs[n]? = some e)
    (hn : xs.length = n+1) : R.lastTerm xs = R.term e := by
  have hl : xs.getLast? = some e := by rw [List.getLast?_eq_getElem?, hn]; exact h
  simp [lastTerm, hl]

theorem exists_last {xs : List ε} (h : xs ≠ []) :
    ∃ n e, xs.length = n+1 ∧ xs[n]? = some e ∧ R.lastTerm xs = R.term e := by
  have hp := List.length_pos_of_ne_nil h
  obtain ⟨n, hn⟩ : ∃ n, xs.length = n+1 := ⟨xs.length-1, by omega⟩
  have he : xs[n]? = some xs[n] := List.getElem?_eq_getElem (by omega)
  exact ⟨n, xs[n], hn, he, R.lastTerm_of_getElem? he hn⟩

/-! ### The governing configuration -/

theorem conf_append (xs : List ε) (e : ε) :
    R.conf (xs ++ [e]) = (R.config e).getD (R.conf xs) := by
  unfold conf
  rw [List.filterMap_append]
  cases hc : R.config e with
  | none => simp [hc]
  | some c => simp [hc]

theorem conf_take_succ {xs : List ε} {n : ℕ} {e : ε} (h : xs[n]? = some e) :
    R.conf (xs.take (n+1)) = (R.config e).getD (R.conf (xs.take n)) := by
  rw [take_succ_of_getElem? h, conf_append]

theorem conf_take_of_quiet {xs : List ε} {a b : ℕ} (hq : R.Quiet xs a b) (hab : a ≤ b) :
    R.conf (xs.take b) = R.conf (xs.take a) := by
  induction b, hab using Nat.le_induction with
  | base => rfl
  | succ b hab ih =>
    have hprev := ih (fun n e h1 h2 => hq n e h1 (by omega))
    cases he : xs[b]? with
    | none =>
      have hl : xs.length ≤ b := List.getElem?_eq_none_iff.mp he
      rw [← hprev, List.take_of_length_le hl, List.take_of_length_le (by omega)]
    | some e =>
      rw [R.conf_take_succ he, hq b e hab (by omega) he, Option.getD_none, hprev]

/-- Below `b` a log holds no configuration, or it holds a last one. -/
theorem last_config (xs : List ε) (b : ℕ) :
    R.Quiet xs 0 b ∨
      ∃ n e c, n < b ∧ xs[n]? = some e ∧ R.config e = some c ∧ R.Quiet xs (n+1) b := by
  induction b with
  | zero => exact Or.inl fun n e _ h => by omega
  | succ b ih =>
    have hstep {a : ℕ} (hq : R.Quiet xs a b) (hb : ∀ e, xs[b]? = some e → R.config e = none) :
        R.Quiet xs a (b+1) := by
      intro n e h1 h2 he
      by_cases hn : n = b
      · subst hn
        exact hb e he
      · exact hq n e h1 (by omega) he
    by_cases hb : ∀ e, xs[b]? = some e → R.config e = none
    · rcases ih with hq | ⟨n, e, c, h1, h2, h3, hq⟩
      · exact Or.inl (hstep hq hb)
      · exact Or.inr ⟨n, e, c, by omega, h2, h3, hstep hq hb⟩
    · push Not at hb
      obtain ⟨e, he, hc⟩ := hb
      obtain ⟨c, hc⟩ := Option.ne_none_iff_exists'.mp hc
      exact Or.inr ⟨b, e, c, by omega, he, hc, fun n e h1 h2 => by omega⟩

theorem conf_take_of_last {xs : List ε} {n b : ℕ} {e : ε} {c : κ} (hn : n < b)
    (he : xs[n]? = some e) (hc : R.config e = some c) (hq : R.Quiet xs (n+1) b) :
    R.conf (xs.take b) = c := by
  rw [R.conf_take_of_quiet hq hn, R.conf_take_succ he, hc, Option.getD_some]

theorem Quiet.shrink {R : Reading ε κ} {xs ys : List ε} {a b : ℕ} (h : R.Quiet ys a b)
    (hp : xs <+: ys) : R.Quiet xs a b :=
  fun n e h1 h2 he => h n e h1 h2 (prefix_getElem? hp he)

theorem Quiet.mono {R : Reading ε κ} {xs : List ε} {a a' b : ℕ} (h : R.Quiet xs a b)
    (ha : a ≤ a') : R.Quiet xs a' b := fun n e h1 h2 he => h n e (ha.trans h1) h2 he

theorem Quiet.mono_right {R : Reading ε κ} {xs : List ε} {a b b' : ℕ} (h : R.Quiet xs a b)
    (hb : b' ≤ b) : R.Quiet xs a b' := fun n e h1 h2 he => h n e h1 (h2.trans_le hb) he

/-! ### Keeping track of the governing configuration -/

/-- `c` governs `xs`, and no configuration stands from position `k` on. -/
def Governs (xs : List ε) (c : κ) (k : ℕ) : Prop := c = R.conf xs ∧ R.Quiet xs k xs.length

variable {R}

theorem governs_append_none {xs : List ε} {c : κ} {k : ℕ} {e : ε} (h : R.Governs xs c k)
    (he : R.config e = none) : R.Governs (xs ++ [e]) c k := by
  refine ⟨?_, fun n f h1 h2 hf => ?_⟩
  · rw [conf_append, he, Option.getD_none]
    exact h.1
  · rcases Nat.lt_or_ge n xs.length with hn | hn
    · rw [List.getElem?_append_left hn] at hf
      exact h.2 n f h1 hn hf
    · rw [List.length_append, List.length_singleton] at h2
      obtain rfl : n = xs.length := by omega
      rw [List.getElem?_concat_length] at hf
      obtain rfl := Option.some.inj hf
      exact he

theorem governs_append_some {xs : List ε} {c : κ} {e : ε} (he : R.config e = some c) :
    R.Governs (xs ++ [e]) c (xs.length+1) := by
  refine ⟨?_, fun n f h1 h2 _ => ?_⟩
  · rw [conf_append, he, Option.getD_some]
  · rw [List.length_append, List.length_singleton] at h2
    omega

theorem governs_take {xs : List ε} {c : κ} {k : ℕ} (h : R.Governs xs c k) {b : ℕ}
    (hk : k ≤ b) : R.Governs (xs.take b) c k := by
  rcases Nat.lt_or_ge b xs.length with hb | hb
  · refine ⟨?_, ?_⟩
    · have hx := R.conf_take_of_quiet (h.2.mono hk) hb.le
      rw [List.take_length] at hx
      rw [h.1, hx]
    · refine (h.2.shrink ( List.take_prefix b _)).mono_right ?_
      rw [List.length_take]
      omega
  · rwa [List.take_of_length_le hb]

end Reading
end Consensus
