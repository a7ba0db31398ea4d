import Mathlib.Data.List.Pairwise
import Mathlib.Data.List.Perm.Basic
import Mathlib.Data.List.Sort
import Mathlib.Data.Prod.Lex

/-! Sequential explanations of concurrent operations: orders of the operations that respect
a precedence and that a sequential object accepts one after the other. -/
namespace Linearization

variable {σ α β : Type*}

/-- Take the operations in turn, as far as the object accepts them. -/
def replay (place : σ → α → Option σ) : σ → List α → Option σ
  | s, [] => some s
  | s, a :: rest => (place s a).bind fun t => replay place t rest

theorem replay_append (place : σ → α → Option σ) (s : σ) (xs ys : List α) :
    replay place s (xs ++ ys) = (replay place s xs).bind fun t => replay place t ys := by
  induction xs generalizing s with
  | nil => rfl
  | cons a xs ih =>
    rw [List.cons_append, replay, replay, Option.bind_assoc]
    congr 1
    funext t
    exact ih t

theorem replay_map (place : σ → β → Option σ) (f : α → β) (s : σ) (xs : List α) :
    replay place s (xs.map f) = replay (fun s a => place s (f a)) s xs := by
  induction xs generalizing s with
  | nil => rfl
  | cons a xs ih =>
    rw [List.map_cons, replay, replay]
    congr 1
    funext t
    exact ih t

/-- No operation comes after one that it has to precede. -/
def Ordered (before : α → α → Prop) (xs : List α) : Prop :=
  xs.Pairwise fun a b => ¬ before b a

/-- An operation can be moved back behind operations that it does not have to precede. -/
theorem Ordered.move {before : α → α → Prop} {xs ys zs : List α} {a : α}
    (h : Ordered before (xs ++ a :: (ys ++ zs))) (hys : ∀ b ∈ ys, ¬ before a b) :
    Ordered before (xs ++ (ys ++ a :: zs)) := by
  obtain ⟨hxs, hrest, hx⟩ := List.pairwise_append.mp h
  obtain ⟨ha, hrest⟩ := List.pairwise_cons.mp hrest
  obtain ⟨hy, hz, hyz⟩ := List.pairwise_append.mp hrest
  refine List.pairwise_append.mpr ⟨hxs, List.pairwise_append.mpr ⟨hy, ?_, ?_⟩, ?_⟩
  · exact List.pairwise_cons.mpr ⟨fun b hb => ha b (List.mem_append_right ys hb), hz⟩
  · intro b hb c hc
    rcases List.mem_cons.mp hc with rfl | hc
    · exact hys b hb
    · exact hyz b hb c hc
  · intro b hb c hc
    refine hx b hb c ?_
    simp only [List.mem_append, List.mem_cons] at hc ⊢
    tauto

/-- The pending operations can all be taken from state `s` on. -/
def Completes (place : σ → α → Option σ) (before : α → α → Prop) (s : σ) (pending : List α) :
    Prop :=
  ∃ order, order.Perm pending ∧ Ordered before order ∧ ∃ t, replay place s order = some t

/-- A pending operation that no other pending one has to precede. -/
def Foremost (before : α → α → Prop) (pending : List α) (p : α) : Prop :=
  p ∈ pending ∧ ∀ q ∈ pending, q ≠ p → ¬ before q p

variable {place : σ → α → Option σ} {before : α → α → Prop} {s t : σ} {pending : List α}
  {p : α}

/-- An order of the pending operations starts with a minimal one, and goes on with an order
of the others. -/
theorem completes_cons [DecidableEq α] (hnodup : pending.Nodup) (hne : pending ≠ []) :
    Completes place before s pending ↔ ∃ p, Foremost before pending p ∧
      ∃ t, place s p = some t ∧ Completes place before t (pending.erase p) := by
  constructor
  · rintro ⟨order, hperm, hord, u, hrep⟩
    cases order with
    -- something is pending, so the order has a first element
    | nil => exact absurd hperm.nil_eq.symm hne
    | cons p rest =>
      have hp : p ∈ pending := hperm.subset List.mem_cons_self
      obtain ⟨t, ht, hrest⟩ := Option.bind_eq_some_iff.mp hrep
      refine ⟨p, ⟨hp, fun q hq hqp => ?_⟩, t, ht, rest, ?_, hord.of_cons, u, hrest⟩
      -- whatever else is pending comes later in the order
      · rcases List.mem_cons.mp (hperm.symm.subset hq) with rfl | hmem
        · exact absurd rfl hqp
        · exact List.rel_of_pairwise_cons hord hmem
      · have hrest := hperm.erase p
        rwa [List.erase_cons_head] at hrest
  -- a minimal element goes in front of an order of the others
  · rintro ⟨p, ⟨hp, hmin⟩, t, ht, order, hperm, hord, u, hrep⟩
    refine ⟨p :: order, ?_, List.pairwise_cons.mpr ⟨fun q hq => ?_, hord⟩, u, ?_⟩
    · exact (hperm.cons p).trans (List.perm_cons_erase hp).symm
    · obtain ⟨hqp, hq⟩ := hnodup.mem_erase_iff.mp (hperm.subset hq)
      exact hmin q hq hqp
    · rw [replay, ht]
      exact hrep

/-- A permutation of renamed operations is a renamed permutation. -/
theorem exists_map_of_perm {f : β → α} {xs ys : List α} (h : xs.Perm ys) :
    ∀ l : List β, ys = l.map f → ∃ l' : List β, l'.Perm l ∧ xs = l'.map f := by
  induction h with
  | nil =>
    intro l hl
    exact ⟨l, .refl l, hl⟩
  | cons a _ ih =>
    intro l hl
    obtain ⟨b, rest, rfl, rfl, hrest⟩ := List.map_eq_cons_iff.mp hl.symm
    obtain ⟨l', hperm, rfl⟩ := ih rest hrest.symm
    exact ⟨b :: l', hperm.cons b, rfl⟩
  | swap a b zs =>
    intro l hl
    obtain ⟨c, rest, rfl, rfl, hrest⟩ := List.map_eq_cons_iff.mp hl.symm
    obtain ⟨d, rest, rfl, rfl, rfl⟩ := List.map_eq_cons_iff.mp hrest
    exact ⟨d :: c :: rest, .swap c d rest, rfl⟩
  | trans _ _ ih ih' =>
    intro l hl
    obtain ⟨l', hperm', hl'⟩ := ih' l hl
    obtain ⟨l'', hperm'', hl''⟩ := ih l' hl'
    exact ⟨l'', hperm''.trans hperm', hl''⟩

/-! ### Operations with a slot -/

section
variable (place : σ → α → Option σ) (st : ℕ → σ) (n : ℕ) (moves : α → Prop) (slot : α → ℕ)

/-- The object passes through the states `st 0` to `st n`. One operation moves it from `st k`
to `st (k+1)` for each `k`, and any other operation leaves it in the state of its slot. -/
structure Slotted (xs : List α) : Prop where
  still : ∀ a ∈ xs, ¬ moves a → slot a ≤ n ∧ place (st (slot a)) a = some (st (slot a))
  moved : ∀ a ∈ xs, moves a → slot a < n ∧ place (st (slot a)) a = some (st (slot a+1))
  once : ∀ a ∈ xs, ∀ b ∈ xs, moves a → moves b → slot a = slot b → a = b
  filled : ∀ k < n, ∃ a ∈ xs, moves a ∧ slot a = k

end

section
variable {st : ℕ → σ} {n : ℕ} {moves : α → Prop} [DecidablePred moves] {slot : α → ℕ}

/-- Operations come in the order of their slots, the one that moves the object last. -/
def rank (moves : α → Prop) [DecidablePred moves] (slot : α → ℕ) (a : α) : ℕ :=
  2*slot a+if moves a then 1 else 0

/-- The rest of the operations, from slot `k` on, takes the object from `st k` to the end. -/
theorem replay_ranked {k : ℕ} (hk : k ≤ n) {xs : List α} (hnodup : xs.Nodup)
    (hsort : xs.Pairwise fun a b => rank moves slot a ≤ rank moves slot b)
    (hstill : ∀ a ∈ xs, ¬ moves a → slot a ≤ n ∧ place (st (slot a)) a = some (st (slot a)))
    (hmoved : ∀ a ∈ xs, moves a → slot a < n ∧ place (st (slot a)) a = some (st (slot a+1)))
    (honce : ∀ a ∈ xs, ∀ b ∈ xs, moves a → moves b → slot a = slot b → a = b)
    (hfrom : ∀ a ∈ xs, k ≤ slot a)
    (hfilled : ∀ j, k ≤ j → j < n → ∃ a ∈ xs, moves a ∧ slot a = j) :
    replay place (st k) xs = some (st n) := by
  induction xs generalizing k with
  | nil =>
    rcases Nat.lt_or_ge k n with hlt | hge
    · obtain ⟨a, ha, -⟩ := hfilled k le_rfl hlt
      cases ha
    · rw [replay, le_antisymm hk hge]
  | cons a rest ih =>
    obtain ⟨ha, hnodup⟩ := List.nodup_cons.mp hnodup
    obtain ⟨hfirst, hsort⟩ := List.pairwise_cons.mp hsort
    have hstill' := fun b hb => hstill b (List.mem_cons_of_mem a hb)
    have hmoved' := fun b hb => hmoved b (List.mem_cons_of_mem a hb)
    have honce' := fun b hb d hd =>
      honce b (List.mem_cons_of_mem a hb) d (List.mem_cons_of_mem a hd)
    -- the operation of slot `k` is still to come, so the first slot is `k`
    have hslot : slot a = k := by
      by_contra hne
      have hlt : k < slot a := lt_of_le_of_ne (hfrom a List.mem_cons_self) (Ne.symm hne)
      have hkn : k < n := by
        by_cases hm : moves a
        · exact hlt.trans (hmoved a List.mem_cons_self hm).1
        · exact hlt.trans_le (hstill a List.mem_cons_self hm).1
      obtain ⟨b, hb, hbm, hbk⟩ := hfilled k le_rfl hkn
      rcases List.mem_cons.mp hb with rfl | hb
      · exact hne hbk
      · have hle := hfirst b hb
        rw [rank, rank, if_pos hbm, hbk] at hle
        omega
    -- what fills a slot from `j` on is not the first operation
    have hrest : ∀ j, (moves a → k < j) → k ≤ j → j < n → ∃ b ∈ rest, moves b ∧ slot b = j := by
      intro j hj hkj hjn
      obtain ⟨b, hb, hbm, hbj⟩ := hfilled j hkj hjn
      rcases List.mem_cons.mp hb with rfl | hb
      · have := hj hbm
        omega
      · exact ⟨b, hb, hbm, hbj⟩
    rw [replay]
    by_cases hm : moves a
    · obtain ⟨hlt, hplace⟩ := hmoved a List.mem_cons_self hm
      rw [hslot] at hlt hplace
      rw [hplace, Option.bind_some]
      refine ih hlt hnodup hsort hstill' hmoved' honce' ?_ ?_
      · intro b hb
        by_contra hgt
        have hbk : slot b = k := by
          have := hfrom b (List.mem_cons_of_mem a hb)
          omega
        have hle := hfirst b hb
        rw [rank, rank, if_pos hm, hslot, hbk] at hle
        by_cases hbm : moves b
        · have heq := honce a List.mem_cons_self b (List.mem_cons_of_mem a hb) hm hbm
            (hslot.trans hbk.symm)
          exact ha (heq ▸ hb)
        · rw [if_neg hbm] at hle
          omega
      · exact fun j hj hjn => hrest j (fun _ => hj) (by omega) hjn
    · obtain ⟨-, hplace⟩ := hstill a List.mem_cons_self hm
      rw [hslot] at hplace
      rw [hplace, Option.bind_some]
      refine ih hk hnodup hsort hstill' hmoved' honce' ?_ ?_
      · exact fun b hb => hfrom b (List.mem_cons_of_mem a hb)
      · exact fun j hj hjn => hrest j (fun hma => absurd hma hm) hj hjn

/-- Operations whose slots respect the precedence can all be taken. -/
theorem completes_of_slotted {xs : List α} (h : Slotted place st n moves slot xs)
    (hnodup : xs.Nodup) (key : α → ℤ)
    (hbefore : ∀ a ∈ xs, ∀ b ∈ xs, before a b →
      key a < key b ∧ slot a ≤ slot b ∧ (moves a → slot a < slot b)) :
    Completes place before (st 0) xs := by
  have htotal : Std.Total fun a b : α => toLex (rank moves slot a, key a) ≤
      toLex (rank moves slot b, key b) := ⟨fun a b => le_total _ _⟩
  have htrans : IsTrans α fun a b => toLex (rank moves slot a, key a) ≤
      toLex (rank moves slot b, key b) := ⟨fun _ _ _ => le_trans⟩
  have hperm := List.perm_insertionSort (fun a b : α => toLex (rank moves slot a, key a) ≤
    toLex (rank moves slot b, key b)) xs
  have hsort := List.pairwise_insertionSort (fun a b : α => toLex (rank moves slot a, key a) ≤
    toLex (rank moves slot b, key b)) xs
  generalize List.insertionSort (fun a b : α => toLex (rank moves slot a, key a) ≤
    toLex (rank moves slot b, key b)) xs = order at hperm hsort
  have hmem : ∀ a ∈ order, a ∈ xs := fun a ha => hperm.subset ha
  refine ⟨order, hperm, ?_, st n, ?_⟩
  · -- an operation that has to come earlier has the smaller rank, or the smaller key
    refine hsort.imp_of_mem fun {a b} ha hb hle hba => ?_
    obtain ⟨hkey, hslot, hmove⟩ := hbefore b (hmem b hb) a (hmem a ha) hba
    rw [Prod.Lex.toLex_le_toLex, rank, rank] at hle
    by_cases hbm : moves b
    · have := hmove hbm
      rw [if_pos hbm] at hle
      split at hle <;> omega
    · rw [if_neg hbm] at hle
      split at hle <;> omega
  · have hranked : order.Pairwise fun a b => rank moves slot a ≤ rank moves slot b := by
      refine hsort.imp fun {a b} hle => ?_
      rw [Prod.Lex.toLex_le_toLex] at hle
      rcases hle with hlt | ⟨heq, -⟩
      · exact hlt.le
      · exact heq.le
    refine replay_ranked (Nat.zero_le n) (hperm.nodup_iff.mpr hnodup) hranked ?_ ?_ ?_ ?_ ?_
    · exact fun a ha => h.still a (hmem a ha)
    · exact fun a ha => h.moved a (hmem a ha)
    · exact fun a ha b hb => h.once a (hmem a ha) b (hmem b hb)
    · exact fun _ _ => Nat.zero_le _
    · intro j _ hj
      obtain ⟨a, ha, hrest⟩ := h.filled j hj
      exact ⟨a, hperm.symm.subset ha, hrest⟩

end

end Linearization
