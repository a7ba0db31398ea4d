import RaftVerified.ConsensusState

/-! What holds in every state of the protocol: who voted for whom, where every entry
comes from, and what an acknowledgement is worth. -/
namespace Consensus

variable {ι ε κ : Type*} (R : Reading ε κ) (Q : QuorumSystem ι κ)

/-- A quorum voted for `i` in term `u` on the log `B`. What a voter had acknowledged
earlier it still held when it voted, unless a leader of a term before `hi` displaced it. -/
def Supported (s : State ι ε) (u : ℕ) (i : ι) (B : List ε) (hi : ℕ) : Prop :=
  ∃ P, Q.elects (R.conf B) P ∧ ∀ q ∈ P, ∃ V, s.voted q u i V ∧ R.UpToDate B V ∧
    ∀ t m, s.acked q t m → t < u → ∀ k ≤ m,
      (s.trunk t).take k <+: V ∨ s.Displaced ((s.trunk t).take k) t hi

/-- Terms and votes. -/
structure Ballots (s : State ι ε) : Prop where
  voted_term : ∀ q u c V, s.voted q u c V → u ≤ (s.server q).term
  voted_now : ∀ q c V, s.voted q (s.server q).term c V → (s.server q).vote = some c
  voted_once : ∀ q u c d V W, s.voted q u c V → s.voted q u d W → c = d
  voted_asked : ∀ q u c V, s.voted q u c V → ∃ B, s.asked c u B ∧ R.UpToDate B V
  asked_term : ∀ c u B, s.asked c u B → u ≤ (s.server c).term
  asked_once : ∀ c u B C, s.asked c u B → s.asked c u C → B = C
  elected_term : ∀ u i B, s.elected u i B → u ≤ (s.server i).term
  candidate : ∀ i, (s.server i).role = .candidate →
    s.asked i (s.server i).term (s.server i).log ∧ ∀ C, ¬ s.elected (s.server i).term i C

/-- Leaders and the origin of every entry. -/
structure Logs (s : State ι ε) : Prop where
  elected_once : ∀ u i j B C, s.elected u i B → s.elected u j C → i = j ∧ B = C
  elected_base : ∀ u i B, s.elected u i B → B <+: s.trunk u ∧ (∀ e ∈ B, R.term e < u) ∧
    ∀ n e, B.length ≤ n → (s.trunk u)[n]? = some e → R.term e = u
  leader : ∀ i, (s.server i).role = .leader →
    (∃ B, s.elected (s.server i).term i B) ∧ s.trunk (s.server i).term = (s.server i).log
  unled : ∀ u, ¬ s.Led u → s.trunk u = []
  trunk_rooted : ∀ u, s.Rooted R (s.trunk u)
  log_rooted : ∀ i, s.Rooted R (s.server i).log
  log_below : ∀ i, ∀ e ∈ (s.server i).log, R.term e ≤ (s.server i).term
  asked_rooted : ∀ c u B, s.asked c u B → s.Rooted R B
  asked_below : ∀ c u B, s.asked c u B → ∀ e ∈ B, R.term e < u
  voted_rooted : ∀ q u c V, s.voted q u c V → s.Rooted R V

/-- Acknowledgements, elections and commits. -/
structure Commits (s : State ι ε) : Prop where
  acked_term : ∀ q t m, s.acked q t m → t ≤ (s.server q).term
  acked_led : ∀ q t m, s.acked q t m → s.Led t ∧ m ≤ (s.trunk t).length
  acked_kept : ∀ q t m, s.acked q t m → ∀ k ≤ m, (s.trunk t).take k <+: (s.server q).log ∨
    s.Displaced ((s.trunk t).take k) t ((s.server q).term+1)
  voted_kept : ∀ q u c V t m, s.voted q u c V → s.acked q t m → t < u → ∀ k ≤ m,
    (s.trunk t).take k <+: V ∨ s.Displaced ((s.trunk t).take k) t (u+1)
  elected_support : ∀ u i B, s.elected u i B → Supported R Q s u i B u
  chosen_led : ∀ t k j, s.chosen t k j → s.Led t ∧ k ≤ j ∧ j ≤ (s.trunk t).length
  chosen_own : ∀ t k j, s.chosen t k j →
    ∃ n e, k = n+1 ∧ (s.trunk t)[n]? = some e ∧ R.term e = t
  chosen_quorum : ∀ t k j, s.chosen t k j →
    ∃ P, Q.commits (R.conf ((s.trunk t).take j)) P ∧ ∀ q ∈ P, ∃ m, k ≤ m ∧ s.acked q t m
  reconfigured : ∀ t n e c, (s.trunk t)[n]? = some e → R.config e = some c → R.term e = t →
    s.Reconfigures R Q t ((s.trunk t).take n) c
  commit_le : ∀ i, (s.server i).commit ≤ (s.server i).log.length
  commit_settled : ∀ i,
    s.Settled (s.server i).term ((s.server i).log.take (s.server i).commit)

structure Inv (s : State ι ε) : Prop extends Ballots R s, Logs R s, Commits R Q s

variable {R Q} {s : State ι ε}

theorem rooted_mono {xs ys : List ε} (h : s.Rooted R ys) (hp : xs <+: ys) : s.Rooted R xs := by
  intro n e he
  obtain ⟨hl, ht⟩ := h n e (prefix_getElem? hp he)
  exact ⟨hl, (prefix_take_mono hp (n+1)).trans ht⟩

theorem rooted_getElem? {xs : List ε} (h : s.Rooted R xs) {n : ℕ} {e : ε}
    (he : xs[n]? = some e) : (s.trunk (R.term e))[n]? = some e := by
  refine prefix_getElem? (h n e he).2 ?_
  rw [List.getElem?_take_of_lt (Nat.lt_succ_self n), he]

/-- Entries of one term at one index stand after the same entries. -/
theorem log_matching {xs ys : List ε} (hx : s.Rooted R xs) (hy : s.Rooted R ys) {n : ℕ}
    {e f : ε} (he : xs[n]? = some e) (hf : ys[n]? = some f) (ht : R.term e = R.term f) :
    xs.take (n+1) = ys.take (n+1) := by
  have h1 := (hx n e he).2
  have h2 := (hy n f hf).2
  rw [← ht] at h2
  have hl : (xs.take (n+1)).length = (ys.take (n+1)).length := by
    have hn := length_lt_of_getElem? he
    have hm := length_lt_of_getElem? hf
    rw [List.length_take, List.length_take]
    omega
  exact (List.prefix_of_prefix_length_le h1 h2 hl.le).eq_of_length hl

namespace Logs
variable (h : Logs R s)
include h

/-- An entry of a later leader comes after the whole log that leader started with. -/
theorem base_of_rooted {xs C : List ε} {n : ℕ} {e : ε} {j : ι} (hx : s.Rooted R xs)
    (he : xs[n]? = some e) (hC : s.elected (R.term e) j C) : C <+: xs.take (n+1) := by
  obtain ⟨hb, hlt, _⟩ := h.elected_base _ _ _ hC
  have ht := (hx n e he).2
  have hn : C.length ≤ n := by
    by_contra hlen
    have hm := rooted_getElem? hx he
    rw [← prefix_getElem?_eq hb (by omega)] at hm
    exact absurd (hlt e (List.mem_of_getElem? hm)) (lt_irrefl _)
  refine List.prefix_of_prefix_length_le hb ht ?_
  have hl := length_lt_of_getElem? he
  rw [List.length_take]
  omega

/-- Terms never decrease along a log. -/
theorem sorted {xs : List ε} (hx : s.Rooted R xs) {n m : ℕ} {e f : ε} (hnm : n ≤ m)
    (he : xs[n]? = some e) (hf : xs[m]? = some f) : R.term e ≤ R.term f := by
  obtain ⟨⟨j, C, hC⟩, ht⟩ := hx m f hf
  obtain ⟨hb, hlt, hown⟩ := h.elected_base _ _ _ hC
  have hm : (s.trunk (R.term f))[n]? = some e := by
    refine prefix_getElem? ht ?_
    rw [List.getElem?_take_of_lt (by omega), he]
  by_cases hn : n < C.length
  · rw [← prefix_getElem?_eq hb hn] at hm
    exact (hlt e (List.mem_of_getElem? hm)).le
  · exact (hown n e (by omega) hm).le

theorem trunk_below {u : ℕ} {e : ε} (he : e ∈ s.trunk u) : R.term e ≤ u := by
  by_cases hl : s.Led u
  · obtain ⟨j, C, hC⟩ := hl
    obtain ⟨hb, hlt, hown⟩ := h.elected_base _ _ _ hC
    obtain ⟨n, hn⟩ := List.mem_iff_getElem?.mp he
    by_cases hn' : n < C.length
    · rw [← prefix_getElem?_eq hb hn'] at hn
      exact (hlt e (List.mem_of_getElem? hn)).le
    · exact (hown n e (by omega) hn).le
  · rw [h.unled u hl] at he
    simp at he

theorem lastTerm_le {xs ys : List ε} (hy : s.Rooted R ys) (hp : xs <+: ys) (hx : xs ≠ []) :
    R.lastTerm xs ≤ R.lastTerm ys := by
  obtain ⟨n, e, hn, he, hte⟩ := R.exists_last hx
  have hy0 : ys ≠ [] := fun h0 => hx (by rw [h0] at hp; exact List.prefix_nil.mp hp)
  obtain ⟨m, f, hm, hf, htf⟩ := R.exists_last hy0
  have hl := hp.length_le
  rw [hte, htf]
  exact h.sorted hy (by omega) (prefix_getElem? hp he) hf

end Logs

/-- A log with a last entry is part of what the leader of that entry's term had. -/
theorem rooted_trunk {xs : List ε} (hx : s.Rooted R xs) (hne : xs ≠ []) :
    s.Led (R.lastTerm xs) ∧ xs <+: s.trunk (R.lastTerm xs) := by
  obtain ⟨n, e, hn, he, ht⟩ := R.exists_last hne
  obtain ⟨hl, hp⟩ := hx n e he
  rw [← hn, List.take_length] at hp
  rw [ht]
  exact ⟨hl, hp⟩

theorem rooted_append {xs : List ε} {e : ε} (hx : s.Rooted R xs) (hl : s.Led (R.term e))
    (hp : xs ++ [e] <+: s.trunk (R.term e)) : s.Rooted R (xs ++ [e]) := by
  intro n f hf
  rcases Nat.lt_or_ge n xs.length with hn | hn
  · rw [List.getElem?_append_left hn] at hf
    rw [List.take_append_of_le_length hn]
    exact hx n f hf
  · have hlen := length_lt_of_getElem? hf
    rw [List.length_append, List.length_singleton] at hlen
    obtain rfl : n = xs.length := by omega
    rw [List.getElem?_concat_length] at hf
    obtain rfl := Option.some.inj hf
    rw [List.take_of_length_le (by simp)]
    exact ⟨hl, hp⟩

theorem settled_mono {u : ℕ} {xs ys : List ε} (hs : s.Settled u ys) (hp : xs <+: ys) :
    s.Settled u xs := by
  rcases hs with rfl | ⟨t, k, j, ht, hc, hy⟩
  · exact Or.inl (List.prefix_nil.mp hp)
  · exact Or.inr ⟨t, k, j, ht, hc, hp.trans hy⟩

theorem inv_initial : Inv R Q (State.initial : State ι ε) := by
  constructor <;> constructor <;> simp [State.initial, State.Rooted, State.Settled]

end Consensus
