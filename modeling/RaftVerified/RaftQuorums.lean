import Mathlib.Data.Finset.SymmDiff
import RaftVerified.ConsensusState
import RaftVerified.RaftWorld

/-! The majorities a node counts. Votes are counted over a set and acknowledgements over
the voter tuple, so a repeated voter weighs twice in the second count only. -/
namespace RaftVerified

/-- The test of `_maybe_win` on the voters of `c` in `P`. -/
def elects (c : List NodeId) (P : Finset NodeId) : Prop :=
  c.length < 2*(P.filter (· ∈ c)).card

/-- The test of `_advance_commit` on the voters of `c` in `P`. -/
def commits (c : List NodeId) (P : Finset NodeId) : Prop :=
  c.length < 2*c.countP (· ∈ P)

/-- No majority that elects under one voter tuple misses one that commits under the
other. -/
def Overlap (c d : List NodeId) : Prop :=
  (∀ P Q, elects c P → commits d Q → ∃ q, q ∈ P ∧ q ∈ Q) ∧
    ∀ P Q, commits c P → elects d Q → ∃ q, q ∈ P ∧ q ∈ Q

theorem overlap_symm {c d : List NodeId} (h : Overlap c d) : Overlap d c := by
  refine ⟨fun P Q hP hQ => ?_, fun P Q hP hQ => ?_⟩
  · obtain ⟨q, hqQ, hqP⟩ := h.2 Q P hQ hP
    exact ⟨q, hqP, hqQ⟩
  · obtain ⟨q, hqQ, hqP⟩ := h.1 Q P hQ hP
    exact ⟨q, hqP, hqQ⟩

theorem filter_card_le_countP (c : List NodeId) (P : Finset NodeId) :
    (P.filter (· ∈ c)).card ≤ c.countP (· ∈ P) := by
  have hsub : P.filter (· ∈ c) ⊆ (c.filter (· ∈ P)).toFinset := by
    intro v hv
    simpa [and_comm] using hv
  calc (P.filter (· ∈ c)).card ≤ (c.filter (· ∈ P)).toFinset.card := Finset.card_le_card hsub
    _ ≤ (c.filter (· ∈ P)).length := List.toFinset_card_le _
    _ = c.countP (· ∈ P) := List.countP_eq_length_filter.symm

theorem countP_eq_of_nodup {c : List NodeId} (hc : c.Nodup) (P : Finset NodeId) :
    c.countP (· ∈ P) = (c.toFinset ∩ P).card := by
  have hf : c.toFinset ∩ P = (c.filter (· ∈ P)).toFinset := by
    ext v
    simp
  rw [hf, List.toFinset_card_of_nodup (hc.filter _), List.countP_eq_length_filter]

theorem commits_of_elects {c : List NodeId} {P : Finset NodeId} (h : elects c P) :
    commits c P := by
  have hle := filter_card_le_countP c P
  unfold elects at h
  unfold commits
  omega

theorem countP_add_le (c : List NodeId) (P Q : Finset NodeId)
    (h : ∀ v ∈ c, v ∈ P → v ∉ Q) : c.countP (· ∈ P)+c.countP (· ∈ Q) ≤ c.length := by
  induction c with
  | nil => simp
  | cons v c ih =>
    have hc := ih fun u hu => h u (List.mem_cons_of_mem v hu)
    have hv := h v List.mem_cons_self
    rw [List.countP_cons, List.countP_cons, List.length_cons]
    by_cases hP : v ∈ P
    · simp only [hP, hv hP, decide_true, decide_false, if_true, Bool.false_eq_true, if_false]
      omega
    · simp only [hP, decide_false, Bool.false_eq_true, if_false]
      split <;> omega

/-- Counts over one tuple, repetitions included, meet. -/
theorem commits_meet_self {c : List NodeId} {P Q : Finset NodeId} (hP : commits c P)
    (hQ : commits c Q) : ∃ q, q ∈ P ∧ q ∈ Q := by
  by_contra hn
  have hle := countP_add_le c P Q fun v _ hvP hvQ => hn ⟨v, hvP, hvQ⟩
  unfold commits at hP hQ
  omega

/-- Majorities of two sets of voters that differ in at most one voter meet. -/
theorem majorities_meet (S T P Q : Finset NodeId) (hd : (symmDiff S T).card ≤ 1)
    (hP : S.card < 2*(S ∩ P).card) (hQ : T.card < 2*(T ∩ Q).card) :
    ∃ q, q ∈ P ∧ q ∈ Q := by
  by_contra hn
  have hdis : Disjoint (S ∩ P) (T ∩ Q) := by
    rw [Finset.disjoint_left]
    intro v hv hw
    exact hn ⟨v, (Finset.mem_inter.mp hv).2, (Finset.mem_inter.mp hw).2⟩
  have hle : (S ∩ P).card+(T ∩ Q).card ≤ (S ∪ T).card := by
    rw [← Finset.card_union_of_disjoint hdis]
    exact Finset.card_le_card (Finset.union_subset_union Finset.inter_subset_left
      Finset.inter_subset_left)
  have hun : (S ∪ T).card = (symmDiff S T).card+(S ∩ T).card := by
    rw [← Finset.card_union_of_disjoint]
    · congr 1
      ext v
      simp only [Finset.mem_union, Finset.mem_symmDiff, Finset.mem_inter]
      tauto
    · rw [Finset.disjoint_left]
      intro v hv hw
      rw [Finset.mem_symmDiff] at hv
      rw [Finset.mem_inter] at hw
      tauto
  have hsum := Finset.card_union_add_card_inter S T
  omega

theorem overlap_refl (c : List NodeId) : Overlap c c :=
  ⟨fun _ _ hP hQ => commits_meet_self (commits_of_elects hP) hQ,
    fun _ _ hP hQ => commits_meet_self hP (commits_of_elects hQ)⟩

/-- Tuples without repetition that differ in at most one voter. -/
theorem overlap_of_nodup {c d : List NodeId} (hc : c.Nodup) (hd : d.Nodup)
    (hs : (symmDiff c.toFinset d.toFinset).card ≤ 1) : Overlap c d := by
  have hmeet : ∀ P Q, commits c P → commits d Q → ∃ q, q ∈ P ∧ q ∈ Q := by
    intro P Q hP hQ
    rw [commits, countP_eq_of_nodup hc, ← List.toFinset_card_of_nodup hc] at hP
    rw [commits, countP_eq_of_nodup hd, ← List.toFinset_card_of_nodup hd] at hQ
    exact majorities_meet _ _ P Q hs hP hQ
  exact ⟨fun P Q hP hQ => hmeet P Q (commits_of_elects hP) hQ,
    fun P Q hP hQ => hmeet P Q hP (commits_of_elects hQ)⟩

def quorums : Consensus.QuorumSystem NodeId (List NodeId) where
  elects := elects
  commits := commits
  near := Overlap
  change c d := Overlap c d ∧ d.Nodup
  change_near h := h.1
  near_refl := overlap_refl
  near_symm := overlap_symm
  elects_meet h hP hQ := h.1 _ _ hP (commits_of_elects hQ)
  commits_meet h hP hQ := h.1 _ _ hP hQ

end RaftVerified
