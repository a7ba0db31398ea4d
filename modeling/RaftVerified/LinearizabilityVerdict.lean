import RaftVerified.LinearizabilitySearch

/-! What the verdicts of the oracle mean for a history. -/
namespace RaftVerified
namespace Linearizability
open Linearization

variable {rows rows' order history : List HistoryEntry} {budget : ℤ} {maxOps : Option ℤ}

/-- An order of the rows that respects real time and that the store, starting empty, gives
the observed results along. -/
def IsLinearization (rows order : List HistoryEntry) : Prop :=
  order.Perm rows ∧ Ordered precedes order ∧ ∃ t, replay place ∅ order = some t

def Linearizable (rows : List HistoryEntry) : Prop := ∃ order, IsLinearization rows order

/-- The definite verdict that a history is not linearizable. -/
def LinearizabilityResult.Refuted (r : LinearizabilityResult) : Prop :=
  ∃ placed total, r.finding = .stuck placed total

def LinearizabilityResult.Undetermined (r : LinearizabilityResult) : Prop :=
  ∃ b, r.finding = .exhausted b

theorem IsLinearization.perm (h : IsLinearization rows order) (hp : rows.Perm rows') :
    IsLinearization rows' order := ⟨h.1.trans hp, h.2⟩

theorem Linearizable.perm (h : Linearizable rows) (hp : rows.Perm rows') : Linearizable rows' := by
  obtain ⟨order, ho⟩ := h
  exact ⟨order, ho.perm hp⟩

theorem arrange_perm (history : List HistoryEntry) :
    (arrange history none).Perm (history.filter HistoryEntry.completed) :=
  List.perm_insertionSort _ _

/-! ### From indices to rows -/

theorem isLinearization_of_placed {ops : List HistoryEntry} {path : List (Fin ops.length)}
    {t : Dict Str Str} (h : Placed ops path t []) : IsLinearization ops (path.map ops.get) := by
  refine ⟨?_, ?_, t, ?_⟩
  · have hperm := h.perm
    rw [List.append_nil] at hperm
    have hmap := hperm.map ops.get
    rwa [List.map_get_finRange] at hmap
  · exact List.pairwise_map.mpr h.ordered
  · rw [replay_map]
    exact h.replay

theorem not_linearizable_of_dead {ops : List HistoryEntry}
    (h : Dead ops (∅, List.finRange ops.length)) : ¬ Linearizable ops := by
  rintro ⟨order, hperm, hord, t, hrep⟩
  obtain ⟨path, hpath, rfl⟩ := exists_map_of_perm hperm (List.finRange ops.length)
    (List.map_get_finRange ops).symm
  refine h ⟨path, hpath, List.pairwise_map.mp hord, t, ?_⟩
  rwa [replay_map] at hrep

/-! ### The oracle -/

/-- A call returns, and its verdict is right about the rows it looks at. -/
theorem check_verdict (history : List HistoryEntry) (maxOps : Option ℤ) (budget : ℤ) :
    ∃ fuel r, (∀ fuel', fuel ≤ fuel' → check budget history maxOps fuel' = some r) ∧
      (r.linearizable = true → ∃ order, r.linearization = some order ∧
        IsLinearization (arrange history maxOps) order) ∧
      (r.Refuted → ¬ Linearizable (arrange history maxOps)) ∧
      (r.linearizable = false → r.Refuted ∨ r.Undetermined) ∧
      (r.Undetermined → ∃ s, search (arrange history maxOps) budget fuel = some (r, s) ∧
        budget < s.memo.card ∧ s.memo.card ≤ (start (arrange history maxOps)).size ∧
        ∀ key ∈ s.memo, ∃ path, Placed (arrange history maxOps) path key.1 key.2) := by
  unfold check
  by_cases hnil : arrange history maxOps = []
  -- without completed rows there is nothing to search
  · refine ⟨0, _, fun _ _ => if_pos hnil, fun _ => ⟨[], rfl, ?_⟩, ?_, nofun, ?_⟩
    · rw [hnil]
      exact ⟨.refl _, List.Pairwise.nil, ∅, rfl⟩
    · rintro ⟨_, _, h⟩
      cases h
    · rintro ⟨_, h⟩
      cases h
  · obtain ⟨fuel, ⟨r, s⟩, hrun, hjust, hcard⟩ := search_total (arrange history maxOps) budget
    refine ⟨fuel, r, fun fuel' hle => ?_, ?_⟩
    · dsimp only
      rw [if_neg hnil, hrun fuel' hle]
      rfl
    · unfold Justified at hjust
      have hs := hrun fuel le_rfl
      unfold LinearizabilityResult.Refuted LinearizabilityResult.Undetermined
      dsimp only at hjust hcard
      -- one case for each of the ways in which a search ends
      cases hf : r.finding with
      | empty =>
        rw [hf] at hjust
        exact hjust.elim
      | linearizable =>
        rw [hf] at hjust
        obtain ⟨path, t, hplaced, hlin, htrue⟩ := hjust
        refine ⟨fun _ => ⟨_, hlin, isLinearization_of_placed hplaced⟩, by simp, ?_, by simp⟩
        rw [htrue]
        exact nofun
      | exhausted b =>
        rw [hf] at hjust
        obtain ⟨rfl, hlt, hfalse, hreach⟩ := hjust
        refine ⟨?_, by simp, fun _ => Or.inr ⟨b, rfl⟩, fun _ => ⟨s, hs, hlt, hcard b hf, hreach⟩⟩
        rw [hfalse]
        exact nofun
      | stuck placed total =>
        rw [hf] at hjust
        obtain ⟨hfalse, hdead⟩ := hjust
        refine ⟨?_, fun _ => not_linearizable_of_dead hdead, fun _ => Or.inl ⟨placed, total, rfl⟩,
          by simp⟩
        rw [hfalse]
        exact nofun

/-- The oracle terminates; a linearization it returns is one of the completed rows; when it
says that there is none there is none; and it leaves the question open only after more
than `budget` different stores and sets of remaining rows. -/
theorem check_correct (history : List HistoryEntry) (budget : ℤ) :
    ∃ fuel r, (∀ fuel', fuel ≤ fuel' → check budget history none fuel' = some r) ∧
      (r.linearizable = true → ∃ order, r.linearization = some order ∧
        IsLinearization (history.filter HistoryEntry.completed) order) ∧
      (r.Refuted → ¬ Linearizable (history.filter HistoryEntry.completed)) ∧
      (r.linearizable = false → r.Refuted ∨ r.Undetermined) ∧
      (r.Undetermined → ∃ s, search (arrange history none) budget fuel = some (r, s) ∧
        budget < s.memo.card ∧
        ∀ key ∈ s.memo, ∃ path, Placed (arrange history none) path key.1 key.2) := by
  obtain ⟨fuel, r, hrun, hsound, hcomplete, htwo, hopen⟩ := check_verdict history none budget
  have hperm := arrange_perm history
  refine ⟨fuel, r, hrun, fun h => ?_, fun h hlin => hcomplete h (hlin.perm hperm.symm), htwo,
    fun h => ?_⟩
  · obtain ⟨order, ho, hlin⟩ := hsound h
    exact ⟨order, ho, hlin.perm hperm⟩
  · obtain ⟨s, hs, hlt, -, hreach⟩ := hopen h
    exact ⟨s, hs, hlt, hreach⟩

end Linearizability
end RaftVerified
