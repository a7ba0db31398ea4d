import RaftVerified.Network

/-! When `set_partition` does what its error message says. -/
namespace RaftVerified

/-- The members of the groups are the ids. -/
def Covers (groups : List (List NodeId)) (ids : List NodeId) : Prop :=
  ∀ i, (∃ g ∈ groups, i ∈ g) ↔ i ∈ ids

/-- The groups are a partition of the ids: no node is missing, unknown or in two groups. -/
structure Partitions (groups : List (List NodeId)) (ids : List NodeId) : Prop where
  covers : Covers groups ids
  once : groups.Pairwise List.Disjoint

/-- The `k`-th group lists the node. -/
def Lists (groups : List (List NodeId)) (i : NodeId) (k : ℕ) : Prop :=
  ∃ g, groups[k]? = some g ∧ i ∈ g

/-- The `k`-th group is the last one that lists the node. -/
structure LastIn (groups : List (List NodeId)) (i : NodeId) (k : ℕ) : Prop where
  lists : Lists groups i k
  last : ∀ l, Lists groups i l → l ≤ k

theorem lists_concat_of_not_mem {groups : List (List NodeId)} {g : List NodeId} {i : NodeId}
    (hi : i ∉ g) (k : ℕ) : Lists (groups ++ [g]) i k ↔ Lists groups i k := by
  constructor
  · rintro ⟨g', hg', hi'⟩
    rcases Nat.lt_or_ge k groups.length with hlt | hge
    · rw [List.getElem?_append_left hlt] at hg'
      exact ⟨g', hg', hi'⟩
    · rw [List.getElem?_append_right hge] at hg'
      have hsame := List.mem_singleton.mp (List.mem_of_getElem? hg')
      exact absurd (hsame ▸ hi') hi
  · rintro ⟨g', hg', hi'⟩
    have hlt := (List.getElem?_eq_some_iff.mp hg').1
    exact ⟨g', by rwa [List.getElem?_append_left hlt], hi'⟩

namespace LastIn
variable {groups : List (List NodeId)} {g : List NodeId} {i : NodeId} {k : ℕ}

theorem concat_of_mem (hi : i ∈ g) : LastIn (groups ++ [g]) i groups.length := by
  refine ⟨⟨g, List.getElem?_concat_length, hi⟩, ?_⟩
  rintro l ⟨g', hl, -⟩
  have hlt := (List.getElem?_eq_some_iff.mp hl).1
  simp only [List.length_append, List.length_singleton] at hlt
  omega

theorem concat_of_not_mem (hi : i ∉ g) (h : LastIn groups i k) : LastIn (groups ++ [g]) i k where
  lists := (lists_concat_of_not_mem hi k).mpr h.lists
  last l hl := h.last l ((lists_concat_of_not_mem hi l).mp hl)

theorem unique {k' : ℕ} (h : LastIn groups i k) (h' : LastIn groups i k') : k = k' :=
  le_antisymm (h'.last k h.lists) (h.last k' h'.lists)

/-- In a partition the last group that lists a node is the only one. -/
theorem only (h : groups.Pairwise List.Disjoint) (hk : Lists groups i k) : LastIn groups i k := by
  refine ⟨hk, ?_⟩
  rintro l ⟨g', hg', hi'⟩
  obtain ⟨g, hg, hi⟩ := hk
  by_contra hlt
  obtain ⟨hk, rfl⟩ := List.getElem?_eq_some_iff.mp hg
  obtain ⟨hl, rfl⟩ := List.getElem?_eq_some_iff.mp hg'
  exact List.pairwise_iff_getElem.mp h k l hk hl (by omega) hi hi'

end LastIn

namespace Network

theorem assign_concat (group : Dict NodeId ℕ) (groups : List (List NodeId)) (g : List NodeId) :
    assign group (groups ++ [g]) =
      g.foldl (fun d node => d.insert node groups.length) (assign group groups) := by
  unfold assign
  rw [List.zipIdx_append, List.foldl_append, Nat.zero_add]
  rfl

/-- After the loop of `set_partition` a listed node is in the last group that lists it, and any
other node where it was. -/
theorem lookup_assign (group : Dict NodeId ℕ) (groups : List (List NodeId)) (i : NodeId) :
    (∃ k, LastIn groups i k ∧ (assign group groups).lookup i = some k) ∨
      (∀ g ∈ groups, i ∉ g) ∧ (assign group groups).lookup i = group.lookup i := by
  induction groups using List.reverseRecOn with
  | nil => exact Or.inr ⟨nofun, rfl⟩
  | append_singleton groups g ih =>
    rw [assign_concat, lookup_foldl_insert]
    by_cases hi : i ∈ g
    · rw [if_pos hi]
      exact Or.inl ⟨groups.length, LastIn.concat_of_mem hi, rfl⟩
    · rw [if_neg hi]
      rcases ih with ⟨k, hk, hlook⟩ | ⟨hnone, hlook⟩
      · exact Or.inl ⟨k, hk.concat_of_not_mem hi, hlook⟩
      · refine Or.inr ⟨fun g' hg' => ?_, hlook⟩
        rcases List.mem_append.mp hg' with hg' | hg'
        · exact hnone g' hg'
        · exact List.mem_singleton.mp hg' ▸ hi

theorem lookup_assign_of_lastIn {group : Dict NodeId ℕ} {groups : List (List NodeId)}
    {i : NodeId} {k : ℕ} (h : LastIn groups i k) :
    (assign group groups).lookup i = some k := by
  rcases lookup_assign group groups i with ⟨k', hk', hlook⟩ | ⟨hnone, -⟩
  · rw [hlook, h.unique hk']
  · obtain ⟨g, hg, hi⟩ := h.lists
    exact absurd hi (hnone g (List.mem_of_getElem? hg))

/-- The loop changes nothing when every listed node is already in the last group that
lists it. -/
theorem assign_eq_iff {group : Dict NodeId ℕ} {groups : List (List NodeId)} :
    assign group groups = group ↔ ∀ i k, LastIn groups i k → group.lookup i = some k := by
  constructor
  · intro heq i k h
    rw [← heq, lookup_assign_of_lastIn h]
  · intro h
    refine Finmap.ext_lookup fun i => ?_
    rcases lookup_assign group groups i with ⟨k, hk, hlook⟩ | ⟨-, hlook⟩
    · rw [hlook, h i k hk]
    · exact hlook

theorem covers_iff {groups : List (List NodeId)} {ids : List NodeId} :
    groups.flatten.toFinset = ids.toFinset ↔ Covers groups ids := by
  simp only [Finset.ext_iff, List.mem_toFinset, List.mem_flatten]
  rfl

variable {net net' : Network} {groups : List (List NodeId)}

/-- `set_partition` looks at the members of the groups only, and not at how often they
occur. -/
theorem setPartition_of_covers (h : Covers groups net.nodeIds) :
    net.setPartition groups = .ok { net with group := assign net.group groups } := by
  unfold setPartition
  dsimp only
  rw [if_neg (not_not_intro (covers_iff.mpr h))]

/-- The map is written before it is checked. -/
theorem setPartition_of_not_covers (h : ¬ Covers groups net.nodeIds) :
    net.setPartition groups = .error { net with group := assign net.group groups } := by
  unfold setPartition
  dsimp only
  rw [if_pos (fun heq => h (covers_iff.mp heq))]

theorem raises_iff : (∃ net', net.setPartition groups = .error net') ↔
    ¬ Covers groups net.nodeIds := by
  constructor
  · rintro ⟨net', h⟩ hc
    rw [setPartition_of_covers hc] at h
    cases h
  · intro h
    exact ⟨_, setPartition_of_not_covers h⟩

/-- What is promised of one call of `set_partition`. -/
structure SetsPartition (net : Network) (groups : List (List NodeId)) : Prop where
  raises : (∃ net', net.setPartition groups = .error net') ↔ ¬ Partitions groups net.nodeIds
  atomic : ∀ net', net.setPartition groups = .error net' → net'.group = net.group ∧
    (∀ a b, net'.reachable a b = net.reachable a b) ∧ net'.isPartitioned = net.isPartitioned
  exact : ∀ net', net.setPartition groups = .ok net' →
    ∀ a ∈ net.nodeIds, ∀ b ∈ net.nodeIds, net.linkIsDown a b = false →
      (net'.reachable a b = true ↔ ∃ g ∈ groups, a ∈ g ∧ b ∈ g)

/-- The groups are a partition, or the call raises and has had nothing to write. -/
def Settable (net : Network) (groups : List (List NodeId)) : Prop :=
  Partitions groups net.nodeIds ∨
    ¬ Covers groups net.nodeIds ∧ ∀ i k, LastIn groups i k → net.group.lookup i = some k

/-- Nodes of a partition are in the group they are looked up in. -/
theorem lookup_assign_eq_iff {group : Dict NodeId ℕ} {ids : List NodeId} {a b : NodeId}
    (h : Partitions groups ids) (ha : a ∈ ids) (hb : b ∈ ids) :
    (assign group groups).lookup a = (assign group groups).lookup b ↔
      ∃ g ∈ groups, a ∈ g ∧ b ∈ g := by
  obtain ⟨ga, hga, ha⟩ := (h.covers a).mpr ha
  obtain ⟨gb, hgb, hb⟩ := (h.covers b).mpr hb
  obtain ⟨ka, hka⟩ := List.mem_iff_getElem?.mp hga
  obtain ⟨kb, hkb⟩ := List.mem_iff_getElem?.mp hgb
  have hla := LastIn.only h.once ⟨ga, hka, ha⟩
  have hlb := LastIn.only h.once ⟨gb, hkb, hb⟩
  rw [lookup_assign_of_lastIn hla, lookup_assign_of_lastIn hlb, Option.some_inj]
  constructor
  · rintro rfl
    rw [hka] at hkb
    exact ⟨ga, hga, ha, Option.some.inj hkb ▸ hb⟩
  · rintro ⟨g, hg, hag, hbg⟩
    obtain ⟨k, hk⟩ := List.mem_iff_getElem?.mp hg
    rw [hla.unique (LastIn.only h.once ⟨g, hk, hag⟩),
      hlb.unique (LastIn.only h.once ⟨g, hk, hbg⟩)]

theorem reachable_iff {a b : NodeId} (h : net.linkIsDown a b = false) :
    net.reachable a b = true ↔ net.group.lookup a = net.group.lookup b := by
  unfold linkIsDown at h
  unfold reachable
  rw [decide_eq_true_iff]
  exact ⟨And.left, fun heq => ⟨heq, of_decide_eq_false h⟩⟩

theorem setsPartition_of_partitions (h : Partitions groups net.nodeIds) :
    net.SetsPartition groups where
  raises := by
    rw [raises_iff]
    exact ⟨fun hc => absurd h.covers hc, fun hp => absurd h hp⟩
  atomic net' herr := by
    rw [setPartition_of_covers h.covers] at herr
    cases herr
  exact net' hok a ha b hb hup := by
    rw [setPartition_of_covers h.covers] at hok
    cases hok
    have hup' : linkIsDown { net with group := assign net.group groups } a b = false := hup
    rw [reachable_iff hup']
    exact lookup_assign_eq_iff h ha hb

theorem setsPartition_of_unwritten (h : ¬ Covers groups net.nodeIds)
    (hsame : assign net.group groups = net.group) : net.SetsPartition groups where
  raises := by
    rw [raises_iff]
    exact ⟨fun _ hp => h hp.covers, fun _ => h⟩
  atomic net' herr := by
    rw [setPartition_of_not_covers h, hsame] at herr
    cases herr
    exact ⟨rfl, fun _ _ => rfl, rfl⟩
  exact net' hok := by
    rw [setPartition_of_not_covers h] at hok
    cases hok

/-- A call of `set_partition` keeps its promise exactly when its groups are a partition of the
node ids, or when it raises over groups whose members are where the loop would put them. -/
theorem setsPartition_iff (net : Network) (groups : List (List NodeId)) :
    net.SetsPartition groups ↔ net.Settable groups := by
  constructor
  · intro h
    by_cases hc : Covers groups net.nodeIds
    · refine Or.inl ?_
      by_contra hp
      exact raises_iff.mp (h.raises.mpr hp) hc
    · have hsame := (h.atomic _ (setPartition_of_not_covers hc)).1
      exact Or.inr ⟨hc, assign_eq_iff.mp hsame⟩
  · rintro (hp | ⟨hc, hsame⟩)
    · exact setsPartition_of_partitions hp
    · exact setsPartition_of_unwritten hc (assign_eq_iff.mpr hsame)

/-- Of three nodes, one in two groups is let through, and one left out is found when the others
have been moved. -/
theorem not_setsPartition :
    ¬ (init [0, 1, 2]).SetsPartition [[0, 1], [1, 2]] ∧
      ¬ (init [0, 1, 2]).SetsPartition [[0], [1]] := by
  constructor
  · intro h
    have hraises : ∃ net', (init [0, 1, 2]).setPartition [[0, 1], [1, 2]] = .error net' := by
      refine h.raises.mpr fun hp => ?_
      exact List.rel_of_pairwise_cons hp.once (List.mem_singleton_self _)
        (by decide : (1 : NodeId) ∈ [0, 1]) (by decide)
    refine raises_iff.mp hraises (covers_iff.mp ?_)
    decide
  · intro h
    have hc : ¬ Covers [[0], [1]] (init [0, 1, 2]).nodeIds := by
      rw [← covers_iff]
      decide
    have hsame := (h.atomic _ (setPartition_of_not_covers hc)).1
    have hlast : LastIn ([[0]] ++ [[1]]) 1 1 := LastIn.concat_of_mem (by decide)
    have hmoved := assign_eq_iff.mp hsame 1 1 hlast
    rw [init, Dict.lookup_fromKeys] at hmoved
    exact absurd hmoved (by decide)

end Network
end RaftVerified
