import RaftVerified.RaftSafety

/-! Leader completeness and state machine safety over whole runs without compaction,
first with a fixed voting set and then under membership changes. -/
namespace RaftVerified
open Consensus

variable {c : Setup} {a : Protocol} {v w : World} {ws past : List World} {i j : NodeId}
  {k t : ℕ} {e : Entry}

/-- A leader of term `t` covers the entry `e` at position `k` with its commit index. -/
def CommittedBy (c : Setup) (w : World) (t k : ℕ) (e : Entry) : Prop :=
  ∃ i ∈ c.ids, (w.nodes i).role = .leader ∧ (w.nodes i).term = t ∧
    k < (w.nodes i).commitIndex ∧ (w.nodes i).log[k]? = some e

/-- In the oldest state of the run where any leader covers `e`, one of term `t` does. -/
def FirstCommitted (c : Setup) (ws : List World) (t k : ℕ) (e : Entry) : Prop :=
  ∃ later first earlier, ws = later ++ first :: earlier ∧ CommittedBy c first t k e ∧
    ∀ x ∈ earlier, ∀ u, ¬ CommittedBy c x u k e

theorem exists_oldest {α : Type*} {p : α → Prop} (xs : List α) (h : ∃ x ∈ xs, p x) :
    ∃ later first earlier, xs = later ++ first :: earlier ∧ p first ∧ ∀ x ∈ earlier, ¬ p x := by
  induction xs with
  | nil =>
    obtain ⟨x, hx, -⟩ := h
    cases hx
  | cons y ys ih =>
    by_cases hys : ∃ x ∈ ys, p x
    · obtain ⟨later, first, earlier, rfl, hf, he⟩ := ih hys
      exact ⟨y :: later, first, earlier, rfl, hf, he⟩
    · obtain ⟨x, hx, hp⟩ := h
      rcases List.mem_cons.mp hx with rfl | hx
      · exact ⟨[], x, ys, rfl, hp, fun z hz hpz => hys ⟨z, hz, hpz⟩⟩
      · exact absurd ⟨x, hx, hp⟩ hys

namespace Explains

/-- What any node covers, some leader of the run covered. -/
theorem covered_committed (h : Explains c a ws) (ht : c.config.snapshotThreshold = 0)
    (hv : v ∈ ws) (hi : i ∈ c.ids) (hk : k < (v.nodes i).commitIndex)
    (he : (v.nodes i).log[k]? = some e) : ∃ x ∈ ws, ∃ t, CommittedBy c x t k e := by
  obtain ⟨b, hI, hx, hrel⟩ := h.past v hv
  have hflat := (flat_node (hrel.nodes i hi).ok ht).2
  rw [← hflat] at he
  obtain ⟨u, m, n, -, hc, hkm, hek⟩ := h.covered_chosen hv hi hk he
  obtain ⟨x, hxw, l, hl, hrole, hterm, hcom⟩ := h.commits u m n hc
  obtain ⟨b', hI', hx', hrel'⟩ := h.past x hxw
  have hok := (hrel'.nodes l hl).ok
  have hlog := (h.leader_trunk hxw hl hrole).2
  rw [hterm] at hlog
  -- the leader that committed it has its trunk at least up to its commit index
  have hlen : k < (x.nodes l).logical.length := by
    have := hok.commit_le
    omega
  refine ⟨x, hxw, u, l, hl, hrole, hterm, by omega, ?_⟩
  rw [← (flat_node hok ht).2, prefix_getElem?_eq hlog hlen]
  exact hek

theorem committedBy_kept (h : Explains c a (w :: past)) (ht : c.config.snapshotThreshold = 0)
    (hv : v ∈ w :: past) (hc : CommittedBy c v t k e) (hj : j ∈ c.ids)
    (hr : (w.nodes j).role = .leader) (hle : t ≤ (w.nodes j).term) :
    (w.nodes j).log[k]? = some e := by
  obtain ⟨i, hi, -, rfl, hk, he⟩ := hc
  obtain ⟨b, hI, hx, hrel⟩ := h.past v hv
  rw [← (flat_node (hrel.nodes i hi).ok ht).2] at he
  rw [← (flat_node ((h.now w rfl).nodes j hj).ok ht).2]
  exact h.leader_has hv hi hj hk he hr hle

/-- Without compaction what is applied is what is covered. -/
theorem applied_covered (h : Explains c a ws) (ht : c.config.snapshotThreshold = 0)
    (hv : v ∈ ws) (hi : i ∈ c.ids) {s : Str} (hs : (v.nodes i).applied[k]? = some s) :
    k < (v.nodes i).commitIndex ∧ ∃ e, (v.nodes i).logical[k]? = some e ∧ e.command = s := by
  obtain ⟨b, hI, hx, hrel⟩ := h.past v hv
  have hn := hrel.nodes i hi
  obtain ⟨hbase, hflat⟩ := flat_node hn.ok ht
  rw [hn.ok.applied, hbase, List.drop_zero, List.getElem?_map, Option.map_eq_some_iff] at hs
  obtain ⟨e, he, hes⟩ := hs
  have hk : k < (v.nodes i).lastApplied := by
    have hl := length_lt_of_getElem? he
    rw [List.length_take] at hl
    omega
  rw [List.getElem?_take_of_lt hk] at he
  exact ⟨hn.settled ▸ hk, e, he, hes⟩

theorem applied_agree (h : Explains c a ws) (ht : c.config.snapshotThreshold = 0)
    (hv : v ∈ ws) (hw : w ∈ ws) (hi : i ∈ c.ids) (hj : j ∈ c.ids) {s s' : Str}
    (hs : (v.nodes i).applied[k]? = some s) (hs' : (w.nodes j).applied[k]? = some s') :
    s = s' := by
  obtain ⟨hk, e, he, rfl⟩ := h.applied_covered ht hv hi hs
  obtain ⟨hk', f, hf, rfl⟩ := h.applied_covered ht hw hj hs'
  rw [h.covered_agree hv hw hi hj hk he hk' hf]

end Explains

/-! ### A fixed voting set -/

/-- Leader completeness and state machine safety. -/
theorem committed_entries_kept (hb : c.bugs = NO_BUGS) (ht : c.config.snapshotThreshold = 0)
    (hr : Run c FixedVoters (w :: past)) :
    (∀ v ∈ w :: past, ∀ i ∈ c.ids, ∀ k e, k < (v.nodes i).commitIndex →
      (v.nodes i).log[k]? = some e → ∃ t, FirstCommitted c (w :: past) t k e) ∧
    (∀ t k e, FirstCommitted c (w :: past) t k e → ∀ j ∈ c.ids,
      (w.nodes j).role = .leader → t ≤ (w.nodes j).term → (w.nodes j).log[k]? = some e) ∧
    ∀ v ∈ w :: past, ∀ v' ∈ w :: past, ∀ i ∈ c.ids, ∀ j ∈ c.ids,
      ∀ (k : ℕ) (s s' : Str), (v.nodes i).applied[k]? = some s →
        (v'.nodes j).applied[k]? = some s' → s = s' := by
  obtain ⟨a, ha⟩ := fixed_explained hb ht hr
  refine ⟨?_, ?_, ?_⟩
  · intro v hv i hi k e hk he
    obtain ⟨later, first, earlier, hws, ⟨t, hcom⟩, hnone⟩ :=
      exists_oldest _ (ha.covered_committed ht hv hi hk he)
    exact ⟨t, later, first, earlier, hws, hcom, fun x hx u hu => hnone x hx ⟨u, hu⟩⟩
  · rintro t k e ⟨later, first, earlier, hws, hcom, -⟩ j hj hrole hle
    have hfirst : first ∈ w :: past := hws ▸ List.mem_append_right _ List.mem_cons_self
    exact ha.committedBy_kept ht hfirst hcom hj hrole hle
  · intro v hv v' hv' i hi j hj k s s' hs hs'
    exact ha.applied_agree ht hv hv' hi hj hs hs'

def trio : Setup := { numNodes := 3 }

/-- Node 0 leads term 1 and commits "a"; node 1 takes over. -/
def leaderChange : List World := Run.follow trio FixedVoters [World.init trio]
  [.electionTimeout 0 1, .deliver 0, .deliver 2, .clientCommand 0 "a".toList, .deliver 5,
    .deliver 7, .electionTimeout 1 4, .deliver 9, .deliver 10]

theorem leader_change_keeps : ∃ w past, Run trio FixedVoters (w :: past) ∧
    (w.nodes 1).role = .leader ∧ (w.nodes 1).term = 2 ∧
    ∃ t ≤ 2, FirstCommitted trio (w :: past) t 0 ⟨1, "a".toList⟩ ∧
      (w.nodes 1).log[0]? = some ⟨1, "a".toList⟩ := by
  have hr : Run trio FixedVoters leaderChange := Run.follow_run .init _
  have hw : leaderChange.head?.map (fun w => ((w.nodes 1).role, (w.nodes 1).term,
      (w.nodes 0).commitIndex, (w.nodes 0).log)) =
      some (.leader, 2, 1, [⟨1, "a".toList⟩]) := by decide +kernel
  have hterms : ∀ v ∈ leaderChange, ∀ i ∈ trio.ids, (v.nodes i).term ≤ 2 := by decide +kernel
  obtain ⟨w, past, hws⟩ := hr.exists_cons
  rw [hws] at hr hw hterms
  have hw := Option.some.inj hw
  simp only [Prod.mk.injEq] at hw
  obtain ⟨hrole, hterm, hcommit, hlog⟩ := hw
  obtain ⟨hcovered, hkept, -⟩ := committed_entries_kept rfl rfl hr
  have hfirst : ∃ t, FirstCommitted trio (w :: past) t 0 ⟨1, "a".toList⟩ := by
    apply hcovered w List.mem_cons_self 0 (by decide)
    · rw [hcommit]
      exact Nat.zero_lt_one
    · rw [hlog]
      rfl
  obtain ⟨t, hfirst⟩ := hfirst
  have hle : t ≤ 2 := by
    obtain ⟨later, first, earlier, hsplit, ⟨i, hi, -, rfl, -, -⟩, -⟩ := hfirst
    exact hterms first (hsplit ▸ List.mem_append_right _ List.mem_cons_self) i hi
  exact ⟨w, past, hr, hrole, hterm, t, hle, hfirst,
    hkept t 0 _ hfirst 1 (by decide) hrole (hterm ▸ hle)⟩

/-! ### Membership changes -/

/-- Without repeated voters every change a leader accepts is sound. -/
theorem distinct_voters_sound (hb : c.bugs = NO_BUGS) (ht : c.config.snapshotThreshold = 0)
    (hn : c.voters.Nodup) (hr : Run c AnyChange ws) : Run c (SoundChanges c) ws := by
  apply hr.mono
  intro ws e hrun hall
  cases e with
  | changeConfig i newVoters =>
    intro w hw hi
    obtain ⟨a, ha⟩ := membership_explained hb ht hrun
    have hrel := (ha.now w hw).nodes i hi
    have hroot := ha.inv.log_rooted i
    rw [hrel.view] at hroot
    apply Exec.soundChange_of_nodup
    rw [hrel.ok.governs.1]
    exact ha.inv.conf_of_change (p := List.Nodup) hn (fun hch _ => hch.2) hroot
  | _ => exact hall

/-- Election safety and leader completeness while leaders change the voting set. -/
theorem membership_change_safe (hb : c.bugs = NO_BUGS) (ht : c.config.snapshotThreshold = 0)
    (hr : Run c (SoundChanges c) (w :: past)) :
    (∀ v ∈ w :: past, ∀ v' ∈ w :: past, ∀ i ∈ c.ids, ∀ j ∈ c.ids,
      (v.nodes i).role = .leader → (v'.nodes j).role = .leader →
      (v.nodes i).term = (v'.nodes j).term → i = j) ∧
    ∀ v ∈ w :: past, ∀ t k e, CommittedBy c v t k e → ∀ j ∈ c.ids,
      (w.nodes j).role = .leader → t ≤ (w.nodes j).term → (w.nodes j).log[k]? = some e := by
  obtain ⟨a, ha⟩ := membership_explained hb ht hr
  refine ⟨?_, ?_⟩
  · intro v hv v' hv' i hi j hj hri hrj hterm
    exact ha.one_leader hv hv' hi hj hri hrj hterm
  · intro v hv t k e hcom j hj hrole hle
    exact ha.committedBy_kept ht hv hcom hj hrole hle

/-- Node 0 leads term 1, commits "a" and removes node 2; node 1 takes over. -/
def voterRemoved : List World := Run.follow trio AnyChange [World.init trio]
  [.electionTimeout 0 1, .deliver 0, .deliver 2, .clientCommand 0 "a".toList, .deliver 5,
    .deliver 7, .changeConfig 0 [0, 1], .deliver 8, .electionTimeout 1 5, .deliver 10, .deliver 11]

theorem voter_removed_safe : ∃ w past, Run trio AnyChange (w :: past) ∧
    (w.nodes 1).role = .leader ∧ (w.nodes 1).voters = [0, 1] ∧
    ∀ v ∈ w :: past, ∀ t k e, CommittedBy trio v t k e → t ≤ 2 → (w.nodes 1).log[k]? = some e := by
  have hr : Run trio AnyChange voterRemoved := Run.follow_run .init _
  have hw : voterRemoved.head?.map (fun w => ((w.nodes 1).role, (w.nodes 1).term,
      (w.nodes 1).voters)) = some (.leader, 2, [0, 1]) := by decide +kernel
  obtain ⟨w, past, hws⟩ := hr.exists_cons
  rw [hws] at hr hw
  have hw := Option.some.inj hw
  simp only [Prod.mk.injEq] at hw
  obtain ⟨hrole, hterm, hvoters⟩ := hw
  refine ⟨w, past, hr, hrole, hvoters, ?_⟩
  intro v hv t k e hcom hle
  have hsound := distinct_voters_sound rfl rfl (by decide) hr
  exact (membership_change_safe rfl rfl hsound).2 v hv t k e hcom 1 (by decide) hrole
    (hterm ▸ hle)

/-- Four servers of which one is listed twice. -/
def listedTwice : Setup := { numNodes := 4, initialVoters := some [0, 0, 1, 2, 3] }

/-- Leader 3 of term 1 removes voter 0 on its own log only. Leader 0 of term 2 commits
"b" with one follower, for it counts itself twice; node 3 then wins term 3 without "b". -/
def entryLost : List World := Run.follow listedTwice AnyChange [World.init listedTwice]
  [.electionTimeout 3 1, .deliver 2, .deliver 3, .deliver 4, .deliver 5,
    .clientCommand 3 "a".toList, .deliver 10, .deliver 12, .deliver 13, .deliver 14, .deliver 15,
    .deliver 16, .changeConfig 3 [1, 2, 3], .electionTimeout 0 3, .deliver 19, .deliver 20,
    .deliver 22, .deliver 23, .clientCommand 0 "b".toList, .deliver 27, .deliver 30, .pause 3,
    .resume 3, .electionTimeout 3 5, .electionTimeout 3 6, .deliver 34, .deliver 35]

theorem voter_listed_twice_loses_entry : listedTwice.Accepted ∧
    ¬ ∀ w past, Run listedTwice AnyChange (w :: past) → ∀ v ∈ w :: past, ∀ t k e,
      CommittedBy listedTwice v t k e → ∀ j ∈ listedTwice.ids, (w.nodes j).role = .leader →
      t ≤ (w.nodes j).term → (w.nodes j).log[k]? = some e := by
  refine ⟨by decide, fun hall => ?_⟩
  have hr : Run listedTwice AnyChange entryLost := Run.follow_run .init _
  have hw : entryLost.head?.map (fun w => (((w.nodes 0).role, (w.nodes 0).term,
      (w.nodes 0).commitIndex, (w.nodes 0).log[1]?), (w.nodes 3).role, (w.nodes 3).term,
      (w.nodes 3).log[1]?)) = some ((.leader, 2, 2, some ⟨2, "b".toList⟩), .leader, 3,
        some ⟨1, "cfg:1,2,3".toList⟩) := by decide +kernel
  obtain ⟨w, past, hws⟩ := hr.exists_cons
  rw [hws] at hr hw
  have hw := Option.some.inj hw
  simp only [Prod.mk.injEq] at hw
  obtain ⟨⟨hr0, ht0, hc0, hl0⟩, hr3, ht3, hl3⟩ := hw
  have hcom : CommittedBy listedTwice w 2 1 ⟨2, "b".toList⟩ :=
    ⟨0, by decide, hr0, ht0, by omega, hl0⟩
  have hkept := hall w past hr w List.mem_cons_self 2 1 _ hcom 3 (by decide) hr3 (by omega)
  rw [hl3] at hkept
  exact absurd hkept (by decide)

end RaftVerified
