import RaftVerified.RaftCompleteness
import RaftVerified.RaftProgress

/-! Log matching between nodes and messages in flight, and the state of a node as a
replay of its committed log, without compaction and with a fixed voting set. -/
namespace RaftVerified
open Consensus

variable {c : Setup} {a : Protocol} {w : World} {past : List World} {i j : NodeId} {k : ℕ}

namespace Explains

theorem nodes_match (h : Explains c a (w :: past)) (hi : i ∈ c.ids) (hj : j ∈ c.ids)
    {e f : Entry} (he : (w.nodes i).logical[k]? = some e) (hf : (w.nodes j).logical[k]? = some f)
    (ht : e.term = f.term) : (w.nodes i).logical.take (k+1) = (w.nodes j).logical.take (k+1) := by
  have hrel := h.now w rfl
  exact log_matching ((hrel.nodes i hi).rooted h.inv) ((hrel.nodes j hj).rooted h.inv) he hf ht

/-- The entries of an AppendEntries are those of its term's leader. -/
theorem slice_getElem? (h : Explains c a (w :: past)) {p : Packet} (hp : p ∈ w.sent)
    {m : AppendEntries} (hm : p.msg = .appendEntries m) {n : ℕ} {e : Entry}
    (he : m.entries[n]? = some e) : (a.trunk m.term)[m.prevIndex+n]? = some e := by
  have hmsg := (h.now w rfl).sent p hp
  rw [MsgRel, hm] at hmsg
  obtain ⟨-, -, hent, -⟩ := hmsg
  have hn := length_lt_of_getElem? he
  rw [← hent, List.getElem?_take_of_lt hn, List.getElem?_drop] at he
  exact he

theorem slice_matches (h : Explains c a (w :: past)) {p : Packet} (hp : p ∈ w.sent)
    {m : AppendEntries} (hm : p.msg = .appendEntries m) (hi : i ∈ c.ids) {n : ℕ} {e f : Entry}
    (he : m.entries[n]? = some e) (hf : (w.nodes i).logical[m.prevIndex+n]? = some f)
    (ht : e.term = f.term) :
    (w.nodes i).logical.take (m.prevIndex+n+1) = (a.trunk m.term).take (m.prevIndex+n+1) :=
  ((h.now w rfl).nodes i hi).take_eq h.inv hf (h.slice_getElem? hp hm he) ht.symm

/-- What a message carries below a commit index is what was committed there. -/
theorem slice_committed (h : Explains c a (w :: past)) {p : Packet} (hp : p ∈ w.sent)
    {m : AppendEntries} (hm : p.msg = .appendEntries m) (hi : i ∈ c.ids)
    (hterm : (w.nodes i).term ≤ m.term) {n : ℕ} {e : Entry} (he : m.entries[n]? = some e)
    (hn : m.prevIndex+n < (w.nodes i).commitIndex) :
    (w.nodes i).logical[m.prevIndex+n]? = some e := by
  have hmsg := (h.now w rfl).sent p hp
  rw [MsgRel, hm] at hmsg
  have hs := h.committed_settled List.mem_cons_self hi
  have hpre := h.inv.settled_trunk hs hmsg.1 hterm
  have hlen : m.prevIndex+n < ((w.nodes i).logical.take (w.nodes i).commitIndex).length := by
    have hok := (((h.now w rfl).nodes i hi).ok).commit_le
    rw [List.length_take]
    omega
  have htr := h.slice_getElem? hp hm he
  rw [← prefix_getElem?_eq hpre hlen, List.getElem?_take_of_lt hn] at htr
  exact htr

end Explains

/-- Log matching, for two nodes and for a node and a message in flight. -/
theorem logs_match (hb : c.bugs = NO_BUGS) (ht : c.config.snapshotThreshold = 0)
    (hr : Run c FixedVoters (w :: past)) :
    (∀ i ∈ c.ids, ∀ j ∈ c.ids, ∀ (k : ℕ) (e f : Entry), (w.nodes i).log[k]? = some e →
      (w.nodes j).log[k]? = some f → e.term = f.term →
      (w.nodes i).log.take (k+1) = (w.nodes j).log.take (k+1)) ∧
    ∀ p ∈ w.sent, ∀ m, p.msg = .appendEntries m → ∀ i ∈ c.ids, ∀ (n : ℕ) (e f : Entry),
      m.entries[n]? = some e → (w.nodes i).log[m.prevIndex+n]? = some f → e.term = f.term →
      (∀ n' ≤ n, m.entries[n']? = (w.nodes i).log[m.prevIndex+n']?) ∧
      (w.nodes i).termAt m.prevIndex = .ok m.prevTerm := by
  obtain ⟨a, ha⟩ := fixed_explained hb ht hr
  have hflat : ∀ i ∈ c.ids, (w.nodes i).logical = (w.nodes i).log :=
    fun i hi => (flat_node ((ha.now w rfl).nodes i hi).ok ht).2
  refine ⟨?_, ?_⟩
  · intro i hi j hj k e f he hf hterm
    rw [← hflat i hi] at he ⊢
    rw [← hflat j hj] at hf ⊢
    exact ha.nodes_match hi hj he hf hterm
  -- a slice in flight is a piece of the trunk its sender led
  · intro p hp m hm i hi n e f he hf hterm
    rw [← hflat i hi] at hf ⊢
    have htake := ha.slice_matches hp hm hi he hf hterm
    refine ⟨?_, ?_⟩
    · intro n' hn'
      have hlen := length_lt_of_getElem? he
      have he' := List.getElem?_eq_getElem (show n' < m.entries.length by omega)
      have htr := ha.slice_getElem? hp hm he'
      rw [he', ← htr]
      have hat := congrArg (·[m.prevIndex+n']?) htake
      rw [List.getElem?_take_of_lt (by omega), List.getElem?_take_of_lt (by omega)] at hat
      exact hat.symm
    · have hok := ((ha.now w rfl).nodes i hi).ok
      have hprev := (ha.now w rfl).sent p hp
      rw [MsgRel, hm] at hprev
      have hlen := length_lt_of_getElem? hf
      have hpre := congrArg (List.take m.prevIndex) htake
      rw [List.take_take, List.take_take, Nat.min_eq_left (by omega)] at hpre
      rw [RaftNode.termAt_take hok.base hok.base_term, hpre, hprev.2.2.2.1]
      · rw [(flat_node hok ht).1]
        exact Nat.zero_le _
      · omega

theorem leader_change_matches : ∃ w past, Run trio FixedVoters (w :: past) ∧
    (w.nodes 0).log.take 1 = (w.nodes 1).log.take 1 := by
  have hr : Run trio FixedVoters leaderChange := Run.follow_run .init _
  have hw : leaderChange.head?.map (fun w => ((w.nodes 0).log[0]?, (w.nodes 1).log[0]?)) =
      some (some ⟨1, "a".toList⟩, some ⟨1, "a".toList⟩) := by decide +kernel
  obtain ⟨w, past, hws⟩ := hr.exists_cons
  rw [hws] at hr hw
  have hw := Option.some.inj hw
  simp only [Prod.mk.injEq] at hw
  refine ⟨w, past, hr, ?_⟩
  exact (logs_match rfl rfl hr).1 0 (by decide) 1 (by decide) 0 _ _ hw.1 hw.2 rfl

/-- Delivering an AppendEntries is a step of the run, and keeps what was committed. -/
theorem deliver_keeps_committed (hb : c.bugs = NO_BUGS) (ht : c.config.snapshotThreshold = 0)
    (hr : Run c FixedVoters (w :: past)) {p : Packet} (hp : p ∈ w.sent) (hd : p.dst ∈ c.ids)
    {m : AppendEntries} (hm : p.msg = .appendEntries m) {y : Exec}
    (hy : ({ node := w.nodes p.dst } : Exec).handle p.msg = .ok y) :
    y.node.log.take (w.nodes p.dst).commitIndex =
      (w.nodes p.dst).log.take (w.nodes p.dst).commitIndex := by
  obtain ⟨n, hn⟩ := List.getElem?_of_mem hp
  have hstep : w.step c (.deliver n) = .ok (w.put p.dst y) := by
    simp only [World.step, World.target, World.callback, hn, Option.map_some, if_pos hd, hy]
    rfl
  obtain ⟨a, ha⟩ := fixed_explained hb ht (hr.step (e := .deliver n) trivial hstep)
  obtain ⟨b, hI, hx, hrel⟩ := ha.past w (by simp)
  have hold := hrel.nodes _ hd
  have hnew := (ha.now _ rfl).nodes _ hd
  rw [World.put_nodes_self] at hnew
  -- only a stale image can take the commit index back, and this is no image
  have hgrows : (w.nodes p.dst).commitIndex ≤ y.node.commitIndex := by
    rcases Exec.handle_grows (hold.ok.bugs.trans hb) hold.settled hy with ⟨hg, -⟩ | hstale
    · exact hg.commit
    · obtain ⟨-, -, -, -, m', hm', -⟩ := hstale
      rw [hm] at hm'
      cases hm'
  have hflat := (flat_node hold.ok ht).2
  have hflat' := (flat_node (w := w.put p.dst y) (i := p.dst)
    (by rw [World.put_nodes_self]; exact hnew.ok) ht).2
  rw [World.put_nodes_self] at hflat'
  rw [← hflat, ← hflat']
  apply List.ext_getElem?
  intro k
  rcases Nat.lt_or_ge k (w.nodes p.dst).commitIndex with hk | hk
  · -- both sides are covered, so state machine safety makes them equal
    have hlen := hold.ok.commit_le
    have hlen' := hnew.ok.commit_le
    rw [List.getElem?_take_of_lt hk, List.getElem?_take_of_lt hk]
    have he := List.getElem?_eq_getElem (show k < (w.nodes p.dst).logical.length by omega)
    have he' := List.getElem?_eq_getElem (show k < y.node.logical.length by omega)
    rw [he, he']
    refine congrArg some ?_
    refine ha.covered_agree (v := w.put p.dst y) (w := w) (by simp) (by simp) hd hd (k := k) ?_
      ?_ hk he
    · rw [World.put_nodes_self]
      omega
    · rw [World.put_nodes_self]
      exact he'
  · rw [List.getElem?_take_eq_none hk, List.getElem?_take_eq_none hk]

/-- The state is a replay of the committed log, and no message that can be delivered
reaches into it. -/
theorem state_is_replay (hb : c.bugs = NO_BUGS) (ht : c.config.snapshotThreshold = 0)
    (hr : Run c FixedVoters (w :: past)) :
    (∀ i ∈ c.ids, (w.nodes i).commitIndex = (w.nodes i).lastApplied ∧
      (w.nodes i).lastApplied ≤ (w.nodes i).lastLogIndex ∧
      (w.nodes i).applied = ((w.nodes i).log.take (w.nodes i).commitIndex).map Entry.command ∧
      (w.nodes i).kv = replay ((w.nodes i).log.take (w.nodes i).commitIndex)) ∧
    ∀ p ∈ w.sent, p.dst ∈ c.ids → ∀ m, p.msg = .appendEntries m →
      ((w.nodes p.dst).term ≤ m.term → ∀ (n : ℕ) (e : Entry), m.entries[n]? = some e →
        m.prevIndex+n < (w.nodes p.dst).commitIndex →
        (w.nodes p.dst).log[m.prevIndex+n]? = some e) ∧
      ∀ y, ({ node := w.nodes p.dst } : Exec).handle p.msg = .ok y →
        y.node.log.take (w.nodes p.dst).commitIndex =
          (w.nodes p.dst).log.take (w.nodes p.dst).commitIndex := by
  obtain ⟨a, ha⟩ := fixed_explained hb ht hr
  refine ⟨?_, ?_⟩
  · intro i hi
    have hn := (ha.now w rfl).nodes i hi
    obtain ⟨hbase, hflat⟩ := flat_node hn.ok ht
    refine ⟨hn.settled.symm, ?_, ?_, ?_⟩
    · rw [← RaftNode.length_logical hn.ok.base]
      exact hn.ok.applied_le.trans hn.ok.commit_le
    · rw [hn.ok.applied, hn.settled, hbase, hflat, List.drop_zero]
    · rw [hn.ok.kv, hn.settled, hflat]
  · intro p hp hd m hm
    refine ⟨fun hterm n e he hn => ?_, fun y hy => deliver_keeps_committed hb ht hr hp hd hm hy⟩
    rw [← (flat_node ((ha.now w rfl).nodes _ hd).ok ht).2]
    exact ha.slice_committed hp hm hd hterm he hn

theorem leader_change_replays : ∃ w past, Run trio FixedVoters (w :: past) ∧
    (w.nodes 0).applied = ["a".toList] ∧ (w.nodes 0).kv = replay [⟨1, "a".toList⟩] := by
  have hr : Run trio FixedVoters leaderChange := Run.follow_run .init _
  have hw : leaderChange.head?.map (fun w => ((w.nodes 0).commitIndex, (w.nodes 0).log)) =
      some (1, [⟨1, "a".toList⟩]) := by decide +kernel
  obtain ⟨w, past, hws⟩ := hr.exists_cons
  rw [hws] at hr hw
  have hw := Option.some.inj hw
  simp only [Prod.mk.injEq] at hw
  obtain ⟨-, -, happ, hkv⟩ := (state_is_replay rfl rfl hr).1 0 (by decide)
  rw [hw.1, hw.2] at happ hkv
  exact ⟨w, past, hr, happ, hkv⟩

end RaftVerified
