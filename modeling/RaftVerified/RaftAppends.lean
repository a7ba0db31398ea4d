import RaftVerified.RaftReplies

/-! The refinement for a follower: appends, installed images, crashes, and any callback. -/
namespace RaftVerified
open Consensus

variable {c : Setup} {a : Protocol} {i : NodeId} {x y : Exec}

/-- No entry of the message lies below the base with another term than the base has.
Below its base a node answers `base_term` for every index. -/
def KeepsBase (n : RaftNode) (msg : AppendEntries) : Prop :=
  ∀ k e, msg.entries[k]? = some e → msg.prevIndex+k < n.baseIndex → e.term = n.baseTerm

/-! ### AppendEntries -/

theorem consistent_of_accepted {n : RaftNode} {msg : AppendEntries}
    (hskip : n.bugs.skipLogConsistency = false) (h : Exec.inconsistent n msg = .ok false)
    (hp : 0 < msg.prevIndex) :
    msg.prevIndex ≤ n.lastLogIndex ∧ n.termAt msg.prevIndex = .ok msg.prevTerm := by
  obtain ⟨mismatch, hmis, h⟩ := bind_ok.mp h
  have hall := of_decide_eq_false (Except.ok.inj h)
  rw [hskip] at hall
  have hshort : ¬ n.lastLogIndex < msg.prevIndex := fun hs => hall ⟨hp, Or.inl hs⟩
  rw [Exec.termMismatch, if_neg hshort] at hmis
  obtain ⟨t, ht, rfl⟩ := map_ok.mp hmis
  have heq : t = msg.prevTerm := by
    by_contra hne
    exact hall ⟨hp, Or.inr ⟨decide_eq_true hne, rfl⟩⟩
  exact ⟨by omega, heq ▸ ht⟩

namespace NodeRel
variable {n : RaftNode}

theorem rooted (h : NodeRel c a i n) (hI : Inv c.reading quorums a) :
    a.Rooted c.reading n.logical := by
  have hl := hI.log_rooted i
  rwa [h.view] at hl

/-- Log Matching between a node and the leader of a term. -/
theorem take_eq (h : NodeRel c a i n) (hI : Inv c.reading quorums a) {t k : ℕ} {e f : Entry}
    (he : n.logical[k]? = some e) (hf : (a.trunk t)[k]? = some f) (ht : e.term = f.term) :
    n.logical.take (k+1) = (a.trunk t).take (k+1) :=
  log_matching (h.rooted hI) (hI.trunk_rooted t) he hf ht

/-- Where the consistency check passes, the node holds what the leader has so far. -/
theorem take_prev_eq (h : NodeRel c a i n) (hI : Inv c.reading quorums a)
    (hb : c.bugs = NO_BUGS) {msg : AppendEntries} {src dst : NodeId}
    (hm : MsgRel c a ⟨src, dst, .appendEntries msg⟩) (ht : n.term = msg.term)
    (hcons : Exec.inconsistent n msg = .ok false) :
    msg.prevIndex ≤ n.logical.length ∧
      n.logical.take msg.prevIndex = (a.trunk msg.term).take msg.prevIndex := by
  obtain ⟨hl, hlen, -, hprev, -, -⟩ := hm
  rcases Nat.eq_zero_or_pos msg.prevIndex with h0 | hpos
  · rw [h0]
    exact ⟨Nat.zero_le _, rfl⟩
  · obtain ⟨hle, hterm⟩ := consistent_of_accepted
      (congrArg Bugs.skipLogConsistency (h.ok.bugs.trans hb)) hcons hpos
    rw [← RaftNode.length_logical h.ok.base] at hle
    refine ⟨hle, ?_⟩
    rcases Nat.lt_or_ge n.baseIndex msg.prevIndex with hgt | hge
    · obtain ⟨k, hk⟩ : ∃ k, msg.prevIndex = k+1 := ⟨msg.prevIndex-1, by omega⟩
      rw [hk] at hterm hprev hlen hgt ⊢
      obtain ⟨e, he, hte⟩ := (RaftNode.termAt_eq h.ok.base (by omega)).mp hterm
      have hkl : k < (a.trunk msg.term).length := by omega
      have hf := List.getElem?_eq_getElem hkl
      refine h.take_eq hI he hf ?_
      rw [hte, ← hprev]
      refine c.reading.lastTerm_of_getElem? (n := k) ?_ ?_
      · rw [List.getElem?_take_of_lt k.lt_succ_self, hf]
      · rw [List.length_take]
        omega
    · -- below the base only committed entries are left
      have hf := h.folded_isPrefix hI (ht ▸ hl)
      rw [ht] at hf
      rw [RaftNode.logical, List.take_append_of_le_length (by rw [h.ok.base]; omega),
        prefix_take_eq hf (by rw [h.ok.base]; omega)]

end NodeRel

theorem edited_ok {n m : RaftNode} (h : NodeOk c n) (he : n.Edited m)
    (hg : c.reading.Governs m.logical m.voters m.configIndex)
    (hk : n.logical.take n.commitIndex <+: m.logical) : NodeOk c m := by
  have hlen : (n.logical.take n.commitIndex).length = n.commitIndex := by
    rw [List.length_take]
    exact min_eq_left h.commit_le
  have htake : m.logical.take n.lastApplied = n.logical.take n.lastApplied := by
    rw [prefix_take_eq hk (by rw [hlen]; exact h.applied_le), List.take_take,
      min_eq_left h.applied_le]
  have hcl : n.commitIndex ≤ m.logical.length := by
    rw [← hlen]
    exact hk.length_le
  have hl := he.layout h.toLayout
  obtain ⟨_, _, _, _, rfl⟩ := he
  exact
    { toLayout := hl
      governs := hg
      base_le := h.base_le
      applied_le := h.applied_le
      commit_le := hcl
      kv := by rw [htake]; exact h.kv
      applied := by rw [htake]; exact h.applied }

theorem edited_ballot {n m : RaftNode} (he : n.Edited m) :
    m.ballot = n.ballot ∧ m.commitIndex = n.commitIndex ∧ m.lastApplied = n.lastApplied := by
  obtain ⟨_, _, _, _, rfl⟩ := he
  exact ⟨rfl, rfl, rfl⟩

theorem accept_step (h : NodeRel c a i x.node) (hr : x.node.role = .follower)
    (hl : a.Led x.node.term) {p : ℕ} (hp : p ≤ (a.trunk x.node.term).length) :
    Step c.reading quorums i a (a.accept i p) ∧
      (a.accept i p).server i = { x.node.view with
        log := merge x.node.logical ((a.trunk x.node.term).take p) } ∧
      (a.accept i p).acked i x.node.term p := by
  have hview := h.view
  have ht : (a.server i).term = x.node.term := by rw [hview]; rfl
  refine ⟨.accept p ?_ ?_ ?_, ?_, Or.inr ⟨rfl, ht.symm, rfl⟩⟩
  · rw [hview, RaftNode.view, hr]
    rfl
  · rwa [ht]
  · rwa [ht]
  · rw [State.accept_server, ht, hview]
    rfl

/-- The relation of a follower to its server, when only the log and what follows from it
have changed. -/
theorem follower_rel {n m : RaftNode} (h : NodeRel c a i n) (hr : n.role = .follower)
    (hb : m.ballot = n.ballot) (hok : NodeOk c m) (happ : m.lastApplied = m.commitIndex)
    {a' : Protocol}
    (hv : a'.server i = { n.view with log := m.logical, commit := m.commitIndex }) :
    NodeRel c a' i m := by
  simp only [RaftNode.ballot, Prod.mk.injEq] at hb
  obtain ⟨hid, hterm, hvote, hrole, -, -, -⟩ := hb
  have hfol : ∀ {r : Role}, r ≠ .follower → m.role ≠ r := fun hne hm => by
    rw [hrole, hr] at hm
    exact hne hm.symm
  refine ⟨hok, happ, hid.trans h.id, ?_, fun hm => absurd hm (hfol (by decide)),
    fun hm => absurd hm (hfol (by decide)), fun hm => absurd hm (hfol (by decide))⟩
  rw [hv, RaftNode.view, RaftNode.view, hterm, hvote, hrole]

/-- A follower of the term copies from the leader's log and acknowledges it. -/
theorem accept_rel (hI : Inv c.reading quorums a) (h : ExecRel c a i x)
    (hr : x.node.role = .follower) (hl : a.Led x.node.term) {p : ℕ}
    (hp : p ≤ (a.trunk x.node.term).length) {m : RaftNode} (hb : m.ballot = x.node.ballot)
    (hlog : m.logical = merge x.node.logical ((a.trunk x.node.term).take p))
    (hcom : m.commitIndex = x.node.commitIndex) (happ : m.lastApplied = x.node.lastApplied)
    (hok : x.node.logical.take x.node.commitIndex <+: m.logical → NodeOk c m) :
    ∃ a', Still c.reading quorums i a a' ∧ Inv c.reading quorums a' ∧ Ext a a' ∧
      a'.acked i x.node.term p ∧ ExecRel c a' i (x.set m) := by
  obtain ⟨st, hserver, hack⟩ := accept_step h.node hr hl hp
  have hx := step_ext hI st
  have hkeep := committed_kept hI st i
  rw [hserver, h.node.view, ← hlog] at hkeep
  refine ⟨_, ⟨.single st, rfl, rfl, rfl⟩, inv_step hI st, hx, hack, h.set hx ?_⟩
  refine follower_rel h.node hr hb (hok hkeep) (by rw [happ, hcom, h.node.settled]) ?_
  rw [hserver, hlog, hcom]
  rfl

/-- A follower takes over a committed part of the leader's log. -/
theorem install_rel (hI : Inv c.reading quorums a) (h : ExecRel c a i x)
    (hr : x.node.role = .follower) (hl : a.Led x.node.term) {p : ℕ}
    (hp : p ≤ (a.trunk x.node.term).length)
    (hs : a.Settled x.node.term ((a.trunk x.node.term).take p)) {m : RaftNode}
    (hb : m.ballot = x.node.ballot)
    (hlog : m.logical = merge x.node.logical ((a.trunk x.node.term).take p))
    (hcom : m.commitIndex = p) (happ : m.lastApplied = p) (hok : NodeOk c m) :
    ∃ a', Still c.reading quorums i a a' ∧ a'.acked i x.node.term p ∧
      ExecRel c a' i (x.set m) := by
  obtain ⟨st, hserver, hack⟩ := accept_step h.node hr hl hp
  have hx := step_ext hI st
  have hI1 := inv_step hI st
  have hpre := prefix_merge x.node.logical ((a.trunk x.node.term).take p)
  have hlen : ((a.trunk x.node.term).take p).length = p := by
    rw [List.length_take, min_eq_left hp]
  -- the restored prefix is accepted first, then learnt to be committed
  have st2 : Step c.reading quorums i (a.accept i p) ((a.accept i p).learn i p) := by
    refine .learn p ?_ ?_
    · rw [hserver]
      exact hlen.symm.le.trans hpre.length_le
    · rw [hserver]
      refine hx.settled (settled_mono hs ?_) le_rfl
      change (merge x.node.logical ((a.trunk x.node.term).take p)).take p <+: _
      rw [prefix_take_eq hpre hlen.ge, List.take_take, min_self]
  have hx2 := step_ext hI1 st2
  refine ⟨_, ⟨.tail (.single st) st2, rfl, rfl, rfl⟩, hack, h.set (hx.trans hx2) ?_⟩
  refine follower_rel h.node hr hb hok (by rw [happ, hcom]) ?_
  rw [State.learn_server, hserver, hlog, hcom]

/-- A follower moves its commit index to what the leader has committed. -/
theorem learn_rel (hI : Inv c.reading quorums a) (h : ExecRel c a i x)
    (hr : x.node.role = .follower) {k : ℕ} (hk : k ≤ x.node.logical.length)
    (hs : a.Settled x.node.term (x.node.logical.take k)) (hok : NodeOk c y.node)
    (hsame : x.Same y) (hcom : y.node.commitIndex = k)
    (happ : y.node.lastApplied = y.node.commitIndex) :
    ∃ a', Still c.reading quorums i a a' ∧ Ext a a' ∧ ExecRel c a' i y := by
  have hview := h.node.view
  have st : Step c.reading quorums i a (a.learn i k) := by
    refine .learn k ?_ ?_
    · rw [hview]
      exact hk
    · rw [hview]
      exact hs
  have hx := step_ext hI st
  refine ⟨_, ⟨.single st, rfl, rfl, rfl⟩, hx, ⟨?_, fun p hp => ?_⟩⟩
  · refine follower_rel h.node hr hsame.ballot hok happ ?_
    rw [State.learn_server, hview, hsame.logical, hcom]
    rfl
  · refine MsgRel.ext hx (h.sent p ?_)
    rwa [← hsame.sends i]

namespace Exec

theorem followCommit_rel (hI : Inv c.reading quorums a) (h : ExecRel c a i x)
    (hb : c.bugs = NO_BUGS) (hr : x.node.role = .follower) {leaderCommit p : ℕ}
    (hp : p ≤ x.node.logical.length)
    (hs : a.Settled x.node.term (x.node.logical.take (min leaderCommit p)))
    (hy : x.followCommit leaderCommit p = .ok y) :
    ∃ a', Still c.reading quorums i a a' ∧ Ext a a' ∧ ExecRel c a' i y ∧ x.Same y := by
  rcases followCommit_cases hy with ⟨hreg, -⟩ | ⟨hlt, hy⟩ | ⟨-, rfl⟩
  · rw [h.node.ok.bugs, hb] at hreg
    exact absurd hreg Bool.false_ne_true
  · have hle : max x.node.commitIndex (min leaderCommit p) ≤ x.node.logical.length :=
      max_le h.node.ok.commit_le ((min_le_right _ _).trans hp)
    -- the new index is the old one, or the leader's
    have hset : a.Settled x.node.term
        (x.node.logical.take (max x.node.commitIndex (min leaderCommit p))) := by
      rcases le_total x.node.commitIndex (min leaderCommit p) with hm | hm
      · rwa [max_eq_right hm]
      · rw [max_eq_left hm]
        exact h.node.committed_settled hI
    obtain ⟨hok, hsame, hcom, happ⟩ := setCommitIndex_ok h.node.ok hle hy
    rw [max_eq_right (le_max_left _ _)] at hcom
    obtain ⟨a', hst, hx, hrel⟩ := learn_rel hI h hr hle hset hok hsame hcom
      (happ h.node.settled)
    exact ⟨a', hst, hx, hrel, hsame⟩
  · exact ⟨a, Still.refl a, Ext.refl a, h, Same.refl y⟩

theorem appendFromLeader_rel (hI : Inv c.reading quorums a) (h : ExecRel c a i x)
    (hb : c.bugs = NO_BUGS) (hr : x.node.role = .follower) {src dst : NodeId}
    {msg : AppendEntries} (hm : MsgRel c a ⟨src, dst, .appendEntries msg⟩)
    (ht : x.node.term = msg.term)
    (hkeep : inconsistent x.node msg = .ok false → KeepsBase x.node msg)
    (hy : x.appendFromLeader msg = .ok y) : Stays c a i y := by
  obtain ⟨refused, href, hy⟩ := bind_ok.mp hy
  split at hy
  next =>
    obtain rfl := Except.ok.inj hy
    refine ExecRel.stays (ExecRel.send h ?_)
    exact fun hs => by cases hs
  next hacc =>
    obtain rfl := Bool.eq_false_iff.mpr hacc
    obtain ⟨n, hn, hy⟩ := bind_ok.mp hy
    obtain ⟨z, hz, hy⟩ := bind_ok.mp hy
    obtain rfl := Except.ok.inj hy
    obtain ⟨hple, hprev⟩ := h.node.take_prev_eq hI hb hm ht href
    obtain ⟨hl, hlen, hent, -, -, hcs⟩ := hm
    have hbelow : ∀ k e, msg.prevIndex ≤ k → k < x.node.baseIndex →
        k < msg.prevIndex+msg.entries.length → (a.trunk msg.term)[k]? = some e →
        e.term = x.node.baseTerm := by
      intro k e h1 h2 h3 h4
      obtain ⟨j, rfl⟩ := Nat.exists_eq_add_of_le h1
      refine hkeep href j e ?_ h2
      rw [← hent, List.getElem?_take_of_lt (by omega), List.getElem?_drop, h4]
    have hfold := h.node.folded_isPrefix hI (ht ▸ hl)
    rw [ht] at hfold
    -- the loop merges the trunk, so it is one accept of the abstract protocol
    obtain ⟨hed, hgov, hlog⟩ := RaftNode.appendLoop_eq msg.entries h.node.ok.toLayout
      h.node.ok.governs hprev hple hent hfold (fun k e f he hf => h.node.take_eq hI he hf)
      hbelow hn
    obtain ⟨hbal, hcom, happ⟩ := edited_ballot hed
    rw [← ht] at hl hlen hlog hcs
    obtain ⟨a1, hs1, hI1, hx1, hack, h1⟩ := accept_rel hI h hr hl hlen hbal hlog hcom happ
      (edited_ok h.node.ok hed hgov)
    have hpre : (a.trunk x.node.term).take (msg.prevIndex+msg.entries.length) <+: n.logical := by
      rw [hlog]
      exact prefix_merge _ _
    have hnr : n.role = .follower := by
      have hrole := congrArg (fun b => b.2.2.2.1) hbal
      exact hrole.trans hr
    have hnt : n.term = x.node.term := congrArg (fun b => b.2.1) hbal
    have hpl : msg.prevIndex+msg.entries.length ≤ n.logical.length := by
      have hle := hpre.length_le
      rwa [List.length_take, min_eq_left hlen] at hle
    -- what the leader committed of the merged part is settled
    have hset : a1.Settled n.term
        (n.logical.take (min msg.leaderCommit (msg.prevIndex+msg.entries.length))) := by
      refine hx1.settled (settled_mono hcs ?_) (hnt ▸ le_rfl)
      rw [prefix_take_eq hpre (by rw [List.length_take]; omega), List.take_take]
      exact take_prefix_take _ (by omega)
    obtain ⟨a2, hs2, hx2, h2, hsame⟩ := followCommit_rel hI1 h1 hb hnr hpl hset hz
    have hbz := hsame.ballot
    simp only [RaftNode.ballot, Prod.mk.injEq] at hbz
    refine ⟨a2, hs1.trans hs2, h2.send fun _ => ?_⟩
    change a2.acked z.node.id z.node.term (msg.prevIndex+msg.entries.length)
    rw [h2.node.id, hbz.2.1]
    change a2.acked i n.term _
    rw [hnt]
    exact hx2.acked _ _ _ hack

end Exec
end RaftVerified
