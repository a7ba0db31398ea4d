import RaftVerified.RaftQuorums

/-! What the fields of one node say about its logical log: the compacted prefix, the
configuration in force, and the state machine as a replay. -/
namespace RaftVerified
open Consensus

/-- `sorted(initial_voters)`, or every server. -/
def Setup.voters (c : Setup) : List NodeId :=
  match c.initialVoters with
  | some vs => RaftVerified.sorted vs
  | none => RaftVerified.sorted c.ids

/-- Log entries as the consensus library reads them. -/
def Setup.reading (c : Setup) : Reading Entry (List NodeId) where
  term := Entry.term
  config e := decodeConfig e.command
  initial := c.voters

/-- A fresh state machine after the commands of `entries`. -/
def replay (entries : List Entry) : KVStateMachine :=
  entries.foldl (fun kv e => (kv.apply (Command.decode e.command)).1) {}

theorem replay_append (xs : List Entry) (e : Entry) :
    replay (xs ++ [e]) = ((replay xs).apply (Command.decode e.command)).1 := by
  rw [replay, List.foldl_append]
  rfl

theorem sorted_perm {xs ys : List NodeId} (h : xs.Perm ys) : sorted xs = sorted ys := by
  have hp : (sorted xs).Perm (sorted ys) :=
    ((List.perm_insertionSort _ xs).trans h).trans (List.perm_insertionSort _ ys).symm
  exact hp.eq_of_pairwise' (List.pairwise_insertionSort _ xs) (List.pairwise_insertionSort _ ys)

theorem Setup.ids_nodup (c : Setup) : c.ids.Nodup :=
  List.nodup_range.map fun _ _ h => Int.ofNat.inj h

theorem Setup.node_initialVoters (c : Setup) {i : NodeId} (hi : i ∈ c.ids) :
    (c.node i).initialVoters = c.voters := by
  unfold Setup.node Setup.voters RaftNode.new
  cases c.initialVoters with
  | some vs => rfl
  | none =>
    refine sorted_perm ?_
    have hp : (sorted (c.ids.filter (· ≠ i)) ++ [i]).Perm (c.ids.filter (· ≠ i) ++ [i]) :=
      (List.perm_insertionSort _ _).append_right _
    refine hp.trans ?_
    have he : c.ids.filter (· ≠ i) = c.ids.erase i := by
      rw [c.ids_nodup.erase_eq_filter]
      refine List.filter_congr fun j _ => ?_
      by_cases hj : j = i <;> simp [hj]
    rw [he]
    exact (List.perm_append_singleton _ _).trans (List.perm_cons_erase hi).symm

/-- An image stands for `folded`: a compacted prefix of some log. -/
structure ImageOf (c : Setup) (folded : List Entry) (lastIndex lastTerm : ℕ)
    (store : Dict Str Str) (sessions : Dict ℤ (ℤ × Str)) (voters : List NodeId) : Prop where
  index : folded.length = lastIndex
  term : c.reading.lastTerm folded = lastTerm
  image : KVStateMachine.restore store sessions = replay folded
  voters : voters = c.reading.conf folded

/-- How the persistent fields split the logical log at the base. -/
structure Layout (c : Setup) (n : RaftNode) : Prop where
  bugs : n.bugs = c.bugs
  config : n.config = c.config
  initial : n.initialVoters = c.voters
  base : n.folded.length = n.baseIndex
  base_term : c.reading.lastTerm n.folded = n.baseTerm
  no_snapshot : n.snapshot = none → n.folded = []
  snapshot : ∀ s, n.snapshot = some s → s.folded = n.folded ∧
    ImageOf c s.folded s.lastIndex s.lastTerm s.store s.sessions s.voters
  compacts : ∀ s, n.snapshot = some s → 0 < c.config.snapshotThreshold

/-- Between two callbacks and within one, up to where the state machine has come. -/
structure NodeOk (c : Setup) (n : RaftNode) : Prop extends Layout c n where
  governs : c.reading.Governs n.logical n.voters n.configIndex
  base_le : n.baseIndex ≤ n.lastApplied
  applied_le : n.lastApplied ≤ n.commitIndex
  commit_le : n.commitIndex ≤ n.logical.length
  kv : n.kv = replay (n.logical.take n.lastApplied)
  applied : n.applied = ((n.logical.take n.lastApplied).drop n.baseIndex).map Entry.command

/-- The fields that `NodeOk` speaks about. -/
def RaftNode.data (n : RaftNode) :=
  ((n.bugs, n.config, n.initialVoters, n.folded, n.log, n.baseIndex, n.baseTerm),
    n.snapshot, n.voters, n.configIndex, n.lastApplied, n.commitIndex, n.kv, n.applied)

theorem NodeOk.congr {c : Setup} {n m : RaftNode} (h : NodeOk c n) (hd : m.data = n.data) :
    NodeOk c m := by
  obtain ⟨id, peers, bugs, config, iv, voters, term, vote, log, bi, bt, snap, ci, role, com, la,
    app, kv, lid, alive, lv, inc, ni, mi, votes, cli, pr, nr, ct, ts, folded⟩ := m
  simp only [RaftNode.data, Prod.mk.injEq] at hd
  obtain ⟨⟨rfl, rfl, rfl, rfl, rfl, rfl, rfl⟩, rfl, rfl, rfl, rfl, rfl, rfl, rfl⟩ := hd
  exact { h with toLayout := { h.toLayout with } }

namespace RaftNode

@[simp] theorem length_logical {n : RaftNode} (h : n.folded.length = n.baseIndex) :
    n.logical.length = n.lastLogIndex := by
  rw [logical, List.length_append, h, lastLogIndex]

/-! ### Indexing -/

theorem phys_of_lt {n : RaftNode} {k : ℕ} (h : n.baseIndex < k) :
    n.phys k = ((k-n.baseIndex-1 : ℕ) : ℤ) := by
  unfold phys
  omega

theorem entryAt_log {n : RaftNode} {k : ℕ} {e : Entry} (h : n.baseIndex < k) :
    n.entryAt k = .ok e ↔ n.log[k-n.baseIndex-1]? = some e := by
  unfold entryAt
  rw [phys_of_lt h, pyGet_eq_ok]

theorem termAt_log {n : RaftNode} {k : ℕ} (h : n.baseIndex < k) :
    n.termAt k = (n.entryAt k).map Entry.term := if_neg (not_le.mpr h)

/-- Without a base an entry is where its index says. -/
theorem entryAt_flat {n : RaftNode} (hb : n.baseIndex = 0) {k : ℕ} {e : Entry} :
    n.entryAt (k+1) = .ok e ↔ n.log[k]? = some e := by
  rw [entryAt_log (by omega), hb]
  rfl

theorem logical_getElem? {n : RaftNode} (h : n.folded.length = n.baseIndex) (k : ℕ) :
    n.logical[n.baseIndex+k]? = n.log[k]? := by
  rw [logical, List.getElem?_append_right (by omega), h]
  congr 1
  omega

theorem entryAt_eq {n : RaftNode} (h : n.folded.length = n.baseIndex) {k : ℕ} {e : Entry}
    (hk : n.baseIndex ≤ k) : n.entryAt (k+1) = .ok e ↔ n.logical[k]? = some e := by
  obtain ⟨j, rfl⟩ := Nat.exists_eq_add_of_le hk
  have hp : n.phys (n.baseIndex+j+1) = (j : ℤ) := by
    unfold phys
    omega
  rw [entryAt, hp, pyGet_eq_ok, logical_getElem? h]

theorem termAt_eq {n : RaftNode} (h : n.folded.length = n.baseIndex) {k t : ℕ}
    (hk : n.baseIndex ≤ k) :
    n.termAt (k+1) = .ok t ↔ ∃ e, n.logical[k]? = some e ∧ e.term = t := by
  rw [termAt, if_neg (by omega), map_ok]
  exact exists_congr fun e => and_congr_left fun _ => entryAt_eq h hk

theorem termAt_base {n : RaftNode} {k t : ℕ} (hk : k ≤ n.baseIndex) :
    n.termAt k = .ok t ↔ n.baseTerm = t := by
  rw [termAt, if_pos hk]
  exact ⟨fun h => Except.ok.inj h, fun h => congrArg _ h⟩

/-- `term_at` from the base upwards is the last term of the log up to there. -/
theorem termAt_lastTerm {c : Setup} {n : RaftNode} (h : n.folded.length = n.baseIndex)
    (hb : c.reading.lastTerm n.folded = n.baseTerm) {k t : ℕ} (hk : n.baseIndex ≤ k)
    (ht : n.termAt k = .ok t) :
    k ≤ n.logical.length ∧ c.reading.lastTerm (n.logical.take k) = t := by
  rcases Nat.eq_or_lt_of_le hk with rfl | hlt
  · have hl : n.logical.take n.baseIndex = n.folded := by
      rw [logical, List.take_append_of_le_length h.ge, ← h, List.take_length]
    rw [hl, hb, (termAt_base le_rfl).mp ht]
    refine ⟨?_, rfl⟩
    rw [length_logical h, lastLogIndex]
    omega
  · obtain ⟨j, rfl⟩ : ∃ j, k = j+1 := ⟨k-1, by omega⟩
    obtain ⟨e, he, rfl⟩ := (termAt_eq h (by omega)).mp ht
    have hl := length_lt_of_getElem? he
    refine ⟨hl, ?_⟩
    have hlen : (n.logical.take (j+1)).length = j+1 := by
      rw [List.length_take]
      omega
    refine c.reading.lastTerm_of_getElem? ?_ hlen
    rw [List.getElem?_take_of_lt j.lt_succ_self, he]

theorem termAt_take {c : Setup} {n : RaftNode} (h : n.folded.length = n.baseIndex)
    (hb : c.reading.lastTerm n.folded = n.baseTerm) {k : ℕ} (hk : n.baseIndex ≤ k)
    (hl : k ≤ n.logical.length) : n.termAt k = .ok (c.reading.lastTerm (n.logical.take k)) := by
  obtain ⟨t, ht⟩ : ∃ t, n.termAt k = .ok t := by
    rcases Nat.eq_or_lt_of_le hk with rfl | hlt
    · exact ⟨_, (termAt_base le_rfl).mpr rfl⟩
    · obtain ⟨j, rfl⟩ : ∃ j, k = j+1 := ⟨k-1, by omega⟩
      exact ⟨_, (termAt_eq h (by omega)).mpr ⟨_, List.getElem?_eq_getElem hl, rfl⟩⟩
  rw [ht, (termAt_lastTerm h hb hk ht).2]

/-- Above the base the logical log is the live one. -/
theorem logical_drop {n : RaftNode} (h : n.folded.length = n.baseIndex) {k : ℕ}
    (hk : n.baseIndex ≤ k) : n.logical.drop k = n.log.drop (k-n.baseIndex) := by
  rw [logical, List.drop_append, h, List.drop_of_length_le (h.trans_le hk), List.nil_append]

theorem logSuffix_eq {n : RaftNode} (h : n.folded.length = n.baseIndex) {k : ℕ}
    (hk : n.baseIndex ≤ k) : n.logSuffix (k+1) = n.logical.drop k := by
  have hp : (max 0 (n.phys (k+1))).toNat = k-n.baseIndex := by
    unfold phys
    omega
  rw [logSuffix, hp, logical_drop h hk]

end RaftNode
end RaftVerified
