import RaftVerified.ConsensusSteps
import RaftVerified.RaftNodeInvariant

/-! What the log helpers of a node do to its logical log: the configuration scans,
truncation, and the append loop as copying from a leader's log. -/
namespace RaftVerified
open Consensus

theorem scanConfig_governs (c : Setup) (entries pre : List Entry) (cur : List NodeId × ℕ)
    (h : c.reading.Governs pre cur.1 cur.2) :
    c.reading.Governs (pre ++ entries) (RaftNode.scanConfig cur (pre.length+1) entries).1
      (RaftNode.scanConfig cur (pre.length+1) entries).2 := by
  induction entries generalizing pre cur with
  | nil => rwa [List.append_nil]
  | cons e rest ih =>
    have hl : (pre ++ [e]).length+1 = pre.length+1+1 := by simp
    rw [List.append_cons, RaftNode.scanConfig]
    cases hd : decodeConfig e.command with
    | some vs =>
      have hg : c.reading.Governs (pre ++ [e]) vs (pre.length+1) := Reading.governs_append_some hd
      simpa only [hl] using ih (pre ++ [e]) (vs, pre.length+1) hg
    | none =>
      have hg := Reading.governs_append_none h (e := e) hd
      simpa only [hl] using ih (pre ++ [e]) cur hg

theorem governs_self (c : Setup) (xs : List Entry) :
    c.reading.Governs xs (c.reading.conf xs) xs.length :=
  ⟨rfl, fun _ _ h1 h2 => absurd h1 (by omega)⟩

namespace RaftNode

theorem rebuildConfig_governs {c : Setup} {n : RaftNode} (h : Layout c n) :
    c.reading.Governs n.logical n.rebuildConfig.voters n.rebuildConfig.configIndex := by
  unfold rebuildConfig logical
  cases hs : n.snapshot with
  | none =>
    have hf := h.no_snapshot hs
    have hb : n.baseIndex = 0 := by rw [← h.base, hf, List.length_nil]
    have hg := scanConfig_governs c n.log [] (n.initialVoters, 0) ⟨?_, ?_⟩
    · rw [hf, hb]
      exact hg
    · rw [h.initial]
      rfl
    · exact fun _ _ _ h2 => absurd h2 (Nat.not_lt_zero _)
  | some s =>
    obtain ⟨hf, hi⟩ := h.snapshot s hs
    have hg : c.reading.Governs n.folded s.voters s.lastIndex := by
      rw [hi.voters, ← hi.index, hf]
      exact governs_self c _
    rw [← h.base]
    exact scanConfig_governs c n.log n.folded (s.voters, s.lastIndex) hg

/-- `_config_at` reads the configuration that governs the log up to `upto`. -/
theorem configBelow_eq {c : Setup} {n : RaftNode} (h : Layout c n) (i : ℕ) {vs : List NodeId}
    (hv : n.configBelow i = .ok vs) (hi : i ≤ n.log.length) :
    vs = c.reading.conf (n.logical.take (n.baseIndex+i)) := by
  induction i with
  -- at the base: the configuration of the snapshot, or the initial one
  | zero =>
    have hl : n.logical.take n.baseIndex = n.folded := by
      rw [logical, List.take_append_of_le_length h.base.ge, ← h.base, List.take_length]
    rw [Nat.add_zero, hl]
    obtain rfl := Except.ok.inj hv
    cases hs : n.snapshot with
    | none =>
      rw [h.no_snapshot hs]
      exact h.initial
    | some s =>
      obtain ⟨hf, hi⟩ := h.snapshot s hs
      rw [← hf]
      exact hi.voters
  -- above it: the entry is a configuration itself, or the search goes on below
  | succ i ih =>
    obtain ⟨e, he, hd⟩ := bind_ok.mp hv
    have hl : n.logical[n.baseIndex+i]? = some e := by
      rw [logical_getElem? h.base]
      exact (pyGet_eq_ok _ _ _).mp he
    rw [← Nat.add_assoc, c.reading.conf_take_succ hl]
    cases hc : decodeConfig e.command with
    | some d =>
      rw [hc] at hd
      have hcd : c.reading.config e = some d := hc
      rw [hcd]
      exact (Except.ok.inj hd).symm
    | none =>
      rw [hc] at hd
      have hcd : c.reading.config e = none := hc
      rw [hcd]
      exact ih hd (by omega)

theorem configAt_eq {c : Setup} {n : RaftNode} (h : Layout c n) {upto : ℕ} {vs : List NodeId}
    (hv : n.configAt upto = .ok vs) (hb : n.baseIndex ≤ upto) (hu : upto ≤ n.logical.length) :
    vs = c.reading.conf (n.logical.take upto) := by
  rw [length_logical h.base, lastLogIndex] at hu
  have hc := configBelow_eq h _ hv (by omega)
  rwa [Nat.add_sub_cancel' hb] at hc

/-! ### The append loop -/

/-- `m` is `n` with another live log, and the configuration that goes with it. -/
def Edited (n m : RaftNode) : Prop := ∃ log voters configIndex logVersion,
  m = { n with log, voters, configIndex, logVersion }

theorem Edited.refl (n : RaftNode) : n.Edited n :=
  ⟨n.log, n.voters, n.configIndex, n.logVersion, rfl⟩

theorem Edited.trans {n m k : RaftNode} (h : n.Edited m) (h' : m.Edited k) : n.Edited k := by
  obtain ⟨_, _, _, _, rfl⟩ := h
  obtain ⟨_, _, _, _, rfl⟩ := h'
  exact ⟨_, _, _, _, rfl⟩

theorem Edited.layout {c : Setup} {n m : RaftNode} (h : n.Edited m) (hl : Layout c n) :
    Layout c m := by
  obtain ⟨_, _, _, _, rfl⟩ := h
  exact { hl with }

theorem pushEntry_edited (n : RaftNode) (index : ℕ) (entry : Entry) :
    n.Edited (n.pushEntry index entry) := by
  unfold pushEntry
  split <;> exact ⟨_, _, _, _, rfl⟩

theorem pushEntry_log (n : RaftNode) (index : ℕ) (entry : Entry) :
    (n.pushEntry index entry).log = n.log ++ [entry] := by
  unfold pushEntry
  split <;> rfl

theorem pushEntry_logical (n : RaftNode) (index : ℕ) (entry : Entry) :
    (n.pushEntry index entry).logical = n.logical ++ [entry] := by
  unfold pushEntry
  split <;> exact (List.append_assoc _ _ _).symm

theorem pushEntry_governs {c : Setup} {n : RaftNode} {index : ℕ} (entry : Entry)
    (hg : c.reading.Governs n.logical n.voters n.configIndex)
    (hi : index = n.logical.length+1) :
    c.reading.Governs (n.pushEntry index entry).logical (n.pushEntry index entry).voters
      (n.pushEntry index entry).configIndex := by
  rw [pushEntry_logical]
  unfold pushEntry
  cases hd : decodeConfig entry.command with
  | some vs =>
    rw [hi]
    exact Reading.governs_append_some (R := c.reading) hd
  | none => exact Reading.governs_append_none hg hd

theorem truncateFrom_edited (n : RaftNode) (index : ℕ) : n.Edited (n.truncateFrom index) := by
  unfold truncateFrom
  split <;> exact ⟨_, _, _, _, rfl⟩

/-- Above the base, deleting from an index keeps the log below it. -/
theorem truncateFrom_logical {n : RaftNode} (h : n.folded.length = n.baseIndex) {k : ℕ}
    (hk : n.baseIndex ≤ k) : (n.truncateFrom (k+1)).logical = n.logical.take k := by
  obtain ⟨j, rfl⟩ := Nat.exists_eq_add_of_le hk
  have hp : n.phys (n.baseIndex+j+1) = (j : ℤ) := by
    unfold phys
    omega
  have hl : (n.truncateFrom (n.baseIndex+j+1)).logical = n.folded ++ n.log.take j := by
    unfold truncateFrom
    rw [hp, delFrom_of_nonneg]
    split <;> rfl
  have hf : n.folded.take (n.baseIndex+j) = n.folded := List.take_of_length_le (by omega)
  rw [hl, logical, List.take_append, hf, h, Nat.add_sub_cancel_left]

theorem truncateFrom_governs {c : Setup} {n : RaftNode} (h : Layout c n)
    (hg : c.reading.Governs n.logical n.voters n.configIndex) {k : ℕ} (hk : n.baseIndex ≤ k) :
    c.reading.Governs (n.truncateFrom (k+1)).logical (n.truncateFrom (k+1)).voters
      (n.truncateFrom (k+1)).configIndex := by
  have hlog := truncateFrom_logical h.base hk
  unfold truncateFrom at hlog ⊢
  split at hlog
  next hci =>
    rw [if_pos hci]
    exact rebuildConfig_governs (n := n.setLog _) { h with }
  next hci =>
    rw [if_neg hci, hlog]
    exact Reading.governs_take hg (by omega)

/-! ### One entry of the append loop -/

theorem appendEntry_present {n : RaftNode} {k : ℕ} {e : Entry} (hle : k ≤ n.lastLogIndex)
    (hterm : n.termAt k = .ok e.term) : n.appendEntry k e = .ok n := by
  unfold appendEntry
  rw [if_pos hle, hterm]
  exact if_neg (not_not.mpr rfl)

theorem appendEntry_conflict {n : RaftNode} {k t : ℕ} {e : Entry} (hle : k ≤ n.lastLogIndex)
    (hterm : n.termAt k = .ok t) (hne : t ≠ e.term) :
    n.appendEntry k e = .ok ((n.truncateFrom k).pushEntry k e) := by
  unfold appendEntry
  rw [if_pos hle, hterm]
  exact if_pos hne

theorem appendEntry_past {n : RaftNode} {k : ℕ} {e : Entry} (hlt : n.lastLogIndex < k) :
    n.appendEntry k e = .ok (n.pushEntry k e) := by
  unfold appendEntry
  rw [if_neg (Nat.not_le.mpr hlt)]

/-- An entry is there already, takes the place of what conflicts with it, or is new. -/
theorem appendEntry_cases {n m : RaftNode} {k : ℕ} {e : Entry} (h : n.appendEntry k e = .ok m) :
    (k ≤ n.lastLogIndex ∧ n.termAt k = .ok e.term ∧ m = n) ∨
      (k ≤ n.lastLogIndex ∧ (∃ t, n.termAt k = .ok t ∧ t ≠ e.term) ∧
        m = (n.truncateFrom k).pushEntry k e) ∨
      (n.lastLogIndex < k ∧ m = n.pushEntry k e) := by
  rcases Nat.lt_or_ge n.lastLogIndex k with hlt | hle
  · rw [appendEntry_past hlt] at h
    exact Or.inr (Or.inr ⟨hlt, (Except.ok.inj h).symm⟩)
  have hentry := h
  unfold appendEntry at hentry
  rw [if_pos hle] at hentry
  obtain ⟨t, hterm, -⟩ := bind_ok.mp hentry
  by_cases hte : t = e.term
  · subst hte
    rw [appendEntry_present hle hterm] at h
    exact Or.inl ⟨hle, hterm, (Except.ok.inj h).symm⟩
  · rw [appendEntry_conflict hle hterm hte] at h
    exact Or.inr (Or.inl ⟨hle, ⟨t, hterm, hte⟩, (Except.ok.inj h).symm⟩)

/-- One round of the append loop. `T` is the leader's log: an entry that is already there
is skipped, any other makes the log end with it. -/
theorem appendEntry_eq {c : Setup} {n m : RaftNode} {T : List Entry} {index : ℕ} {entry : Entry}
    (h : Layout c n) (hg : c.reading.Governs n.logical n.voters n.configIndex)
    (hidx : n.logical.take index = T.take index) (hle : index ≤ n.logical.length)
    (he : T[index]? = some entry) (hfold : n.folded <+: T)
    (hmatch : ∀ k e f, n.logical[k]? = some e → T[k]? = some f → e.term = f.term →
      n.logical.take (k+1) = T.take (k+1))
    (hbelow : index < n.baseIndex → entry.term = n.baseTerm)
    (hm : n.appendEntry (index+1) entry = .ok m) :
    n.Edited m ∧ c.reading.Governs m.logical m.voters m.configIndex ∧
      ((m = n ∧ n.logical.take (index+1) = T.take (index+1)) ∨
        (m.logical = T.take (index+1) ∧ ¬ T.take (index+1) <+: n.logical)) := by
  have hTl := length_lt_of_getElem? he
  have htake : T.take (index+1) = T.take index ++ [entry] := take_succ_of_getElem? he
  rcases appendEntry_cases hm with ⟨-, hterm, rfl⟩ | ⟨hlast, ⟨t, hterm, hneq⟩, rfl⟩ | ⟨hlast, rfl⟩
  -- the entry is there already, and so is all before it
  · refine ⟨Edited.refl m, hg, Or.inl ⟨rfl, ?_⟩⟩
    rcases Nat.lt_or_ge index m.baseIndex with hb | hb
    · rw [logical, List.take_append_of_le_length (by rw [h.base]; omega),
        prefix_take_eq hfold (by rw [h.base]; omega)]
    · obtain ⟨e, hne, hte⟩ := (termAt_eq h.base hb).mp hterm
      exact hmatch index e entry hne he hte
  -- a conflict: the tail is cut off and the entry takes its place
  · have hb : n.baseIndex ≤ index := by
      by_contra hlt
      -- below the base the node knows one term only
      have ht := (termAt_base (by omega)).mp hterm
      exact hneq (ht.symm.trans (hbelow (not_le.mp hlt)).symm)
    obtain ⟨e, hne, rfl⟩ := (termAt_eq h.base hb).mp hterm
    have hlt := length_lt_of_getElem? hne
    have htl := truncateFrom_logical h.base hb
    refine ⟨(truncateFrom_edited n _).trans (pushEntry_edited _ _ _), ?_, Or.inr ⟨?_, ?_⟩⟩
    · refine pushEntry_governs entry (truncateFrom_governs h hg hb) ?_
      rw [htl, List.length_take]
      omega
    · rw [pushEntry_logical, htl, hidx, htake]
    · intro hp
      have hx := prefix_getElem? hp (n := index) (e := entry)
        (by rw [List.getElem?_take_of_lt index.lt_succ_self, he])
      rw [hne] at hx
      exact hneq (congrArg Entry.term (Option.some.inj hx))
  -- the log ends here: the entry goes to its end
  · have hlen : n.logical.length = index := by
      rw [length_logical h.base] at hle ⊢
      omega
    refine ⟨pushEntry_edited n _ _, pushEntry_governs entry hg (by rw [hlen]), Or.inr ⟨?_, ?_⟩⟩
    · rw [pushEntry_logical, htake, ← hidx, ← hlen, List.take_length]
    · intro hp
      have hx := hp.length_le
      rw [List.length_take] at hx
      omega

/-- The append loop copies the leader's log `T` as far as the message reaches. -/
theorem appendLoop_eq {c : Setup} {T : List Entry} (entries : List Entry) {n m : RaftNode}
    {index : ℕ} (h : Layout c n) (hg : c.reading.Governs n.logical n.voters n.configIndex)
    (hidx : n.logical.take index = T.take index) (hle : index ≤ n.logical.length)
    (hent : (T.drop index).take entries.length = entries) (hfold : n.folded <+: T)
    (hmatch : ∀ k e f, n.logical[k]? = some e → T[k]? = some f → e.term = f.term →
      n.logical.take (k+1) = T.take (k+1))
    (hbelow : ∀ k e, index ≤ k → k < n.baseIndex → k < index+entries.length →
      T[k]? = some e → e.term = n.baseTerm)
    (hm : n.appendLoop index entries = .ok m) :
    n.Edited m ∧ c.reading.Governs m.logical m.voters m.configIndex ∧
      m.logical = merge n.logical (T.take (index+entries.length)) := by
  -- the invariant: up to the index the log is the leader's
  induction entries generalizing n index with
  | nil =>
    obtain rfl := Except.ok.inj hm
    refine ⟨Edited.refl n, hg, (merge_of_isPrefix ?_).symm⟩
    rw [List.length_nil, Nat.add_zero, ← hidx]
    exact List.take_prefix _ _
  | cons entry rest ih =>
    obtain ⟨n1, hn1, hm1⟩ := bind_ok.mp hm
    have hTl : index < T.length := by
      by_contra hge
      rw [List.drop_of_length_le (by omega), List.take_nil] at hent
      cases hent
    rw [List.drop_eq_getElem_cons hTl, List.length_cons, List.take_succ_cons] at hent
    obtain ⟨hhead, hrest⟩ := List.cons.inj hent
    have he : T[index]? = some entry := by rw [List.getElem?_eq_getElem hTl, hhead]
    have hsum : index+(entry :: rest).length = index+1+rest.length := by
      rw [List.length_cons]
      omega
    have hstep := appendEntry_eq h hg hidx hle he hfold hmatch
      (fun hb => hbelow index entry le_rfl hb (by rw [List.length_cons]; omega) he) hn1
    obtain ⟨hed, hg1, hcase⟩ := hstep
    rw [hsum] at hbelow ⊢
    rcases hcase with ⟨rfl, hnext⟩ | ⟨hnext, hnot⟩
    -- the node had the entry
    · refine ih h hg hnext ?_ hrest hfold hmatch ?_ hm1
      · have hx := congrArg List.length hnext
        rw [List.length_take, List.length_take] at hx
        omega
      · exact fun k e h1 h2 h3 h4 => hbelow k e (by omega) h2 h3 h4
    -- it did not, so from here on the log is a part of the leader's
    · have hn1T : n1.logical <+: T := by
        rw [hnext]
        exact List.take_prefix _ _
      have hl1 : n1.logical.length = index+1 := by
        rw [hnext, List.length_take]
        omega
      have hfold1 : n1.folded <+: T := by
        obtain ⟨_, _, _, _, rfl⟩ := hed
        exact hfold
      have hbase1 : n1.baseIndex = n.baseIndex ∧ n1.baseTerm = n.baseTerm := by
        obtain ⟨_, _, _, _, rfl⟩ := hed
        exact ⟨rfl, rfl⟩
      have hind := ih (hed.layout h) hg1 ?_ hl1.ge hrest hfold1 ?_ ?_ hm1
      · obtain ⟨hed', hg', hlog⟩ := hind
        refine ⟨hed.trans hed', hg', ?_⟩
        rw [hlog, hnext, merge_take T (by omega), merge_of_not]
        exact fun hp => hnot ((take_prefix_take T (by omega)).trans hp)
      · rw [hnext, List.take_take, min_self]
      · intro k e f hk _ _
        have hlt := length_lt_of_getElem? hk
        rw [hnext, List.take_take, Nat.min_eq_left (by omega)]
      · rw [hbase1.1, hbase1.2]
        exact fun k e h1 h2 h3 h4 => hbelow k e (by omega) h2 h3 h4

end RaftNode
end RaftVerified
