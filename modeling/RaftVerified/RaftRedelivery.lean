import RaftVerified.RaftRecovery

/-! AppendEntries of one term in any order, any number of times: what a follower has
acknowledged it keeps, and a message it has taken once does nothing any more. -/
namespace RaftVerified

variable {L log : List Entry} {T p : ℕ} {n n' m : RaftNode} {x y z : Exec} {msg : AppendEntries}

/-! ### Logs -/

/-- Both logs have `k` entries, and the first `k` are the same. -/
structure AgreeTo (log L : List Entry) (k : ℕ) : Prop where
  le : k ≤ log.length
  le' : k ≤ L.length
  take : log.take k = L.take k

/-- Log Matching. -/
def Matches (log L : List Entry) : Prop :=
  ∀ k e f, log[k]? = some e → L[k]? = some f → e.term = f.term → AgreeTo log L (k+1)

theorem AgreeTo.get {k j : ℕ} (h : AgreeTo log L k) (hj : j < k) : log[j]? = L[j]? := by
  rw [← List.getElem?_take_of_lt hj, h.take, List.getElem?_take_of_lt hj]

theorem AgreeTo.mono {j k : ℕ} (h : AgreeTo log L k) (hj : j ≤ k) : AgreeTo log L j := by
  refine ⟨hj.trans h.le, hj.trans h.le', ?_⟩
  have htake := congrArg (List.take j) h.take
  rwa [List.take_take, List.take_take, min_eq_left hj] at htake

theorem AgreeTo.max {j k : ℕ} (h : AgreeTo log L j) (h' : AgreeTo log L k) :
    AgreeTo log L (max j k) := by
  rcases le_total j k with hle | hle
  · rwa [max_eq_right hle]
  · rwa [max_eq_left hle]

theorem agreeTo_take {j k : ℕ} (hj : j ≤ k) (hk : k ≤ L.length) : AgreeTo (L.take k) L j := by
  refine ⟨?_, hj.trans hk, ?_⟩
  · rw [List.length_take]
    omega
  · rw [List.take_take, min_eq_left hj]

theorem matches_take {k : ℕ} (hk : k ≤ L.length) : Matches (L.take k) L := by
  intro j e f hj _ _
  have hlt := (List.getElem?_eq_some_iff.mp hj).1
  rw [List.length_take] at hlt
  exact agreeTo_take (by omega) hk

/-! ### The append loop on a slice -/

namespace RaftNode

theorem lastLogIndex_flat (hb : n.baseIndex = 0) : n.lastLogIndex = n.log.length := by
  rw [lastLogIndex, hb, Nat.zero_add]

theorem termAt_flat (hb : n.baseIndex = 0) {k : ℕ} {e : Entry} (h : n.log[k]? = some e) :
    n.termAt (k+1) = .ok e.term := by
  rw [termAt_log (by omega), (entryAt_flat hb).mpr h]
  rfl

/-- The next entry of a slice. -/
theorem slice_cons {e : Entry} {rest : List Entry} (hs : e :: rest <+: L.drop p) :
    L[p]? = some e ∧ rest <+: L.drop (p+1) := by
  obtain ⟨tail, htail⟩ := hs
  have hlt : p < L.length := by
    by_contra hge
    rw [List.drop_of_length_le (not_lt.mp hge)] at htail
    cases htail
  rw [List.drop_eq_getElem_cons hlt] at htail
  obtain ⟨rfl, hrest⟩ := List.cons.inj htail
  exact ⟨List.getElem?_eq_getElem hlt, tail, hrest⟩

/-- Past a prefix of the leader's log everything is appended. -/
theorem appendLoop_extends (entries : List Entry) (hb : n.baseIndex = 0)
    (hlog : n.log = L.take p) (hp : p ≤ L.length) (hs : entries <+: L.drop p) :
    ∃ m, n.appendLoop p entries = .ok m ∧ n.Edited m ∧ m.log = L.take (p+entries.length) ∧
      p+entries.length ≤ L.length := by
  induction entries generalizing n p with
  | nil => exact ⟨n, rfl, Edited.refl n, hlog, hp⟩
  | cons e rest ih =>
    obtain ⟨he, hrest⟩ := slice_cons hs
    have hlt := (List.getElem?_eq_some_iff.mp he).1
    have hlen : n.log.length = p := by
      rw [hlog, List.length_take, min_eq_left hp]
    have hpush : n.appendEntry (p+1) e = .ok (n.pushEntry (p+1) e) := by
      apply appendEntry_past
      rw [lastLogIndex_flat hb]
      omega
    have hed := pushEntry_edited n (p+1) e
    have hlog' : (n.pushEntry (p+1) e).log = L.take (p+1) := by
      rw [pushEntry_log, hlog, List.take_add_one, he]
      rfl
    obtain ⟨m, hm, hedm, hlogm, hle⟩ := ih (hed.base.2.1.trans hb) hlog' hlt hrest
    have hsum : p+1+rest.length = p+(e :: rest).length := by
      rw [List.length_cons]
      omega
    rw [hsum] at hlogm hle
    refine ⟨m, ?_, hed.trans hedm, hlogm, hle⟩
    unfold appendLoop
    rw [hpush]
    exact hm

/-- Either all of the slice is there already, or from the first entry that is missing or in
conflict on the log becomes that of the leader. -/
theorem appendLoop_cases (entries : List Entry) (hb : n.baseIndex = 0) (hm : Matches n.log L)
    (ha : AgreeTo n.log L p) (hs : entries <+: L.drop p) :
    ∃ m, n.appendLoop p entries = .ok m ∧ n.Edited m ∧
      (m = n ∧ AgreeTo n.log L (p+entries.length) ∨
        m.log = L.take (p+entries.length) ∧ p+entries.length ≤ L.length ∧
          ∀ k, AgreeTo n.log L k → k < p+entries.length) := by
  induction entries generalizing p with
  | nil => exact ⟨n, rfl, Edited.refl n, Or.inl ⟨rfl, ha⟩⟩
  | cons e rest ih =>
    obtain ⟨he, hrest⟩ := slice_cons hs
    have hlt := (List.getElem?_eq_some_iff.mp he).1
    have hsum : p+1+rest.length = p+(e :: rest).length := by
      rw [List.length_cons]
      omega
    -- the rest of the slice, once the entry has been written
    have hwrite {k : RaftNode} (hed : n.Edited k) (hlog : k.log = L.take (p+1))
        (hstep : n.appendEntry (p+1) e = .ok k) (hbound : ∀ j, AgreeTo n.log L j → j ≤ p) :
        ∃ m, n.appendLoop p (e :: rest) = .ok m ∧ n.Edited m ∧
          (m = n ∧ AgreeTo n.log L (p+(e :: rest).length) ∨
            m.log = L.take (p+(e :: rest).length) ∧ p+(e :: rest).length ≤ L.length ∧
              ∀ j, AgreeTo n.log L j → j < p+(e :: rest).length) := by
      obtain ⟨m, hm, hedm, hlogm, hle⟩ :=
        appendLoop_extends rest (hed.base.2.1.trans hb) hlog hlt hrest
      rw [hsum] at hlogm hle
      refine ⟨m, ?_, hed.trans hedm, Or.inr ⟨hlogm, hle, fun j hj => ?_⟩⟩
      · unfold appendLoop
        rw [hstep]
        exact hm
      · have hjp := hbound j hj
        rw [← hsum]
        omega
    rcases Nat.lt_or_ge p n.log.length with hin | hout
    · have hf := List.getElem?_eq_getElem hin
      have hle : p+1 ≤ n.lastLogIndex := by
        rw [lastLogIndex_flat hb]
        omega
      by_cases hterm : n.log[p].term = e.term
      -- the entry is there already
      · have hstep : n.appendEntry (p+1) e = .ok n :=
          appendEntry_present hle (hterm ▸ termAt_flat hb hf)
        obtain ⟨m, hm, hed, hcase⟩ := ih (hm p _ e hf he hterm) hrest
        rw [hsum] at hcase
        refine ⟨m, ?_, hed, hcase⟩
        unfold appendLoop
        rw [hstep]
        exact hm
      -- it is in conflict
      · refine hwrite ((truncateFrom_edited n (p+1)).trans (pushEntry_edited _ (p+1) e)) ?_ ?_ ?_
        · rw [pushEntry_log, truncateFrom_log hb (show 1 ≤ p+1 by omega), Nat.add_sub_cancel,
            ha.take, List.take_add_one, he]
          rfl
        · exact appendEntry_conflict hle (termAt_flat hb hf) hterm
        · intro j hj
          by_contra hlt'
          have hsame := hj.get (not_le.mp hlt')
          rw [hf, he] at hsame
          exact hterm (congrArg Entry.term (Option.some.inj hsame))
    -- it is missing
    · have hlen : n.log.length = p := le_antisymm hout ha.le
      refine hwrite (pushEntry_edited n (p+1) e) ?_ ?_ fun j hj => hlen ▸ hj.le
      · rw [pushEntry_log, List.take_add_one, he, ← ha.take, ← hlen, List.take_length]
        rfl
      · apply appendEntry_past
        rw [lastLogIndex_flat hb]
        omega

/-- What the loop does with a slice of the leader's log. -/
theorem appendLoop_slice (entries : List Entry) (hb : n.baseIndex = 0) (hm : Matches n.log L)
    (ha : AgreeTo n.log L p) (hs : entries <+: L.drop p) :
    ∃ m, n.appendLoop p entries = .ok m ∧ n.Edited m ∧ AgreeTo m.log L (p+entries.length) ∧
      Matches m.log L ∧ (∀ k, AgreeTo n.log L k → AgreeTo m.log L k) ∧
      (AgreeTo n.log L (p+entries.length) → m = n) := by
  obtain ⟨m, hloop, hed, ⟨rfl, hall⟩ | ⟨hlog, hle, hbound⟩⟩ := appendLoop_cases entries hb hm ha hs
  · exact ⟨m, hloop, hed, hall, hm, fun _ hk => hk, fun _ => rfl⟩
  · refine ⟨m, hloop, hed, ?_, ?_, fun k hk => ?_, fun h => absurd (hbound _ h) (lt_irrefl _)⟩
    · rw [hlog]
      exact agreeTo_take le_rfl hle
    · rw [hlog]
      exact matches_take hle
    · rw [hlog]
      exact agreeTo_take (hbound k hk).le hle

end RaftNode
open RaftNode

/-! ### The commit rule -/

namespace Exec

theorem maybeCompact_flat (hb : x.node.baseIndex = 0)
    (hl : x.node.lastApplied ≤ x.node.log.length) :
    ∃ y, x.maybeCompact = .ok y ∧ (∀ i, sends i y.calls = sends i x.calls) ∧
      (y.node.baseIndex = 0 → y = x) := by
  unfold maybeCompact
  dsimp only
  split
  · exact ⟨x, rfl, fun _ => rfl, fun _ => rfl⟩
  next hth =>
    push Not at hth
    obtain ⟨k, hk⟩ : ∃ k, x.node.lastApplied = k+1 := ⟨x.node.lastApplied-1, by omega⟩
    have hterm := termAt_flat hb (List.getElem?_eq_getElem (show k < x.node.log.length by omega))
    have hconf := configBelow_scan (n := x.node) (k := x.node.lastApplied-x.node.baseIndex)
      (by omega)
    rw [configAt, hconf, hk, hterm]
    refine ⟨_, rfl, fun i => sends_record _ i _, fun h0 => ?_⟩
    -- a node that has compacted has a base
    exact absurd h0 (Nat.succ_ne_zero k)

theorem followCommit_flat {leaderCommit matchIndex : ℕ} (hb : x.node.baseIndex = 0)
    (hreg : x.node.bugs.allowCommitRegression = false)
    (happ : x.node.lastApplied ≤ x.node.commitIndex)
    (hl : max x.node.commitIndex (min leaderCommit matchIndex) ≤ x.node.log.length) :
    ∃ y, x.followCommit leaderCommit matchIndex = .ok y ∧
      (∀ i, sends i y.calls = sends i x.calls) ∧
      (min leaderCommit matchIndex ≤ x.node.commitIndex → y = x) ∧
      (y.node.baseIndex = 0 → y.node.log = x.node.log ∧ y.node.bugs = x.node.bugs ∧
        y.node.commitIndex = max x.node.commitIndex (min leaderCommit matchIndex) ∧
        y.node.lastApplied ≤ y.node.commitIndex) := by
  have hsame (h : min leaderCommit matchIndex ≤ x.node.commitIndex) :
      ∃ y, Except.ok (ε := PyError) x = .ok y ∧ (∀ i, sends i y.calls = sends i x.calls) ∧
      (min leaderCommit matchIndex ≤ x.node.commitIndex → y = x) ∧
      (y.node.baseIndex = 0 → y.node.log = x.node.log ∧ y.node.bugs = x.node.bugs ∧
        y.node.commitIndex = max x.node.commitIndex (min leaderCommit matchIndex) ∧
        y.node.lastApplied ≤ y.node.commitIndex) :=
    ⟨x, rfl, fun _ => rfl, fun _ => rfl, fun _ => ⟨rfl, rfl, (max_eq_left h).symm, happ⟩⟩
  unfold followCommit
  rw [hreg, if_neg Bool.false_ne_true]
  split
  · unfold setCommitIndex
    split
    next hle => exact hsame (le_of_max_le_right hle)
    next hgt =>
      obtain ⟨z, applied, hz, hnode, hsends⟩ := applyLoop_replays
        (x := x.committing (max x.node.commitIndex (min leaderCommit matchIndex)))
        (max x.node.commitIndex (min leaderCommit matchIndex)-x.node.lastApplied)
        (hb.trans_le (Nat.zero_le _)) (by
          change x.node.lastApplied+_ ≤ x.node.lastLogIndex
          rw [lastLogIndex_flat hb]
          omega)
      have hlast : z.node.lastApplied =
          max x.node.commitIndex (min leaderCommit matchIndex) := by
        rw [hnode]
        exact Nat.add_sub_cancel' (happ.trans (le_max_left _ _))
      obtain ⟨y, hy, hysends, hflat⟩ := maybeCompact_flat (x := z) (by rw [hnode]; exact hb)
        (by rw [hlast, hnode]; exact hl)
      refine ⟨y, ?_, fun i => ?_, fun h => absurd (max_le le_rfl h) hgt, fun h0 => ?_⟩
      · exact bind_ok.mpr ⟨z, hz, hy⟩
      · exact (hysends i).trans ((hsends i).trans (sends_record _ i _))
      · rw [hflat h0, hlast, hnode]
        exact ⟨rfl, rfl, rfl, le_rfl⟩
  next hge => exact hsame ((min_le_left _ _).trans (not_lt.mp hge))

end Exec

/-! ### One message -/

/-- A contiguous slice of the leader's log, with what stands before it. -/
structure Slice (L : List Entry) (T : ℕ) (msg : AppendEntries) : Prop where
  term : msg.term = T
  prev_le : msg.prevIndex ≤ L.length
  prevTerm : ∀ k e, msg.prevIndex = k+1 → L[k]? = some e → msg.prevTerm = e.term
  entries : msg.entries <+: L.drop msg.prevIndex

/-- A follower whose log matches that of the leader and whose committed entries are the
leader's. -/
structure Tracks (L : List Entry) (n : RaftNode) : Prop where
  base : n.baseIndex = 0
  skip : n.bugs.skipLogConsistency = false
  regress : n.bugs.allowCommitRegression = false
  matching : Matches n.log L
  committed : AgreeTo n.log L n.commitIndex
  applied_le : n.lastApplied ≤ n.commitIndex

/-- The fields that a message without new entries leaves alone. -/
def RaftNode.taken (n : RaftNode) :=
  (n.log, n.logVersion, n.commitIndex, n.applied, n.lastApplied, n.baseIndex, n.bugs)

theorem Tracks.congr (h : Tracks L n) (ht : m.taken = n.taken) : Tracks L m := by
  simp only [RaftNode.taken, Prod.mk.injEq] at ht
  obtain ⟨hlog, -, hcommit, -, happ, hbase, hbugs⟩ := ht
  refine ⟨hbase.trans h.base, hbugs ▸ h.skip, hbugs ▸ h.regress, hlog ▸ h.matching, ?_, ?_⟩
  · rw [hlog, hcommit]
    exact h.committed
  · rw [happ, hcommit]
    exact h.applied_le

/-- The callback answers with success and this match index. -/
def Acknowledges (y : Exec) (k : ℕ) : Prop :=
  ∃ i, ∃ q ∈ sends i y.calls, ∃ r, q.msg = .appendReply r ∧ r.success = true ∧ r.matchIndex = k

/-- The message has been taken: the log reaches as far as it does, and agrees so far. -/
structure Taken (L : List Entry) (n : RaftNode) (msg : AppendEntries) (y : Exec) : Prop where
  answer : ∀ k, Acknowledges y k → k = msg.prevIndex+msg.entries.length
  agrees : AgreeTo y.node.log L (msg.prevIndex+msg.entries.length)
  keeps : ∀ k, AgreeTo n.log L k → AgreeTo y.node.log L k
  commit : y.node.commitIndex =
    max n.commitIndex (min msg.leaderCommit (msg.prevIndex+msg.entries.length))
  tracks : Tracks L y.node

/-- The message has changed nothing, and is not answered with success. -/
structure Ignored (n : RaftNode) (y : Exec) : Prop where
  answer : ∀ k, ¬ Acknowledges y k
  taken : y.node.taken = n.taken

namespace Exec

theorem becomeFollower_taken (x : Exec) (term : ℕ) :
    (x.becomeFollower term).node.taken = x.node.taken := by
  unfold becomeFollower
  dsimp only
  split <;> rfl

theorem catchUp_taken (x : Exec) (term : ℕ) : (x.catchUp term).node.taken = x.node.taken := by
  unfold catchUp
  split
  · exact becomeFollower_taken x term
  · rfl

theorem heed_taken (x : Exec) (leader : NodeId) : (x.heed leader).node.taken = x.node.taken := rfl

theorem catchUp_silences (x : Exec) (term : ℕ) (i : NodeId) :
    sends i (x.catchUp term).calls = sends i x.calls := by
  unfold catchUp
  split
  · exact (becomeFollower_alike x term).sends i
  · rfl

/-- Up to the consistency check nothing is taken and nothing is sent. -/
theorem handle_append (msg : AppendEntries) (n : RaftNode) :
    (∃ y, handle ⟨n, []⟩ (.appendEntries msg) = .ok y ∧ Ignored n y) ∨
    ∃ z : Exec, handle ⟨n, []⟩ (.appendEntries msg) = z.appendFromLeader msg ∧
      z.node.taken = n.taken ∧ ∀ i, sends i z.calls = [] := by
  by_cases hdead : n.alive = false
  · exact Or.inl ⟨⟨n, []⟩, if_pos hdead, nofun, rfl⟩
  · have hcatch := catchUp_taken ⟨n, []⟩ msg.term
    have hsends := catchUp_silences ⟨n, []⟩ msg.term
    have hstart : handle ⟨n, []⟩ (.appendEntries msg) = onAppendEntries ⟨n, []⟩ msg :=
      if_neg hdead
    rw [hstart]
    unfold onAppendEntries
    dsimp only
    generalize catchUp ⟨n, []⟩ msg.term = x at hcatch hsends
    split
    · refine Or.inl ⟨_, rfl, ?_, hcatch⟩
      rintro k ⟨i, q, hq, r, hr, hsuccess, -⟩
      change q ∈ sends i (_ ++ [_]) at hq
      rw [sends_append, hsends] at hq
      obtain rfl := List.mem_singleton.mp hq
      obtain rfl := Message.appendReply.inj hr
      cases hsuccess
    · refine Or.inr ⟨_, rfl, (heed_taken _ _).trans ?_, fun i => ?_⟩
      · split
        · exact (becomeFollower_taken x _).trans hcatch
        · exact hcatch
      · rw [(heed_alike _ _).sends i]
        split
        · exact ((becomeFollower_alike x _).sends i).trans (hsends i)
        · exact hsends i

/-- The consistency check returns, and lets through only what fits the leader's log. -/
theorem inconsistent_slice (h : Tracks L n) (hs : Slice L T msg) :
    ∃ refused, inconsistent n msg = .ok refused ∧
      (refused = false → AgreeTo n.log L msg.prevIndex) := by
  have hlast := lastLogIndex_flat h.base
  rcases Nat.eq_zero_or_pos msg.prevIndex with h0 | hpos
  · refine ⟨false, inconsistent_of_passes (Or.inl h0), fun _ => ?_⟩
    rw [h0]
    exact ⟨Nat.zero_le _, Nat.zero_le _, rfl⟩
  · obtain ⟨k, hk⟩ : ∃ k, msg.prevIndex = k+1 := ⟨msg.prevIndex-1, by omega⟩
    rcases Nat.lt_or_ge k n.log.length with hlt | hge
    · have he := List.getElem?_eq_getElem hlt
      have hterm := termAt_flat h.base he
      have hle := hs.prev_le
      have hf : L[k]? = some L[k] := List.getElem?_eq_getElem (by omega)
      by_cases hsame : n.log[k].term = msg.prevTerm
      · refine ⟨false, inconsistent_of_passes (Or.inr ⟨by omega, ?_⟩), fun _ => ?_⟩
        · rw [hk, hterm, hsame]
        · rw [hk]
          exact h.matching k _ _ he hf (hsame.trans (hs.prevTerm k _ hk hf))
      · refine ⟨true, ?_, nofun⟩
        unfold inconsistent termMismatch
        rw [if_neg (by omega), hk, hterm]
        refine congrArg Except.ok (decide_eq_true ⟨Nat.succ_pos k, Or.inr ⟨?_, h.skip⟩⟩)
        exact decide_eq_true hsame
    · refine ⟨true, ?_, nofun⟩
      unfold inconsistent termMismatch
      rw [if_pos (by omega)]
      exact congrArg Except.ok (decide_eq_true ⟨hpos, Or.inl (by omega)⟩)

theorem replyAppend_acknowledges {dst : NodeId} {success : Bool} {matchIndex k : ℕ}
    (hx : ∀ i, sends i x.calls = []) (h : Acknowledges (x.replyAppend dst success matchIndex) k) :
    success = true ∧ k = matchIndex := by
  obtain ⟨i, q, hq, r, hr, hsuccess, hmatch⟩ := h
  change q ∈ sends i (_ ++ [_]) at hq
  rw [sends_append, hx] at hq
  obtain rfl := List.mem_singleton.mp hq
  obtain rfl := Message.appendReply.inj hr
  exact ⟨hsuccess, hmatch.symm⟩

/-- What the loop writes is in the leader's log, and so is what is newly committed. -/
theorem appendFromLeader_slice (h : Tracks L x.node) (hs : Slice L T msg)
    (hx : ∀ i, sends i x.calls = []) : ∃ y, x.appendFromLeader msg = .ok y ∧
      (y.node.baseIndex = 0 → Ignored x.node y ∨ Taken L x.node msg y) ∧
      (AgreeTo x.node.log L (msg.prevIndex+msg.entries.length) →
        min msg.leaderCommit (msg.prevIndex+msg.entries.length) ≤ x.node.commitIndex →
        y.node.taken = x.node.taken) := by
  obtain ⟨refused, href, hfits⟩ := inconsistent_slice h hs
  unfold appendFromLeader
  rw [href]
  cases refused with
  | true =>
    refine ⟨_, rfl, fun _ => Or.inl ⟨fun k hk => ?_, rfl⟩, fun _ _ => rfl⟩
    exact absurd (replyAppend_acknowledges hx hk).1 Bool.false_ne_true
  | false =>
    obtain ⟨m, hm, hed, hagrees, hmatch, hkeeps, hsame⟩ :=
      appendLoop_slice msg.entries h.base h.matching (hfits rfl) hs.entries
    obtain ⟨hcommit, htracks⟩ : m.commitIndex = x.node.commitIndex ∧ Tracks L m := by
      obtain ⟨_, _, _, _, rfl⟩ := hed
      exact ⟨rfl, h.base, h.skip, h.regress, hmatch, hkeeps _ h.committed, h.applied_le⟩
    have hreach := htracks.committed.max
      (hagrees.mono (min_le_right msg.leaderCommit (msg.prevIndex+msg.entries.length)))
    obtain ⟨y, hy, hysends, hquiet, hflat⟩ := followCommit_flat (x := x.set m) htracks.base
      htracks.regress htracks.applied_le hreach.le
    refine ⟨y.replyAppend msg.leader true (msg.prevIndex+msg.entries.length), ?_, ?_, ?_⟩
    · exact bind_ok.mpr ⟨false, rfl, bind_ok.mpr ⟨m, hm, bind_ok.mpr ⟨y, hy, rfl⟩⟩⟩
    · intro h0
      obtain ⟨hlog, hbugs, hcommit', happ⟩ := hflat h0
      change y.node.log = m.log at hlog
      change y.node.bugs = m.bugs at hbugs
      change y.node.commitIndex = max m.commitIndex _ at hcommit'
      refine Or.inr ⟨fun k hk => ?_, ?_, fun k hk => ?_, ?_, ?_⟩
      · exact (replyAppend_acknowledges (fun i => (hysends i).trans (hx i)) hk).2
      · exact hlog ▸ hagrees
      · exact hlog ▸ hkeeps k hk
      · exact hcommit'.trans (by rw [hcommit])
      · refine ⟨h0, ?_, ?_, hlog ▸ hmatch, ?_, happ⟩
        · exact (congrArg Bugs.skipLogConsistency hbugs).trans htracks.skip
        · exact (congrArg Bugs.allowCommitRegression hbugs).trans htracks.regress
        · change AgreeTo y.node.log L y.node.commitIndex
          rw [hlog, hcommit']
          exact hreach
    -- a slice that is there already, with nothing to commit, leaves no trace
    · intro hall hle
      have hyz := hquiet (by
        change _ ≤ m.commitIndex
        rw [hcommit]
        exact hle)
      change y.node.taken = x.node.taken
      rw [hyz, hsame hall]
      rfl

end Exec
open Exec

/-- Every message with a slice of the leader's log is handled, and taken or ignored unless
the node has compacted its log after it. -/
theorem handle_slice (h : Tracks L n) (hs : Slice L T msg) :
    ∃ y, handle ⟨n, []⟩ (.appendEntries msg) = .ok y ∧
      (y.node.baseIndex = 0 → Ignored n y ∨ Taken L n msg y) ∧
      (AgreeTo n.log L (msg.prevIndex+msg.entries.length) →
        min msg.leaderCommit (msg.prevIndex+msg.entries.length) ≤ n.commitIndex →
        y.node.taken = n.taken) := by
  rcases handle_append msg n with ⟨y, hy, hignored⟩ | ⟨z, hz, htaken, hsends⟩
  · exact ⟨y, hy, fun _ => Or.inl hignored, fun _ _ => hignored.taken⟩
  · obtain ⟨y, hy, hcase, hagain⟩ := appendFromLeader_slice (h.congr htaken) hs hsends
    obtain ⟨hlog, hcommit⟩ : z.node.log = n.log ∧ z.node.commitIndex = n.commitIndex := by
      simp only [RaftNode.taken, Prod.mk.injEq] at htaken
      exact ⟨htaken.1, htaken.2.2.1⟩
    rw [hlog, hcommit] at hagain
    refine ⟨y, hz.trans hy, fun h0 => (hcase h0).imp ?_ ?_, fun hall hle => ?_⟩
    · exact fun hignored => ⟨hignored.answer, hignored.taken.trans htaken⟩
    · intro htook
      refine ⟨htook.answer, htook.agrees, ?_, ?_, htook.tracks⟩
      · rw [← hlog]
        exact htook.keeps
      · rw [← hcommit]
        exact htook.commit
    · exact (hagain hall hle).trans htaken

/-! ### Sequences of messages -/

/-- What any number of messages with slices of `L` make of a node that does not compact. -/
def Delivers (L : List Entry) (T : ℕ) : RaftNode → RaftNode → Prop :=
  Relation.ReflTransGen fun n m => ∃ msg y, Slice L T msg ∧
    handle ⟨n, []⟩ (.appendEntries msg) = .ok y ∧ y.node.baseIndex = 0 ∧ y.node = m

theorem handled (h : Tracks L n) (hs : Slice L T msg)
    (hy : handle ⟨n, []⟩ (.appendEntries msg) = .ok y) (h0 : y.node.baseIndex = 0) :
    Ignored n y ∨ Taken L n msg y := by
  obtain ⟨y', hy', hcase, -⟩ := handle_slice h hs
  obtain rfl := Except.ok.inj (hy.symm.trans hy')
  exact hcase h0

/-- One message takes back neither what agrees nor what is committed. -/
theorem handled_keeps (h : Tracks L n) (hs : Slice L T msg)
    (hy : handle ⟨n, []⟩ (.appendEntries msg) = .ok y) (h0 : y.node.baseIndex = 0) :
    Tracks L y.node ∧ n.commitIndex ≤ y.node.commitIndex ∧
      ∀ k, AgreeTo n.log L k → AgreeTo y.node.log L k := by
  rcases handled h hs hy h0 with hignored | htaken
  · have ht := hignored.taken
    refine ⟨h.congr ht, ?_, fun k hk => ?_⟩
    · simp only [RaftNode.taken, Prod.mk.injEq] at ht
      exact ht.2.2.1.ge
    · simp only [RaftNode.taken, Prod.mk.injEq] at ht
      exact ht.1 ▸ hk
  · exact ⟨htaken.tracks, htaken.commit ▸ le_max_left _ _, htaken.keeps⟩

theorem Delivers.keeps (hd : Delivers L T n m) (h : Tracks L n) :
    Tracks L m ∧ n.commitIndex ≤ m.commitIndex ∧ ∀ k, AgreeTo n.log L k → AgreeTo m.log L k := by
  induction hd with
  | refl => exact ⟨h, le_rfl, fun _ hk => hk⟩
  | tail _ hstep ih =>
    obtain ⟨msg, y, hs, hy, h0, rfl⟩ := hstep
    obtain ⟨hb, hle, hkeeps⟩ := ih
    obtain ⟨hm, hle', hkeeps'⟩ := handled_keeps hb hs hy h0
    exact ⟨hm, hle.trans hle', fun k hk => hkeeps' k (hkeeps k hk)⟩

/-- Whatever messages of the term came before and come after it: once a message has been
answered with success the log agrees with the leader's as far as was acknowledged, no later
message changes that, and none fails; and the same message again changes nothing. -/
theorem acknowledged_entries_stay {n₀ : RaftNode} {k : ℕ} (h : Tracks L n₀)
    (hbefore : Delivers L T n₀ n) (hs : Slice L T msg)
    (hy : handle ⟨n, []⟩ (.appendEntries msg) = .ok y) (h0 : y.node.baseIndex = 0)
    (hack : Acknowledges y k) (hafter : Delivers L T y.node n') :
    (k ≤ n'.log.length ∧ n'.log.take k = L.take k) ∧
    (∀ msg', Slice L T msg' → ∃ y', handle ⟨n', []⟩ (.appendEntries msg') = .ok y') ∧
    ∃ z, handle ⟨n', []⟩ (.appendEntries msg) = .ok z ∧ z.node.log = n'.log ∧
      z.node.logVersion = n'.logVersion ∧ z.node.commitIndex = n'.commitIndex ∧
      z.node.applied = n'.applied := by
  obtain ⟨hn, -, -⟩ := hbefore.keeps h
  rcases handled hn hs hy h0 with hignored | htaken
  · exact absurd hack (hignored.answer k)
  · obtain rfl := htaken.answer k hack
    obtain ⟨hn', hle, hkeeps⟩ := hafter.keeps htaken.tracks
    have hagree := hkeeps _ htaken.agrees
    refine ⟨⟨hagree.le, hagree.take⟩, fun msg' hs' => ?_, ?_⟩
    · obtain ⟨y', hy', -⟩ := handle_slice hn' hs'
      exact ⟨y', hy'⟩
    -- all that the message could commit is committed
    · obtain ⟨z, hz, -, hagain⟩ := handle_slice hn' hs
      have hcommit : min msg.leaderCommit (msg.prevIndex+msg.entries.length) ≤ n'.commitIndex :=
        ((le_max_right _ _).trans htaken.commit.ge).trans hle
      have ht := hagain hagree hcommit
      simp only [RaftNode.taken, Prod.mk.injEq] at ht
      exact ⟨z, hz, ht.1, ht.2.1, ht.2.2.1, ht.2.2.2.1⟩

/-- The log of a leader of term 2, and a follower with an entry in conflict. -/
def repairing : List Entry × RaftNode :=
  ([⟨1, "a".toList⟩, ⟨2, "b".toList⟩, ⟨2, "c".toList⟩],
    { RaftNode.new 0 [1, 2] {} NO_BUGS none with
      term := 1
      log := [⟨1, "a".toList⟩, ⟨1, "x".toList⟩]
      commitIndex := 1
      lastApplied := 1 })

theorem repairing_tracks : Tracks repairing.1 repairing.2 := by
  refine ⟨rfl, rfl, rfl, ?_, ⟨by decide, by decide, by decide +kernel⟩, le_rfl⟩
  intro k e f hk hl hterm
  match k with
  | 0 => exact ⟨by decide, by decide, by decide +kernel⟩
  | 1 =>
    obtain rfl := Option.some.inj hk
    obtain rfl := Option.some.inj hl
    cases hterm
  | k+2 => cases hk

/-- The repair is acknowledged, a shorter and older message comes late, and then the repair
again. -/
theorem repair_stays : ∃ y y' z,
    handle ⟨repairing.2, []⟩ (.appendEntries ⟨2, 1, 1, 1, [⟨2, "b".toList⟩], 2⟩) = .ok y ∧
    handle ⟨y.node, []⟩ (.appendEntries ⟨2, 1, 0, 0, [⟨1, "a".toList⟩], 0⟩) = .ok y' ∧
    y'.node.log.take 2 = repairing.1.take 2 ∧
    handle ⟨y'.node, []⟩ (.appendEntries ⟨2, 1, 1, 1, [⟨2, "b".toList⟩], 2⟩) = .ok z ∧
    z.node.log = y'.node.log := by
  have hrepair : Slice repairing.1 2 ⟨2, 1, 1, 1, [⟨2, "b".toList⟩], 2⟩ := by
    refine ⟨rfl, by decide, ?_, ⟨[⟨2, "c".toList⟩], rfl⟩⟩
    rintro k e ⟨⟩ he
    obtain rfl := Option.some.inj he
    rfl
  have hstale : Slice repairing.1 2 ⟨2, 1, 0, 0, [⟨1, "a".toList⟩], 0⟩ :=
    ⟨rfl, Nat.zero_le _, nofun, ⟨_, rfl⟩⟩
  obtain ⟨y, hy, h0, hack⟩ : ∃ y, handle ⟨repairing.2, []⟩
      (.appendEntries ⟨2, 1, 1, 1, [⟨2, "b".toList⟩], 2⟩) = .ok y ∧ y.node.baseIndex = 0 ∧
        Acknowledges y 2 :=
    ⟨_, rfl, rfl, 0, _, List.mem_singleton_self _, ⟨2, 0, true, 2⟩, rfl, rfl, rfl⟩
  have htracks := (handled_keeps repairing_tracks hrepair hy h0).1
  obtain ⟨y', hy', -⟩ := handle_slice htracks hstale
  have h0' : y'.node.baseIndex = 0 := by
    have hrun : (handle ⟨repairing.2, []⟩
        (.appendEntries ⟨2, 1, 1, 1, [⟨2, "b".toList⟩], 2⟩) >>= fun y =>
        handle ⟨y.node, []⟩ (.appendEntries ⟨2, 1, 0, 0, [⟨1, "a".toList⟩], 0⟩)).map
          (fun y' => y'.node.baseIndex) = .ok 0 := by decide +kernel
    rw [bind_ok.mpr ⟨y, hy, hy'⟩] at hrun
    exact Except.ok.inj hrun
  obtain ⟨⟨-, htake⟩, -, z, hz, hlog, -⟩ := acknowledged_entries_stay repairing_tracks .refl
    hrepair hy h0 hack (.single ⟨_, y', hstale, hy', h0', rfl⟩)
  exact ⟨y, y', z, hy, hy', htake, hz, hlog⟩

end RaftVerified
