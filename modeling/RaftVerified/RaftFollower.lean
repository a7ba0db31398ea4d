import RaftVerified.RaftCompaction

/-! What one AppendEntries does to a follower whose fields fit together: the commit rule,
the consistency check, and the answer. -/
namespace RaftVerified
open Consensus

variable {n m : RaftNode} {x y : Exec} {msg : AppendEntries}

/-! ### The commit rule -/

/-- The state machine after the commands of more entries. -/
def KVStateMachine.run (kv : KVStateMachine) (entries : List Entry) : KVStateMachine :=
  entries.foldl (fun kv e => (kv.apply (Command.decode e.command)).1) kv

namespace RaftNode

/-- `m` is `n` after it has applied the next entries of its log. -/
def Ran (n m : RaftNode) (k : ℕ) : Prop := ∃ applied,
  m = { n with
    lastApplied := n.lastApplied+k
    applied
    kv := n.kv.run ((n.logical.drop n.lastApplied).take k) }

theorem Ran.frame {k : ℕ} (h : n.Ran m k) : m.logical = n.logical ∧ m.ballot = n.ballot ∧
    m.folded = n.folded ∧ m.baseIndex = n.baseIndex ∧ m.lastApplied = n.lastApplied+k ∧
    m.commitIndex = n.commitIndex ∧
    m.kv = n.kv.run ((n.logical.drop n.lastApplied).take k) := by
  obtain ⟨_, rfl⟩ := h
  exact ⟨rfl, rfl, rfl, rfl, rfl, rfl, rfl⟩

end RaftNode

namespace Exec

/-- What one round of the apply loop leaves behind. -/
def afterEntry (x : Exec) (e : Entry) : Exec :=
  ((x.set (x.node.applyAt (x.node.lastApplied+1) e.command)).record
    (.apply x.node.id (x.node.lastApplied+1) e.command)).call
    (.onApply e.command (x.node.kv.apply (Command.decode e.command)).2)

theorem afterEntry_sends (x : Exec) (e : Entry) (i : NodeId) :
    sends i (x.afterEntry e).calls = sends i x.calls := by
  simp [afterEntry, call, record, set, RaftVerified.sends]

theorem applyNext_entry {e : Entry} (h : x.node.entryAt (x.node.lastApplied+1) = .ok e) :
    x.applyNext = .ok (x.afterEntry e) := by
  unfold applyNext
  dsimp only
  rw [h]
  rfl

/-- The loop applies the next `k` entries of the log, and does nothing else to the node. -/
theorem applyLoop_replays (k : ℕ) (hb : x.node.baseIndex ≤ x.node.lastApplied)
    (hk : x.node.lastApplied+k ≤ x.node.lastLogIndex) :
    ∃ y applied, x.applyLoop k = .ok y ∧ (y.node = { x.node with
      lastApplied := x.node.lastApplied+k
      applied := applied
      kv := x.node.kv.run
        ((x.node.log.drop (x.node.lastApplied-x.node.baseIndex)).take k) }) ∧
      ∀ i, sends i y.calls = sends i x.calls := by
  induction k generalizing x with
  | zero => exact ⟨x, x.node.applied, rfl, rfl, fun _ => rfl⟩
  | succ k ih =>
    have hlen : x.node.lastApplied-x.node.baseIndex < x.node.log.length := by
      unfold RaftNode.lastLogIndex at hk
      omega
    have hentry : x.node.entryAt (x.node.lastApplied+1) =
        .ok x.node.log[x.node.lastApplied-x.node.baseIndex] := by
      refine (RaftNode.entryAt_log (Nat.lt_succ_of_le hb)).mpr ?_
      have hindex : x.node.lastApplied+1-x.node.baseIndex-1 =
        x.node.lastApplied-x.node.baseIndex := by omega
      rw [hindex]
      exact List.getElem?_eq_getElem hlen
    obtain ⟨z, applied, hz, hlast, hsends⟩ := ih
      (x := x.afterEntry x.node.log[x.node.lastApplied-x.node.baseIndex])
      (Nat.le_succ_of_le hb) (by
        change x.node.lastApplied+1+k ≤ x.node.lastLogIndex
        omega)
    refine ⟨z, applied, ?_, ?_, fun i => (hsends i).trans (afterEntry_sends x _ i)⟩
    · unfold applyLoop
      rw [applyNext_entry hentry]
      exact hz
    · rw [hlast]
      have hsucc : x.node.lastApplied+1-x.node.baseIndex =
        x.node.lastApplied-x.node.baseIndex+1 := by omega
      have hsum : x.node.lastApplied+1+k = x.node.lastApplied+(k+1) := by omega
      have hrun : x.node.kv.run ((x.node.log.drop
          (x.node.lastApplied-x.node.baseIndex)).take (k+1)) =
          (x.node.kv.apply (Command.decode
            (x.node.log[x.node.lastApplied-x.node.baseIndex]).command)).1.run
            ((x.node.log.drop (x.node.lastApplied+1-x.node.baseIndex)).take k) := by
        rw [hsucc, List.drop_eq_getElem_cons hlen, List.take_succ_cons]
        rfl
      rw [hrun, ← hsum]
      rfl

/-- The apply loop runs through the log as far as it reaches. -/
theorem applyLoop_run (k : ℕ) {x : Exec} (h : x.node.folded.length = x.node.baseIndex)
    (hb : x.node.baseIndex ≤ x.node.lastApplied)
    (hk : x.node.lastApplied+k ≤ x.node.logical.length) :
    ∃ y, x.applyLoop k = .ok y ∧ x.node.Ran y.node k ∧
      ∀ i, sends i y.calls = sends i x.calls := by
  obtain ⟨y, applied, hy, hnode, hsends⟩ := applyLoop_replays k hb (RaftNode.length_logical h ▸ hk)
  refine ⟨y, hy, ⟨applied, ?_⟩, hsends⟩
  rw [RaftNode.logical_drop h hb]
  exact hnode

theorem configBelow_total (n : RaftNode) {i : ℕ} (hi : i ≤ n.log.length) :
    ∃ vs, n.configBelow i = .ok vs := by
  induction i with
  | zero => exact ⟨_, rfl⟩
  | succ i ih =>
    have he := (pyGet_eq_ok n.log i _).mpr (List.getElem?_eq_getElem hi)
    obtain ⟨vs, hvs⟩ := ih (by omega)
    cases hd : decodeConfig (n.log[i]).command with
    | some decoded => exact ⟨decoded, bind_ok.mpr ⟨_, he, by rw [hd]⟩⟩
    | none => exact ⟨vs, bind_ok.mpr ⟨_, he, by rw [hd, hvs]⟩⟩

/-- Compacting changes nothing a message is answered from. -/
theorem maybeCompact_run (h : x.node.folded.length = x.node.baseIndex)
    (hb : x.node.baseIndex ≤ x.node.lastApplied)
    (hl : x.node.lastApplied ≤ x.node.logical.length) :
    ∃ y, x.maybeCompact = .ok y ∧ x.Same y ∧ y.node.commitIndex = x.node.commitIndex ∧
      y.node.kv = x.node.kv := by
  have hlen := RaftNode.length_logical h
  -- the term of the last applied entry is there: at the base or in the log
  obtain ⟨lastTerm, hterm⟩ : ∃ t, x.node.termAt x.node.lastApplied = .ok t := by
    rcases Nat.eq_or_lt_of_le hb with heq | hlt
    · exact ⟨_, (RaftNode.termAt_base heq.ge).mpr rfl⟩
    · obtain ⟨j, hj⟩ : ∃ j, x.node.lastApplied = j+1 := ⟨x.node.lastApplied-1, by omega⟩
      rw [hj]
      exact ⟨_, (RaftNode.termAt_eq h (by omega)).mpr
        ⟨_, List.getElem?_eq_getElem (by omega), rfl⟩⟩
  obtain ⟨voters, hvoters⟩ := configBelow_total x.node
    (i := x.node.lastApplied-x.node.baseIndex) (by unfold RaftNode.lastLogIndex at hlen; omega)
  unfold maybeCompact
  dsimp only
  split
  · exact ⟨x, rfl, Same.refl x, rfl, rfl⟩
  · rw [hterm]
    dsimp only [bind, Except.bind]
    rw [RaftNode.configAt, hvoters]
    refine ⟨_, rfl, ⟨rfl, ?_, fun i => sends_record _ i _⟩, rfl, rfl⟩
    exact (compactTo_logical h hb lastTerm voters).2

theorem setCommitIndex_run {index : ℕ} (h : x.node.folded.length = x.node.baseIndex)
    (hb : x.node.baseIndex ≤ x.node.commitIndex)
    (hs : x.node.lastApplied = x.node.commitIndex) (hl : index ≤ x.node.logical.length) :
    ∃ y, x.setCommitIndex index = .ok y ∧ x.Same y ∧
      y.node.commitIndex = max x.node.commitIndex index ∧
      y.node.kv = x.node.kv.run ((x.node.logical.drop x.node.commitIndex).take
        (max x.node.commitIndex index-x.node.commitIndex)) := by
  unfold setCommitIndex
  split
  -- nothing new is committed
  next hle =>
    refine ⟨x, rfl, Same.refl x, (max_eq_left hle).symm, ?_⟩
    rw [max_eq_left hle, Nat.sub_self, List.take_zero]
    rfl
  -- the entries up to the new index are applied, and the log may be compacted
  next hgt =>
    obtain ⟨z, hz, hran, hzs⟩ := applyLoop_run (index-x.node.lastApplied)
      (x := (x.set { x.node with commitIndex := index }).record (.commit x.node.id index))
      h (hs.symm ▸ hb) (by change x.node.lastApplied+_ ≤ x.node.logical.length; omega)
    obtain ⟨hlog, hbal, hfold, hbase, hla, hcom, hkv⟩ := hran.frame
    change z.node.logical = x.node.logical at hlog
    change z.node.ballot = x.node.ballot at hbal
    change z.node.folded = x.node.folded at hfold
    change z.node.baseIndex = x.node.baseIndex at hbase
    change z.node.lastApplied = x.node.lastApplied+(index-x.node.lastApplied) at hla
    obtain ⟨y, hy, hsame, hyc, hyk⟩ := maybeCompact_run (x := z) (by rw [hfold, hbase, h])
      (by omega) (by rw [hlog]; omega)
    refine ⟨y, ?_, ?_, ?_, ?_⟩
    · exact bind_ok.mpr ⟨z, hz, hy⟩
    · have hfirst : x.Same z := ⟨hbal, hlog, fun i => (hzs i).trans (sends_record _ i _)⟩
      exact hfirst.trans hsame
    · rw [hyc, hcom, max_eq_right (by omega)]
      rfl
    · rw [hyk, hkv, max_eq_right (by omega), ← hs]
      rfl

/-- The commit rule of a follower, when the log reaches as far as it is told to commit. -/
theorem followCommit_run {leaderCommit p : ℕ} (hbugs : x.node.bugs = NO_BUGS)
    (h : x.node.folded.length = x.node.baseIndex) (hb : x.node.baseIndex ≤ x.node.commitIndex)
    (hs : x.node.lastApplied = x.node.commitIndex)
    (hl : max x.node.commitIndex (min leaderCommit p) ≤ x.node.logical.length) :
    ∃ y, x.followCommit leaderCommit p = .ok y ∧ x.Same y ∧
      y.node.commitIndex = max x.node.commitIndex (min leaderCommit p) ∧
      y.node.kv = x.node.kv.run ((x.node.logical.drop x.node.commitIndex).take
        (max x.node.commitIndex (min leaderCommit p)-x.node.commitIndex)) := by
  unfold followCommit
  rw [hbugs]
  simp only [NO_BUGS, Bool.false_eq_true, if_false]
  split
  next hlt =>
    have hrun := setCommitIndex_run h hb hs hl
    rwa [max_eq_right (le_max_left _ _)] at hrun
  next hge =>
    have hmax : max x.node.commitIndex (min leaderCommit p) = x.node.commitIndex :=
      max_eq_left ((min_le_left _ _).trans (Nat.le_of_not_lt hge))
    refine ⟨x, rfl, Same.refl x, hmax.symm, ?_⟩
    rw [hmax, Nat.sub_self, List.take_zero]
    rfl

theorem applyLoop_node (k : ℕ) (h : x.applyLoop k = .ok y) :
    y.node.logical = x.node.logical ∧ y.node.folded = x.node.folded ∧
      y.node.baseIndex = x.node.baseIndex ∧ x.node.lastApplied ≤ y.node.lastApplied := by
  induction k generalizing x with
  | zero =>
    obtain rfl := Except.ok.inj h
    exact ⟨rfl, rfl, rfl, le_rfl⟩
  | succ k ih =>
    obtain ⟨z, hz, h⟩ := bind_ok.mp h
    obtain ⟨e, -, hz⟩ := bind_ok.mp hz
    obtain rfl := Except.ok.inj hz
    obtain ⟨hlog, hfold, hbase, hla⟩ := ih h
    exact ⟨hlog, hfold, hbase, (Nat.le_succ _).trans hla⟩

/-- Committing never edits the log, whether or not it reaches that far. -/
theorem followCommit_logical {leaderCommit p : ℕ}
    (hbase : x.node.folded.length = x.node.baseIndex)
    (hb : x.node.baseIndex ≤ x.node.lastApplied) (h : x.followCommit leaderCommit p = .ok y) :
    y.node.logical = x.node.logical := by
  rcases followCommit_cases h with ⟨-, rfl⟩ | ⟨-, h⟩ | ⟨-, rfl⟩
  · rfl
  · unfold setCommitIndex at h
    split at h
    · obtain rfl := Except.ok.inj h
      rfl
    · obtain ⟨z, hz, h⟩ := bind_ok.mp h
      obtain ⟨hlog, hfold, hbi, hla⟩ := applyLoop_node _ hz
      change z.node.logical = x.node.logical at hlog
      change z.node.folded = x.node.folded at hfold
      change z.node.baseIndex = x.node.baseIndex at hbi
      change x.node.lastApplied ≤ z.node.lastApplied at hla
      -- compaction moves entries from the log to the snapshot
      rcases maybeCompact_cases h with ⟨-, rfl⟩ | ⟨-, -, lastTerm, voters, -, -, rfl⟩
      · exact hlog
      · rw [← hlog]
        exact (compactTo_logical (by rw [hfold, hbi, hbase]) (by omega) lastTerm voters).2
  · rfl

end Exec

/-! ### One AppendEntries at a follower -/

/-- A follower between two callbacks, as far as an AppendEntries reads it. -/
structure Follows (n : RaftNode) (msg : AppendEntries) : Prop where
  bugs : n.bugs = NO_BUGS
  alive : n.alive = true
  role : n.role = .follower
  term : n.term ≤ msg.term
  base : n.folded.length = n.baseIndex
  base_le : n.baseIndex ≤ n.commitIndex
  settled : n.lastApplied = n.commitIndex

/-- The commit index after an accepted message. -/
def commitAfter (n : RaftNode) (msg : AppendEntries) : ℕ :=
  max n.commitIndex (min msg.leaderCommit (msg.prevIndex+msg.entries.length))

def appendAnswer (n : RaftNode) (msg : AppendEntries) (success : Bool) (matchIndex : ℕ) :
    List Call :=
  [.send msg.leader (.appendReply {
    term := msg.term, follower := n.id, success, matchIndex })]

/-- A follower of an own or higher term gets to the consistency check. -/
theorem Follows.handle (h : Follows n msg) : ∃ z : Exec,
    Exec.handle ⟨n, []⟩ (.appendEntries msg) = z.appendFromLeader msg ∧
      z.node.data = n.data ∧ z.node.id = n.id ∧ z.node.term = msg.term ∧
      ∀ i, sends i z.calls = [] := by
  have hrole : (Exec.catchUp ⟨n, []⟩ msg.term).node.role = .follower := by
    unfold Exec.catchUp
    split
    · exact Exec.becomeFollower_role _ _
    · exact h.role
  have hterm : (Exec.catchUp ⟨n, []⟩ msg.term).node.term = msg.term := by
    rw [Exec.catchUp_term]
    exact max_eq_right h.term
  have hid : (Exec.catchUp ⟨n, []⟩ msg.term).node.id = n.id := by
    unfold Exec.catchUp
    split
    · exact congrArg (fun b => b.1) (Exec.becomeFollower_ballot _ _)
    · rfl
  have hsends : ∀ i, sends i (Exec.catchUp ⟨n, []⟩ msg.term).calls = [] := by
    intro i
    unfold Exec.catchUp
    split
    · exact (Exec.becomeFollower_alike _ _).sends i
    · rfl
  have hheed := Exec.heed_alike (Exec.catchUp ⟨n, []⟩ msg.term) msg.leader
  refine ⟨(Exec.catchUp ⟨n, []⟩ msg.term).heed msg.leader, ?_, ?_, hid, hterm, ?_⟩
  -- the message is neither old nor met by a leader of its term
  · have hdispatch : Exec.handle ⟨n, []⟩ (.appendEntries msg) =
        Exec.onAppendEntries ⟨n, []⟩ msg := if_neg (by rw [h.alive]; decide)
    rw [hdispatch, Exec.onAppendEntries]
    dsimp only
    rw [if_neg (by omega), if_neg (not_not.mpr hrole)]
  · exact hheed.data.trans (Exec.catchUp_data _ _)
  · exact fun i => (hheed.sends i).trans (hsends i)

/-- What the consistency check lets through. -/
def Passes (n : RaftNode) (msg : AppendEntries) : Prop :=
  msg.prevIndex = 0 ∨
    (msg.prevIndex ≤ n.lastLogIndex ∧ n.termAt msg.prevIndex = .ok msg.prevTerm)

theorem inconsistent_of_passes (h : Passes n msg) :
    Exec.inconsistent n msg = .ok false := by
  rcases h with h0 | ⟨hle, hterm⟩
  · have hmis : ∃ b, Exec.termMismatch n msg = .ok b := by
      unfold Exec.termMismatch
      split
      · exact ⟨_, rfl⟩
      · rw [h0, (RaftNode.termAt_base (Nat.zero_le _)).mpr rfl]
        exact ⟨_, rfl⟩
    obtain ⟨b, hb⟩ := hmis
    rw [Exec.inconsistent, hb, h0]
    rfl
  · have hmis : Exec.termMismatch n msg = .ok false := by
      rw [Exec.termMismatch, if_neg (by omega), hterm]
      change Except.ok (decide (msg.prevTerm ≠ msg.prevTerm)) = _
      rw [decide_eq_false (not_not.mpr rfl)]
    rw [Exec.inconsistent, hmis]
    refine congrArg Except.ok (decide_eq_false ?_)
    rintro ⟨-, hlt | ⟨hf, -⟩⟩
    · omega
    · cases hf

theorem inconsistent_of_not_passes (hskip : n.bugs.skipLogConsistency = false)
    (h : n.folded.length = n.baseIndex) (hp : ¬ Passes n msg) :
    Exec.inconsistent n msg = .ok true := by
  obtain ⟨mismatch, hmis⟩ : ∃ b, Exec.termMismatch n msg = .ok b := by
    unfold Exec.termMismatch
    split
    · exact ⟨_, rfl⟩
    next hle =>
      rcases Nat.lt_or_ge n.baseIndex msg.prevIndex with hlt | hge
      · obtain ⟨k, hk⟩ : ∃ k, msg.prevIndex = k+1 := ⟨msg.prevIndex-1, by omega⟩
        have hlen := RaftNode.length_logical h
        have hget := List.getElem?_eq_getElem (l := n.logical) (i := k) (by omega)
        rw [hk, (RaftNode.termAt_eq h (by omega)).mpr ⟨_, hget, rfl⟩]
        exact ⟨_, rfl⟩
      · rw [(RaftNode.termAt_base hge).mpr rfl]
        exact ⟨_, rfl⟩
  -- the check returns, so it has answered one way or the other
  have hall : ∃ b, Exec.inconsistent n msg = .ok b := by
    rw [Exec.inconsistent, hmis]
    exact ⟨_, rfl⟩
  obtain ⟨refused, href⟩ := hall
  cases refused with
  | true => exact href
  | false =>
    refine absurd ?_ hp
    rcases Nat.eq_zero_or_pos msg.prevIndex with h0 | hpos
    · exact Or.inl h0
    · exact Or.inr (consistent_of_accepted hskip href hpos)

/-- What is left of a follower that has taken the message: its log is `target`. -/
structure Took (n : RaftNode) (msg : AppendEntries) (target : List Entry) (y : Exec) : Prop where
  logical : y.node.logical = target
  commit : y.node.commitIndex = commitAfter n msg
  kv : y.node.kv = n.kv.run
    ((target.drop n.commitIndex).take (commitAfter n msg-n.commitIndex))
  answer : ∀ i, sends i y.calls =
    sends i (appendAnswer n msg true (msg.prevIndex+msg.entries.length))

namespace Follows

theorem refused (h : Follows n msg) (hp : ¬ Passes n msg) :
    ∃ y, Exec.handle ⟨n, []⟩ (.appendEntries msg) = .ok y ∧ y.node.data = n.data ∧
      ∀ i, sends i y.calls = sends i (appendAnswer n msg false 0) := by
  obtain ⟨z, hz, hdata, hid, hterm, hsends⟩ := h.handle
  have href := (inconsistent_congr hdata msg).trans
    (inconsistent_of_not_passes (congrArg Bugs.skipLogConsistency h.bugs) h.base hp)
  refine ⟨z.replyAppend msg.leader false 0, ?_, hdata, fun i => ?_⟩
  · rw [hz, Exec.appendFromLeader, href]
    rfl
  · change sends i (z.calls ++ [_]) = _
    rw [sends_append, hsends, hterm, hid]
    rfl

/-- The effect of an accepted message, from what its append loop makes of the log. -/
theorem accepted (h : Follows n msg) (hp : Passes n msg) {P : List Entry → Prop}
    (hloop : ∀ k : RaftNode, k.data = n.data → ∃ m,
      k.appendLoop msg.prevIndex msg.entries = .ok m ∧ k.Edited m ∧ P m.logical) :
    ∃ target, P target ∧
      (∀ y, Exec.handle ⟨n, []⟩ (.appendEntries msg) = .ok y → y.node.logical = target) ∧
      (commitAfter n msg ≤ target.length →
        ∃ y, Exec.handle ⟨n, []⟩ (.appendEntries msg) = .ok y ∧ Took n msg target y) := by
  obtain ⟨z, hz, hdata, hid, hterm, hsends⟩ := h.handle
  have hacc := (inconsistent_congr hdata msg).trans (inconsistent_of_passes hp)
  obtain ⟨m, hm, hed, hP⟩ := hloop z.node hdata
  simp only [RaftNode.data, Prod.mk.injEq] at hdata
  obtain ⟨⟨hbugs, -, -, hfold, -, hbase, -⟩, -, -, -, hla, hcom, hkv, -⟩ := hdata
  obtain ⟨hbal, hmc, hmla⟩ := edited_ballot hed
  obtain ⟨hmf, hmb, -⟩ := hed.base
  -- the loop edits the log and leaves the rest of the node as it was
  have hmbase : m.folded.length = m.baseIndex := by rw [hmf, hmb, hfold, hbase, h.base]
  have hmbc : m.baseIndex ≤ m.commitIndex := by
    rw [hmb, hmc, hbase, hcom]
    exact h.base_le
  have hms : m.lastApplied = m.commitIndex := by rw [hmla, hmc, hla, hcom, h.settled]
  have hmbugs : m.bugs = NO_BUGS := by
    have hb := congrArg (fun p => p.1) (edited_progress hed)
    exact (hb.trans hbugs).trans h.bugs
  have hmkv : m.kv = n.kv := by
    obtain ⟨_, _, _, _, rfl⟩ := hed
    exact hkv
  refine ⟨m.logical, hP, ?_, ?_⟩
  · intro y hy
    rw [hz, Exec.appendFromLeader] at hy
    -- the run can only have gone the way of the loop
    obtain ⟨refused, href, hy⟩ := bind_ok.mp hy
    obtain rfl := Except.ok.inj (hacc.symm.trans href)
    obtain ⟨m', hm', hy⟩ := bind_ok.mp hy
    obtain rfl := Except.ok.inj (hm.symm.trans hm')
    obtain ⟨w, hw, hy⟩ := bind_ok.mp hy
    obtain rfl := Except.ok.inj hy
    have hkeep := Exec.followCommit_logical (x := z.set m) hmbase (hms.symm ▸ hmbc) hw
    exact hkeep
  · intro hle
    -- the commit index after the message, where the log reaches it
    have hlc : max m.commitIndex (min msg.leaderCommit (msg.prevIndex+msg.entries.length)) =
        commitAfter n msg := by
      rw [hmc, hcom]
      rfl
    obtain ⟨w, hw, hsame, hwc, hwk⟩ := Exec.followCommit_run (x := z.set m) hmbugs hmbase hmbc hms
      (by change max m.commitIndex _ ≤ m.logical.length; rw [hlc]; exact hle)
    change w.node.commitIndex = max m.commitIndex _ at hwc
    change w.node.kv = m.kv.run ((m.logical.drop m.commitIndex).take
      (max m.commitIndex _-m.commitIndex)) at hwk
    refine ⟨w.replyAppend msg.leader true (msg.prevIndex+msg.entries.length), ?_, ?_⟩
    · rw [hz, Exec.appendFromLeader]
      exact bind_ok.mpr ⟨false, hacc, bind_ok.mpr ⟨m, hm, bind_ok.mpr ⟨w, hw, rfl⟩⟩⟩
    have hwb : w.node.ballot = z.node.ballot := hsame.ballot.trans hbal
    simp only [RaftNode.ballot, Prod.mk.injEq] at hwb
    refine ⟨hsame.logical, hwc.trans hlc, ?_, fun i => ?_⟩
    · change w.node.kv = _
      rw [hwk, hlc, hmkv, hmc, hcom]
    · change sends i (w.calls ++ [_]) = _
      rw [sends_append, hsame.sends]
      change sends i z.calls ++ _ = _
      rw [hsends, hwb.1, hwb.2.1, hterm, hid]
      rfl

end Follows
end RaftVerified
