import RaftVerified.Clients
import RaftVerified.RaftLedger

/-! What a callback reports through `on_apply`, and what becomes of the pending reads: every
method but the three about reads keeps them or drops them all, and reports what it applies. -/
namespace RaftVerified

variable {n m : RaftNode}

@[simp] theorem onApplies_append (xs ys : List Call) :
    onApplies (xs ++ ys) = onApplies xs ++ onApplies ys := by
  induction xs with
  | nil => rfl
  | cons call xs ih =>
    cases call with
    | onApply command result => simp [onApplies, ih]
    | send dst msg => simpa [onApplies] using ih
    | record event => simpa [onApplies] using ih
    | schedule timer => simpa [onApplies] using ih

/-- What an apply loop reports that applies the entries from the state machine `kv` on. -/
def reports (kv : KVStateMachine) : List Entry → List (Str × Str)
  | [] => []
  | e :: rest =>
    let r := kv.apply (Command.decode e.command)
    (e.command, r.2) :: reports r.1 rest

def Message.IsRead : Message → Prop
  | .readHeartbeat _ => True
  | .readAck _ => True
  | _ => False

/-- A call that reports nothing and sends nothing about reads. -/
def Call.Mute : Call → Prop
  | .onApply _ _ => False
  | .send _ msg => ¬ msg.IsRead
  | _ => True

namespace Exec
variable {x y z : Exec}

/-- The pending reads stay as long as the node leads its term, or are dropped. -/
structure Keeps (x y : Exec) : Prop where
  term : x.node.term ≤ y.node.term
  stays : y.node.term = x.node.term → y.node.role ≠ .follower →
    x.node.role = y.node.role ∨ x.node.role = .candidate
  next : y.node.nextReadId = x.node.nextReadId
  reads : (y.node.pendingReads = x.node.pendingReads ∧ (x.node.role = .leader →
    y.node.role = .leader ∧ y.node.term = x.node.term)) ∨ y.node.pendingReads = ∅
  sends : ∀ dst msg, .send dst msg ∈ y.calls → msg.IsRead → .send dst msg ∈ x.calls

theorem Keeps.refl (x : Exec) : Keeps x x :=
  ⟨le_rfl, fun _ _ => Or.inl rfl, rfl, Or.inl ⟨rfl, fun h => ⟨h, rfl⟩⟩, fun _ _ h _ => h⟩

theorem Keeps.trans (h : Keeps x y) (h' : Keeps y z) : Keeps x z where
  term := h.term.trans h'.term
  stays ht hr := by
    have hle := h.term
    have hle' := h'.term
    rcases h'.stays (by omega) hr with heq | hcand
    · rw [← heq]
      exact h.stays (by omega) (by rwa [heq])
    · refine Or.inr ?_
      rcases h.stays (by omega) (by rw [hcand]; exact nofun) with heq | hcand'
      · exact heq.trans hcand
      · exact hcand'
  next := h'.next.trans h.next
  reads := by
    rcases h'.reads with ⟨hp', hlead'⟩ | hnone'
    · rcases h.reads with ⟨hp, hlead⟩ | hnone
      · refine Or.inl ⟨hp'.trans hp, fun hr => ?_⟩
        obtain ⟨hr1, ht1⟩ := hlead hr
        obtain ⟨hr2, ht2⟩ := hlead' hr1
        exact ⟨hr2, ht2.trans ht1⟩
      · exact Or.inr (hp'.trans hnone)
    · exact Or.inr hnone'
  sends dst msg hm hr := h.sends dst msg (h'.sends dst msg hm hr) hr

/-- Nothing is applied or reported, and the log stays as it is. -/
structure Silent (x y : Exec) : Prop extends Keeps x y where
  log : y.node.log = x.node.log
  machine : (y.node.kv, y.node.lastApplied, y.node.commitIndex) =
    (x.node.kv, x.node.lastApplied, x.node.commitIndex)
  answers : onApplies y.calls = onApplies x.calls

theorem Silent.refl (x : Exec) : Silent x x := ⟨Keeps.refl x, rfl, rfl, rfl⟩

theorem Silent.trans (h : Silent x y) (h' : Silent y z) : Silent x z :=
  ⟨h.toKeeps.trans h'.toKeeps, h'.log.trans h.log, h'.machine.trans h.machine,
    h'.answers.trans h.answers⟩

theorem silent_set (hk : (n.log, n.kv, n.lastApplied, n.commitIndex, n.nextReadId) =
      (x.node.log, x.node.kv, x.node.lastApplied, x.node.commitIndex, x.node.nextReadId))
    (ht : n.term = x.node.term) (hr : n.role = x.node.role)
    (hp : n.pendingReads = x.node.pendingReads) : Silent x (x.set n) := by
  simp only [Prod.mk.injEq] at hk
  obtain ⟨hlog, hkv, hla, hcom, hnext⟩ := hk
  refine ⟨⟨ht.ge, fun _ _ => Or.inl hr.symm, hnext, Or.inl ⟨hp, fun h => ⟨hr.trans h, ht⟩⟩,
    fun _ _ h _ => h⟩, hlog, ?_, rfl⟩
  change (n.kv, n.lastApplied, n.commitIndex) = _
  rw [hkv, hla, hcom]

theorem silent_calls {cs : List Call} (h : ∀ call ∈ cs, call.Mute) :
    Silent x { x with calls := x.calls ++ cs } := by
  refine ⟨⟨le_rfl, fun _ _ => Or.inl rfl, rfl, Or.inl ⟨rfl, fun h => ⟨h, rfl⟩⟩, ?_⟩, rfl, rfl, ?_⟩
  · intro dst msg hm hr
    rcases List.mem_append.mp hm with hm | hm
    · exact hm
    · exact absurd hr (h _ hm)
  · have hcs : onApplies cs = [] := by
      induction cs with
      | nil => rfl
      | cons call cs ih =>
        have ih := ih fun d hd => h d (List.mem_cons_of_mem call hd)
        have hcall := h call List.mem_cons_self
        cases call with
        | onApply command result => exact hcall.elim
        | _ => exact ih
    change onApplies (x.calls ++ cs) = _
    rw [onApplies_append, hcs, List.append_nil]

theorem silent_call {c : Call} (h : c.Mute) : Silent x (x.call c) := by
  refine silent_calls fun d hd => ?_
  obtain rfl := List.mem_singleton.mp hd
  exact h

theorem Silent.call {c : Call} (h : Silent x y) (hc : c.Mute) : Silent x (y.call c) :=
  h.trans (silent_call hc)

theorem silent_sendAll (dsts : List NodeId) {m : Message} (h : ¬ m.IsRead) :
    Silent x (x.sendAll dsts m) := by
  refine silent_calls fun call hc => ?_
  obtain ⟨dst, -, rfl⟩ := List.mem_map.mp hc
  exact h

/-! ### Methods that apply nothing -/

theorem armElectionTimer_silent (x : Exec) : Silent x x.armElectionTimer := by
  have hset : Silent x (x.set { x.node with timerSeq := x.node.timerSeq+1 }) :=
    silent_set rfl rfl rfl rfl
  exact hset.call trivial

theorem armHeartbeatTimer_silent (x : Exec) : Silent x x.armHeartbeatTimer := by
  have hset : Silent x (x.set { x.node with timerSeq := x.node.timerSeq+1 }) :=
    silent_set rfl rfl rfl rfl
  exact hset.call trivial

theorem heed_silent (x : Exec) (leader : NodeId) : Silent x (x.heed leader) := by
  have hset : Silent x (x.set { x.node with leaderId := some leader }) :=
    silent_set rfl rfl rfl rfl
  exact hset.trans (armElectionTimer_silent _)

theorem replyAppend_silent (x : Exec) (dst : NodeId) (success : Bool) (matchIndex : ℕ) :
    Silent x (x.replyAppend dst success matchIndex) := silent_call id

/-- A node that follows drops its pending reads. -/
theorem becomeFollower_silent {term : ℕ} (h : x.node.term ≤ term) :
    Silent x (x.becomeFollower term) := by
  have hset : Silent x (x.set (x.node.follow term)) :=
    ⟨⟨h, fun _ hr => absurd rfl hr, rfl, Or.inr rfl, fun _ _ h _ => h⟩, rfl, rfl, rfl⟩
  unfold becomeFollower
  dsimp only
  split
  · exact (hset.call (c := .record (.role x.node.id .follower term)) trivial).trans
      (armElectionTimer_silent _)
  · exact hset.trans (armElectionTimer_silent _)

theorem catchUp_silent (x : Exec) (term : ℕ) : Silent x (x.catchUp term) := by
  unfold catchUp
  split
  next hlt => exact becomeFollower_silent hlt.le
  next => exact Silent.refl x

theorem sendAppendEntries_silent {peer : NodeId} (h : x.sendAppendEntries peer = .ok y) :
    Silent x y := by
  unfold sendAppendEntries at h
  split at h
  · cases h
  · dsimp only at h
    split at h
    · obtain rfl := Except.ok.inj h
      unfold sendInstallSnapshot
      split
      · exact Silent.refl x
      · exact silent_call id
    · obtain ⟨t, -, h⟩ := bind_ok.mp h
      obtain rfl := Except.ok.inj h
      exact silent_call id

theorem broadcastTo_silent (ps : List NodeId) (h : x.broadcastTo ps = .ok y) : Silent x y := by
  induction ps generalizing x with
  | nil =>
    obtain rfl := Except.ok.inj h
    exact Silent.refl x
  | cons p ps ih =>
    obtain ⟨z, hz, h⟩ := bind_ok.mp h
    exact (sendAppendEntries_silent hz).trans (ih h)

theorem becomeLeader_silent (hr : x.node.role = .candidate) (h : x.becomeLeader = .ok y) :
    Silent x y := by
  obtain ⟨z, hz, h⟩ := bind_ok.mp h
  obtain rfl := Except.ok.inj h
  have hrec : Silent x (x.record (.role x.node.id .leader x.node.term)) := silent_call trivial
  have hlead : Silent (x.record (.role x.node.id .leader x.node.term))
      ((x.record (.role x.node.id .leader x.node.term)).set x.node.lead) := by
    refine ⟨⟨le_rfl, fun _ _ => Or.inr hr, rfl, Or.inl ⟨rfl, fun hl => ?_⟩, fun _ _ h _ => h⟩,
      rfl, rfl, rfl⟩
    exact absurd (hr.symm.trans hl) nofun
  exact ((hrec.trans hlead).trans (broadcastTo_silent _ hz)).trans (armHeartbeatTimer_silent z)

theorem maybeWin_silent (h : x.maybeWin = .ok y) : Silent x y := by
  unfold maybeWin at h
  dsimp only at h
  split at h
  next hc => exact becomeLeader_silent hc.1 h
  next =>
    obtain rfl := Except.ok.inj h
    exact Silent.refl x

/-- Only a node that does not lead stands for election. -/
theorem stand_silent (hr : x.node.role ≠ .leader) : Silent x x.stand := by
  have hset : Silent x (x.set x.node.campaign) := by
    refine ⟨⟨Nat.le_succ _, fun ht => ?_, rfl, Or.inl ⟨rfl, fun hl => absurd hl hr⟩,
      fun _ _ h _ => h⟩, rfl, rfl, rfl⟩
    exact absurd ht (Nat.succ_ne_self _)
  have hrec := hset.call (c := .record (.election x.node.id (x.node.term+1))) trivial
  have hrole := hrec.call (c := .record (.role x.node.id .candidate (x.node.term+1))) trivial
  exact hrole.trans (armElectionTimer_silent _)

theorem onElectionTimeout_silent {seq : ℕ} (h : x.onElectionTimeout seq = .ok y) :
    Silent x y := by
  unfold onElectionTimeout at h
  split at h
  · obtain rfl := Except.ok.inj h
    exact Silent.refl x
  next hg =>
    push Not at hg
    have hrec : Silent x (x.record (.timer x.node.id x.node.term)) := silent_call trivial
    unfold startElection at h
    split at h
    · obtain rfl := Except.ok.inj h
      exact hrec.trans (armElectionTimer_silent _)
    · obtain ⟨t, -, h⟩ := bind_ok.mp h
      have hstand := hrec.trans (stand_silent hg.2.2)
      have hsend := hstand.trans (silent_sendAll
        (x.record (.timer x.node.id x.node.term)).stand.node.otherVoters
        (m := .requestVote ⟨x.node.term+1, x.node.id, x.node.lastLogIndex, t⟩) id)
      exact hsend.trans (maybeWin_silent h)

theorem onHeartbeat_silent {seq : ℕ} (h : x.onHeartbeat seq = .ok y) : Silent x y := by
  unfold onHeartbeat at h
  split at h
  · obtain rfl := Except.ok.inj h
    exact Silent.refl x
  · obtain ⟨z, hz, h⟩ := bind_ok.mp h
    obtain rfl := Except.ok.inj h
    exact (broadcastTo_silent _ hz).trans (armHeartbeatTimer_silent z)

theorem onRequestVote_silent {msg : RequestVote} (h : x.onRequestVote msg = .ok y) :
    Silent x y := by
  have hcatch := catchUp_silent x msg.term
  obtain ⟨granted, -, h⟩ := bind_ok.mp h
  obtain rfl := Except.ok.inj h
  cases granted with
  | false => exact hcatch.call id
  | true =>
    have hset : Silent (x.catchUp msg.term) ((x.catchUp msg.term).set
      { (x.catchUp msg.term).node with votedFor := some msg.candidate }) :=
      silent_set rfl rfl rfl rfl
    have hvote := (hcatch.trans hset).call (c := .record (.vote (x.catchUp msg.term).node.id
      msg.candidate (x.catchUp msg.term).node.term)) trivial
    exact (hvote.trans (armElectionTimer_silent _)).call id

theorem onVoteReply_silent {msg : VoteReply} (h : x.onVoteReply msg = .ok y) : Silent x y := by
  unfold onVoteReply at h
  split at h
  next hlt =>
    obtain rfl := Except.ok.inj h
    exact becomeFollower_silent hlt.le
  next =>
    split at h
    · obtain rfl := Except.ok.inj h
      exact Silent.refl x
    · have hset : Silent x (x.set (x.node.countVote msg.voter)) := silent_set rfl rfl rfl rfl
      exact hset.trans (maybeWin_silent h)

/-! ### Methods that apply -/

/-- What is applied on the way is reported, with the results of the state machine. Only a
node that follows loses commits or entries, and only the commands in `fresh` are appended. -/
structure Answers (fresh : List Str) (x y : Exec) : Prop extends Keeps x y where
  commit : x.node.commitIndex ≤ y.node.commitIndex ∨ y.node.role = .follower
  log : y.node.log = x.node.log ∨ y.node.role = .follower ∨
    ∃ command ∈ fresh, y.node.log = x.node.log ++ [⟨x.node.term, command⟩]
  answers : onApplies y.calls = onApplies x.calls ++ reports x.node.kv
    ((y.node.log.drop x.node.lastApplied).take (y.node.lastApplied-x.node.lastApplied))

variable {fresh : List Str}

theorem Silent.answered (h : Silent x y) : Answers fresh x y := by
  have hm := h.machine
  simp only [Prod.mk.injEq] at hm
  obtain ⟨-, hla, hcom⟩ := hm
  refine ⟨h.toKeeps, Or.inl hcom.ge, Or.inl h.log, ?_⟩
  rw [h.answers, hla, Nat.sub_self, List.take_zero]
  exact (List.append_nil _).symm

theorem Silent.answer (h : Silent x y) (h' : Answers [] y z) : Answers fresh x z := by
  have hm := h.machine
  simp only [Prod.mk.injEq] at hm
  obtain ⟨hkv, hla, hcom⟩ := hm
  have hans := h'.answers
  rw [hkv, hla, h.answers] at hans
  refine ⟨h.toKeeps.trans h'.toKeeps, hcom ▸ h'.commit, ?_, hans⟩
  rcases h'.log with hlog | hrole | ⟨command, hc, -⟩
  · exact Or.inl (hlog.trans h.log)
  · exact Or.inr (Or.inl hrole)
  · cases hc

theorem Answers.call {c : Call} (h : Answers fresh x y) (hc : c.Mute) :
    Answers fresh x (y.call c) := by
  have hs := silent_call (x := y) hc
  exact ⟨h.toKeeps.trans hs.toKeeps, h.commit, h.log, hs.answers.trans h.answers⟩

/-- The loop applies the next `k` entries and reports their results. -/
theorem applyLoop_reports (k : ℕ) (hb : x.node.baseIndex = 0) (hy : x.applyLoop k = .ok y) :
    (∃ applied kv, y.node = { x.node with
      lastApplied := x.node.lastApplied+k, applied := applied, kv := kv }) ∧
    (∀ dst msg, .send dst msg ∈ y.calls → .send dst msg ∈ x.calls) ∧
    onApplies y.calls = onApplies x.calls ++
      reports x.node.kv ((x.node.log.drop x.node.lastApplied).take k) := by
  induction k generalizing x with
  | zero =>
    obtain rfl := Except.ok.inj hy
    exact ⟨⟨_, _, rfl⟩, fun _ _ h => h, (List.append_nil _).symm⟩
  | succ k ih =>
    obtain ⟨z, hz, hy⟩ := bind_ok.mp hy
    obtain ⟨e, he, hz⟩ := bind_ok.mp hz
    obtain rfl := Except.ok.inj hz
    have hb' : (((x.set (x.node.applyAt (x.node.lastApplied+1) e.command)).record
        (.apply x.node.id (x.node.lastApplied+1) e.command)).call (.onApply e.command
          (x.node.kv.apply (Command.decode e.command)).2)).node.baseIndex = 0 := hb
    obtain ⟨⟨applied, kv, hnode⟩, hsend, hans⟩ := ih hb' hy
    have hnext : x.node.log.drop x.node.lastApplied =
        e :: x.node.log.drop (x.node.lastApplied+1) := by
      obtain ⟨hlt, rfl⟩ := List.getElem?_eq_some_iff.mp ((RaftNode.entryAt_flat hb).mp he)
      exact List.drop_eq_getElem_cons hlt
    refine ⟨⟨applied, kv, ?_⟩, fun dst msg hm => ?_, ?_⟩
    · rw [hnode, ← Nat.add_assoc, Nat.add_right_comm]
      rfl
    · have hx := hsend dst msg hm
      change _ ∈ (x.calls ++ [_]) ++ [_] at hx
      simpa using hx
    · rw [hans, hnext, List.take_succ_cons]
      change onApplies ((x.calls ++ [_]) ++ [_]) ++ _ = _
      rw [onApplies_append, onApplies_append, List.append_assoc, List.append_assoc]
      rfl

theorem setCommitIndex_answers {index : ℕ} (hb : x.node.baseIndex = 0)
    (ht : x.node.config.snapshotThreshold ≤ 0) (hy : x.setCommitIndex index = .ok y) :
    Answers fresh x y ∧ y.node.role = x.node.role ∧ y.node.log = x.node.log := by
  unfold setCommitIndex at hy
  split at hy
  · obtain rfl := Except.ok.inj hy
    exact ⟨(Silent.refl x).answered, rfl, rfl⟩
  next hlt =>
    obtain ⟨z, hz, hy⟩ := bind_ok.mp hy
    have hb' : ((x.set { x.node with commitIndex := index }).record
        (.commit x.node.id index)).node.baseIndex = 0 := hb
    obtain ⟨⟨applied, kv, hnode⟩, hsend, hans⟩ := applyLoop_reports _ hb' hz
    -- compaction is off
    unfold maybeCompact at hy
    dsimp only at hy
    rw [if_pos (Or.inl (by rw [hnode]; exact ht))] at hy
    obtain rfl := Except.ok.inj hy
    have hlast : z.node.lastApplied = x.node.lastApplied+(index-x.node.lastApplied) := by
      rw [hnode]
      rfl
    refine ⟨⟨⟨?_, ?_, ?_, Or.inl ⟨?_, fun hr => ⟨?_, ?_⟩⟩, fun dst msg hm _ => ?_⟩, Or.inl ?_,
      Or.inl ?_, ?_⟩, ?_, ?_⟩
    · rw [hnode]
      exact le_rfl
    · rw [hnode]
      exact fun _ _ => Or.inl rfl
    · rw [hnode]
      rfl
    · rw [hnode]
      rfl
    · rw [hnode]
      exact hr
    · rw [hnode]
      rfl
    · have hx := hsend dst msg hm
      change _ ∈ x.calls ++ [_] at hx
      simpa using hx
    · rw [hnode]
      change x.node.commitIndex ≤ index
      omega
    · rw [hnode]
      rfl
    · rw [hans, hlast, Nat.add_sub_cancel_left, hnode]
      change onApplies (x.calls ++ [_]) ++ _ = _
      rw [onApplies_append]
      change (onApplies x.calls ++ []) ++ _ = _
      rw [List.append_nil]
      rfl
    · rw [hnode]
      rfl
    · rw [hnode]
      rfl

theorem advanceCommitFrom_answers (k : ℕ) (hb : x.node.baseIndex = 0)
    (ht : x.node.config.snapshotThreshold ≤ 0) (hy : x.advanceCommitFrom k = .ok y) :
    Answers fresh x y := by
  rcases advanceCommitFrom_cases k hy with rfl | ⟨n, t, z, -, -, -, -, hz, rfl⟩
  · exact (Silent.refl y).answered
  · have ha : Answers fresh x z := (setCommitIndex_answers hb ht hz).1
    exact { ha with }

theorem followCommit_answers {leaderCommit p : ℕ} (hb : x.node.baseIndex = 0)
    (ht : x.node.config.snapshotThreshold ≤ 0) (hbugs : x.node.bugs = NO_BUGS)
    (hy : x.followCommit leaderCommit p = .ok y) :
    Answers fresh x y ∧ y.node.role = x.node.role := by
  rcases followCommit_cases hy with ⟨hreg, -⟩ | ⟨-, hset⟩ | ⟨-, rfl⟩
  · rw [hbugs] at hreg
    exact absurd hreg Bool.false_ne_true
  · obtain ⟨ha, hr, -⟩ := setCommitIndex_answers hb ht hset
    exact ⟨ha, hr⟩
  · exact ⟨(Silent.refl y).answered, rfl⟩

/-- A healthy node without compaction. -/
structure Plainly (n : RaftNode) : Prop where
  base : n.baseIndex = 0
  snapshot : n.snapshot = none
  threshold : n.config.snapshotThreshold ≤ 0
  bugs : n.bugs = NO_BUGS

theorem Plainly.congr (h : Plainly n) (hp : m.progress = n.progress) : Plainly m := by
  simp only [RaftNode.progress, Prod.mk.injEq] at hp
  obtain ⟨hb, -, -, -, hbase, hs, -, -, hconf⟩ := hp
  exact ⟨hbase.trans h.base, hs.trans h.snapshot, hconf ▸ h.threshold, hb.trans h.bugs⟩

theorem Yields.silent {term : ℕ} (h : x.Yields term y) : Silent x y := by
  cases h with
  | steps hle => exact becomeFollower_silent hle
  | follows _ _ => exact Silent.refl x

theorem onAppendEntries_answers {msg : AppendEntries} (hx : Plainly x.node)
    (hy : x.onAppendEntries msg = .ok y) : Answers fresh x y := by
  have hcatch := catchUp_silent x msg.term
  rcases onAppendEntries_cases hy with ⟨-, rfl⟩ | ⟨z, hz, hy⟩
  · exact (hcatch.trans (replyAppend_silent _ _ _ _)).answered
  · have hquiet := (catchUp_quiet x msg.term).trans hz.quiet
    have hheed := (hcatch.trans hz.silent).trans (heed_silent z msg.leader)
    have hplain := hx.congr (hquiet.trans (heed_quiet z msg.leader)).progress
    -- from here on the node follows
    have hrole : (z.heed msg.leader).node.role = .follower := hz.follower.2.1
    generalize z.heed msg.leader = v at hy hheed hplain hrole
    obtain ⟨refused, -, hy⟩ := bind_ok.mp hy
    split at hy
    · obtain rfl := Except.ok.inj hy
      exact (hheed.trans (replyAppend_silent _ _ _ _)).answered
    · obtain ⟨n, hn, hy⟩ := bind_ok.mp hy
      obtain ⟨u, hu, hy⟩ := bind_ok.mp hy
      obtain rfl := Except.ok.inj hy
      have hed := appendLoop_edited _ hn
      have hpn := hplain.congr (edited_progress hed)
      obtain ⟨ha, hr⟩ : Answers [] (v.set n) u ∧ _ :=
        followCommit_answers hpn.base hpn.threshold hpn.bugs hu
      obtain ⟨log, voters, configIndex, logVersion, rfl⟩ := hed
      refine hheed.answer (Answers.call (y := u) ?_ id)
      exact { ha with log := Or.inr (Or.inl (hr.trans hrole)) }

theorem onAppendReply_answers {msg : AppendReply} (hx : Plainly x.node)
    (hy : x.onAppendReply msg = .ok y) : Answers fresh x y := by
  rcases onAppendReply_cases hy with ⟨hlt, rfl⟩ | ⟨-, rfl⟩ | ⟨-, -, ⟨-, hy⟩ | ⟨-, hy⟩⟩
  · exact (becomeFollower_silent hlt.le).answered
  · exact (Silent.refl y).answered
  · have hset : Silent x (x.set (x.node.ackAppend msg)) := silent_set rfl rfl rfl rfl
    exact hset.answer (advanceCommitFrom_answers _ hx.base hx.threshold hy)
  · have hset : Silent x (x.set (x.node.backOff msg)) := silent_set rfl rfl rfl rfl
    exact (hset.trans (sendAppendEntries_silent hy)).answered

theorem handle_answers {msg : Message} (hx : Plainly x.node) (hr : ¬ msg.IsRead)
    (hm : ∀ m, msg ≠ .installSnapshot m) (hy : x.handle msg = .ok y) : Answers fresh x y := by
  unfold handle at hy
  split at hy
  · obtain rfl := Except.ok.inj hy
    exact (Silent.refl x).answered
  · cases msg with
    | requestVote m => exact (onRequestVote_silent hy).answered
    | voteReply m => exact (onVoteReply_silent hy).answered
    | appendEntries m => exact onAppendEntries_answers hx hy
    | appendReply m => exact onAppendReply_answers hx hy
    | installSnapshot m => exact absurd rfl (hm m)
    | readHeartbeat m => exact absurd trivial hr
    | readAck m => exact absurd trivial hr

/-! ### A client command -/

theorem noteRequest_silent (x : Exec) (cmd : Command) : Silent x (x.noteRequest cmd) := by
  unfold noteRequest
  split
  · exact silent_set rfl rfl rfl rfl
  · exact Silent.refl x

theorem clientCommand_answers {command : Str} {b : Bool}
    (h : x.clientCommand command = .ok (y, b)) : Answers [command] x y := by
  rcases clientCommand_cases h with ⟨-, rfl⟩ | ⟨-, -, ⟨-, rfl⟩ | ⟨-, h⟩⟩
  · exact (Silent.refl y).answered
  · exact (silent_call (c := .record (.dedup x.node.id command)) trivial).answered
  · have hnote := noteRequest_silent x (Command.decode command)
    have hterm := noteRequest_term x (Command.decode command)
    generalize x.noteRequest (Command.decode command) = v at h hnote hterm
    have hset : Keeps v (v.set (v.node.appendOwn command).countOwn) :=
      ⟨le_rfl, fun _ _ => Or.inl rfl, rfl, Or.inl ⟨rfl, fun h => ⟨h, rfl⟩⟩, fun _ _ h _ => h⟩
    have hcast := (silent_call (x := v.set (v.node.appendOwn command).countOwn)
      (c := .record (.append v.node.id (v.node.appendOwn command).countOwn.lastLogIndex
        v.node.term command)) trivial).trans (broadcastTo_silent _ h)
    have hm := hnote.machine
    have hm' := hcast.machine
    simp only [Prod.mk.injEq] at hm hm'
    obtain ⟨-, hla, hcom⟩ := hm
    obtain ⟨-, hla', hcom'⟩ := hm'
    have hlast := hla'.trans hla
    refine ⟨(hnote.toKeeps.trans hset).trans hcast.toKeeps, Or.inl (hcom'.trans hcom).ge,
      Or.inr (Or.inr ⟨command, List.mem_singleton_self _, ?_⟩), ?_⟩
    · rw [hcast.log]
      change v.node.log ++ [⟨v.node.term, command⟩] = _
      rw [hnote.log, hterm]
    · rw [hlast, Nat.sub_self, List.take_zero]
      exact (hcast.answers.trans hnote.answers).trans (List.append_nil _).symm

/-! ### Reads -/

/-- A read is served once a majority has confirmed the leader. -/
theorem tryServeRead_cases (x : Exec) (readId : ℕ) : x.tryServeRead readId = x ∨
    ∃ r, x.node.pendingReads.lookup readId = some r ∧ elects x.node.voters r.acks ∧
      r.readIndex ≤ x.node.lastApplied ∧ x.tryServeRead readId =
        ((x.set (x.node.dropRead readId)).record (.readserved x.node.id readId r.command)).call
          (.onApply r.command (x.node.kv.applyRead (Command.decode r.command))) := by
  unfold tryServeRead
  split
  next => exact Or.inl rfl
  next r hr =>
    dsimp only
    split
    next hc =>
      refine Or.inr ⟨r, hr, ?_, hc.2, rfl⟩
      have hc := hc.1
      unfold elects
      omega
    next => exact Or.inl rfl

theorem onReadHeartbeat_sends (x : Exec) (msg : ReadHeartbeat) : ∃ z, Silent x z ∧
    x.onReadHeartbeat msg = z.send msg.leader (.readAck {
      term := z.node.term, follower := z.node.id, readId := msg.readId }) := by
  have hcatch := catchUp_silent x msg.term
  unfold onReadHeartbeat
  dsimp only
  split
  · exact ⟨_, hcatch.trans (heed_silent _ msg.leader), rfl⟩
  · exact ⟨_, hcatch, rfl⟩

theorem onReadAck_cases (x : Exec) (msg : ReadAck) : Silent x (x.onReadAck msg) ∨
    ∃ r, x.node.pendingReads.lookup msg.readId = some r ∧ msg.term = x.node.term ∧
      x.node.role = .leader ∧
      x.onReadAck msg = (x.set (x.node.ackRead msg r)).tryServeRead msg.readId := by
  unfold onReadAck
  split
  next hlt => exact Or.inl (becomeFollower_silent hlt.le)
  next =>
    split
    · exact Or.inl (Silent.refl x)
    next r hr =>
      split
      next => exact Or.inl (Silent.refl x)
      next hg =>
        push Not at hg
        exact Or.inr ⟨r, hr, hg.1, hg.2, rfl⟩

theorem requestRead_cases (x : Exec) (command : Str) : (x.requestRead command).1 = x ∨
    (x.node.role = .leader ∧ x.node.committedThisTerm = true ∧
      (x.requestRead command).1 = (((x.set (x.node.queueRead command)).record
        (.read x.node.id x.node.nextReadId x.node.commitIndex)).sendAll x.node.otherVoters
          (.readHeartbeat {
            term := x.node.term, leader := x.node.id, readId := x.node.nextReadId })).tryServeRead
          x.node.nextReadId) := by
  unfold requestRead
  split
  next => exact Or.inl rfl
  next hg =>
    push Not at hg
    refine Or.inr ⟨hg.1, ?_, rfl⟩
    simpa using hg.2.2

/-- A crash: nothing is reported, and the reads are gone. -/
theorem pause_answers (hn : n.snapshot = none) : Answers [] ⟨n, []⟩ ⟨n.pause, []⟩ := by
  have hlast : n.pause.lastApplied = 0 := by
    unfold RaftNode.pause RaftNode.resetVolatile RaftNode.clearVolatile
    dsimp only
    rw [hn]
    rfl
  refine ⟨⟨le_rfl, fun _ hr => absurd rfl hr, rfl, Or.inr rfl, fun _ _ h _ => h⟩, Or.inr rfl,
    Or.inl rfl, ?_⟩
  rw [hlast, Nat.zero_sub, List.take_zero]
  rfl

theorem resume_silent (x : Exec) : Silent x x.resume := by
  have hset : Silent x (x.set { x.node with alive := true }) := silent_set rfl rfl rfl rfl
  exact hset.trans (armElectionTimer_silent _)

end Exec

/-! ### Callbacks -/

/-- The command that a client hands over. -/
def Event.fresh : Event → List Str
  | .clientCommand _ command => [command]
  | _ => []

/-- An event that is not about reads, images or the voting set. -/
def Event.Ordinary (w : World) : Event → Prop
  | .changeConfig _ _ => False
  | .requestRead _ _ => False
  | .deliver k => ∀ p, w.sent[k]? = some p → ¬ p.msg.IsRead ∧ ∀ m, p.msg ≠ .installSnapshot m
  | _ => True

theorem callback_answers {w : World} {e : Event} {y : Exec} (hn : Exec.Plainly n)
    (he : e.Ordinary w) (hy : w.callback n e = .ok y) : Exec.Answers e.fresh ⟨n, []⟩ y := by
  cases e with
  | electionTimeout j seq => exact (Exec.onElectionTimeout_silent hy).answered
  | heartbeat j seq => exact (Exec.onHeartbeat_silent hy).answered
  | clientCommand j command =>
    obtain ⟨b, hy⟩ := map_fst_ok hy
    exact Exec.clientCommand_answers hy
  | changeConfig j newVoters => exact he.elim
  | requestRead j command => exact he.elim
  | deliver k =>
    rw [World.callback] at hy
    cases hk : w.sent[k]? with
    | none =>
      rw [hk] at hy
      obtain rfl := Except.ok.inj hy
      exact (Exec.Silent.refl _).answered
    | some p =>
      rw [hk] at hy
      obtain ⟨hread, himage⟩ := he p hk
      exact Exec.handle_answers hn hread himage hy
  | pause j =>
    obtain rfl := Except.ok.inj hy
    exact Exec.pause_answers hn.snapshot
  | resume j =>
    obtain rfl := Except.ok.inj hy
    exact (Exec.resume_silent _).answered

end RaftVerified
