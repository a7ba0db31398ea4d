import RaftVerified.RaftLedger

/-! The timers of a node. A timer is never taken out of the queue: it only stops counting when the
node's sequence number moves on. Each callback leaves a live node with one timer that counts. -/
namespace RaftVerified

variable {n m : RaftNode} {ts : List Timer} {x y z : Exec}

def Timer.seq : Timer → ℕ
  | .electionTimeout seq => seq
  | .heartbeat seq => seq

/-- The timers that the calls of a callback start. -/
def armed : List Call → List Timer
  | [] => []
  | .schedule timer :: rest => timer :: armed rest
  | _ :: rest => armed rest

theorem armed_append (xs ys : List Call) : armed (xs ++ ys) = armed xs ++ armed ys := by
  induction xs with
  | nil => rfl
  | cons call xs ih =>
    cases call with
    | schedule timer => exact congrArg (timer :: ·) ih
    | _ => exact ih

namespace RaftNode

/-- The timer that counts. -/
def timer (n : RaftNode) : Timer :=
  if n.role = .leader then .heartbeat n.timerSeq else .electionTimeout n.timerSeq

/-- The fields that timers are about. -/
def clock (n : RaftNode) := (n.id, n.alive, n.role, n.timerSeq, n.votedFor)

/-- Of the timers `ts` of the node, one counts, and none when the node is down. -/
structure Clocked (n : RaftNode) (ts : List Timer) : Prop where
  bound : ∀ t ∈ ts, t.seq ≤ n.timerSeq
  live : n.alive = true → (ts.filter fun t => t.seq = n.timerSeq) = [n.timer]
  dead : n.alive = false → (ts.filter fun t => t.seq = n.timerSeq) = [] ∧ n.role = .follower
  self : n.role ≠ .follower → n.votedFor = some n.id

end RaftNode

/-- A call that starts no timer and asks for no vote and for no confirmation. -/
def Call.Idle : Call → Prop
  | .schedule _ => False
  | .send _ (.requestVote _) => False
  | .send _ (.readHeartbeat _) => False
  | _ => True

/-- A call that records no role, and what it records is about node `i`. -/
def Call.Tame (i : NodeId) : Call → Prop
  | .record (.role _ _ _) => False
  | .record event => event.node = i
  | _ => True

theorem armed_idle {xs : List Call} (h : ∀ call ∈ xs, call.Idle) : armed xs = [] := by
  induction xs with
  | nil => rfl
  | cons call xs ih =>
    have hrest := ih fun d hd => h d (List.mem_cons_of_mem _ hd)
    cases call with
    | schedule timer => exact (h _ List.mem_cons_self).elim
    | _ => exact hrest

namespace Exec

/-! ### What touches no timer -/

/-- From `x` to `y` nothing happens that timers are about. -/
structure Idle (x y : Exec) : Prop where
  clock : y.node.clock = x.node.clock
  calls : ∃ cs, y.calls = x.calls ++ cs ∧ ∀ call ∈ cs, call.Idle

theorem idle_set (h : m.clock = x.node.clock) : x.Idle (x.set m) :=
  ⟨h, [], (List.append_nil _).symm, nofun⟩

theorem Idle.refl (x : Exec) : x.Idle x := idle_set rfl

theorem Idle.trans (h : x.Idle y) (h' : y.Idle z) : x.Idle z := by
  obtain ⟨cs, hcs, hall⟩ := h.calls
  obtain ⟨ds, hds, hall'⟩ := h'.calls
  refine ⟨h'.clock.trans h.clock, cs ++ ds, ?_, ?_⟩
  · rw [hds, hcs, List.append_assoc]
  · intro call hc
    rcases List.mem_append.mp hc with hc | hc
    · exact hall call hc
    · exact hall' call hc

theorem idle_call {c : Call} (h : c.Idle) : x.Idle (x.call c) := by
  refine ⟨rfl, [c], rfl, fun d hd => ?_⟩
  obtain rfl := List.mem_singleton.mp hd
  exact h

theorem Idle.call {c : Call} (h : x.Idle y) (hc : c.Idle) : x.Idle (y.call c) :=
  h.trans (idle_call hc)

/-- Besides, the node stays in its term and records nothing about roles. -/
structure Steady (x y : Exec) : Prop extends Idle x y where
  term : y.node.term = x.node.term
  records : ∃ cs, y.calls = x.calls ++ cs ∧ ∀ call ∈ cs, call.Tame x.node.id

theorem Idle.id (h : x.Idle y) : y.node.id = x.node.id := congrArg (·.1) h.clock

theorem steady_set (h : m.clock = x.node.clock) (ht : m.term = x.node.term) :
    x.Steady (x.set m) :=
  ⟨idle_set h, ht, [], (List.append_nil _).symm, nofun⟩

theorem Steady.refl (x : Exec) : x.Steady x := steady_set rfl rfl

theorem Steady.trans (h : x.Steady y) (h' : y.Steady z) : x.Steady z := by
  obtain ⟨cs, hcs, hall⟩ := h.records
  obtain ⟨ds, hds, hall'⟩ := h'.records
  refine ⟨h.toIdle.trans h'.toIdle, h'.term.trans h.term, cs ++ ds, ?_, ?_⟩
  · rw [hds, hcs, List.append_assoc]
  · intro call hc
    rcases List.mem_append.mp hc with hc | hc
    · exact hall call hc
    · exact h.toIdle.id ▸ hall' call hc

theorem steady_call {c : Call} (h : c.Idle) (ht : c.Tame x.node.id) : x.Steady (x.call c) := by
  refine ⟨idle_call h, rfl, [c], rfl, fun d hd => ?_⟩
  obtain rfl := List.mem_singleton.mp hd
  exact ht

theorem Steady.call {c : Call} (h : x.Steady y) (hc : c.Idle) (ht : c.Tame x.node.id) :
    x.Steady (y.call c) :=
  h.trans (steady_call hc (h.toIdle.id ▸ ht))

theorem steady_set_record {event : TraceEvent} (h : m.clock = x.node.clock)
    (ht : m.term = x.node.term) (he : (Call.record event).Tame x.node.id) :
    x.Steady ((x.set m).record event) := (steady_set h ht).call trivial he

theorem idle_set_record {event : TraceEvent} (h : m.clock = x.node.clock) :
    x.Idle ((x.set m).record event) := (idle_set h).call trivial

theorem idle_record (x : Exec) (event : TraceEvent) : x.Idle (x.record event) := idle_call trivial

theorem steady_replyAppend (x : Exec) (dst : NodeId) (success : Bool) (matchIndex : ℕ) :
    x.Steady (x.replyAppend dst success matchIndex) := steady_call trivial trivial

theorem sendAppendEntries_steady {peer : NodeId} (h : x.sendAppendEntries peer = .ok y) :
    x.Steady y := by
  unfold sendAppendEntries at h
  split at h
  · cases h
  dsimp only at h
  split at h
  · obtain rfl := Except.ok.inj h
    unfold sendInstallSnapshot
    split
    · exact Steady.refl x
    · exact steady_call trivial trivial
  · obtain ⟨t, -, h⟩ := bind_ok.mp h
    obtain rfl := Except.ok.inj h
    exact steady_call trivial trivial

theorem broadcastTo_steady (ps : List NodeId) (h : x.broadcastTo ps = .ok y) : x.Steady y := by
  induction ps generalizing x with
  | nil =>
    obtain rfl := Except.ok.inj h
    exact Steady.refl x
  | cons p ps ih =>
    obtain ⟨z, hz, h⟩ := bind_ok.mp h
    exact (sendAppendEntries_steady hz).trans (ih h)

theorem maybeCompact_steady (h : x.maybeCompact = .ok y) : x.Steady y := by
  rcases maybeCompact_cases h with ⟨-, rfl⟩ | ⟨-, -, t, vs, -, -, rfl⟩
  · exact Steady.refl y
  · exact steady_set_record rfl rfl rfl

theorem applyLoop_steady (k : ℕ) (h : x.applyLoop k = .ok y) : x.Steady y := by
  induction k generalizing x with
  | zero =>
    obtain rfl := Except.ok.inj h
    exact Steady.refl x
  | succ k ih =>
    obtain ⟨z, hz, h⟩ := bind_ok.mp h
    obtain ⟨e, -, hz⟩ := bind_ok.mp hz
    obtain rfl := Except.ok.inj hz
    refine Steady.trans (Steady.call ?_ ?_ ?_) (ih h)
    · exact steady_set_record rfl rfl rfl
    · trivial
    · trivial

theorem setCommitIndex_steady {index : ℕ} (h : x.setCommitIndex index = .ok y) : x.Steady y := by
  unfold setCommitIndex at h
  split at h
  · obtain rfl := Except.ok.inj h
    exact Steady.refl x
  · obtain ⟨z, hz, h⟩ := bind_ok.mp h
    have hset : x.Steady ((x.set { x.node with commitIndex := index }).record
        (.commit x.node.id index)) := steady_set_record rfl rfl rfl
    exact (hset.trans (applyLoop_steady _ hz)).trans (maybeCompact_steady h)

theorem advanceCommitFrom_steady (k : ℕ) (h : x.advanceCommitFrom k = .ok y) : x.Steady y := by
  rcases advanceCommitFrom_cases k h with rfl | ⟨n, t, z, -, -, -, -, hz, rfl⟩
  · exact Steady.refl y
  · exact (setCommitIndex_steady hz).trans (steady_set rfl rfl)

theorem followCommit_steady {leaderCommit matchIndex : ℕ}
    (h : x.followCommit leaderCommit matchIndex = .ok y) : x.Steady y := by
  rcases followCommit_cases h with ⟨-, rfl⟩ | ⟨-, hset⟩ | ⟨-, rfl⟩
  · exact steady_set rfl rfl
  · exact setCommitIndex_steady hset
  · exact Steady.refl y

theorem appendFromLeader_steady {msg : AppendEntries} (h : x.appendFromLeader msg = .ok y) :
    x.Steady y := by
  obtain ⟨refused, -, h⟩ := bind_ok.mp h
  cases refused with
  | true =>
    obtain rfl := Except.ok.inj h
    exact steady_replyAppend x _ _ _
  | false =>
    obtain ⟨m, hm, h⟩ := bind_ok.mp h
    obtain ⟨z, hz, h⟩ := bind_ok.mp h
    obtain rfl := Except.ok.inj h
    have hset : x.Steady (x.set m) := by
      obtain ⟨_, _, _, _, rfl⟩ := appendLoop_edited _ hm
      exact steady_set rfl rfl
    exact (hset.trans (followCommit_steady hz)).trans (steady_replyAppend z _ _ _)

theorem installFromLeader_steady {msg : InstallSnapshot} (h : x.installFromLeader msg = .ok y) :
    x.Steady y := by
  unfold installFromLeader at h
  split at h
  · obtain rfl := Except.ok.inj h
    exact steady_replyAppend x _ _ _
  · obtain ⟨keepTail, -, h⟩ := bind_ok.mp h
    obtain rfl := Except.ok.inj h
    have hset : x.Steady (x.installImage msg keepTail) := steady_set_record rfl rfl rfl
    exact hset.trans (steady_replyAppend _ _ _ _)

theorem onAppendReply_steady {msg : AppendReply} (hterm : ¬ x.node.term < msg.term)
    (h : x.onAppendReply msg = .ok y) : x.Steady y := by
  rcases onAppendReply_cases h with ⟨hlt, -⟩ | ⟨-, rfl⟩ | ⟨-, -, ⟨-, h⟩ | ⟨-, h⟩⟩
  · exact absurd hlt hterm
  · exact Steady.refl y
  · have hset : x.Steady (x.set (x.node.ackAppend msg)) := steady_set rfl rfl
    exact hset.trans (advanceCommitFrom_steady _ h)
  · have hset : x.Steady (x.set (x.node.backOff msg)) := steady_set rfl rfl
    exact hset.trans (sendAppendEntries_steady h)

theorem clientCommand_steady {command : Str} {b : Bool} (h : x.clientCommand command = .ok (y, b)) :
    x.Steady y := by
  rcases clientCommand_cases h with ⟨-, rfl⟩ | ⟨-, -, ⟨-, rfl⟩ | ⟨-, h⟩⟩
  · exact Steady.refl y
  · exact steady_call trivial rfl
  · have hnote : x.Steady (x.noteRequest (Command.decode command)) := by
      unfold noteRequest
      split
      · exact steady_set rfl rfl
      · exact Steady.refl x
    let w := x.noteRequest (Command.decode command)
    let m := (w.node.appendOwn command).countOwn
    have happend : w.Steady ((w.set m).record (.append m.id m.lastLogIndex m.term command)) :=
      steady_set_record rfl rfl rfl
    exact (hnote.trans happend).trans (broadcastTo_steady _ h)

theorem tryServeRead_steady (x : Exec) (readId : ℕ) : x.Steady (x.tryServeRead readId) := by
  unfold tryServeRead
  split
  · exact Steady.refl x
  dsimp only
  split
  · refine Steady.call ?_ trivial trivial
    exact steady_set_record rfl rfl rfl
  · exact Steady.refl x

/-! ### What starts a timer -/

/-- A live node `n` with the timers `ts`, somewhere in a callback: what has been sent is addressed
to others, and no timer is ahead of the node. -/
structure Loose (n : RaftNode) (ts : List Timer) (x : Exec) : Prop where
  id : x.node.id = n.id
  alive : x.node.alive = true
  later : n.timerSeq ≤ x.node.timerSeq
  bound : ∀ t ∈ ts ++ armed x.calls, t.seq ≤ x.node.timerSeq
  self : x.node.role ≠ .follower → x.node.votedFor = some x.node.id
  requests : ∀ dst m, .send dst (.requestVote m) ∈ x.calls → dst ≠ m.candidate
  pings : ∀ dst m, .send dst (.readHeartbeat m) ∈ x.calls →
    dst ≠ m.leader ∧ m.leader = n.id ∧ n.role = .leader ∧ m.term = n.term

/-- The same with one timer that counts. -/
structure Ticks (n : RaftNode) (ts : List Timer) (x : Exec) : Prop extends Loose n ts x where
  live : (ts ++ armed x.calls).filter (fun t => t.seq = x.node.timerSeq) = [x.node.timer]

theorem Idle.armed_eq (h : x.Idle y) : armed y.calls = armed x.calls := by
  obtain ⟨cs, hcs, hall⟩ := h.calls
  rw [hcs, armed_append, armed_idle hall, List.append_nil]

theorem Loose.idle (h : Loose n ts x) (hi : x.Idle y) : Loose n ts y := by
  have harmed := hi.armed_eq
  have hclock := hi.clock
  simp only [RaftNode.clock, Prod.mk.injEq] at hclock
  obtain ⟨hid, hal, hrole, hseq, hvote⟩ := hclock
  obtain ⟨cs, hcs, hall⟩ := hi.calls
  refine ⟨hid.trans h.id, hal.trans h.alive, hseq ▸ h.later, ?_, ?_, ?_, ?_⟩
  · rw [harmed, hseq]
    exact h.bound
  · rw [hrole, hvote, hid]
    exact h.self
  · intro dst m hm
    rw [hcs] at hm
    rcases List.mem_append.mp hm with hm | hm
    · exact h.requests dst m hm
    · exact (hall _ hm).elim
  · intro dst m hm
    rw [hcs] at hm
    rcases List.mem_append.mp hm with hm | hm
    · exact h.pings dst m hm
    · exact (hall _ hm).elim

theorem Ticks.idle (h : Ticks n ts x) (hi : x.Idle y) : Ticks n ts y := by
  have hclock := hi.clock
  simp only [RaftNode.clock, Prod.mk.injEq] at hclock
  obtain ⟨-, -, hrole, hseq, -⟩ := hclock
  refine ⟨h.toLoose.idle hi, ?_⟩
  rw [hi.armed_eq, hseq, h.live, RaftNode.timer, RaftNode.timer, hrole, hseq]

/-- Assignments that keep the timers. -/
theorem Loose.set (h : Loose n ts x) (hm : (m.id, m.alive, m.timerSeq) =
    (x.node.id, x.node.alive, x.node.timerSeq))
    (hv : m.role ≠ .follower → m.votedFor = some m.id) : Loose n ts (x.set m) := by
  simp only [Prod.mk.injEq] at hm
  obtain ⟨hid, hal, hseq⟩ := hm
  refine ⟨hid.trans h.id, hal.trans h.alive, ?_, ?_, hv, h.requests, h.pings⟩
  · change n.timerSeq ≤ m.timerSeq
    rw [hseq]
    exact h.later
  · change ∀ t ∈ ts ++ armed x.calls, t.seq ≤ m.timerSeq
    rw [hseq]
    exact h.bound

/-- A node starts the timer that goes with its role. -/
theorem Loose.arm (h : Loose n ts x) {t : Timer}
    (ht : t = ({ x.node with timerSeq := x.node.timerSeq+1 } : RaftNode).timer) :
    Ticks n ts ((x.set { x.node with timerSeq := x.node.timerSeq+1 }).call (.schedule t)) := by
  have hseq : t.seq = x.node.timerSeq+1 := by
    rw [ht, RaftNode.timer]
    split <;> rfl
  have harmed : armed (x.calls ++ [.schedule t]) = armed x.calls ++ [t] := armed_append _ _
  -- every other timer was started before
  have hold : (ts ++ armed x.calls).filter (fun t => t.seq = x.node.timerSeq+1) = [] := by
    rw [List.filter_eq_nil_iff]
    intro u hu
    have hle := h.bound u hu
    rw [decide_eq_true_eq]
    omega
  refine ⟨⟨h.id, h.alive, Nat.le_succ_of_le h.later, ?_, h.self, ?_, ?_⟩, ?_⟩
  · change ∀ u ∈ ts ++ armed (x.calls ++ [.schedule t]), u.seq ≤ x.node.timerSeq+1
    rw [harmed, ← List.append_assoc]
    intro u hu
    rcases List.mem_append.mp hu with hu | hu
    · exact Nat.le_succ_of_le (h.bound u hu)
    · rw [List.mem_singleton.mp hu]
      exact hseq.le
  · intro dst m hm
    rcases List.mem_append.mp hm with hm | hm
    · exact h.requests dst m hm
    · cases List.mem_singleton.mp hm
  · intro dst m hm
    rcases List.mem_append.mp hm with hm | hm
    · exact h.pings dst m hm
    · cases List.mem_singleton.mp hm
  · change (ts ++ armed (x.calls ++ [.schedule t])).filter
      (fun u => u.seq = x.node.timerSeq+1) = [_]
    rw [harmed, ← List.append_assoc, List.filter_append, hold, List.nil_append, ht]
    rw [ht] at hseq
    exact List.filter_cons_of_pos (decide_eq_true hseq)

theorem Loose.armElectionTimer (h : Loose n ts x) (hr : x.node.role ≠ .leader) :
    Ticks n ts x.armElectionTimer := h.arm (if_neg hr).symm

theorem Loose.armHeartbeatTimer (h : Loose n ts x) (hr : x.node.role = .leader) :
    Ticks n ts x.armHeartbeatTimer := h.arm (if_pos hr).symm

theorem Loose.becomeFollower (h : Loose n ts x) (term : ℕ) :
    Ticks n ts (x.becomeFollower term) := by
  have hset : Loose n ts (x.set (x.node.follow term)) := h.set rfl fun hr => absurd rfl hr
  unfold Exec.becomeFollower
  dsimp only
  split
  · exact (hset.idle (idle_record _ _)).armElectionTimer nofun
  · exact hset.armElectionTimer nofun

theorem Ticks.catchUp (h : Ticks n ts x) (term : ℕ) : Ticks n ts (x.catchUp term) := by
  unfold Exec.catchUp
  split
  · exact h.toLoose.becomeFollower term
  · exact h

theorem Loose.heed (h : Loose n ts x) (hr : x.node.role ≠ .leader) (leader : NodeId) :
    Ticks n ts (x.heed leader) := by
  have hset : Loose n ts (x.set { x.node with leaderId := some leader }) := h.set rfl h.self
  exact hset.armElectionTimer hr

theorem Loose.stand (h : Loose n ts x) : Ticks n ts x.stand := by
  have hset : Loose n ts (x.set x.node.campaign) := h.set rfl fun _ => rfl
  have hrec := (hset.idle (idle_record _ (.election x.node.id (x.node.term+1)))).idle
    (idle_record _ (.role x.node.id .candidate (x.node.term+1)))
  exact hrec.armElectionTimer nofun

theorem Loose.becomeLeader (h : Loose n ts x) (hr : x.node.role = .candidate)
    (hy : x.becomeLeader = .ok y) : Ticks n ts y := by
  obtain ⟨z, hz, hy⟩ := bind_ok.mp hy
  obtain rfl := Except.ok.inj hy
  have hvote := h.self (by rw [hr]; nofun)
  have hset : Loose n ts ((x.record (.role x.node.id .leader x.node.term)).set x.node.lead) :=
    (h.idle (idle_record x _)).set rfl fun _ => hvote
  have hsent := (broadcastTo_steady _ hz).toIdle
  have hrole : z.node.role = .leader := congrArg (·.2.2.1) hsent.clock
  exact (hset.idle hsent).armHeartbeatTimer hrole

theorem Ticks.maybeWin (h : Ticks n ts x) (hy : x.maybeWin = .ok y) : Ticks n ts y := by
  unfold Exec.maybeWin at hy
  dsimp only at hy
  split at hy
  next hw => exact h.toLoose.becomeLeader hw.1 hy
  next =>
    obtain rfl := Except.ok.inj hy
    exact h

theorem Loose.sendAll (h : Loose n ts x) {dsts : List NodeId} {msg : Message}
    (hr : ∀ m, msg = .requestVote m → ∀ dst ∈ dsts, dst ≠ m.candidate)
    (hp : ∀ m, msg = .readHeartbeat m → ∀ dst ∈ dsts,
      dst ≠ m.leader ∧ m.leader = n.id ∧ n.role = .leader ∧ m.term = n.term) :
    Loose n ts (x.sendAll dsts msg) ∧ armed (x.sendAll dsts msg).calls = armed x.calls := by
  have hnone : armed (dsts.map fun dst => Call.send dst msg) = [] := by
    induction dsts with
    | nil => rfl
    | cons d ds ih =>
      exact ih (fun m hm dst hd => hr m hm dst (List.mem_cons_of_mem _ hd))
        fun m hm dst hd => hp m hm dst (List.mem_cons_of_mem _ hd)
  have harmed : armed (x.sendAll dsts msg).calls = armed x.calls := by
    change armed (x.calls ++ _) = _
    rw [armed_append, hnone, List.append_nil]
  refine ⟨⟨h.id, h.alive, h.later, ?_, h.self, ?_, ?_⟩, harmed⟩
  · rw [harmed]
    exact h.bound
  · intro dst m hm
    rcases List.mem_append.mp hm with hm | hm
    · exact h.requests dst m hm
    · obtain ⟨d, hd, heq⟩ := List.mem_map.mp hm
      cases heq
      exact hr m rfl dst hd
  · intro dst m hm
    rcases List.mem_append.mp hm with hm | hm
    · exact h.pings dst m hm
    · obtain ⟨d, hd, heq⟩ := List.mem_map.mp hm
      cases heq
      exact hp m rfl dst hd

theorem Ticks.sendAll (h : Ticks n ts x) {dsts : List NodeId} {msg : Message}
    (hr : ∀ m, msg = .requestVote m → ∀ dst ∈ dsts, dst ≠ m.candidate)
    (hp : ∀ m, msg = .readHeartbeat m → ∀ dst ∈ dsts,
      dst ≠ m.leader ∧ m.leader = n.id ∧ n.role = .leader ∧ m.term = n.term) :
    Ticks n ts (x.sendAll dsts msg) := by
  obtain ⟨hloose, harmed⟩ := h.toLoose.sendAll hr hp
  refine ⟨hloose, ?_⟩
  rw [harmed]
  exact h.live

theorem otherVoters_ne {v : NodeId} (h : v ∈ n.otherVoters) : v ≠ n.id := by
  have hne := (List.mem_filter.mp h).2
  rwa [decide_eq_true_eq] at hne

theorem Loose.startElection (h : Loose n ts x) (hr : x.node.role ≠ .leader)
    (hy : x.startElection = .ok y) : Ticks n ts y := by
  unfold Exec.startElection at hy
  split at hy
  · obtain rfl := Except.ok.inj hy
    exact h.armElectionTimer hr
  · obtain ⟨t, -, hy⟩ := bind_ok.mp hy
    refine Ticks.maybeWin (h.stand.sendAll ?_ fun m hm => ?_) hy
    · rintro m ⟨⟩ dst hd
      exact otherVoters_ne hd
    · cases hm

theorem Ticks.onReadHeartbeat (h : Ticks n ts x) {msg : ReadHeartbeat}
    (hlead : x.node.role = .leader → x.node.term ≠ msg.term) :
    Ticks n ts (x.onReadHeartbeat msg) := by
  have hx := h.catchUp msg.term
  have hrole : (x.catchUp msg.term).node.term ≤ msg.term →
      (x.catchUp msg.term).node.role ≠ .leader := by
    unfold Exec.catchUp
    split
    · intro _
      rw [becomeFollower_role]
      nofun
    · intro hle hr
      exact hlead hr (by omega)
  unfold Exec.onReadHeartbeat
  generalize x.catchUp msg.term = x' at hx hrole ⊢
  dsimp only
  split
  next hle => exact (hx.toLoose.heed (hrole hle) msg.leader).idle (idle_call trivial)
  next => exact hx.idle (idle_call trivial)

theorem Ticks.onReadAck (h : Ticks n ts x) (msg : ReadAck) : Ticks n ts (x.onReadAck msg) := by
  unfold Exec.onReadAck
  split
  · exact h.toLoose.becomeFollower msg.term
  split
  · exact h
  split
  · exact h
  · refine Ticks.idle ?_ (tryServeRead_steady _ _).toIdle
    exact h.idle (idle_set rfl)

theorem Ticks.onRequestVote (h : Ticks n ts x) {msg : RequestVote} (hne : msg.candidate ≠ n.id)
    (hy : x.onRequestVote msg = .ok y) : Ticks n ts y := by
  have hx := h.catchUp msg.term
  obtain ⟨granted, hg, hy⟩ := bind_ok.mp hy
  obtain rfl := Except.ok.inj hy
  generalize x.catchUp msg.term = x' at hx hg ⊢
  cases granted with
  | false => exact hx.idle (idle_call trivial)
  | true =>
    -- a candidate or a leader has voted for itself, and is asked by others only
    have hfollower : x'.node.role = .follower := by
      by_contra hr
      have hself := hx.self hr
      unfold grants at hg
      split at hg
      next hfree =>
        rcases hfree.2 with hnone | hsome
        · rw [hself] at hnone
          cases hnone
        · rw [hself] at hsome
          exact hne ((Option.some.inj hsome).symm.trans hx.id)
      next => cases hg
    have hset : Loose n ts (x'.set { x'.node with votedFor := some msg.candidate }) :=
      hx.toLoose.set rfl fun hr => absurd hfollower hr
    have hrec := hset.idle (idle_record _ (.vote x'.node.id msg.candidate x'.node.term))
    refine (hrec.armElectionTimer ?_).idle (idle_call trivial)
    change x'.node.role ≠ .leader
    rw [hfollower]
    nofun

theorem Ticks.onVoteReply (h : Ticks n ts x) {msg : VoteReply} (hy : x.onVoteReply msg = .ok y) :
    Ticks n ts y := by
  unfold Exec.onVoteReply at hy
  split at hy
  · obtain rfl := Except.ok.inj hy
    exact h.toLoose.becomeFollower msg.term
  split at hy
  · obtain rfl := Except.ok.inj hy
    exact h
  · have hset : x.Idle (x.set (x.node.countVote msg.voter)) := idle_set rfl
    exact (h.idle hset).maybeWin hy

theorem Ticks.yields {term : ℕ} (h : Ticks n ts x) (hy : x.Yields term y) : Ticks n ts y := by
  cases hy with
  | steps _ => exact h.toLoose.becomeFollower term
  | follows _ _ => exact h

theorem Ticks.onAppendEntries (h : Ticks n ts x) {msg : AppendEntries}
    (hy : x.onAppendEntries msg = .ok y) : Ticks n ts y := by
  have hx := h.catchUp msg.term
  rcases onAppendEntries_cases hy with ⟨-, rfl⟩ | ⟨z, hz, hy⟩
  · exact hx.idle (steady_replyAppend _ _ _ _).toIdle
  · have hrole : z.node.role ≠ .leader := by
      rw [hz.follower.2.1]
      nofun
    have hheed := (hx.yields hz).toLoose.heed hrole msg.leader
    exact hheed.idle (appendFromLeader_steady hy).toIdle

theorem Ticks.onAppendReply (h : Ticks n ts x) {msg : AppendReply}
    (hy : x.onAppendReply msg = .ok y) : Ticks n ts y := by
  by_cases hterm : x.node.term < msg.term
  · unfold Exec.onAppendReply at hy
    rw [if_pos hterm] at hy
    obtain rfl := Except.ok.inj hy
    exact h.toLoose.becomeFollower msg.term
  · exact h.idle (onAppendReply_steady hterm hy).toIdle

theorem Ticks.onInstallSnapshot (h : Ticks n ts x) {msg : InstallSnapshot}
    (hy : x.onInstallSnapshot msg = .ok y) : Ticks n ts y := by
  rcases onInstallSnapshot_cases hy with ⟨-, rfl⟩ | ⟨z, hz, hy⟩
  · exact h.idle (steady_replyAppend _ _ _ _).toIdle
  · have hrole : z.node.role ≠ .leader := by
      rw [hz.follower.2.1]
      nofun
    have hheed := (h.yields hz).toLoose.heed hrole msg.leader
    exact hheed.idle (installFromLeader_steady hy).toIdle

theorem Ticks.requestRead (h : Ticks n ts ⟨n, []⟩) (command : Str) :
    Ticks n ts (({ node := n } : Exec).requestRead command).1 := by
  unfold Exec.requestRead
  split
  · exact h
  next hlead =>
    push Not at hlead
    dsimp only
    refine Ticks.idle ?_ (tryServeRead_steady _ _).toIdle
    have hqueue : Ticks n ts ((({ node := n } : Exec).set (n.queueRead command)).record
        (.read n.id n.nextReadId n.commitIndex)) := h.idle (idle_set_record rfl)
    refine hqueue.sendAll nofun ?_
    rintro m ⟨⟩ dst hd
    exact ⟨otherVoters_ne hd, rfl, hlead.1, rfl⟩

end Exec
end RaftVerified
