import RaftVerified.RaftTimers

/-! What a node records about its role. In each callback the last record of a role, if there is
one, names the role and the term that the node comes out with. -/
namespace RaftVerified

variable {n m : RaftNode} {x y z : Exec}

/-- The role and the term that the calls of a callback tell, where `p` was told before. -/
def told (p : Role × ℕ) : List Call → Role × ℕ
  | [] => p
  | .record (.role _ role term) :: rest => told (role, term) rest
  | _ :: rest => told p rest

theorem told_append (p : Role × ℕ) (xs ys : List Call) :
    told p (xs ++ ys) = told (told p xs) ys := by
  induction xs generalizing p with
  | nil => rfl
  | cons call xs ih =>
    cases call with
    | record event => cases event <;> exact ih _
    | _ => exact ih _

theorem told_tame {i : NodeId} (p : Role × ℕ) {xs : List Call} (h : ∀ call ∈ xs, call.Tame i) :
    told p xs = p := by
  induction xs with
  | nil => rfl
  | cons call xs ih =>
    have hrest := ih fun d hd => h d (List.mem_cons_of_mem _ hd)
    cases call with
    | record event =>
      cases event with
      | role => exact (h _ List.mem_cons_self).elim
      | _ => exact hrest
    | _ => exact hrest

/-- The role and the term of a node. -/
def RaftNode.rank (n : RaftNode) : Role × ℕ := (n.role, n.term)

theorem Call.Tame.node {i : NodeId} {event : TraceEvent} (h : (Call.record event).Tame i) :
    event.node = i := by
  cases event with
  | role => exact h.elim
  | _ => exact h

namespace Exec

/-- The calls from `x` to `y` tell how the role and the term of the node have changed. A follower
changes only with its term. -/
structure Told (x y : Exec) : Prop where
  id : y.node.id = x.node.id
  alive : y.node.alive = x.node.alive
  term : x.node.term ≤ y.node.term
  calls : ∃ cs, y.calls = x.calls ++ cs ∧ (∀ event, .record event ∈ cs → event.node = x.node.id) ∧
    (y.node.rank = x.node.rank ∧ (∀ p, told p cs = p) ∨
      (x.node.term < y.node.term ∨ x.node.role ≠ .follower) ∧ ∀ p, told p cs = y.node.rank)

theorem told_of_tame (hid : m.id = x.node.id) (halive : m.alive = x.node.alive)
    (hrank : m.rank = x.node.rank) {cs : List Call} (h : ∀ call ∈ cs, call.Tame x.node.id) :
    x.Told ⟨m, x.calls ++ cs⟩ where
  id := hid
  alive := halive
  term := (congrArg Prod.snd hrank).ge
  calls := ⟨cs, rfl, fun _ he => (h _ he).node, Or.inl ⟨hrank, fun p => told_tame p h⟩⟩

theorem Steady.told (h : x.Steady y) : x.Told y := by
  have hclock := h.clock
  simp only [RaftNode.clock, Prod.mk.injEq] at hclock
  obtain ⟨hid, halive, hrole, -⟩ := hclock
  obtain ⟨cs, hcs, htame⟩ := h.records
  have hrank : y.node.rank = x.node.rank := Prod.ext hrole h.term
  have hy : y = ⟨y.node, x.calls ++ cs⟩ := by rw [← hcs]
  rw [hy]
  exact told_of_tame hid halive hrank htame

theorem Told.refl (x : Exec) : x.Told x := (Steady.refl x).told

theorem Told.trans (h : x.Told y) (h' : y.Told z) : x.Told z := by
  obtain ⟨cs, hcs, hnode, hrank⟩ := h.calls
  obtain ⟨ds, hds, hnode', hrank'⟩ := h'.calls
  refine ⟨h'.id.trans h.id, h'.alive.trans h.alive, h.term.trans h'.term, cs ++ ds, ?_, ?_, ?_⟩
  · rw [hds, hcs, List.append_assoc]
  · intro event he
    rcases List.mem_append.mp he with he | he
    · exact hnode event he
    · exact (hnode' event he).trans h.id
  rcases hrank' with ⟨heq', htold'⟩ | ⟨hmove', htold'⟩
  · rcases hrank with ⟨heq, htold⟩ | ⟨hmove, htold⟩
    · refine Or.inl ⟨heq'.trans heq, fun p => ?_⟩
      rw [told_append, htold, htold']
    · have hterm := congrArg Prod.snd heq'
      refine Or.inr ⟨?_, fun p => ?_⟩
      · rcases hmove with hlt | hrole
        · exact Or.inl (hlt.trans_eq hterm.symm)
        · exact Or.inr hrole
      · rw [told_append, htold, htold', heq']
  · refine Or.inr ⟨?_, fun p => by rw [told_append, htold']⟩
    rcases hrank with ⟨heq, -⟩ | ⟨hlt | hrole, -⟩
    · rcases hmove' with hlt | hrole
      · exact Or.inl (h.term.trans_lt hlt)
      · exact Or.inr fun hr => hrole ((congrArg Prod.fst heq).trans hr)
    · exact Or.inl (hlt.trans_le h'.term)
    · exact Or.inr hrole

/-- A record of the role that the node takes. -/
theorem told_turn (hid : m.id = x.node.id) (halive : m.alive = x.node.alive)
    (hterm : x.node.term ≤ m.term) (hmove : x.node.term < m.term ∨ x.node.role ≠ .follower) :
    x.Told ⟨m, x.calls ++ [.record (.role x.node.id m.role m.term)]⟩ := by
  refine ⟨hid, halive, hterm, _, rfl, ?_, Or.inr ⟨hmove, fun _ => rfl⟩⟩
  intro event he
  obtain rfl := Call.record.inj (List.mem_singleton.mp he)
  rfl

theorem told_set_call {c : Call} (hid : m.id = x.node.id) (halive : m.alive = x.node.alive)
    (hrank : m.rank = x.node.rank) (hc : c.Tame x.node.id) : x.Told ((x.set m).call c) := by
  refine told_of_tame hid halive hrank fun call hcall => ?_
  obtain rfl := List.mem_singleton.mp hcall
  exact hc

theorem told_armElectionTimer (x : Exec) : x.Told x.armElectionTimer :=
  told_set_call rfl rfl rfl trivial

theorem told_armHeartbeatTimer (x : Exec) : x.Told x.armHeartbeatTimer :=
  told_set_call rfl rfl rfl trivial

theorem told_heed (x : Exec) (leader : NodeId) : x.Told (x.heed leader) :=
  told_set_call rfl rfl rfl trivial

theorem told_send (x : Exec) (dst : NodeId) (msg : Message) : x.Told (x.send dst msg) :=
  told_set_call (m := x.node) rfl rfl rfl trivial

theorem told_sendAll (x : Exec) (dsts : List NodeId) (msg : Message) :
    x.Told (x.sendAll dsts msg) := by
  refine told_of_tame rfl rfl rfl fun call hc => ?_
  obtain ⟨dst, -, rfl⟩ := List.mem_map.mp hc
  trivial

theorem told_becomeFollower {term : ℕ} (h : x.node.term ≤ term) :
    x.Told (x.becomeFollower term) := by
  unfold becomeFollower
  dsimp only
  split
  next hmove =>
    have hturn : x.Told
        ⟨x.node.follow term, x.calls ++ [.record (.role x.node.id .follower term)]⟩ :=
      told_turn rfl rfl h hmove.symm
    exact hturn.trans (told_armElectionTimer _)
  next hstay =>
    push Not at hstay
    have hrank : (x.node.follow term).rank = x.node.rank :=
      Prod.ext hstay.1.symm (h.antisymm hstay.2).symm
    have hset : x.Told ⟨x.node.follow term, x.calls ++ []⟩ :=
      told_of_tame (x := x) (m := x.node.follow term) rfl rfl hrank fun _ hc =>
        absurd hc List.not_mem_nil
    rw [List.append_nil] at hset
    exact hset.trans (told_armElectionTimer _)

theorem told_catchUp (x : Exec) (term : ℕ) : x.Told (x.catchUp term) := by
  unfold catchUp
  split
  next hlt => exact told_becomeFollower hlt.le
  next => exact Told.refl x

theorem told_stand (x : Exec) : x.Told x.stand := by
  let n := x.node.campaign
  have hrec : x.Told (x.record (.election x.node.id n.term)) :=
    (steady_call trivial rfl : x.Steady (x.record (.election x.node.id n.term))).told
  have hturn : (x.record (.election x.node.id n.term)).Told
      ⟨n, x.calls ++ [.record (.election x.node.id n.term)] ++
        [.record (.role x.node.id n.role n.term)]⟩ :=
    told_turn rfl rfl (Nat.le_succ _) (Or.inl (Nat.lt_succ_self _))
  exact (hrec.trans hturn).trans (told_armElectionTimer _)

theorem told_becomeLeader (hr : x.node.role = .candidate) (h : x.becomeLeader = .ok y) :
    x.Told y := by
  obtain ⟨z, hz, h⟩ := bind_ok.mp h
  obtain rfl := Except.ok.inj h
  have hturn : x.Told ⟨x.node.lead, x.calls ++ [.record (.role x.node.id .leader x.node.term)]⟩ :=
    told_turn rfl rfl le_rfl (Or.inr (by rw [hr]; nofun))
  exact (hturn.trans (broadcastTo_steady _ hz).told).trans (told_armHeartbeatTimer z)

theorem told_maybeWin (h : x.maybeWin = .ok y) : x.Told y := by
  unfold maybeWin at h
  dsimp only at h
  split at h
  next hw => exact told_becomeLeader hw.1 h
  next =>
    obtain rfl := Except.ok.inj h
    exact Told.refl x

theorem told_startElection (h : x.startElection = .ok y) : x.Told y := by
  unfold startElection at h
  split at h
  · obtain rfl := Except.ok.inj h
    exact told_armElectionTimer x
  · obtain ⟨t, -, h⟩ := bind_ok.mp h
    exact ((told_stand x).trans (told_sendAll _ _ _)).trans (told_maybeWin h)

theorem told_onElectionTimeout {seq : ℕ} (h : x.onElectionTimeout seq = .ok y) : x.Told y := by
  unfold onElectionTimeout at h
  split at h
  · obtain rfl := Except.ok.inj h
    exact Told.refl x
  · have hrec : x.Steady (x.record (.timer x.node.id x.node.term)) := steady_call trivial rfl
    exact hrec.told.trans (told_startElection h)

theorem told_onHeartbeat {seq : ℕ} (h : x.onHeartbeat seq = .ok y) : x.Told y := by
  unfold onHeartbeat at h
  split at h
  · obtain rfl := Except.ok.inj h
    exact Told.refl x
  · obtain ⟨z, hz, h⟩ := bind_ok.mp h
    obtain rfl := Except.ok.inj h
    exact (broadcastTo_steady _ hz).told.trans (told_armHeartbeatTimer z)

theorem told_changeConfig {newVoters : List NodeId} {b : Bool}
    (h : x.changeConfig newVoters = .ok (y, b)) : x.Told y := by
  unfold changeConfig at h
  split at h
  · obtain ⟨rfl, -⟩ := Prod.mk.inj (Except.ok.inj h)
    exact Told.refl x
  dsimp only at h
  split at h
  · obtain ⟨rfl, -⟩ := Prod.mk.inj (Except.ok.inj h)
    exact Told.refl x
  · obtain ⟨z, hz, h⟩ := bind_ok.mp h
    obtain ⟨rfl, -⟩ := Prod.mk.inj (Except.ok.inj h)
    let new := sorted newVoters.dedup
    let m := x.node.appendOwn (encodeConfig new)
    have happend : x.Steady ((x.set (m.adoptConfig new m.lastLogIndex).countOwn).record
        (.cfgchange m.id m.lastLogIndex m.term new)) := steady_set_record rfl rfl rfl
    exact (happend.trans (broadcastTo_steady _ hz)).told

theorem told_requestRead (x : Exec) (command : Str) : x.Told (x.requestRead command).1 := by
  unfold requestRead
  split
  · exact Told.refl x
  · have hqueue : x.Steady ((x.set (x.node.queueRead command)).record
        (.read x.node.id x.node.nextReadId x.node.commitIndex)) := steady_set_record rfl rfl rfl
    exact (hqueue.told.trans (told_sendAll _ _ _)).trans (tryServeRead_steady _ _).told

theorem told_onReadHeartbeat (x : Exec) (msg : ReadHeartbeat) : x.Told (x.onReadHeartbeat msg) := by
  have hx := told_catchUp x msg.term
  unfold onReadHeartbeat
  generalize x.catchUp msg.term = x' at hx ⊢
  dsimp only
  split
  · exact (hx.trans (told_heed x' msg.leader)).trans (told_send _ _ _)
  · exact hx.trans (told_send x' _ _)

theorem told_onReadAck (x : Exec) (msg : ReadAck) : x.Told (x.onReadAck msg) := by
  unfold onReadAck
  split
  next hlt => exact told_becomeFollower hlt.le
  split
  · exact Told.refl x
  next pending _ =>
    split
    · exact Told.refl x
    · have hack : x.Steady (x.set (x.node.ackRead msg pending)) := steady_set rfl rfl
      exact (hack.trans (tryServeRead_steady _ _)).told

theorem told_onRequestVote {msg : RequestVote} (h : x.onRequestVote msg = .ok y) : x.Told y := by
  have hx := told_catchUp x msg.term
  obtain ⟨granted, -, h⟩ := bind_ok.mp h
  obtain rfl := Except.ok.inj h
  refine Told.trans ?_ (told_send _ _ _)
  cases granted with
  | false => exact hx
  | true =>
    generalize x.catchUp msg.term = x' at hx ⊢
    have hvote : x'.Told ((x'.set { x'.node with votedFor := some msg.candidate }).record
        (.vote x'.node.id msg.candidate x'.node.term)) := told_set_call rfl rfl rfl rfl
    exact hx.trans (hvote.trans (told_armElectionTimer _))

theorem told_onVoteReply {msg : VoteReply} (h : x.onVoteReply msg = .ok y) : x.Told y := by
  unfold onVoteReply at h
  split at h
  next hlt =>
    obtain rfl := Except.ok.inj h
    exact told_becomeFollower hlt.le
  split at h
  · obtain rfl := Except.ok.inj h
    exact Told.refl x
  · have hset : x.Steady (x.set (x.node.countVote msg.voter)) := steady_set rfl rfl
    exact hset.told.trans (told_maybeWin h)

theorem Yields.told {term : ℕ} (h : x.Yields term y) : x.Told y := by
  cases h with
  | steps hle => exact told_becomeFollower hle
  | follows _ _ => exact Told.refl x

theorem told_onAppendEntries {msg : AppendEntries} (h : x.onAppendEntries msg = .ok y) :
    x.Told y := by
  have hx := told_catchUp x msg.term
  rcases onAppendEntries_cases h with ⟨-, rfl⟩ | ⟨z, hz, h⟩
  · exact hx.trans (told_send _ _ _)
  · exact ((hx.trans hz.told).trans (told_heed _ _)).trans (appendFromLeader_steady h).told

theorem told_onAppendReply {msg : AppendReply} (h : x.onAppendReply msg = .ok y) : x.Told y := by
  by_cases hterm : x.node.term < msg.term
  · unfold onAppendReply at h
    rw [if_pos hterm] at h
    obtain rfl := Except.ok.inj h
    exact told_becomeFollower hterm.le
  · exact (onAppendReply_steady hterm h).told

theorem told_onInstallSnapshot {msg : InstallSnapshot} (h : x.onInstallSnapshot msg = .ok y) :
    x.Told y := by
  rcases onInstallSnapshot_cases h with ⟨-, rfl⟩ | ⟨z, hz, h⟩
  · exact told_send x _ _
  · exact (hz.told.trans (told_heed _ _)).trans (installFromLeader_steady h).told

theorem told_handle {msg : Message} (h : x.handle msg = .ok y) : x.Told y := by
  unfold handle at h
  split at h
  · obtain rfl := Except.ok.inj h
    exact Told.refl x
  cases msg with
  | requestVote m => exact told_onRequestVote h
  | voteReply m => exact told_onVoteReply h
  | appendEntries m => exact told_onAppendEntries h
  | appendReply m => exact told_onAppendReply h
  | installSnapshot m => exact told_onInstallSnapshot h
  | readHeartbeat m =>
    obtain rfl := Except.ok.inj h
    exact told_onReadHeartbeat x m
  | readAck m =>
    obtain rfl := Except.ok.inj h
    exact told_onReadAck x m

end Exec

/-- An event that is no crash and no restart. -/
def Event.Inner : Event → Prop
  | .pause _ | .resume _ => False
  | _ => True

/-- Each callback tells the role and the term of its node. -/
theorem callback_told {w : World} {e : Event} (he : e.Inner) (h : w.callback n e = .ok y) :
    Exec.Told ⟨n, []⟩ y := by
  cases e with
  | electionTimeout i seq => exact Exec.told_onElectionTimeout h
  | heartbeat i seq => exact Exec.told_onHeartbeat h
  | clientCommand i command =>
    obtain ⟨⟨z, b⟩, hz, rfl⟩ := map_ok.mp h
    exact (Exec.clientCommand_steady hz).told
  | changeConfig i newVoters =>
    obtain ⟨⟨z, b⟩, hz, rfl⟩ := map_ok.mp h
    exact Exec.told_changeConfig hz
  | requestRead i command =>
    obtain rfl := Except.ok.inj h
    exact Exec.told_requestRead _ command
  | deliver k =>
    unfold World.callback at h
    dsimp only at h
    cases hk : w.sent[k]? with
    | none =>
      rw [hk] at h
      obtain rfl := Except.ok.inj h
      exact Exec.Told.refl _
    | some p =>
      rw [hk] at h
      exact Exec.told_handle h
  | pause i => exact he.elim
  | resume i => exact he.elim

end RaftVerified
