import RaftVerified.RaftProgress

/-! Nodes that know no configuration but the initial one, and the methods that neither
vote nor campaign. Both hold whatever the log looks like, compacted or not. -/
namespace RaftVerified

variable {c : Setup} {n m : RaftNode}

/-- No configuration but the initial one anywhere in the persistent state. -/
structure FixedLog (c : Setup) (n : RaftNode) : Prop where
  initial : n.initialVoters = c.voters
  snapshot : ∀ s, n.snapshot = some s → s.voters = c.voters
  log : ∀ e ∈ n.log, decodeConfig e.command = none

structure FixedNode (c : Setup) (n : RaftNode) : Prop extends FixedLog c n where
  voters : n.voters = c.voters

/-- The fields that elections are about. -/
def RaftNode.standing (n : RaftNode) := (n.id, n.term, n.votedFor, n.role, n.votes)

namespace RaftNode

theorem scanConfig_plain (cur : List NodeId × ℕ) (index : ℕ) {entries : List Entry}
    (h : ∀ e ∈ entries, decodeConfig e.command = none) : scanConfig cur index entries = cur := by
  induction entries generalizing index with
  | nil => rfl
  | cons e rest ih =>
    rw [scanConfig, h e List.mem_cons_self]
    exact ih (index+1) fun f hf => h f (List.mem_cons_of_mem _ hf)

theorem rebuildConfig_fixed (h : FixedLog c n) : FixedNode c n.rebuildConfig := by
  refine ⟨⟨h.initial, h.snapshot, h.log⟩, ?_⟩
  unfold rebuildConfig
  dsimp only
  rw [scanConfig_plain _ _ h.log]
  cases hs : n.snapshot with
  | none => exact h.initial
  | some s => exact h.snapshot s hs

theorem configBelow_fixed (h : FixedLog c n) (k : ℕ) {vs : List NodeId}
    (hv : n.configBelow k = .ok vs) : vs = c.voters := by
  induction k with
  | zero =>
    obtain rfl := Except.ok.inj hv
    cases hs : n.snapshot with
    | none => exact h.initial
    | some s => exact h.snapshot s hs
  | succ k ih =>
    obtain ⟨e, he, hv⟩ := bind_ok.mp hv
    have hmem := List.mem_of_getElem? ((pyGet_eq_ok _ _ _).mp he)
    rw [h.log e hmem] at hv
    exact ih hv

theorem pushEntry_fixed (h : FixedNode c n) (index : ℕ) {entry : Entry}
    (he : decodeConfig entry.command = none) : FixedNode c (n.pushEntry index entry) := by
  unfold pushEntry
  rw [he]
  refine ⟨⟨h.initial, h.snapshot, ?_⟩, h.voters⟩
  intro e hmem
  rcases List.mem_append.mp hmem with hmem | hmem
  · exact h.log e hmem
  · obtain rfl := List.mem_singleton.mp hmem
    exact he

theorem truncateFrom_fixed (h : FixedNode c n) (index : ℕ) :
    FixedNode c (n.truncateFrom index) := by
  have hlog : FixedLog c (n.setLog (delFrom n.log (n.phys index))) :=
    ⟨h.initial, h.snapshot, fun e he => h.log e (List.mem_of_mem_take he)⟩
  unfold truncateFrom
  split
  · exact rebuildConfig_fixed hlog
  · exact ⟨hlog, h.voters⟩

theorem appendLoop_fixed (entries : List Entry) {index : ℕ} (h : FixedNode c n)
    (he : ∀ e ∈ entries, decodeConfig e.command = none)
    (hm : n.appendLoop index entries = .ok m) : FixedNode c m := by
  induction entries generalizing n index with
  | nil =>
    obtain rfl := Except.ok.inj hm
    exact h
  | cons entry rest ih =>
    have hentry := he entry List.mem_cons_self
    obtain ⟨n1, h1, hm⟩ := bind_ok.mp hm
    refine ih ?_ (fun e hmem => he e (List.mem_cons_of_mem _ hmem)) hm
    rcases appendEntry_cases h1 with ⟨-, -, rfl⟩ | ⟨-, -, rfl⟩ | ⟨-, rfl⟩
    · exact h
    · exact pushEntry_fixed (truncateFrom_fixed h _) _ hentry
    · exact pushEntry_fixed h _ hentry

theorem restoreImage_fixed (h : FixedLog c n) {msg : InstallSnapshot}
    (hm : msg.voters = c.voters) (keepTail : Bool) :
    FixedNode c (n.restoreImage msg keepTail).rebuildConfig := by
  apply rebuildConfig_fixed
  refine ⟨h.initial, ?_, ?_⟩
  · rintro s ⟨⟩
    exact hm
  · intro e he
    cases keepTail with
    | true => exact h.log e (List.mem_of_mem_drop he)
    | false => cases he

end RaftNode

/-! ### Calm methods -/

/-- A message that is no part of an election and carries no configuration of its own. -/
def Message.Calm (c : Setup) : Message → Prop
  | .requestVote _ => False
  | .voteReply _ => False
  | .appendEntries m => ∀ e ∈ m.entries, decodeConfig e.command = none
  | .installSnapshot m => m.voters = c.voters
  | _ => True

/-- An acknowledgement bears the name and the term of the node that sends it. -/
def Message.SentBy (n : RaftNode) (msg : Message) : Prop :=
  ∀ m, msg = .appendReply m → m.term = n.term ∧ m.follower = n.id

theorem sentBy_congr (h : m.standing = n.standing) {msg : Message} (hs : msg.SentBy m) :
    msg.SentBy n := by
  simp only [RaftNode.standing, Prod.mk.injEq] at h
  intro r hr
  rw [← h.1, ← h.2.1]
  exact hs r hr

namespace Exec
variable {x y z : Exec}

/-- From `x` to `y` nobody votes, campaigns or leads, and no configuration comes up. -/
structure Calm (c : Setup) (x y : Exec) : Prop where
  standing : y.node.standing = x.node.standing
  fixed : FixedNode c y.node
  sends : ∀ i, ∀ p ∈ RaftVerified.sends i y.calls,
    p ∈ RaftVerified.sends i x.calls ∨ (p.msg.Calm c ∧ p.msg.SentBy x.node)

theorem Calm.refl (h : FixedNode c x.node) : Calm c x x := ⟨rfl, h, fun _ _ hp => Or.inl hp⟩

theorem Calm.trans (h : Calm c x y) (h' : Calm c y z) : Calm c x z where
  standing := h'.standing.trans h.standing
  fixed := h'.fixed
  sends i p hp := by
    rcases h'.sends i p hp with hp | hp
    · exact h.sends i p hp
    · exact Or.inr ⟨hp.1, sentBy_congr h.standing hp.2⟩

theorem FixedNode.congr (h : FixedNode c n) (hd : m.data = n.data) : FixedNode c m := by
  simp only [RaftNode.data, Prod.mk.injEq] at hd
  obtain ⟨⟨-, -, hi, -, hlog, -⟩, hs, hv, -⟩ := hd
  exact ⟨⟨hi ▸ h.initial, hs ▸ h.snapshot, hlog ▸ h.log⟩, hv ▸ h.voters⟩

theorem Alike.calm (ha : x.Alike y) (h : FixedNode c x.node) : Calm c x y where
  standing := by
    have hb := ha.ballot
    simp only [RaftNode.ballot, Prod.mk.injEq] at hb
    obtain ⟨h1, h2, h3, h4, h5, -⟩ := hb
    rw [RaftNode.standing, h1, h2, h3, h4, h5]
    rfl
  fixed := FixedNode.congr h ha.data
  sends i p hp := Or.inl (by rwa [← ha.sends i])

theorem Calm.record (h : Calm c x y) (event : TraceEvent) : Calm c x (y.record event) :=
  h.trans ((alike_record y event).calm h.fixed)

theorem calm_set (hs : n.standing = x.node.standing) (hn : FixedNode c n) :
    Calm c x (x.set n) := ⟨hs, hn, fun _ _ hp => Or.inl hp⟩

theorem calm_send (h : FixedNode c x.node) (dst : NodeId) {msg : Message} (hm : msg.Calm c)
    (hs : msg.SentBy x.node) : Calm c x (x.send dst msg) where
  standing := rfl
  fixed := h
  sends i p hp := by
    rw [send, call, sends_append, List.mem_append] at hp
    rcases hp with hp | hp
    · exact Or.inl hp
    · obtain rfl := List.mem_singleton.mp hp
      exact Or.inr ⟨hm, hs⟩

theorem calm_sendAll (h : FixedNode c x.node) (dsts : List NodeId) {msg : Message}
    (hm : msg.Calm c) (hs : msg.SentBy x.node) : Calm c x (x.sendAll dsts msg) where
  standing := rfl
  fixed := h
  sends i p hp := by
    rw [sendAll, sends_append, List.mem_append, ExecRel.sends_map] at hp
    rcases hp with hp | hp
    · exact Or.inl hp
    · obtain ⟨dst, -, rfl⟩ := List.mem_map.mp hp
      exact Or.inr ⟨hm, hs⟩

theorem calm_sendAppendEntries (h : FixedNode c x.node) {peer : NodeId}
    (hy : x.sendAppendEntries peer = .ok y) : Calm c x y := by
  unfold sendAppendEntries at hy
  split at hy
  · cases hy
  · dsimp only at hy
    split at hy
    · obtain rfl := Except.ok.inj hy
      unfold sendInstallSnapshot
      split
      · exact Calm.refl h
      next snap hs => exact calm_send h _ (h.snapshot snap hs) nofun
    · obtain ⟨t, -, hy⟩ := bind_ok.mp hy
      obtain rfl := Except.ok.inj hy
      exact calm_send h _ (fun e he => h.log e (List.mem_of_mem_drop he)) nofun

theorem calm_broadcastTo (ps : List NodeId) (h : FixedNode c x.node)
    (hy : x.broadcastTo ps = .ok y) : Calm c x y := by
  induction ps generalizing x with
  | nil =>
    obtain rfl := Except.ok.inj hy
    exact Calm.refl h
  | cons p ps ih =>
    obtain ⟨z, hz, hy⟩ := bind_ok.mp hy
    have h1 := calm_sendAppendEntries h hz
    exact h1.trans (ih h1.fixed hy)

theorem calm_applyLoop (k : ℕ) (h : FixedNode c x.node) (hy : x.applyLoop k = .ok y) :
    Calm c x y := by
  induction k generalizing x with
  | zero =>
    obtain rfl := Except.ok.inj hy
    exact Calm.refl h
  | succ k ih =>
    obtain ⟨z, hz, hy⟩ := bind_ok.mp hy
    obtain ⟨e, -, hz⟩ := bind_ok.mp hz
    obtain rfl := Except.ok.inj hz
    have h1 : Calm c x (x.set (x.node.applyAt (x.node.lastApplied+1) e.command)) :=
      calm_set rfl ⟨⟨h.initial, h.snapshot, h.log⟩, h.voters⟩
    have h2 := h1.record (.apply x.node.id (x.node.lastApplied+1) e.command)
    have h3 := h2.trans ((alike_onApply _ e.command
      (x.node.kv.apply (Command.decode e.command)).2).calm h2.fixed)
    exact h3.trans (ih h3.fixed hy)

theorem calm_maybeCompact (h : FixedNode c x.node) (hy : x.maybeCompact = .ok y) :
    Calm c x y := by
  rcases maybeCompact_cases hy with ⟨-, rfl⟩ | ⟨-, -, t, vs, -, hvs, rfl⟩
  · exact Calm.refl h
  · have h1 : Calm c x (x.set (x.node.compactTo x.node.lastApplied t vs)) := by
      refine calm_set rfl ⟨⟨h.initial, ?_, fun e he => h.log e (List.mem_of_mem_drop he)⟩, h.voters⟩
      rintro s ⟨⟩
      exact RaftNode.configBelow_fixed h.toFixedLog _ hvs
    exact h1.record _

theorem calm_setCommitIndex {index : ℕ} (h : FixedNode c x.node)
    (hy : x.setCommitIndex index = .ok y) : Calm c x y := by
  unfold setCommitIndex at hy
  split at hy
  · obtain rfl := Except.ok.inj hy
    exact Calm.refl h
  · obtain ⟨z, hz, hy⟩ := bind_ok.mp hy
    have h1 : Calm c x (x.set { x.node with commitIndex := index }) :=
      calm_set rfl ⟨⟨h.initial, h.snapshot, h.log⟩, h.voters⟩
    have h2 := h1.record (.commit x.node.id index)
    have h3 := h2.trans (calm_applyLoop _ h2.fixed hz)
    exact h3.trans (calm_maybeCompact h3.fixed hy)

theorem calm_advanceCommitFrom (k : ℕ) (h : FixedNode c x.node)
    (hy : x.advanceCommitFrom k = .ok y) : Calm c x y := by
  rcases advanceCommitFrom_cases k hy with rfl | ⟨n, t, z, -, -, -, -, hz, rfl⟩
  · exact Calm.refl h
  · have h1 := calm_setCommitIndex h hz
    exact h1.trans (calm_set rfl ⟨⟨h1.fixed.initial, h1.fixed.snapshot, h1.fixed.log⟩,
      h1.fixed.voters⟩)

theorem calm_replicate (h : FixedNode c x.node) {command : Str}
    (hc : decodeConfig command = none) (hy : x.replicate command = .ok y) : Calm c x y := by
  have h1 : Calm c x (x.set (x.node.appendOwn command).countOwn) := by
    refine calm_set rfl ⟨⟨h.initial, h.snapshot, ?_⟩, h.voters⟩
    intro e he
    rcases List.mem_append.mp he with he | he
    · exact h.log e he
    · obtain rfl := List.mem_singleton.mp he
      exact hc
  have h2 := h1.record (.append x.node.id (x.node.appendOwn command).countOwn.lastLogIndex
    x.node.term command)
  exact h2.trans (calm_broadcastTo _ h2.fixed hy)

theorem calm_clientCommand (h : FixedNode c x.node) {command : Str}
    (hc : decodeConfig command = none) {b : Bool} (hy : x.clientCommand command = .ok (y, b)) :
    Calm c x y := by
  rcases clientCommand_cases hy with ⟨-, rfl⟩ | ⟨-, -, ⟨-, rfl⟩ | ⟨-, hy⟩⟩
  · exact Calm.refl h
  · exact (alike_record _ _).calm h
  · have h1 := (noteRequest_alike x (Command.decode command)).calm h
    exact h1.trans (calm_replicate h1.fixed hc hy)

theorem calm_requestRead (h : FixedNode c x.node) (command : Str) :
    Calm c x (x.requestRead command).1 := by
  unfold requestRead
  split
  · exact Calm.refl h
  · dsimp only
    have h1 := (alike_set (x := x) (n := x.node.queueRead command) rfl rfl).calm h
    have h2 := h1.record (.read x.node.id x.node.nextReadId x.node.commitIndex)
    have h3 := h2.trans (calm_sendAll h2.fixed x.node.otherVoters (show Message.Calm c
      (.readHeartbeat ⟨x.node.term, x.node.id, x.node.nextReadId⟩) from trivial) nofun)
    exact h3.trans ((tryServeRead_alike _ _).calm h3.fixed)

theorem calm_followCommit {leaderCommit matchIndex : ℕ} (h : FixedNode c x.node)
    (hy : x.followCommit leaderCommit matchIndex = .ok y) : Calm c x y := by
  rcases followCommit_cases hy with ⟨-, rfl⟩ | ⟨-, hset⟩ | ⟨-, rfl⟩
  · exact calm_set rfl ⟨⟨h.initial, h.snapshot, h.log⟩, h.voters⟩
  · exact calm_setCommitIndex h hset
  · exact Calm.refl h

theorem calm_replyAppend (h : FixedNode c x.node) (dst : NodeId) (success : Bool)
    (matchIndex : ℕ) : Calm c x (x.replyAppend dst success matchIndex) := by
  refine calm_send h dst ?_ ?_
  · trivial
  · rintro _ ⟨⟩
    exact ⟨rfl, rfl⟩

theorem calm_appendFromLeader {msg : AppendEntries} (h : FixedNode c x.node)
    (hm : (Message.appendEntries msg).Calm c) (hy : x.appendFromLeader msg = .ok y) :
    Calm c x y := by
  obtain ⟨refused, -, hy⟩ := bind_ok.mp hy
  split at hy
  · obtain rfl := Except.ok.inj hy
    exact calm_replyAppend h _ _ _
  · obtain ⟨n, hn, hy⟩ := bind_ok.mp hy
    obtain ⟨z, hz, hy⟩ := bind_ok.mp hy
    obtain rfl := Except.ok.inj hy
    have hst : n.standing = x.node.standing := by
      obtain ⟨_, _, _, _, rfl⟩ := appendLoop_edited _ hn
      rfl
    have h1 := calm_set hst (RaftNode.appendLoop_fixed _ h hm hn)
    have h2 := h1.trans (calm_followCommit h1.fixed hz)
    exact h2.trans (calm_replyAppend h2.fixed _ _ _)

theorem calm_installFromLeader {msg : InstallSnapshot} (h : FixedNode c x.node)
    (hm : (Message.installSnapshot msg).Calm c) (hy : x.installFromLeader msg = .ok y) :
    Calm c x y := by
  unfold installFromLeader at hy
  split at hy
  · obtain rfl := Except.ok.inj hy
    exact calm_replyAppend h _ _ _
  · obtain ⟨keepTail, -, hy⟩ := bind_ok.mp hy
    obtain rfl := Except.ok.inj hy
    have h1 := calm_set (x := x) (n := (x.node.restoreImage msg keepTail).rebuildConfig) rfl
      (RaftNode.restoreImage_fixed h.toFixedLog hm keepTail)
    have h2 := h1.record (.installsnap x.node.id msg.lastIndex msg.lastTerm)
    exact h2.trans (calm_replyAppend h2.fixed _ _ _)

end Exec
end RaftVerified
