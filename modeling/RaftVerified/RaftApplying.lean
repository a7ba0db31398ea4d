import RaftVerified.RaftWatched

/-! What one callback of a node that has never compacted applies, and what it leaves of
the node, with any of the planted defects. -/
namespace RaftVerified

variable {n m : RaftNode} {x y z : Exec} {es : List Entry}

@[simp] theorem applies_append (xs ys : List Call) :
    applies (xs ++ ys) = applies xs ++ applies ys := by
  induction xs with
  | nil => rfl
  | cons call xs ih =>
    cases call with
    | record event => cases event <;> simp [applies, ih]
    | send dst msg => simpa [applies] using ih
    | schedule timer => simpa [applies] using ih
    | onApply command result => simpa [applies] using ih

theorem applies_of_plain {cs : List Call}
    (h : ∀ call ∈ cs, call.Plain n ∨ ∃ command result, call = .onApply command result) :
    applies cs = [] := by
  induction cs with
  | nil => rfl
  | cons call cs ih =>
    have ih := ih fun d hd => h d (List.mem_cons_of_mem call hd)
    have hcall := h call List.mem_cons_self
    cases call with
    | record event =>
      cases event with
      | apply j index command =>
        rcases hcall with hf | ⟨_, _, hf⟩
        · exact hf.elim
        · cases hf
      | _ => exact ih
    | _ => exact ih

/-- The apply records of entries that stand from `index` on. -/
def numbered (index : ℕ) : List Entry → List (ℕ × Str)
  | [] => []
  | e :: rest => (index, e.command) :: numbered (index+1) rest

theorem mem_numbered {index : ℕ} {p : ℕ × Str} (h : p ∈ numbered index es) :
    ∃ k e, es[k]? = some e ∧ p = (index+k, e.command) := by
  induction es generalizing index with
  | nil => cases h
  | cons e rest ih =>
    rcases List.mem_cons.mp h with rfl | h
    · exact ⟨0, e, rfl, rfl⟩
    · obtain ⟨k, f, hf, rfl⟩ := ih h
      refine ⟨k+1, f, hf, ?_⟩
      rw [Nat.add_right_comm, Nat.add_assoc]

theorem numbered_mem {index k : ℕ} {e : Entry} (h : es[k]? = some e) :
    (index+k, e.command) ∈ numbered index es := by
  induction es generalizing index k with
  | nil => cases h
  | cons f rest ih =>
    cases k with
    | zero =>
      obtain rfl := Option.some.inj h
      exact List.mem_cons_self
    | succ k =>
      have hmem : (index+1+k, e.command) ∈ numbered (index+1) rest := ih h
      rw [Nat.add_right_comm] at hmem
      exact List.mem_cons_of_mem _ hmem

/-- The node has never compacted its log nor restored an image. -/
structure Unfolded (n : RaftNode) : Prop where
  base : n.baseIndex = 0
  snapshot : n.snapshot = none
  folded : n.folded = []
  applied : n.applied.length = n.lastApplied

theorem Unfolded.congr (h : Unfolded n) (hp : m.progress = n.progress) : Unfolded m := by
  simp only [RaftNode.progress, Prod.mk.injEq] at hp
  obtain ⟨-, -, -, hla, hb, hs, ha, hf, -⟩ := hp
  exact ⟨hb.trans h.base, hs.trans h.snapshot, hf.trans h.folded, by rw [ha, hla, h.applied]⟩

theorem Unfolded.logical (h : Unfolded n) : n.logical = n.log := by
  rw [RaftNode.logical, h.folded, List.nil_append]

theorem Unfolded.entryAt (h : Unfolded n) {k : ℕ} {e : Entry} :
    n.entryAt (k+1) = .ok e ↔ n.log[k]? = some e := by
  have hf : n.folded.length = n.baseIndex := by
    rw [h.folded, h.base]
    rfl
  rw [RaftNode.entryAt_eq hf (by rw [h.base]; exact Nat.zero_le k), h.logical]

/-- Between two moments of a callback the entries `es` have been applied. -/
structure Applied (x y : Exec) (es : List Entry) : Prop where
  unfolded : Unfolded y.node
  log : y.node.log = x.node.log
  applied : y.node.applied = x.node.applied ++ es.map Entry.command
  last : y.node.lastApplied = x.node.lastApplied+es.length
  commit : y.node.commitIndex = x.node.commitIndex
  incarnation : y.node.incarnation = x.node.incarnation
  config : y.node.config = x.node.config
  entries : ∀ k e, es[k]? = some e → x.node.log[x.node.lastApplied+k]? = some e
  calls : applies y.calls = applies x.calls ++ numbered (x.node.lastApplied+1) es
  images : ∀ dst msg, .send dst (.installSnapshot msg) ∈ y.calls →
    .send dst (.installSnapshot msg) ∈ x.calls

/-- Like `Applied`, with the commit index in front, and perhaps compacted away since. -/
structure Advanced (x y : Exec) (es : List Entry) : Prop where
  commit : x.node.commitIndex < y.node.commitIndex
  settled : y.node.lastApplied = y.node.commitIndex
  last : y.node.lastApplied = x.node.lastApplied+es.length
  incarnation : y.node.incarnation = x.node.incarnation
  config : y.node.config = x.node.config
  entries : ∀ k e, es[k]? = some e → y.node.logical[x.node.lastApplied+k]? = some e
  calls : applies y.calls = applies x.calls ++ numbered (x.node.lastApplied+1) es
  images : ∀ dst msg, .send dst (.installSnapshot msg) ∈ y.calls →
    .send dst (.installSnapshot msg) ∈ x.calls
  after : (Unfolded y.node ∧ y.node.applied = x.node.applied ++ es.map Entry.command ∧
      (y.node.config.snapshotThreshold ≤ 0 ∨
        (y.node.lastApplied : ℤ) < y.node.config.snapshotThreshold)) ∨
    (0 < y.node.config.snapshotThreshold ∧
      y.node.config.snapshotThreshold ≤ y.node.lastApplied ∧
      y.node.baseIndex = y.node.lastApplied ∧ y.node.applied = [])

namespace Exec

theorem applyLoop_applied (k : ℕ) {x : Exec} (h : Unfolded x.node)
    (hy : x.applyLoop k = .ok y) : ∃ es, es.length = k ∧ Applied x y es := by
  -- one entry is applied, and then the others
  induction k generalizing x with
  | zero =>
    obtain rfl := Except.ok.inj hy
    exact ⟨[], rfl, h, rfl, (List.append_nil _).symm, rfl, rfl, rfl, rfl, nofun,
      (List.append_nil _).symm, fun _ _ hm => hm⟩
  | succ k ih =>
    obtain ⟨z, hz, hy⟩ := bind_ok.mp hy
    obtain ⟨e, he, hz⟩ := bind_ok.mp hz
    obtain rfl := Except.ok.inj hz
    have hunf : Unfolded (x.node.applyAt (x.node.lastApplied+1) e.command) := by
      refine ⟨h.base, h.snapshot, h.folded, ?_⟩
      change (x.node.applied ++ [e.command]).length = x.node.lastApplied+1
      rw [List.length_append, h.applied]
      rfl
    have hlog := h.entryAt.mp he
    obtain ⟨es, hlen, ha⟩ := ih hunf hy
    refine ⟨e :: es, by rw [List.length_cons, hlen], ha.unfolded, ha.log, ?_, ?_, ha.commit,
      ha.incarnation, ha.config, ?_, ?_, ?_⟩
    · rw [ha.applied]
      exact List.append_assoc _ _ _
    · rw [ha.last, List.length_cons]
      change x.node.lastApplied+1+es.length = _
      omega
    · intro j f hf
      cases j with
      | zero =>
        obtain rfl := Option.some.inj hf
        exact hlog
      | succ j =>
        have hx := ha.entries j f hf
        change x.node.log[x.node.lastApplied+1+j]? = some f at hx
        rwa [Nat.add_right_comm] at hx
    · rw [ha.calls]
      change applies ((x.calls ++ [_]) ++ [_]) ++ _ = _
      rw [applies_append, applies_append]
      change (applies x.calls ++ [(x.node.lastApplied+1, e.command)] ++ []) ++ _ = _
      rw [List.append_nil, List.append_assoc]
      rfl
    · intro dst msg hm
      have hx := ha.images dst msg hm
      change _ ∈ (x.calls ++ [_]) ++ [_] at hx
      simpa using hx

theorem maybeCompact_after (h : Unfolded x.node) (hy : x.maybeCompact = .ok y) :
    y.node.commitIndex = x.node.commitIndex ∧ y.node.lastApplied = x.node.lastApplied ∧
      y.node.incarnation = x.node.incarnation ∧ y.node.config = x.node.config ∧
      y.node.logical = x.node.logical ∧ applies y.calls = applies x.calls ∧
      (∀ dst msg, .send dst (.installSnapshot msg) ∈ y.calls →
        .send dst (.installSnapshot msg) ∈ x.calls) ∧
      ((y = x ∧ (x.node.config.snapshotThreshold ≤ 0 ∨
          (x.node.lastApplied : ℤ) < x.node.config.snapshotThreshold)) ∨
        (0 < x.node.config.snapshotThreshold ∧
          x.node.config.snapshotThreshold ≤ x.node.lastApplied ∧
          y.node.baseIndex = x.node.lastApplied ∧ y.node.applied = [])) := by
  have hbase := h.base
  rcases maybeCompact_cases hy with ⟨hth, rfl⟩ | ⟨hpos, hle, lastTerm, voters, -, -, rfl⟩
  -- below the threshold nothing happens
  · refine ⟨rfl, rfl, rfl, rfl, rfl, rfl, fun _ _ hm => hm, Or.inl ⟨rfl, ?_⟩⟩
    rw [hbase] at hth
    simpa using hth
  -- otherwise the whole applied log goes into the snapshot
  · have hf : x.node.folded.length = x.node.baseIndex := by
      rw [h.folded, hbase]
      rfl
    refine ⟨rfl, rfl, rfl, rfl, ?_, ?_, ?_, Or.inr ⟨hpos, ?_, rfl, ?_⟩⟩
    · exact (compactTo_logical hf (by rw [hbase]; exact Nat.zero_le _) lastTerm voters).2
    · change applies (x.calls ++ [_]) = _
      rw [applies_append]
      exact List.append_nil _
    · intro dst msg hm
      change _ ∈ x.calls ++ [_] at hm
      simpa using hm
    · rw [hbase] at hle
      simpa using hle
    · change x.node.applied.drop (x.node.lastApplied-x.node.baseIndex) = []
      rw [hbase, Nat.sub_zero, ← h.applied, List.drop_length]

/-- Before the apply loop: the commit index is set and recorded. -/
def committing (x : Exec) (index : ℕ) : Exec :=
  (x.set { x.node with commitIndex := index }).record (.commit x.node.id index)

theorem setCommitIndex_advanced {index : ℕ} (h : Unfolded x.node)
    (hle : x.node.lastApplied ≤ x.node.commitIndex) (hlt : x.node.commitIndex < index)
    (hy : x.setCommitIndex index = .ok y) : ∃ es, Advanced x y es := by
  unfold setCommitIndex at hy
  rw [if_neg (by omega)] at hy
  obtain ⟨z, hz, hy⟩ := bind_ok.mp hy
  have h0 : Unfolded (x.committing index).node := ⟨h.base, h.snapshot, h.folded, h.applied⟩
  have hz : (x.committing index).applyLoop (index-x.node.lastApplied) = .ok z := hz
  obtain ⟨es, hlen, ha⟩ := applyLoop_applied _ h0 hz
  obtain ⟨hcom, hla, hinc, hconf, hlogical, hcalls, himg, hcase⟩ :=
    maybeCompact_after ha.unfolded hy
  have hlast : z.node.lastApplied = x.node.lastApplied+es.length := ha.last
  have hzc : z.node.commitIndex = index := ha.commit
  have hlen : es.length = index-x.node.lastApplied := hlen
  -- the record of the commit is no application
  have hrec : applies (x.committing index).calls = applies x.calls := by
    change applies (x.calls ++ [_]) = _
    rw [applies_append]
    exact List.append_nil _
  refine ⟨es, ?_, ?_, ?_, hinc.trans ha.incarnation, hconf.trans ha.config, ?_, ?_, ?_, ?_⟩
  · rw [hcom, hzc]
    exact hlt
  · rw [hla, hcom, hzc]
    omega
  · rw [hla, hlast]
  · intro k e he
    rw [hlogical, ha.unfolded.logical, ha.log]
    exact ha.entries k e he
  · rw [hcalls, ha.calls, hrec]
    rfl
  · intro dst msg hm
    have hx := ha.images dst msg (himg dst msg hm)
    change _ ∈ x.calls ++ [_] at hx
    simpa using hx
  -- compacted or not, the applied entries are accounted for
  · rcases hcase with ⟨rfl, hth⟩ | ⟨hpos, hth, hb, happ⟩
    · exact Or.inl ⟨ha.unfolded, ha.applied, hth⟩
    · exact Or.inr ⟨hconf ▸ hpos, by rw [hconf, hla]; exact hth, by rw [hla]; exact hb, happ⟩

end Exec

theorem plain_images {cs : List Call} {dst : NodeId} {msg : InstallSnapshot}
    (h : ∀ call ∈ cs, call.Plain n ∨ ∃ command result, call = .onApply command result)
    (hs : n.snapshot = none) : .send dst (.installSnapshot msg) ∉ cs := by
  intro hm
  rcases h _ hm with hp | ⟨_, _, hp⟩
  · exact hp hs
  · cases hp

/-- The planted commit regression: the commit index is assigned and nothing applied. -/
structure Assigned (x y : Exec) : Prop where
  unfolded : Unfolded y.node
  last : y.node.lastApplied = x.node.lastApplied
  applied : y.node.applied = x.node.applied
  incarnation : y.node.incarnation = x.node.incarnation
  config : y.node.config = x.node.config
  calls : applies y.calls = applies x.calls
  images : ∀ dst msg, .send dst (.installSnapshot msg) ∈ y.calls →
    .send dst (.installSnapshot msg) ∈ x.calls

/-- All that a callback without a crash or an image can do to such a node. -/
inductive Effect (x y : Exec) : Prop
  | serves (h : x.Serves y)
  | assigned (h : Assigned x y)
  | advanced (es : List Entry) (h : Advanced x y es)

namespace Exec

theorem Quiet.applies (h : x.Quiet y) :
    RaftVerified.applies y.calls = RaftVerified.applies x.calls := by
  obtain ⟨cs, hcs, hall⟩ := h.serves.calls
  rw [hcs, applies_append, applies_of_plain hall, List.append_nil]

theorem Quiet.images (h : x.Quiet y) (hu : Unfolded x.node) {dst : NodeId}
    {msg : InstallSnapshot} (hm : .send dst (.installSnapshot msg) ∈ y.calls) :
    .send dst (.installSnapshot msg) ∈ x.calls := by
  obtain ⟨cs, hcs, hall⟩ := h.serves.calls
  rw [hcs] at hm
  exact (List.mem_append.mp hm).resolve_right (plain_images hall hu.snapshot)

/-- A quiet part may come before any effect. -/
theorem Quiet.effect (h : x.Quiet y) (hu : Unfolded x.node) (he : Effect y z) : Effect x z := by
  have hp := h.progress
  simp only [RaftNode.progress, Prod.mk.injEq] at hp
  obtain ⟨-, hinc, hcom, hla, -, -, happ, -, hconf⟩ := hp
  cases he with
  | serves hs => exact .serves (h.serve hs)
  | assigned ha =>
    exact .assigned ⟨ha.unfolded, ha.last.trans hla, ha.applied.trans happ,
      ha.incarnation.trans hinc, ha.config.trans hconf, ha.calls.trans h.applies,
      fun dst msg hm => h.images hu (ha.images dst msg hm)⟩
  | advanced es ha =>
    refine .advanced es ⟨hcom ▸ ha.commit, ha.settled, hla ▸ ha.last,
      ha.incarnation.trans hinc, ha.config.trans hconf, hla ▸ ha.entries, ?_,
      fun dst msg hm => h.images hu (ha.images dst msg hm), happ ▸ ha.after⟩
    rw [ha.calls, h.applies, hla]

end Exec

/-- A call that is plain for every node may come after any effect. -/
theorem Effect.call (he : Effect x y) {c : Call} (hc : ∀ n, c.Plain n) :
    Effect x (y.call c) := by
  have happ : applies (y.call c).calls = applies y.calls := (Exec.quiet_call (hc y.node)).applies
  have himg : ∀ dst msg, .send dst (.installSnapshot msg) ∈ (y.call c).calls →
      .send dst (.installSnapshot msg) ∈ y.calls := by
    intro dst msg hm
    rcases List.mem_append.mp hm with hm | hm
    · exact hm
    · obtain rfl := List.mem_singleton.mp hm
      exact absurd rfl (hc { y.node with snapshot := none })
  cases he with
  | serves hs =>
    obtain ⟨cs, hcs, hall⟩ := hs.calls
    refine .serves ⟨hs.progress, cs ++ [c], ?_, fun d hd => ?_⟩
    · change y.calls ++ [c] = _
      rw [hcs, List.append_assoc]
    · rcases List.mem_append.mp hd with hd | hd
      · exact hall d hd
      · obtain rfl := List.mem_singleton.mp hd
        exact Or.inl (hc _)
  | assigned ha =>
    exact .assigned ⟨ha.unfolded, ha.last, ha.applied, ha.incarnation, ha.config,
      happ.trans ha.calls, fun dst msg hm => ha.images dst msg (himg dst msg hm)⟩
  | advanced es ha =>
    exact .advanced es ⟨ha.commit, ha.settled, ha.last, ha.incarnation, ha.config, ha.entries,
      happ.trans ha.calls, fun dst msg hm => ha.images dst msg (himg dst msg hm), ha.after⟩

namespace Exec

theorem setCommitIndex_effect {index : ℕ} (hu : Unfolded x.node)
    (hle : x.node.lastApplied ≤ x.node.commitIndex) (hy : x.setCommitIndex index = .ok y) :
    Effect x y := by
  rcases Nat.lt_or_ge x.node.commitIndex index with hlt | hge
  · obtain ⟨es, ha⟩ := setCommitIndex_advanced hu hle hlt hy
    exact .advanced es ha
  · unfold setCommitIndex at hy
    rw [if_pos hge] at hy
    obtain rfl := Except.ok.inj hy
    exact .serves (Quiet.refl x).serves

theorem followCommit_effect {leaderCommit p : ℕ} (hu : Unfolded x.node)
    (hle : x.node.lastApplied ≤ x.node.commitIndex)
    (hy : x.followCommit leaderCommit p = .ok y) : Effect x y := by
  rcases followCommit_cases hy with ⟨-, rfl⟩ | ⟨-, hset⟩ | ⟨-, rfl⟩
  · exact .assigned ⟨⟨hu.base, hu.snapshot, hu.folded, hu.applied⟩, rfl, rfl, rfl, rfl, rfl,
      fun _ _ hm => hm⟩
  · exact setCommitIndex_effect hu hle hset
  · exact .serves (Quiet.refl y).serves

theorem Quiet.applied_le (h : x.Quiet y) (hle : x.node.lastApplied ≤ x.node.commitIndex) :
    y.node.lastApplied ≤ y.node.commitIndex := by
  have hp := h.progress
  simp only [RaftNode.progress, Prod.mk.injEq] at hp
  rw [hp.2.2.1, hp.2.2.2.1]
  exact hle

theorem onAppendEntries_effect {msg : AppendEntries} (hu : Unfolded x.node)
    (hle : x.node.lastApplied ≤ x.node.commitIndex) (hy : x.onAppendEntries msg = .ok y) :
    Effect x y := by
  have hcatch := catchUp_quiet x msg.term
  rcases onAppendEntries_cases hy with ⟨-, rfl⟩ | ⟨z, hz, hy⟩
  · exact .serves (hcatch.trans (replyAppend_quiet _ _ _ _)).serves
  have hheed := (hcatch.trans hz.quiet).trans (heed_quiet z msg.leader)
  obtain ⟨refused, -, hy⟩ := bind_ok.mp hy
  split at hy
  · obtain rfl := Except.ok.inj hy
    exact .serves (hheed.trans (replyAppend_quiet _ _ _ _)).serves
  · obtain ⟨n, hn, hy⟩ := bind_ok.mp hy
    obtain ⟨v, hv, hy⟩ := bind_ok.mp hy
    obtain rfl := Except.ok.inj hy
    have hset := hheed.trans (quiet_set (edited_progress (appendLoop_edited _ hn)))
    have heff := followCommit_effect (hu.congr hset.progress) (hset.applied_le hle) hv
    exact (hset.effect hu heff).call fun _ => trivial

theorem advanceCommitFrom_effect (k : ℕ) (hu : Unfolded x.node)
    (hle : x.node.lastApplied ≤ x.node.commitIndex) (hy : x.advanceCommitFrom k = .ok y) :
    Effect x y := by
  rcases advanceCommitFrom_cases k hy with rfl | ⟨n, t, z, hlt, -, -, -, hz, rfl⟩
  · exact .serves (Quiet.refl y).serves
  · obtain ⟨es, ha⟩ := setCommitIndex_advanced hu hle hlt hz
    refine .advanced es { ha with after := ?_ }
    refine ha.after.imp_left fun h => ⟨?_, h.2⟩
    exact ⟨h.1.base, h.1.snapshot, h.1.folded, h.1.applied⟩

theorem onAppendReply_effect {msg : AppendReply} (hu : Unfolded x.node)
    (hle : x.node.lastApplied ≤ x.node.commitIndex) (hy : x.onAppendReply msg = .ok y) :
    Effect x y := by
  rcases onAppendReply_cases hy with ⟨-, rfl⟩ | ⟨-, rfl⟩ | ⟨-, -, ⟨-, hy⟩ | ⟨-, hy⟩⟩
  · exact .serves (becomeFollower_quiet x msg.term).serves
  · exact .serves (Quiet.refl y).serves
  · have hset : x.Quiet (x.set (x.node.ackAppend msg)) := quiet_set rfl
    exact hset.effect hu (advanceCommitFrom_effect _ (hu.congr hset.progress)
      (hset.applied_le hle) hy)
  · have hset : x.Quiet (x.set (x.node.backOff msg)) := quiet_set rfl
    exact .serves (hset.trans (sendAppendEntries_quiet hy)).serves

theorem handle_effect {msg : Message} (hu : Unfolded x.node)
    (hle : x.node.lastApplied ≤ x.node.commitIndex) (hm : ∀ m, msg ≠ .installSnapshot m)
    (hy : x.handle msg = .ok y) : Effect x y := by
  unfold handle at hy
  split at hy
  · obtain rfl := Except.ok.inj hy
    exact .serves (Quiet.refl x).serves
  · cases msg with
    | requestVote m => exact .serves (onRequestVote_quiet hy).serves
    | voteReply m => exact .serves (onVoteReply_quiet hy).serves
    | appendEntries m => exact onAppendEntries_effect hu hle hy
    | appendReply m => exact onAppendReply_effect hu hle hy
    | installSnapshot m => exact absurd rfl (hm m)
    | readHeartbeat m =>
      obtain rfl := Except.ok.inj hy
      exact .serves (onReadHeartbeat_quiet x m).serves
    | readAck m =>
      obtain rfl := Except.ok.inj hy
      exact .serves (onReadAck_serves x m)

end Exec

/-! ### Callbacks -/

/-- A crash of a node without a snapshot takes it back to the start. -/
theorem pause_unfolded (h : Unfolded n) : Unfolded n.pause ∧ n.pause.commitIndex = 0 ∧
    n.pause.lastApplied = 0 ∧ n.pause.incarnation = n.incarnation+1 ∧
    n.pause.config = n.config := by
  unfold RaftNode.pause RaftNode.resetVolatile RaftNode.clearVolatile
  dsimp only
  rw [h.snapshot]
  exact ⟨⟨h.base, rfl, h.folded, rfl⟩, rfl, rfl, rfl, rfl⟩

theorem callback_effect {w : World} {e : Event} (hu : Unfolded n)
    (hle : n.lastApplied ≤ n.commitIndex)
    (hi : ∀ p ∈ w.sent, ∀ m, p.msg ≠ .installSnapshot m)
    (hp : ∀ i, e ≠ .pause i) (hy : w.callback n e = .ok y) : Effect ⟨n, []⟩ y := by
  cases e with
  | electionTimeout j seq => exact .serves (Exec.onElectionTimeout_quiet hy).serves
  | heartbeat j seq => exact .serves (Exec.onHeartbeat_quiet hy).serves
  | clientCommand j command =>
    obtain ⟨b, hy⟩ := map_fst_ok hy
    exact .serves (Exec.clientCommand_quiet hy).serves
  | changeConfig j newVoters =>
    obtain ⟨b, hy⟩ := map_fst_ok hy
    exact .serves (Exec.changeConfig_quiet hy).serves
  | requestRead j command =>
    obtain rfl := Except.ok.inj hy
    exact .serves (Exec.requestRead_serves _ command)
  | deliver k =>
    rw [World.callback] at hy
    cases hk : w.sent[k]? with
    -- a delivery of a message never sent
    | none =>
      rw [hk] at hy
      obtain rfl := Except.ok.inj hy
      exact .serves (Exec.Quiet.refl _).serves
    | some p =>
      rw [hk] at hy
      -- only a handler of a message can raise the commit index of a follower
      exact Exec.handle_effect hu hle (hi p (List.mem_of_getElem? hk)) hy
  | pause j => exact absurd rfl (hp j)
  | resume j =>
    obtain rfl := Except.ok.inj hy
    have hset : Exec.Quiet ⟨n, []⟩ (Exec.set ⟨n, []⟩ { n with alive := true }) :=
      Exec.quiet_set rfl
    exact .serves (hset.trans (Exec.armElectionTimer_quiet _)).serves

end RaftVerified
