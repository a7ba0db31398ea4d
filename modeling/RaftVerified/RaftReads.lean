import RaftVerified.RaftReadIndex

/-! The pending reads of a node across one callback, and where the answers of the callback
come from: the entries it applies, and the reads it serves. -/
namespace RaftVerified

variable {n : RaftNode} {w : World} {e : Event}

theorem mem_reports {pre es : List Entry} {r : Str × Str} : r ∈ reports (replay pre) es ↔
    ∃ (k : ℕ) (e : Entry), es[k]? = some e ∧
      r = (e.command, ((replay (pre ++ es.take k)).apply (Command.decode e.command)).2) := by
  induction es generalizing pre with
  | nil => simp [reports]
  | cons e es ih =>
    unfold reports
    rw [List.mem_cons, ← replay_append, ih]
    constructor
    · rintro (rfl | ⟨k, f, hf, rfl⟩)
      · exact ⟨0, e, rfl, by rw [List.take_zero, List.append_nil]⟩
      · refine ⟨k+1, f, hf, ?_⟩
        rw [List.take_succ_cons, List.append_assoc, List.singleton_append]
    · rintro ⟨k, f, hf, rfl⟩
      cases k with
      | zero =>
        obtain rfl := Option.some.inj hf
        left
        rw [List.take_zero, List.append_nil]
      | succ k =>
        refine Or.inr ⟨k, f, hf, ?_⟩
        rw [List.take_succ_cons, List.append_assoc, List.singleton_append]

/-- The entries of a log from `k` to `l`, reported in the state that the first `k` leave. -/
theorem mem_reports_between {log : List Entry} {k l : ℕ} {r : Str × Str} :
    r ∈ reports (replay (log.take k)) ((log.drop k).take (l-k)) ↔
      ∃ (q : ℕ) (e : Entry), k ≤ q ∧ q < l ∧ log[q]? = some e ∧
        r = (e.command, ((replay (log.take q)).apply (Command.decode e.command)).2) := by
  have htake : ∀ o, o < l-k → log.take k ++ ((log.drop k).take (l-k)).take o = log.take (k+o) := by
    intro o ho
    rw [List.take_take, Nat.min_eq_left ho.le, List.take_add]
  rw [mem_reports]
  constructor
  · rintro ⟨o, e, he, rfl⟩
    have ho := (List.getElem?_eq_some_iff.mp he).1
    rw [List.length_take] at ho
    rw [List.getElem?_take_of_lt (by omega), List.getElem?_drop] at he
    exact ⟨k+o, e, by omega, by omega, he, by rw [htake o (by omega)]⟩
  · rintro ⟨q, e, hk, hl, he, rfl⟩
    refine ⟨q-k, e, ?_, ?_⟩
    · rw [List.getElem?_take_of_lt (by omega), List.getElem?_drop, Nat.add_sub_cancel' hk, he]
    · rw [htake (q-k) (by omega), Nat.add_sub_cancel' hk]

/-- A read that a node holds at some moment of a callback: from before, just asked for, or
with one more node that has confirmed the leader. -/
inductive Held (w : World) (n : RaftNode) (e : Event) (readId : ℕ) : PendingRead → Prop
  | kept {r : PendingRead} : n.pendingReads.lookup readId = some r → Held w n e readId r
  | asked {i : NodeId} {command : Str} : e = .requestRead i command → n.role = .leader →
      n.committedThisTerm = true → readId = n.nextReadId →
      Held w n e readId { command, readIndex := n.commitIndex, acks := {n.id} }
  | acked {k : ℕ} {p : Packet} {m : ReadAck} {r : PendingRead} : e = .deliver k →
      w.sent[k]? = some p → p.msg = .readAck m → m.readId = readId → m.term = n.term →
      n.pendingReads.lookup readId = some r →
      Held w n e readId { r with acks := insert m.follower r.acks }

/-- A callback that serves the read `r` from the state it finds. -/
structure ServesRead (w : World) (n : RaftNode) (e : Event) (y : Exec) (answer : Str × Str) :
    Prop where
  log : y.node.log = n.log
  commit : y.node.commitIndex = n.commitIndex
  leader : n.role = .leader
  held : ∃ readId r, Held w n e readId r ∧ elects n.voters r.acks ∧
    r.readIndex ≤ n.lastApplied ∧
    answer = (r.command, n.kv.applyRead (Command.decode r.command))

/-- What a callback makes of the reads. -/
structure ReadStep (w : World) (n : RaftNode) (e : Event) (y : Exec) : Prop where
  reads : ∀ readId r, y.node.pendingReads.lookup readId = some r →
    Held w n e readId r ∧ y.node.role = .leader ∧ y.node.term = n.term
  reported : ∀ r ∈ reports n.kv ((y.node.log.drop n.lastApplied).take
    (y.node.lastApplied-n.lastApplied)), r ∈ onApplies y.calls
  answers : ∀ r ∈ onApplies y.calls, r ∈ reports n.kv ((y.node.log.drop n.lastApplied).take
    (y.node.lastApplied-n.lastApplied)) ∨ ServesRead w n e y r
  pings : ∀ dst m, .send dst (.readHeartbeat m) ∈ y.calls →
    m.leader = n.id ∧ m.readId < y.node.nextReadId
  acks : ∀ dst m, .send dst (.readAck m) ∈ y.calls → m.follower = n.id ∧ m.term = y.node.term ∧
    ∃ k p h, e = .deliver k ∧ w.sent[k]? = some p ∧ p.msg = .readHeartbeat h ∧
      m.readId = h.readId ∧ dst = h.leader

namespace Exec
variable {x y : Exec} {fresh : List Str}

theorem Answers.readStep (h : Answers fresh ⟨n, []⟩ y)
    (hn : ∀ readId r, n.pendingReads.lookup readId = some r → n.role = .leader) :
    ReadStep w n e y where
  reads readId r hr := by
    rcases h.reads with ⟨hsame, hlead⟩ | hnone
    · have hold : n.pendingReads.lookup readId = some r := hsame ▸ hr
      exact ⟨.kept hold, hlead (hn readId r hold)⟩
    · rw [hnone] at hr
      cases hr
  reported r hr := by
    rw [h.answers]
    exact List.mem_append_right _ hr
  answers r hr := by
    rw [h.answers] at hr
    exact Or.inl hr
  pings dst m hm := by
    have := h.sends dst _ hm trivial
    cases this
  acks dst m hm := by
    have := h.sends dst _ hm trivial
    cases this

theorem Silent.readStep (h : Silent ⟨n, []⟩ y)
    (hn : ∀ readId r, n.pendingReads.lookup readId = some r → n.role = .leader) :
    ReadStep w n e y := by
  have ha : Answers [] ⟨n, []⟩ y := h.answered
  exact ha.readStep hn

/-- Serving a read or not, right after it has been queued or confirmed. -/
theorem tryServeRead_readStep {readId : ℕ} {r : PendingRead}
    (hlog : x.node.log = n.log)
    (hm : (x.node.kv, x.node.lastApplied, x.node.commitIndex) =
      (n.kv, n.lastApplied, n.commitIndex))
    (hv : x.node.voters = n.voters) (hrole : x.node.role = .leader) (hlead : n.role = .leader)
    (hterm : x.node.term = n.term) (hr : x.node.pendingReads.lookup readId = some r)
    (hreads : ∀ readId r, x.node.pendingReads.lookup readId = some r → Held w n e readId r)
    (hans : onApplies x.calls = [])
    (hpings : ∀ dst m, .send dst (.readHeartbeat m) ∈ x.calls →
      m.leader = n.id ∧ m.readId < x.node.nextReadId)
    (hacks : ∀ dst m, .send dst (.readAck m) ∉ x.calls) :
    ReadStep w n e (x.tryServeRead readId) := by
  simp only [Prod.mk.injEq] at hm
  obtain ⟨hkv, hla, hcom⟩ := hm
  rcases tryServeRead_cases x readId with heq | ⟨r', hr', hel, hidx, heq⟩
  -- too few acknowledgements, or too little applied: the read waits
  · rw [heq]
    refine ⟨fun id r hr => ⟨hreads id r hr, hrole, hterm⟩, fun r hr => ?_, fun r hr => ?_, hpings,
      fun dst m hm => absurd hm (hacks dst m)⟩
    · rw [hla, Nat.sub_self, List.take_zero] at hr
      cases hr
    · rw [hans] at hr
      cases hr
  -- the read is dropped, and its answer is the one report of the callback
  · obtain rfl := Option.some.inj (hr.symm.trans hr')
    rw [heq]
    have hcalls : onApplies (((x.set (x.node.dropRead readId)).record
        (.readserved x.node.id readId r.command)).call (.onApply r.command
          (x.node.kv.applyRead (Command.decode r.command)))).calls =
        [(r.command, n.kv.applyRead (Command.decode r.command))] := by
      change onApplies ((x.calls ++ [_]) ++ [_]) = _
      rw [onApplies_append, onApplies_append, hans, ← hkv]
      rfl
    refine ⟨fun id q hq => ?_, fun q hq => ?_, fun q hq => Or.inr ?_, fun dst m hm => ?_,
      fun dst m hm => ?_⟩
    · have hq : (x.node.pendingReads.erase readId).lookup id = some q := hq
      by_cases hid : id = readId
      · subst hid
        rw [Finmap.lookup_erase] at hq
        cases hq
      · rw [Finmap.lookup_erase_ne hid] at hq
        exact ⟨hreads id q hq, hrole, hterm⟩
    · change q ∈ reports n.kv ((x.node.log.drop n.lastApplied).take
        (x.node.lastApplied-n.lastApplied)) at hq
      rw [hla, Nat.sub_self, List.take_zero] at hq
      cases hq
    · rw [hcalls] at hq
      obtain rfl := List.mem_singleton.mp hq
      exact ⟨hlog, hcom, hlead, readId, r, hreads readId r hr, hv ▸ hel, hla ▸ hidx, rfl⟩
    · refine hpings dst m ?_
      change _ ∈ (x.calls ++ [_]) ++ [_] at hm
      simpa using hm
    · refine absurd ?_ (hacks dst m)
      change _ ∈ (x.calls ++ [_]) ++ [_] at hm
      simpa using hm

theorem requestRead_readStep {i : NodeId} {command : Str} (he : e = .requestRead i command)
    (hn : ∀ readId r, n.pendingReads.lookup readId = some r → n.role = .leader) :
    ReadStep w n e (({ node := n } : Exec).requestRead command).1 := by
  rcases requestRead_cases ⟨n, []⟩ command with heq | ⟨hlead, hct, heq⟩
  · rw [heq]
    exact (Silent.refl _).readStep hn
  · rw [heq]
    have hcalls : ∀ call ∈ (((({ node := n } : Exec).set (n.queueRead command)).record
        (.read n.id n.nextReadId n.commitIndex)).sendAll n.otherVoters (.readHeartbeat {
          term := n.term, leader := n.id, readId := n.nextReadId })).calls,
        (∃ event, call = .record event) ∨ ∃ dst, call = .send dst (.readHeartbeat {
          term := n.term, leader := n.id, readId := n.nextReadId }) := by
      intro call hcall
      rcases List.mem_append.mp hcall with hcall | hcall
      · exact Or.inl ⟨_, List.mem_singleton.mp hcall⟩
      · obtain ⟨dst, -, rfl⟩ := List.mem_map.mp hcall
        exact Or.inr ⟨dst, rfl⟩
    refine tryServeRead_readStep (r := { command, readIndex := n.commitIndex, acks := {n.id} })
      rfl rfl rfl hlead hlead rfl (Finmap.lookup_insert _) (fun id r hr => ?_) ?_
      (fun dst m hm => ?_) fun dst m hm => ?_
    · have hr : (n.pendingReads.insert n.nextReadId
          { command, readIndex := n.commitIndex, acks := {n.id} }).lookup id = some r := hr
      by_cases hid : id = n.nextReadId
      · subst hid
        rw [Finmap.lookup_insert] at hr
        obtain rfl := Option.some.inj hr
        exact .asked he hlead hct rfl
      · rw [Finmap.lookup_insert_of_ne _ hid] at hr
        exact .kept hr
    · have hmute : ∀ dsts : List NodeId, onApplies (dsts.map fun dst => .send dst
          (.readHeartbeat { term := n.term, leader := n.id, readId := n.nextReadId })) = [] := by
        intro dsts
        induction dsts with
        | nil => rfl
        | cons d dsts ih => exact ih
      exact hmute _
    · rcases hcalls _ hm with ⟨event, hev⟩ | ⟨dst', heq⟩
      · cases hev
      · cases heq
        exact ⟨rfl, Nat.lt_succ_self _⟩
    · rcases hcalls _ hm with ⟨event, hev⟩ | ⟨dst', heq⟩
      · cases hev
      · cases heq

theorem onReadHeartbeat_readStep {k : ℕ} {p : Packet} {h : ReadHeartbeat} (he : e = .deliver k)
    (hk : w.sent[k]? = some p) (hp : p.msg = .readHeartbeat h)
    (hn : ∀ readId r, n.pendingReads.lookup readId = some r → n.role = .leader) :
    ReadStep w n e (({ node := n } : Exec).onReadHeartbeat h) := by
  obtain ⟨z, hz, heq⟩ := onReadHeartbeat_sends ⟨n, []⟩ h
  have hid := (onReadHeartbeat_kept ⟨n, []⟩ h).1.id
  have hstep : ReadStep w n e z := hz.readStep hn
  rw [heq] at hid ⊢
  have hans : onApplies (z.send h.leader (.readAck {
      term := z.node.term, follower := z.node.id, readId := h.readId })).calls =
      onApplies z.calls := by
    change onApplies (z.calls ++ [_]) = _
    rw [onApplies_append]
    exact List.append_nil _
  refine ⟨hstep.reads, fun r hr => ?_, fun r hr => ?_, fun dst m hm => ?_, fun dst m hm => ?_⟩
  · rw [hans]
    exact hstep.reported r hr
  · rw [hans] at hr
    rcases hstep.answers r hr with hr | hs
    · exact Or.inl hr
    · exact Or.inr ⟨hs.log, hs.commit, hs.leader, hs.held⟩
  · rcases List.mem_append.mp hm with hm | hm
    · exact hstep.pings dst m hm
    · cases List.mem_singleton.mp hm
  · rcases List.mem_append.mp hm with hm | hm
    · exact hstep.acks dst m hm
    · cases List.mem_singleton.mp hm
      exact ⟨hid, rfl, k, p, h, he, hk, hp, rfl, rfl⟩

theorem onReadAck_readStep {k : ℕ} {p : Packet} {m : ReadAck} (he : e = .deliver k)
    (hk : w.sent[k]? = some p) (hp : p.msg = .readAck m)
    (hn : ∀ readId r, n.pendingReads.lookup readId = some r → n.role = .leader) :
    ReadStep w n e (({ node := n } : Exec).onReadAck m) := by
  rcases onReadAck_cases ⟨n, []⟩ m with hs | ⟨r, hr, hterm, hlead, heq⟩
  · exact hs.readStep hn
  · rw [heq]
    refine tryServeRead_readStep (r := { r with acks := insert m.follower r.acks })
      rfl rfl rfl hlead hlead rfl (Finmap.lookup_insert _) (fun id q hq => ?_) rfl nofun nofun
    have hq : (n.pendingReads.insert m.readId
        { r with acks := insert m.follower r.acks }).lookup id = some q := hq
    by_cases hid : id = m.readId
    · subst hid
      rw [Finmap.lookup_insert] at hq
      obtain rfl := Option.some.inj hq
      exact .acked he hk hp rfl hterm hr
    · rw [Finmap.lookup_insert_of_ne _ hid] at hq
      exact .kept hq

end Exec

/-- Every callback accounts for the reads it keeps and for what it answers. -/
theorem callback_readStep {y : Exec} (hp : Exec.Plainly n)
    (hi : ∀ p ∈ w.sent, ∀ m, p.msg ≠ .installSnapshot m) (he : ∀ j vs, e ≠ .changeConfig j vs)
    (hn : ∀ readId r, n.pendingReads.lookup readId = some r → n.role = .leader)
    (hy : w.callback n e = .ok y) :
    ReadStep w n e y := by
  by_cases hord : e.Ordinary w
  · exact (callback_answers hp hord hy).readStep hn
  · cases e with
    | changeConfig j vs => exact absurd rfl (he j vs)
    | requestRead j command =>
      obtain rfl := Except.ok.inj hy
      exact Exec.requestRead_readStep rfl hn
    | deliver k =>
      rw [World.callback] at hy
      cases hk : w.sent[k]? with
      | none =>
        refine absurd (fun p hp => ?_) hord
        cases hk.symm.trans hp
      | some p =>
        rw [hk] at hy
        dsimp only at hy
        have himage := hi p (List.mem_of_getElem? hk)
        unfold Exec.handle at hy
        split at hy
        · obtain rfl := Except.ok.inj hy
          exact (Exec.Silent.refl _).readStep hn
        · cases hmsg : p.msg with
          | readHeartbeat h =>
            rw [hmsg] at hy
            obtain rfl := Except.ok.inj hy
            exact Exec.onReadHeartbeat_readStep rfl hk hmsg hn
          | readAck m =>
            rw [hmsg] at hy
            obtain rfl := Except.ok.inj hy
            exact Exec.onReadAck_readStep rfl hk hmsg hn
          | _ =>
            refine absurd (fun q hq => ?_) hord
            obtain rfl := Option.some.inj (hk.symm.trans hq)
            exact ⟨by rw [hmsg]; exact id, himage⟩
    | _ => exact absurd trivial hord

end RaftVerified
