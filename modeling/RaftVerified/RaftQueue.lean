import RaftVerified.RaftCompleteness
import RaftVerified.RaftElections
import RaftVerified.RaftTimers

/-! The timers of the nodes in the queue of a cluster, and the drivers that crash and resume
nodes (`cluster.py`). In every run each live node has one timer that counts. -/
namespace RaftVerified

variable {c : Setup} {n : RaftNode} {ts us : List Timer} {t : Timer} {x y : Exec} {i j : NodeId}

/-- A cluster with the timers in its queue. Any of them may come next, as the delays are random.
`crashed` are the nodes that the network takes for down. -/
structure Timed where
  world : World
  pending : List (NodeId × Timer)
  crashed : Finset NodeId

/-- A simulator step that runs a callback of a node, or a driver that may. -/
inductive TimedEvent
  | fire (k : ℕ)
  | deliver (k : ℕ)
  | clientCommand (i : NodeId) (command : Str)
  | requestRead (i : NodeId) (command : Str)
  | crash (i : NodeId)
  | maybeResume (i : NodeId)
  deriving DecidableEq, Repr

/-- The callback of a timer of node `i`. -/
def Timer.event (i : NodeId) : Timer → Event
  | .electionTimeout seq => .electionTimeout i seq
  | .heartbeat seq => .heartbeat i seq

/-- The timers of node `i` in a queue. -/
def timersOf (i : NodeId) (pending : List (NodeId × Timer)) : List Timer :=
  pending.filterMap fun p => if p.1 = i then some p.2 else none

namespace Timed

/-- Every node has been created and started. -/
def init (c : Setup) : Timed where
  world := World.init c
  pending := c.ids.flatMap fun i =>
    (armed (({ node := c.node i } : Exec).start).calls).map fun t => (i, t)
  crashed := ∅

/-- Run the callback of an event and queue the timers it starts. -/
def perform (c : Setup) (s : Timed) (e : Event) : Except PyError Timed :=
  match s.world.target e with
  | none => .ok s
  | some i =>
    if i ∈ c.ids then do
      let x ← s.world.callback (s.world.nodes i) e
      .ok { s with
        world := s.world.put i x
        pending := s.pending ++ (armed x.calls).map fun t => (i, t) }
    else .ok s

/-- One step. Both drivers look at the node, or at the network, before they act. -/
def step (c : Setup) (s : Timed) : TimedEvent → Except PyError Timed
  | .fire k =>
    match s.pending[k]? with
    | none => .ok s
    | some (i, t) => { s with pending := s.pending.eraseIdx k }.perform c (t.event i)
  | .deliver k => s.perform c (.deliver k)
  | .clientCommand i command => s.perform c (.clientCommand i command)
  | .requestRead i command => s.perform c (.requestRead i command)
  | .crash i =>
    if (s.world.nodes i).alive then
      { s with crashed := insert i s.crashed }.perform c (.pause i)
    else .ok s
  | .maybeResume i =>
    if i ∈ s.crashed then { s with crashed := s.crashed.erase i }.perform c (.resume i)
    else .ok s

/-- Nobody asks for a configuration as a command. -/
def Allowed : TimedEvent → Prop
  | .clientCommand _ command => Plain command
  | _ => True

instance (e : TimedEvent) : Decidable (Allowed e) := by
  cases e <;> unfold Allowed <;> infer_instance

/-- The runs without membership changes: all states so far, the newest first. -/
inductive Run (c : Setup) : List Timed → Prop
  | init : Run c [Timed.init c]
  | step {s s' : Timed} {past : List Timed} {e : TimedEvent} : Run c (s :: past) → Allowed e →
      s.step c e = .ok s' → Run c (s' :: s :: past)

/-- The run that goes on from `ss` with the events that are allowed and do not fail. -/
def follow (c : Setup) : List Timed → List TimedEvent → List Timed
  | ss, [] => ss
  | [], _ => []
  | s :: past, e :: rest =>
    if Allowed e then
      match s.step c e with
      | .ok s' => follow c (s' :: s :: past) rest
      | .error _ => follow c (s :: past) rest
    else follow c (s :: past) rest

theorem follow_run {c : Setup} {ss : List Timed} (h : Run c ss) (es : List TimedEvent) :
    Run c (follow c ss es) := by
  induction es generalizing ss with
  | nil => rwa [follow]
  | cons e rest ih =>
    cases ss with
    | nil => cases h
    | cons s past =>
      unfold follow
      split
      next hall =>
        split
        next s' hs' => exact ih (.step h hall hs')
        next => exact ih h
      next => exact ih h

end Timed

/-! ### One callback -/

/-- What a callback leaves of a node with the timers `ts`. -/
structure Outcome (n : RaftNode) (ts : List Timer) (y : Exec) (alive : Bool) : Prop where
  id : y.node.id = n.id
  alive : y.node.alive = alive
  later : n.timerSeq ≤ y.node.timerSeq
  clocked : y.node.Clocked (ts ++ armed y.calls)
  requests : ∀ dst m, .send dst (.requestVote m) ∈ y.calls → dst ≠ m.candidate
  pings : ∀ dst m, .send dst (.readHeartbeat m) ∈ y.calls →
    dst ≠ m.leader ∧ m.leader = n.id ∧ n.role = .leader ∧ m.term = n.term

theorem RaftNode.Clocked.ticks (h : n.Clocked ts) (ha : n.alive = true) :
    Exec.Ticks n ts ⟨n, []⟩ := by
  have hts : ts ++ armed [] = ts := List.append_nil ts
  refine ⟨⟨rfl, ha, le_rfl, ?_, h.self, nofun, nofun⟩, ?_⟩
  · exact hts.symm ▸ h.bound
  · exact hts.symm ▸ h.live ha

theorem Exec.Ticks.outcome (h : Exec.Ticks n ts y) : Outcome n ts y true where
  id := h.id
  alive := h.alive
  later := h.later
  clocked := ⟨h.bound, fun _ => h.live, fun hd => absurd (h.alive.symm.trans hd) nofun, h.self⟩
  requests := h.requests
  pings := h.pings

/-- A callback that does nothing. -/
theorem RaftNode.Clocked.outcome (h : n.Clocked ts) : Outcome n ts ⟨n, []⟩ n.alive where
  id := rfl
  alive := rfl
  later := le_rfl
  clocked := by
    have hts : ts ++ armed [] = ts := List.append_nil ts
    exact hts.symm ▸ h
  requests := nofun
  pings := nofun

theorem RaftNode.Clocked.pause (h : n.Clocked ts) : Outcome n ts ⟨n.pause, []⟩ false where
  id := rfl
  alive := rfl
  later := Nat.le_succ _
  clocked := by
    have hts : ts ++ armed [] = ts := List.append_nil ts
    refine hts.symm ▸ ⟨fun t ht => Nat.le_succ_of_le (h.bound t ht), nofun, fun _ => ⟨?_, rfl⟩, ?_⟩
    · rw [List.filter_eq_nil_iff]
      intro t ht
      have hle := h.bound t ht
      change ¬ decide (t.seq = n.timerSeq+1) = true
      rw [decide_eq_true_eq]
      omega
    · exact fun hr => absurd rfl hr
  requests := nofun
  pings := nofun

theorem RaftNode.Clocked.resume (h : n.Clocked ts) (hd : n.alive = false) :
    Outcome n ts (({ node := n } : Exec).resume) true := by
  have hts : ts ++ armed [] = ts := List.append_nil ts
  obtain ⟨-, hrole⟩ := h.dead hd
  have hloose : Exec.Loose n ts ⟨{ n with alive := true }, []⟩ :=
    ⟨rfl, rfl, le_rfl, hts.symm ▸ h.bound, h.self, nofun, nofun⟩
  refine (hloose.armElectionTimer ?_).outcome
  change n.role ≠ .leader
  rw [hrole]
  nofun

/-- A timer that does not count is ignored. -/
theorem callback_stale (w : World) (i : NodeId) (h : n.alive = false ∨ t.seq ≠ n.timerSeq) :
    w.callback n (t.event i) = .ok ⟨n, []⟩ := by
  cases t with
  | electionTimeout seq =>
    show ({ node := n } : Exec).onElectionTimeout seq = _
    exact if_pos (h.imp_right Or.inl)
  | heartbeat seq =>
    show ({ node := n } : Exec).onHeartbeat seq = _
    exact if_pos (h.imp_right Or.inl)

/-- A timer that fires leaves the queue. If it counts, the callback starts the next one. -/
theorem RaftNode.Clocked.fire (h : n.Clocked (ts ++ t :: us)) {w : World}
    (hy : w.callback n (t.event i) = .ok y) : Outcome n (ts ++ us) y n.alive := by
  have hbound : ∀ u ∈ ts ++ us, u.seq ≤ n.timerSeq := fun u hu => by
    refine h.bound u ?_
    rcases List.mem_append.mp hu with hu | hu
    · exact List.mem_append_left _ hu
    · exact List.mem_append_right _ (List.mem_cons_of_mem _ hu)
  by_cases hcur : n.alive = true ∧ t.seq = n.timerSeq
  · obtain ⟨ha, hseq⟩ := hcur
    have hlive := h.live ha
    rw [List.filter_append, List.filter_cons_of_pos (p := fun u : Timer =>
      decide (u.seq = n.timerSeq)) (decide_eq_true hseq)] at hlive
    -- it is the only one that counts
    have htimer : t = n.timer := by
      have hmem : t ∈ [n.timer] := by
        rw [← hlive]
        exact List.mem_append_right _ List.mem_cons_self
      exact List.mem_singleton.mp hmem
    have hts : (ts ++ us) ++ armed [] = ts ++ us := List.append_nil _
    have hloose : Exec.Loose n (ts ++ us) ⟨n, []⟩ :=
      ⟨rfl, ha, le_rfl, hts.symm ▸ hbound, h.self, fun _ _ hm => absurd hm List.not_mem_nil,
        fun _ _ hm => absurd hm List.not_mem_nil⟩
    rw [ha]
    by_cases hr : n.role = .leader
    · rw [RaftNode.timer, if_pos hr] at htimer
      subst htimer
      change ({ node := n } : Exec).onHeartbeat n.timerSeq = .ok y at hy
      unfold Exec.onHeartbeat at hy
      rw [if_neg (by simp [ha, hr])] at hy
      obtain ⟨z, hz, hy⟩ := bind_ok.mp hy
      obtain rfl := Except.ok.inj hy
      have hsent := (Exec.broadcastTo_steady _ hz).toIdle
      have hrole : z.node.role = n.role := congrArg (·.2.2.1) hsent.clock
      exact ((hloose.idle hsent).armHeartbeatTimer (hrole.trans hr)).outcome
    · rw [RaftNode.timer, if_neg hr] at htimer
      subst htimer
      change ({ node := n } : Exec).onElectionTimeout n.timerSeq = .ok y at hy
      unfold Exec.onElectionTimeout at hy
      rw [if_neg (by simp [ha, hr])] at hy
      exact ((hloose.idle (Exec.idle_record _ _)).startElection hr hy).outcome
  · have hstale : n.alive = false ∨ t.seq ≠ n.timerSeq := by
      rwa [not_and_or, Bool.not_eq_true] at hcur
    rw [callback_stale w i hstale] at hy
    obtain rfl := Except.ok.inj hy
    refine RaftNode.Clocked.outcome ⟨hbound, fun ha => ?_, fun hd => ?_, h.self⟩
    · have hne : t.seq ≠ n.timerSeq := hstale.resolve_left (by simp [ha])
      have hlive := h.live ha
      rw [List.filter_append, List.filter_cons_of_neg (p := fun u : Timer =>
        decide (u.seq = n.timerSeq)) (by rwa [decide_eq_true_eq])] at hlive
      rwa [List.filter_append]
    · obtain ⟨hnone, hrole⟩ := h.dead hd
      refine ⟨?_, hrole⟩
      rw [List.filter_eq_nil_iff] at hnone ⊢
      intro u hu
      refine hnone u ?_
      rcases List.mem_append.mp hu with hu | hu
      · exact List.mem_append_left _ hu
      · exact List.mem_append_right _ (List.mem_cons_of_mem _ hu)

theorem RaftNode.Clocked.handle (h : n.Clocked ts) {msg : Message}
    (hvote : ∀ m, msg = .requestVote m → m.candidate ≠ n.id)
    (hping : ∀ m, msg = .readHeartbeat m → n.role = .leader → n.term ≠ m.term)
    (hy : ({ node := n } : Exec).handle msg = .ok y) : Outcome n ts y n.alive := by
  unfold Exec.handle at hy
  split at hy
  · obtain rfl := Except.ok.inj hy
    exact h.outcome
  next ha =>
    have ha : n.alive = true := (Bool.not_eq_false _).mp ha
    have hx := h.ticks ha
    rw [ha]
    refine Exec.Ticks.outcome ?_
    cases msg with
    | requestVote m => exact hx.onRequestVote (hvote m rfl) hy
    | voteReply m => exact hx.onVoteReply hy
    | appendEntries m => exact hx.onAppendEntries hy
    | appendReply m => exact hx.onAppendReply hy
    | installSnapshot m => exact hx.onInstallSnapshot hy
    | readHeartbeat m =>
      obtain rfl := Except.ok.inj hy
      exact hx.onReadHeartbeat (hping m rfl)
    | readAck m =>
      obtain rfl := Except.ok.inj hy
      exact hx.onReadAck m

/-- A request of a client. -/
theorem RaftNode.Clocked.request (h : n.Clocked ts) {w : World} {command : Str} {e : Event}
    (he : e = .clientCommand i command ∨ e = .requestRead i command)
    (hy : w.callback n e = .ok y) : Outcome n ts y n.alive := by
  rcases he with rfl | rfl
  · obtain ⟨b, hy⟩ := map_fst_ok hy
    cases ha : n.alive with
    | true => exact ((h.ticks ha).idle (Exec.clientCommand_steady hy).toIdle).outcome
    | false =>
      rcases Exec.clientCommand_cases hy with ⟨-, rfl⟩ | ⟨-, halive, -⟩
      · exact ha ▸ h.outcome
      · exact Bool.noConfusion (ha.symm.trans halive)
  · obtain rfl := Except.ok.inj hy
    cases ha : n.alive with
    | true => exact ((h.ticks ha).requestRead command).outcome
    | false =>
      have hsame : (({ node := n } : Exec).requestRead command).1 = ⟨n, []⟩ := by
        unfold Exec.requestRead
        rw [if_pos (Or.inr (Or.inl ha))]
      rw [hsame]
      exact ha ▸ h.outcome

/-! ### Queues -/

theorem timersOf_append (i : NodeId) (ps qs : List (NodeId × Timer)) :
    timersOf i (ps ++ qs) = timersOf i ps ++ timersOf i qs := List.filterMap_append

theorem timersOf_cons_self (i : NodeId) (t : Timer) (ps : List (NodeId × Timer)) :
    timersOf i ((i, t) :: ps) = t :: timersOf i ps := by
  simp [timersOf]

theorem timersOf_cons_ne (h : j ≠ i) (t : Timer) (ps : List (NodeId × Timer)) :
    timersOf i ((j, t) :: ps) = timersOf i ps := by
  simp [timersOf, h]

theorem timersOf_map_self (i : NodeId) (ts : List Timer) :
    timersOf i (ts.map fun t => (i, t)) = ts := by
  induction ts with
  | nil => rfl
  | cons t ts ih => rw [List.map_cons, timersOf_cons_self, ih]

theorem timersOf_map_ne (h : j ≠ i) (ts : List Timer) :
    timersOf i (ts.map fun t => (j, t)) = [] := by
  induction ts with
  | nil => rfl
  | cons t ts ih => rw [List.map_cons, timersOf_cons_ne h, ih]

theorem timersOf_flatMap (f : NodeId → List Timer) {ids : List NodeId} (hn : ids.Nodup)
    (hi : i ∈ ids) : timersOf i (ids.flatMap fun j => (f j).map fun t => (j, t)) = f i := by
  have hother (js : List NodeId) (h : i ∉ js) :
      timersOf i (js.flatMap fun j => (f j).map fun t => (j, t)) = [] := by
    induction js with
    | nil => rfl
    | cons j js ih =>
      rw [List.mem_cons, not_or] at h
      rw [List.flatMap_cons, timersOf_append, timersOf_map_ne (Ne.symm h.1), ih h.2]
      rfl
  induction ids with
  | nil => cases hi
  | cons j js ih =>
    rw [List.nodup_cons] at hn
    rw [List.flatMap_cons, timersOf_append]
    by_cases hj : j = i
    · subst hj
      rw [timersOf_map_self, hother js hn.1, List.append_nil]
    · rw [timersOf_map_ne hj, List.nil_append]
      exact ih hn.2 ((List.mem_cons.mp hi).resolve_left (Ne.symm hj))

/-- What is left of a queue that an event is taken from. -/
theorem timersOf_eraseIdx {pending : List (NodeId × Timer)} {k : ℕ}
    (hk : pending[k]? = some (i, t)) :
    (∃ ts us, timersOf i pending = ts ++ t :: us ∧
      timersOf i (pending.eraseIdx k) = ts ++ us) ∧
    ∀ j, j ≠ i → timersOf j (pending.eraseIdx k) = timersOf j pending := by
  obtain ⟨hlt, hget⟩ := List.getElem?_eq_some_iff.mp hk
  have hsplit : pending = pending.take k ++ (i, t) :: pending.drop (k+1) := by
    rw [← hget, ← List.drop_eq_getElem_cons hlt, List.take_append_drop]
  rw [List.eraseIdx_eq_take_drop_succ]
  refine ⟨⟨timersOf i (pending.take k), timersOf i (pending.drop (k+1)), ?_, ?_⟩, fun j hj => ?_⟩
  · conv_lhs => rw [hsplit]
    rw [timersOf_append, timersOf_cons_self]
  · rw [timersOf_append]
  · conv_rhs => rw [hsplit]
    rw [timersOf_append, timersOf_append, timersOf_cons_ne hj.symm]

/-! ### Runs -/

namespace Timed
variable {s s' : Timed} {past : List Timed}

/-- The invariant of a run whose last state is `s`. -/
structure Good (c : Setup) (s : Timed) (past : List Timed) : Prop where
  id : ∀ i ∈ c.ids, (s.world.nodes i).id = i
  clocked : ∀ i ∈ c.ids, (s.world.nodes i).Clocked (timersOf i s.pending)
  down : ∀ i ∈ c.ids, i ∈ s.crashed ↔ (s.world.nodes i).alive = false
  requests : ∀ p ∈ s.world.sent, ∀ m, p.msg = .requestVote m → p.dst ≠ m.candidate
  pings : ∀ p ∈ s.world.sent, ∀ m, p.msg = .readHeartbeat m → p.dst ≠ m.leader ∧
    m.leader ∈ c.ids ∧ ∃ v ∈ s :: past, (v.world.nodes m.leader).role = .leader ∧
      (v.world.nodes m.leader).term = m.term

theorem good_init (c : Setup) : Good c (init c) [] where
  id i _ := rfl
  clocked i hi := by
    have hnodup : c.ids.Nodup := List.nodup_range.map fun _ _ => Int.ofNat.inj
    have htimers : timersOf i (init c).pending = [.electionTimeout 1] :=
      timersOf_flatMap _ hnodup hi
    rw [htimers]
    refine ⟨fun t ht => ?_, fun _ => rfl, nofun, fun hr => absurd rfl hr⟩
    rw [List.mem_singleton.mp ht]
    exact le_rfl
  down i _ := ⟨fun h => absurd h (Finset.notMem_empty i), nofun⟩
  requests := nofun
  pings := nofun

/-- The step of node `i` on the timers `ts` that are left to it. -/
theorem Good.put (h : Good c s past) (hi : i ∈ c.ids) {pending : List (NodeId × Timer)}
    {crashed : Finset NodeId} {alive : Bool}
    (hout : Outcome (s.world.nodes i) (timersOf i pending) y alive)
    (hrest : ∀ j, j ≠ i → timersOf j pending = timersOf j s.pending)
    (hcrashed : ∀ j, j ≠ i → (j ∈ crashed ↔ j ∈ s.crashed)) (hdown : i ∈ crashed ↔ alive = false) :
    Good c ⟨s.world.put i y, pending ++ (armed y.calls).map fun t => (i, t), crashed⟩
      (s :: past) where
  id j hj := by
    by_cases hji : j = i
    · subst hji
      change ((s.world.put j y).nodes j).id = j
      rw [World.put_nodes_self, hout.id, h.id j hj]
    · change ((s.world.put i y).nodes j).id = j
      rw [World.put_nodes_ne _ _ hji, h.id j hj]
  clocked j hj := by
    change ((s.world.put i y).nodes j).Clocked (timersOf j (pending ++ _))
    rw [timersOf_append]
    by_cases hji : j = i
    · subst hji
      rw [World.put_nodes_self, timersOf_map_self]
      exact hout.clocked
    · rw [World.put_nodes_ne _ _ hji, timersOf_map_ne (Ne.symm hji), List.append_nil, hrest j hji]
      exact h.clocked j hj
  down j hj := by
    change j ∈ crashed ↔ ((s.world.put i y).nodes j).alive = false
    by_cases hji : j = i
    · subst hji
      rw [World.put_nodes_self, hout.alive]
      exact hdown
    · rw [World.put_nodes_ne _ _ hji, hcrashed j hji]
      exact h.down j hj
  requests p hp m hm := by
    rcases List.mem_append.mp hp with hp | hp
    · exact h.requests p hp m hm
    · have hcall := mem_sends hp
      rw [hm] at hcall
      exact hout.requests p.dst m hcall
  pings p hp m hm := by
    rcases List.mem_append.mp hp with hp | hp
    · obtain ⟨hne, hids, v, hv, hlead⟩ := h.pings p hp m hm
      exact ⟨hne, hids, v, List.mem_cons_of_mem _ hv, hlead⟩
    · have hcall := mem_sends hp
      rw [hm] at hcall
      obtain ⟨hne, hid, hrole, hterm⟩ := hout.pings p.dst m hcall
      have hleader : m.leader = i := hid.trans (h.id i hi)
      rw [hleader] at hne ⊢
      exact ⟨hne, hi, s, List.mem_cons_of_mem _ List.mem_cons_self, hrole, hterm.symm⟩

theorem perform_ok {e : Event} (h : s.perform c e = .ok s') :
    (s' = s ∧ ∀ i, s.world.target e = some i → i ∉ c.ids) ∨
    ∃ i y, s.world.target e = some i ∧ i ∈ c.ids ∧
      s.world.callback (s.world.nodes i) e = .ok y ∧
      s' = ⟨s.world.put i y, s.pending ++ (armed y.calls).map fun t => (i, t), s.crashed⟩ := by
  unfold perform at h
  split at h
  next ht =>
    refine Or.inl ⟨(Except.ok.inj h).symm, fun i hi => ?_⟩
    rw [ht] at hi
    cases hi
  next i ht =>
    split at h
    next hi =>
      obtain ⟨y, hy, h⟩ := bind_ok.mp h
      exact Or.inr ⟨i, y, ht, hi, hy, (Except.ok.inj h).symm⟩
    next hi =>
      refine Or.inl ⟨(Except.ok.inj h).symm, fun j hj => ?_⟩
      rw [ht] at hj
      obtain rfl := Option.some.inj hj
      exact hi

/-- What the nodes see of a step. -/
theorem perform_world {e : Event} (h : s.perform c e = .ok s') :
    s.world.step c e = .ok s'.world := by
  unfold World.step
  unfold perform at h
  cases ht : s.world.target e with
  | none =>
    simp only [ht] at h ⊢
    obtain rfl := Except.ok.inj h
    rfl
  | some i =>
    simp only [ht] at h ⊢
    by_cases hi : i ∈ c.ids
    · rw [if_pos hi] at h ⊢
      obtain ⟨y, hy, h⟩ := bind_ok.mp h
      obtain rfl := Except.ok.inj h
      rw [hy]
      rfl
    · rw [if_neg hi] at h ⊢
      obtain rfl := Except.ok.inj h
      rfl

theorem step_world {e : TimedEvent} (hall : Allowed e) (h : s.step c e = .ok s')
    (ws : List World) :
    ∃ e', FixedVoters ws e' ∧ s.world.step c e' = .ok s'.world := by
  have hsame : ∃ e', FixedVoters ws e' ∧ s.world.step c e' = .ok s.world := by
    refine ⟨.deliver s.world.sent.length, trivial, ?_⟩
    have hnone : s.world.target (.deliver s.world.sent.length) = none := by
      rw [World.target, List.getElem?_eq_none le_rfl]
      rfl
    unfold World.step
    rw [hnone]
  have hrun {v : Timed} {f : Event} (h : v.perform c f = .ok s')
      (hw : v.world = s.world) (hall : FixedVoters ws f) :
      ∃ e', FixedVoters ws e' ∧ s.world.step c e' = .ok s'.world :=
    ⟨f, hall, hw ▸ perform_world h⟩
  cases e with
  | fire k =>
    unfold step at h
    dsimp only at h
    split at h
    · obtain rfl := Except.ok.inj h
      exact hsame
    next i t hk => exact hrun h rfl (by cases t <;> trivial)
  | deliver k => exact hrun (v := s) (f := .deliver k) h rfl trivial
  | clientCommand i command =>
    exact hrun (v := s) (f := .clientCommand i command) h rfl hall
  | requestRead i command => exact hrun (v := s) (f := .requestRead i command) h rfl trivial
  | crash i =>
    unfold step at h
    dsimp only at h
    split at h
    · exact hrun h rfl trivial
    · obtain rfl := Except.ok.inj h
      exact hsame
  | maybeResume i =>
    unfold step at h
    dsimp only at h
    split at h
    · exact hrun h rfl trivial
    · obtain rfl := Except.ok.inj h
      exact hsame

/-- The nodes of a run are those of a run with a fixed voting set. -/
theorem Run.worlds {ss : List Timed} (h : Run c ss) :
    RaftVerified.Run c FixedVoters (ss.map (·.world)) := by
  induction h with
  | init => exact .init
  | @step s s' past e hr hplain hstep ih =>
    obtain ⟨e', hall, hstep'⟩ := step_world hplain hstep ((s :: past).map (·.world))
    exact .step ih hall hstep'

/-- The invariant holds after a step, and no sequence number falls. -/
def Goes (c : Setup) (s s' : Timed) (past : List Timed) : Prop :=
  Good c s' (s :: past) ∧ ∀ i ∈ c.ids, (s.world.nodes i).timerSeq ≤ (s'.world.nodes i).timerSeq

/-- An event at a node that does not exist. -/
theorem Good.elsewhere (h : Good c s past) {pending : List (NodeId × Timer)}
    {crashed : Finset NodeId}
    (hrest : ∀ j ∈ c.ids, timersOf j pending = timersOf j s.pending)
    (hcrashed : ∀ j ∈ c.ids, (j ∈ crashed ↔ j ∈ s.crashed)) :
    Goes c s ⟨s.world, pending, crashed⟩ past := by
  refine ⟨⟨h.id, fun j hj => ?_, fun j hj => ?_, h.requests, fun p hp m hm => ?_⟩,
    fun _ _ => le_rfl⟩
  · change (s.world.nodes j).Clocked (timersOf j pending)
    rw [hrest j hj]
    exact h.clocked j hj
  · change j ∈ crashed ↔ _
    rw [hcrashed j hj]
    exact h.down j hj
  · obtain ⟨hne, hids, v, hv, hlead⟩ := h.pings p hp m hm
    exact ⟨hne, hids, v, List.mem_cons_of_mem _ hv, hlead⟩

theorem Good.stays (h : Good c s past) : Goes c s s past :=
  h.elsewhere (fun _ _ => rfl) fun _ _ => Iff.rfl

theorem Good.goes (h : Good c s past) (hi : i ∈ c.ids) {pending : List (NodeId × Timer)}
    {crashed : Finset NodeId} {alive : Bool}
    (hout : Outcome (s.world.nodes i) (timersOf i pending) y alive)
    (hrest : ∀ j, j ≠ i → timersOf j pending = timersOf j s.pending)
    (hcrashed : ∀ j, j ≠ i → (j ∈ crashed ↔ j ∈ s.crashed)) (hdown : i ∈ crashed ↔ alive = false) :
    Goes c s ⟨s.world.put i y, pending ++ (armed y.calls).map fun t => (i, t), crashed⟩ past := by
  refine ⟨h.put hi hout hrest hcrashed hdown, fun j _ => ?_⟩
  by_cases hji : j = i
  · subst hji
    change _ ≤ ((s.world.put j y).nodes j).timerSeq
    rw [World.put_nodes_self]
    exact hout.later
  · change _ ≤ ((s.world.put i y).nodes j).timerSeq
    rw [World.put_nodes_ne _ _ hji]

/-- A leader is never asked to confirm a leader of its own term. -/
theorem Good.no_rival (hr : Run c (s :: past)) (h : Good c s past) {p : Packet}
    (hp : p ∈ s.world.sent) (hi : p.dst ∈ c.ids) {m : ReadHeartbeat}
    (hm : p.msg = .readHeartbeat m) (hrole : (s.world.nodes p.dst).role = .leader) :
    (s.world.nodes p.dst).term ≠ m.term := by
  intro hterm
  obtain ⟨hne, hids, v, hv, hlead, hled⟩ := h.pings p hp m hm
  obtain ⟨a, helects⟩ := fixed_elects hr.worlds
  exact hne (helects.same_leader List.mem_cons_self (List.mem_map_of_mem hv) hi hids hrole hlead
    (hterm.trans hled.symm))

/-- An event at node `i`, before which only its own timers and crash have changed. -/
theorem Good.performs (h : Good c s past) {pending : List (NodeId × Timer)}
    {crashed : Finset NodeId} {e : Event} {alive : Bool} (ht : s.world.target e = some i)
    (hrest : ∀ j, j ≠ i → timersOf j pending = timersOf j s.pending)
    (hcrashed : ∀ j, j ≠ i → (j ∈ crashed ↔ j ∈ s.crashed))
    (hdown : i ∈ c.ids → (i ∈ crashed ↔ alive = false))
    (hout : i ∈ c.ids → ∀ y, s.world.callback (s.world.nodes i) e = .ok y →
      Outcome (s.world.nodes i) (timersOf i pending) y alive)
    (hstep : perform c ⟨s.world, pending, crashed⟩ e = .ok s') : Goes c s s' past := by
  rcases perform_ok hstep with ⟨rfl, hnone⟩ | ⟨j, y, ht', hi, hy, rfl⟩
  · have hne : ∀ j ∈ c.ids, j ≠ i := by
      rintro j hj rfl
      exact hnone j ht hj
    exact h.elsewhere (fun j hj => hrest j (hne j hj)) fun j hj => hcrashed j (hne j hj)
  · obtain rfl := Option.some.inj (ht.symm.trans ht')
    exact h.goes hi (hout hi y hy) hrest hcrashed (hdown hi)

theorem Good.fire (h : Good c s past) {k : ℕ} (hstep : s.step c (.fire k) = .ok s') :
    Goes c s s' past := by
  unfold Timed.step at hstep
  dsimp only at hstep
  split at hstep
  · obtain rfl := Except.ok.inj hstep
    exact h.stays
  next i t hk =>
    -- the queue before and after the timer has been taken out
    obtain ⟨⟨ts, us, hbefore, hafter⟩, hrest⟩ := timersOf_eraseIdx hk
    have htarget : s.world.target (t.event i) = some i := by cases t <;> rfl
    refine h.performs htarget hrest (fun _ _ => Iff.rfl) (h.down i) (fun hi y hy => ?_) hstep
    have hclocked := h.clocked i hi
    rw [hbefore] at hclocked
    rw [hafter]
    exact hclocked.fire hy

theorem Good.deliver (hr : Run c (s :: past)) (h : Good c s past) {k : ℕ}
    (hstep : s.perform c (.deliver k) = .ok s') : Goes c s s' past := by
  cases hk : s.world.sent[k]? with
  | none =>
    unfold perform at hstep
    rw [World.target, hk] at hstep
    obtain rfl := Except.ok.inj hstep
    exact h.stays
  | some p =>
    have hp := List.mem_of_getElem? hk
    have htarget : s.world.target (.deliver k) = some p.dst := by
      rw [World.target, hk]
      rfl
    refine h.performs htarget (fun _ _ => rfl) (fun _ _ => Iff.rfl) (h.down _) (fun hi y hy => ?_)
      hstep
    rw [World.callback, hk] at hy
    have hvote : ∀ m, p.msg = .requestVote m → m.candidate ≠ (s.world.nodes p.dst).id := by
      intro m hm
      rw [h.id _ hi]
      exact (h.requests p hp m hm).symm
    exact (h.clocked _ hi).handle hvote (fun m hm => h.no_rival hr hp hi hm) hy

theorem Good.request (h : Good c s past) {command : Str} {e : Event}
    (he : e = .clientCommand i command ∨ e = .requestRead i command)
    (hstep : s.perform c e = .ok s') : Goes c s s' past := by
  have htarget : s.world.target e = some i := by rcases he with rfl | rfl <;> rfl
  exact h.performs htarget (fun _ _ => rfl) (fun _ _ => Iff.rfl) (h.down i)
    (fun hi _ hy => (h.clocked i hi).request he hy) hstep

theorem Good.crash (h : Good c s past) (hstep : s.step c (.crash i) = .ok s') :
    Goes c s s' past := by
  unfold Timed.step at hstep
  dsimp only at hstep
  split at hstep
  · have hother : ∀ j, j ≠ i → (j ∈ insert i s.crashed ↔ j ∈ s.crashed) := fun j hne => by
      rw [Finset.mem_insert, or_iff_right hne]
    refine h.performs rfl (fun _ _ => rfl) hother
      (fun _ => iff_of_true (Finset.mem_insert_self _ _) rfl) (fun hi y hy => ?_) hstep
    obtain rfl := Except.ok.inj hy
    exact (h.clocked i hi).pause
  · obtain rfl := Except.ok.inj hstep
    exact h.stays

theorem Good.maybeResume (h : Good c s past) (hstep : s.step c (.maybeResume i) = .ok s') :
    Goes c s s' past := by
  unfold Timed.step at hstep
  dsimp only at hstep
  split at hstep
  next hdown =>
    have hother : ∀ j, j ≠ i → (j ∈ s.crashed.erase i ↔ j ∈ s.crashed) := fun j hne => by
      rw [Finset.mem_erase, and_iff_right hne]
    have hup : i ∈ s.crashed.erase i ↔ true = false :=
      iff_of_false (Finset.notMem_erase _ _) (by decide)
    refine h.performs rfl (fun _ _ => rfl) hother (fun _ => hup) (fun hi y hy => ?_) hstep
    obtain rfl := Except.ok.inj hy
    exact (h.clocked i hi).resume ((h.down i hi).mp hdown)
  next =>
    obtain rfl := Except.ok.inj hstep
    exact h.stays

theorem Good.step (hr : Run c (s :: past)) (h : Good c s past) {e : TimedEvent}
    (hstep : s.step c e = .ok s') : Goes c s s' past := by
  cases e with
  | fire k => exact h.fire hstep
  | deliver k => exact h.deliver hr hstep
  | clientCommand i command => exact h.request (Or.inl rfl) hstep
  | requestRead i command => exact h.request (Or.inr rfl) hstep
  | crash i => exact h.crash hstep
  | maybeResume i => exact h.maybeResume hstep

theorem Run.good {ss : List Timed} (h : Run c ss) : ∃ s past, ss = s :: past ∧ Good c s past := by
  induction h with
  | init => exact ⟨_, _, rfl, good_init c⟩
  | step hr hplain hstep ih =>
    obtain ⟨s, past, heq, hgood⟩ := ih
    obtain ⟨rfl, rfl⟩ := List.cons.inj heq
    exact ⟨_, _, rfl, (hgood.step hr hstep).1⟩

/-- Sequence numbers never fall. -/
theorem Run.later {later : List Timed} (h : Run c (s' :: later ++ s :: past)) (hi : i ∈ c.ids) :
    (s.world.nodes i).timerSeq ≤ (s'.world.nodes i).timerSeq := by
  induction later generalizing s' with
  | nil =>
    cases h with
    | step hr hplain hstep =>
      obtain ⟨_, _, heq, hgood⟩ := hr.good
      obtain ⟨rfl, rfl⟩ := List.cons.inj heq
      exact (hgood.step hr hstep).2 i hi
  | cons v later ih =>
    cases h with
    | step hr hplain hstep =>
      obtain ⟨_, _, heq, hgood⟩ := hr.good
      obtain ⟨rfl, rfl⟩ := List.cons.inj heq
      exact (ih hr).trans ((hgood.step hr hstep).2 i hi)

end Timed

/-- A live node has one pending timer that counts, of the kind that goes with its role; a node that
is down has none; the others do nothing whenever they fire. -/
theorem one_live_timer {s : Timed} {past : List Timed} (hr : Timed.Run c (s :: past))
    (hi : i ∈ c.ids) :
    ((s.world.nodes i).alive = true →
      (timersOf i s.pending).filter (fun t => t.seq = (s.world.nodes i).timerSeq) =
        [if (s.world.nodes i).role = .leader then .heartbeat (s.world.nodes i).timerSeq
          else .electionTimeout (s.world.nodes i).timerSeq]) ∧
    ((s.world.nodes i).alive = false →
      (timersOf i s.pending).filter (fun t => t.seq = (s.world.nodes i).timerSeq) = []) ∧
    ∀ t ∈ timersOf i s.pending, t.seq ≠ (s.world.nodes i).timerSeq →
      ∀ later s', Timed.Run c (later ++ s :: past) → (later ++ s :: past).head? = some s' →
        s'.world.callback (s'.world.nodes i) (t.event i) = .ok ⟨s'.world.nodes i, []⟩ := by
  obtain ⟨_, _, heq, hgood⟩ := hr.good
  obtain ⟨rfl, rfl⟩ := List.cons.inj heq
  have hclocked := hgood.clocked i hi
  refine ⟨hclocked.live, fun hd => (hclocked.dead hd).1, fun t ht hne later s' hlater hs' => ?_⟩
  have hbound := hclocked.bound t ht
  cases later with
  | nil =>
    obtain rfl := Option.some.inj hs'
    exact callback_stale _ i (Or.inr hne)
  | cons v later =>
    obtain rfl := Option.some.inj hs'
    have hle := Timed.Run.later hlater hi
    exact callback_stale _ i (Or.inr (by omega))

/-- Node 1 wins an election with the vote of node 0, which then crashes and comes back. -/
def electedAndCrashed : List Timed := Timed.follow trio [Timed.init trio]
  [.fire 1, .deliver 0, .deliver 2, .clientCommand 1 "a".toList, .crash 0, .maybeResume 0]

theorem elected_waits_once : ∃ s past, Timed.Run trio (s :: past) ∧
    (timersOf 1 s.pending).filter (fun t => t.seq = (s.world.nodes 1).timerSeq) =
      [.heartbeat (s.world.nodes 1).timerSeq] := by
  have hr : Timed.Run trio electedAndCrashed := Timed.follow_run .init _
  have hs : electedAndCrashed.head?.map (fun s => ((s.world.nodes 1).alive,
      (s.world.nodes 1).role)) = some (true, .leader) := by decide +kernel
  obtain ⟨s, past, hss, -⟩ := hr.good
  rw [hss] at hr hs
  obtain ⟨halive, hrole⟩ := Prod.mk.inj (Option.some.inj hs)
  refine ⟨s, past, hr, ?_⟩
  have hlive := (one_live_timer hr (i := 1) (by decide)).1 halive
  rwa [if_pos hrole] at hlive

end RaftVerified
