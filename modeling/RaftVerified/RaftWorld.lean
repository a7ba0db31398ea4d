import RaftVerified.RaftHandlers

/-! The cluster as a transition system: the nodes, every message ever sent, and one
callback of one node as a step. Any sent message may be delivered at any later
moment, any number of times or never, so loss, duplication, delay, reordering and
partitions are all orders of steps. -/
namespace RaftVerified

/-- What a `Cluster` is built from. -/
structure Setup where
  numNodes : ℕ
  initialVoters : Option (List NodeId) := none
  config : RaftConfig := {}
  bugs : Bugs := NO_BUGS

namespace Setup

def ids (c : Setup) : List NodeId := (List.range c.numNodes).map Int.ofNat

def node (c : Setup) (i : NodeId) : RaftNode :=
  RaftNode.new i (c.ids.filter (· ≠ i)) c.config c.bugs c.initialVoters

/-- The checks of `Cluster.__init__` on the number of nodes and the initial voters. -/
def Accepted (c : Setup) : Prop :=
  1 ≤ c.numNodes ∧ ∀ vs ∈ c.initialVoters, ∀ v ∈ vs, v ∈ c.ids

instance (c : Setup) : Decidable c.Accepted :=
  inferInstanceAs (Decidable (1 ≤ c.numNodes ∧ ∀ vs ∈ c.initialVoters, ∀ v ∈ vs, v ∈ c.ids))

end Setup

structure Packet where
  src : NodeId
  dst : NodeId
  msg : Message

structure World where
  nodes : NodeId → RaftNode
  sent : List Packet

/-- One callback of one node. `deliver k` hands over the `k`-th message ever sent. -/
inductive Event
  | electionTimeout (i : NodeId) (seq : ℕ)
  | heartbeat (i : NodeId) (seq : ℕ)
  | clientCommand (i : NodeId) (command : Str)
  | changeConfig (i : NodeId) (newVoters : List NodeId)
  | requestRead (i : NodeId) (command : Str)
  | deliver (k : ℕ)
  | pause (i : NodeId)
  | resume (i : NodeId)
  deriving DecidableEq, Repr

/-- The callbacks that deliveries, timers, crashes and restarts run. -/
def Event.Ambient : Event → Prop
  | .clientCommand _ _ => False
  | .changeConfig _ _ => False
  | .requestRead _ _ => False
  | _ => True

instance (e : Event) : Decidable e.Ambient :=
  match e with
  | .clientCommand _ _ | .changeConfig _ _ | .requestRead _ _ => instDecidableFalse
  | .electionTimeout _ _ | .heartbeat _ _ | .deliver _ | .pause _ | .resume _ => instDecidableTrue

namespace World

/-- Every node has been created and started. -/
def init (c : Setup) : World where
  nodes i := ({ node := c.node i } : Exec).start.node
  sent := []

/-- The node an event runs at; `none` for a delivery of a message never sent. -/
def target (w : World) : Event → Option NodeId
  | .electionTimeout i _ => some i
  | .heartbeat i _ => some i
  | .clientCommand i _ => some i
  | .changeConfig i _ => some i
  | .requestRead i _ => some i
  | .deliver k => w.sent[k]?.map Packet.dst
  | .pause i => some i
  | .resume i => some i

/-- Run the callback of an event at the given node. -/
def callback (w : World) (n : RaftNode) : Event → Except PyError Exec
  | .electionTimeout _ seq => ({ node := n } : Exec).onElectionTimeout seq
  | .heartbeat _ seq => ({ node := n } : Exec).onHeartbeat seq
  | .clientCommand _ command => (({ node := n } : Exec).clientCommand command).map Prod.fst
  | .changeConfig _ newVoters => (({ node := n } : Exec).changeConfig newVoters).map Prod.fst
  | .requestRead _ command => .ok (({ node := n } : Exec).requestRead command).1
  | .deliver k =>
    match w.sent[k]? with
    | some p => ({ node := n } : Exec).handle p.msg
    | none => .ok { node := n }
  | .pause _ => .ok { node := n.pause }
  | .resume _ => .ok (({ node := n } : Exec).resume)

end World

/-- The messages among the calls of a callback at `src`. -/
def sends (src : NodeId) : List Call → List Packet
  | [] => []
  | .send dst msg :: rest => ⟨src, dst, msg⟩ :: sends src rest
  | _ :: rest => sends src rest

namespace World

/-- Store the node a callback at `i` leaves behind, and send what it sent. -/
def put (w : World) (i : NodeId) (x : Exec) : World where
  nodes := Function.update w.nodes i x.node
  sent := w.sent ++ sends i x.calls

@[simp] theorem put_nodes_self (w : World) (i : NodeId) (x : Exec) :
    (w.put i x).nodes i = x.node := Function.update_self _ _ _

theorem put_nodes_ne (w : World) {i j : NodeId} (x : Exec) (h : j ≠ i) :
    (w.put i x).nodes j = w.nodes j := Function.update_of_ne h _ _

/-- What holds of every node holds after one of them has been replaced, if it is kept by the
others and holds of the new one. -/
theorem put_nodes_forall {w : World} {ids : List NodeId} {i : NodeId} {x : Exec}
    {P Q : NodeId → RaftNode → Prop} (h : ∀ j ∈ ids, P j (w.nodes j))
    (hkeep : ∀ j n, j ≠ i → P j n → Q j n) (hx : Q i x.node) :
    ∀ j ∈ ids, Q j ((w.put i x).nodes j) := by
  intro j hj
  by_cases hji : j = i
  · subst hji
    rw [put_nodes_self]
    exact hx
  · rw [put_nodes_ne w x hji]
    exact hkeep j _ hji (h j hj)

/-- And what holds of every packet holds after more have been sent of which it holds. -/
theorem put_sent_forall {w : World} {i : NodeId} {x : Exec} {P Q : Packet → Prop}
    (h : ∀ p ∈ w.sent, P p) (hkeep : ∀ p, P p → Q p) (hx : ∀ p ∈ sends i x.calls, Q p) :
    ∀ p ∈ (w.put i x).sent, Q p := by
  intro p hp
  rcases List.mem_append.mp hp with hp | hp
  · exact hkeep p (h p hp)
  · exact hx p hp

/-- One event. An event at a server that does not exist does nothing. -/
def step (c : Setup) (w : World) (e : Event) : Except PyError World :=
  match w.target e with
  | none => .ok w
  | some i =>
    if i ∈ c.ids then do
      let x ← w.callback (w.nodes i) e
      .ok (w.put i x)
    else .ok w

/-- An event without a node to run it changes nothing; any other is a callback of one node. -/
theorem step_cases {c : Setup} {w w' : World} {e : Event} (h : w.step c e = .ok w') :
    ((∀ i ∈ c.ids, w.target e ≠ some i) ∧ w' = w) ∨
      ∃ i ∈ c.ids, ∃ y, w.target e = some i ∧ w.callback (w.nodes i) e = .ok y ∧
        w' = w.put i y := by
  unfold step at h
  split at h
  next hnone =>
    refine Or.inl ⟨fun i _ hi => ?_, (Except.ok.inj h).symm⟩
    rw [hnone] at hi
    cases hi
  next i ht =>
    split at h
    next hi =>
      obtain ⟨y, hy, h⟩ := bind_ok.mp h
      exact Or.inr ⟨i, hi, y, ht, hy, (Except.ok.inj h).symm⟩
    next hi =>
      refine Or.inl ⟨fun j hj htj => hi ?_, (Except.ok.inj h).symm⟩
      obtain rfl := Option.some.inj (htj.symm.trans ht)
      exact hj

theorem step_node {c : Setup} {w w' : World} {e : Event} (h : w.step c e = .ok w')
    (i : NodeId) :
    (w'.nodes i = w.nodes i ∧ (i ∈ c.ids → w.target e ≠ some i)) ∨
      (i ∈ c.ids ∧ w.target e = some i ∧
        ∃ y, w.callback (w.nodes i) e = .ok y ∧ w'.nodes i = y.node) := by
  rcases step_cases h with ⟨hnone, rfl⟩ | ⟨j, hj, y, ht, hy, rfl⟩
  · exact Or.inl ⟨rfl, hnone i⟩
  · by_cases hij : i = j
    · subst hij
      exact Or.inr ⟨hj, ht, y, hy, put_nodes_self w i y⟩
    · refine Or.inl ⟨put_nodes_ne w y hij, fun _ hti => hij ?_⟩
      exact Option.some.inj (hti.symm.trans ht)

end World

/-- The runs of a cluster whose every step is allowed: all states so far, the newest
first. What is allowed may depend on the run so far. -/
inductive Run (c : Setup) (allowed : List World → Event → Prop) : List World → Prop
  | init : Run c allowed [World.init c]
  | step {w w' : World} {past : List World} {e : Event} :
      Run c allowed (w :: past) → allowed (w :: past) e → w.step c e = .ok w' →
      Run c allowed (w' :: w :: past)

namespace Run
variable {c : Setup} {allowed allowed' : List World → Event → Prop} {w : World}
  {ws later past : List World}

/-- The run that goes on from `ws` with the events that are allowed and do not fail. -/
def follow (c : Setup) (allowed : List World → Event → Prop)
    [∀ ws e, Decidable (allowed ws e)] : List World → List Event → List World
  | ws, [] => ws
  | [], _ => []
  | w :: past, e :: rest =>
    if allowed (w :: past) e then
      match w.step c e with
      | .ok w' => follow c allowed (w' :: w :: past) rest
      | .error _ => follow c allowed (w :: past) rest
    else follow c allowed (w :: past) rest

theorem follow_run [∀ ws e, Decidable (allowed ws e)] (h : Run c allowed ws)
    (es : List Event) : Run c allowed (follow c allowed ws es) := by
  induction es generalizing ws with
  | nil => rwa [follow]
  | cons e rest ih =>
    cases ws with
    | nil => cases h
    | cons w past =>
      unfold follow
      split
      next hall =>
        split
        next w' hw' => exact ih (.step h hall hw')
        next => exact ih h
      next => exact ih h

theorem exists_cons (h : Run c allowed ws) : ∃ w past, ws = w :: past := by
  cases h with
  | init => exact ⟨_, _, rfl⟩
  | step _ _ _ => exact ⟨_, _, rfl⟩

theorem mono (hall : ∀ ws e, Run c allowed' ws → allowed ws e → allowed' ws e)
    (h : Run c allowed ws) : Run c allowed' ws := by
  induction h with
  | init => exact .init
  | step _ ha hs ih => exact .step ih (hall _ _ ih ha) hs

/-- Every suffix of a run is a run. -/
theorem earlier (h : Run c allowed (later ++ w :: past)) : Run c allowed (w :: past) := by
  induction later with
  | nil => exact h
  | cons v later ih =>
    refine ih ?_
    rw [List.cons_append] at h
    generalize hl : later ++ w :: past = l at h
    cases h with
    | init => simp at hl
    | step hr _ _ => exact hl ▸ hr

end Run
end RaftVerified
