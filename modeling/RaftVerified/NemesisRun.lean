import RaftVerified.Nemesis
import RaftVerified.Network
import RaftVerified.Simulator

/-! A cluster run under a fault schedule (`cluster.py`). What the nemesis does not touch (the nodes,
their timers, messages in flight, the clients, the random numbers) is a parameter of the run. -/
namespace RaftVerified

/-- The rest of a cluster, with states `σ` and events `κ`. An event may look at the network and
schedule further events, at delays from the present, but it leaves the faults alone: under the
profile `none` only the nemesis causes any. -/
structure Environment (σ κ : Type) where
  /-- `leader`: the node that is believed to lead. -/
  leader : σ → Option NodeId
  alive : σ → NodeId → Bool
  pause : NodeId → σ → σ × List (ℤ × κ)
  resume : NodeId → σ → σ × List (ℤ × κ)
  run : κ → ℤ → Network → σ → σ × List (ℤ × κ)

/-- What the queue of a cluster holds. -/
inductive SimEvent (κ : Type)
  | nemesisFire (op : NemesisOp)
  | healPartition
  | linkUp (a b : NodeId)
  | clearLossyLink (a b : NodeId)
  | maybeResume (node : NodeId)
  | other (event : κ)
  deriving DecidableEq

/-- A `Cluster` with the profile `none`. -/
structure Cluster (σ κ : Type) where
  sim : Simulator (SimEvent κ)
  net : Network
  rest : σ
  suppressed : Finset ℕ
  faultSeq : ℕ

namespace Cluster
variable {σ κ : Type}

/-- `sorted(self.nodes)`. -/
def nodes (c : Cluster σ κ) : List NodeId := c.net.nodeIds

def schedule (c : Cluster σ κ) (delay : ℤ) (event : SimEvent κ) : Except Str (Cluster σ κ) :=
  (c.sim.schedule delay event).map fun sim => { c with sim := sim }

/-- The rest of the cluster has moved on and schedules its events. -/
def proceed (c : Cluster σ κ) (next : σ × List (ℤ × κ)) : Except Str (Cluster σ κ) :=
  next.2.foldlM (fun c e => c.schedule e.1 (.other e.2)) { c with rest := next.1 }

/-- `_fire_fault`: the next ordinal, and whether the fault is to happen. -/
def fireFault (c : Cluster σ κ) : Bool × Cluster σ κ :=
  (c.faultSeq ∉ c.suppressed, { c with faultSeq := c.faultSeq+1 })

def setPartition (c : Cluster σ κ) (groups : List (List NodeId)) : Except Str (Cluster σ κ) :=
  match c.net.setPartition groups with
  | .ok net => .ok { c with net := net }
  | .error _ => .error "partition groups must cover all nodes exactly once".toList

def healPartition (c : Cluster σ κ) : Cluster σ κ := { c with net := c.net.heal }

def linkDown (c : Cluster σ κ) (a b : NodeId) : Cluster σ κ :=
  if c.net.linkIsDown a b then c else { c with net := c.net.setLinkDown a b }

def linkUp (c : Cluster σ κ) (a b : NodeId) : Cluster σ κ :=
  if c.net.linkIsDown a b then { c with net := c.net.setLinkUp a b } else c

def setLossyLink (c : Cluster σ κ) (a b : NodeId) (dropP : ℚ) : Cluster σ κ :=
  { c with net := c.net.setLinkLossy a b dropP }

def clearLossyLink (c : Cluster σ κ) (a b : NodeId) : Cluster σ κ :=
  if c.net.linkIsLossy a b then { c with net := c.net.clearLinkLossy a b } else c

def pause (E : Environment σ κ) (c : Cluster σ κ) (node : NodeId) : Except Str (Cluster σ κ) :=
  { c with net := { c.net with crashed := insert node c.net.crashed } }.proceed
    (E.pause node c.rest)

def resume (E : Environment σ κ) (c : Cluster σ κ) (node : NodeId) : Except Str (Cluster σ κ) :=
  { c with net := { c.net with crashed := c.net.crashed.erase node } }.proceed
    (E.resume node c.rest)

def maybeResume (E : Environment σ κ) (c : Cluster σ κ) (node : NodeId) :
    Except Str (Cluster σ κ) :=
  if node ∈ c.net.crashed then c.resume E node else .ok c

/-- `_nemesis_fire`. -/
def nemesisFire (E : Environment σ κ) (c : Cluster σ κ) : NemesisOp → Except Str (Cluster σ κ)
  | .partitionHalves _ duration =>
    let ids := c.nodes
    let half := (ids.length+1)/2
    -- a single node: skipped, and no ordinal is consumed
    if ids.drop half = [] then .ok c
    else match c.fireFault with
      | (false, c) => .ok c
      | (true, c) => do
        -- the recovery is scheduled only when the injection has fired
        let c ← c.setPartition [ids.take half, ids.drop half]
        c.schedule duration .healPartition
  | .isolateLeader _ duration =>
    match E.leader c.rest with
    -- no believed leader: skipped
    | none => .ok c
    | some victim =>
      if c.nodes.length < 2 then .ok c
      else match c.fireFault with
        | (false, c) => .ok c
        | (true, c) => do
          let c ← c.setPartition [[victim], c.nodes.filter (· ≠ victim)]
          c.schedule duration .healPartition
  | .flappingLink a b _ period _ =>
    match c.fireFault with
    | (false, c) => .ok c
    | (true, c) => (c.linkDown a b).schedule period (.linkUp a b)
  | .lossyLink a b _ duration dropP =>
    match c.fireFault with
    | (false, c) => .ok c
    | (true, c) => (c.setLossyLink a b dropP.value).schedule duration (.clearLossyLink a b)
  | .crashNode node _ duration =>
    -- already down: skipped
    if E.alive c.rest node = false then .ok c
    else match c.fireFault with
      | (false, c) => .ok c
      | (true, c) => do
        let c ← c.pause E node
        c.schedule duration (.maybeResume node)

/-- What an event does when it is its turn. -/
def execute (E : Environment σ κ) (c : Cluster σ κ) : SimEvent κ → Except Str (Cluster σ κ)
  | .nemesisFire op => c.nemesisFire E op
  | .healPartition => .ok c.healPartition
  | .linkUp a b => .ok (c.linkUp a b)
  | .clearLossyLink a b => .ok (c.clearLossyLink a b)
  | .maybeResume node => c.maybeResume E node
  | .other event => c.proceed (E.run event c.sim.now c.net c.rest)

/-- The constructor of `Cluster`, given the nodes as they are created, the events they and the
drivers have scheduled by then, and the suppression mask. -/
def init (numNodes : ℤ) (rest : σ) (started : List (ℤ × κ)) (suppressed : Finset ℕ)
    (nemesis : NemesisSchedule) : Except Str (Cluster σ κ) :=
  if numNodes < 1 then .error "need at least one node".toList
  else if numNodes ≤ nemesis.maxNode then
    .error ("nemesis schedule names node n".toList ++ intStr nemesis.maxNode ++
      "; this cluster only has n0..n".toList ++ intStr (numNodes-1))
  else do
    let ids := (List.range numNodes.toNat).map Int.ofNat
    let c : Cluster σ κ := ⟨.init _, .init ids, rest, suppressed, 0⟩
    let c ← c.proceed (rest, started)
    -- every injection is scheduled up-front
    nemesis.injections.foldlM (fun c i => c.schedule i.atTime (.nemesisFire i.op)) c

/-- The event popped by one step, in the state in which it runs. -/
def next (c : Cluster σ κ) : Option (SimEvent κ × Cluster σ κ) :=
  c.sim.pop.map fun p => (p.1, { c with sim := p.2 })

/-- `step`; `none` when the queue is empty or the event raises. -/
def step (E : Environment σ κ) (c : Cluster σ κ) : Option (Cluster σ κ) :=
  c.next.bind fun p => (p.2.execute E p.1).toOption

/-- One step of a run: in `d`, the state `c` has come to, the event `e` runs and leaves `c'`. -/
def Steps (E : Environment σ κ) (c : Cluster σ κ) (e : SimEvent κ) (d c' : Cluster σ κ) : Prop :=
  c.next = some (e, d) ∧ d.execute E e = .ok c'

theorem step_eq_some {E : Environment σ κ} {c c' : Cluster σ κ} :
    c.step E = some c' ↔ ∃ e d, Steps E c e d c' := by
  unfold step Steps
  constructor
  · intro h
    obtain ⟨⟨e, d⟩, hnext, hexec⟩ := Option.bind_eq_some_iff.mp h
    refine ⟨e, d, hnext, ?_⟩
    cases hd : d.execute E e with
    | error message =>
      rw [hd] at hexec
      cases hexec
    | ok b =>
      rw [hd] at hexec
      exact congrArg Except.ok (Option.some.inj hexec)
  · rintro ⟨e, d, hnext, hexec⟩
    rw [hnext, Option.bind_some, hexec]
    rfl

end Cluster
end RaftVerified
