import Mathlib.Data.List.MinMax
import RaftVerified.Clients
import RaftVerified.Messages
import RaftVerified.ScenarioReplay

/-! The cluster harness (`Cluster` in `cluster.py`) as one state: the nodes, the network with the
event queue and the random numbers, the clients, what is recorded, and the checker. The other
models of a cluster are views of it. -/
namespace RaftVerified

/-- ms between client command attempts -/
def CLIENT_INTERVAL : ℤ := 100
/-- ms between fault-driver decisions -/
def FAULT_INTERVAL : ℤ := 100
/-- ms between membership-change attempts -/
def MEMBERSHIP_INTERVAL : ℤ := 100

/-! ### What a cluster is built from -/

/-- `FaultProfile`. -/
structure Profile extends FaultProfile where
  name : Str
  partitions : Bool
  crashes : Bool

/-- The values of `PROFILES`. -/
def profiles : List Profile := [
  { name := "none".toList, dropP := 0, dupP := 0, minDelay := 1, maxDelay := 5
    partitions := false, crashes := false },
  { name := "light".toList, dropP := 5/100, dupP := 2/100, minDelay := 1, maxDelay := 20
    partitions := false, crashes := false },
  { name := "chaos".toList, dropP := 10/100, dupP := 5/100, minDelay := 1, maxDelay := 50
    partitions := true, crashes := true }]

def Profile.named (name : Str) : Option Profile := profiles.find? (·.name = name)

/-- The timer periods of a `RaftConfig`. -/
structure Timers where
  electionTimeoutMin : ℤ := 150
  electionTimeoutMax : ℤ := 300
  heartbeatInterval : ℤ := 50

/-- The arguments of `Cluster.__init__`. -/
structure ClusterOptions extends ClusterArgs where
  config : RaftConfig := {}
  timers : Timers := {}
  clientInterval : Option ℤ := some CLIENT_INTERVAL
  recordHistory : Bool := true
  readIndex : Bool := false
  initialVoters : Option (List NodeId) := none

/-- A cluster whose arguments `Cluster.__init__` accepts. -/
structure HarnessSetup extends ServiceSetup where
  seed : ℤ
  profile : Profile
  timers : Timers := {}
  clientInterval : Option ℤ := some CLIENT_INTERVAL
  suppressed : Finset ℕ := ∅
  membership : Bool := false
  nemesis : Option NemesisSchedule := none
  accepted : toSetup.Accepted
  enough : membership = true → 3 ≤ numNodes
  known : ∀ s ∈ nemesis, s.maxNode < numNodes

/-- The initial voters, which leave one server out in membership mode. -/
def ClusterOptions.voters (o : ClusterOptions) : Option (List NodeId) :=
  match o.initialVoters with
  | some vs => some vs
  | none =>
    if o.membership then some ((List.range (o.numNodes-1).toNat).map Int.ofNat) else none

/-- The checks of `Cluster.__init__`. -/
def ClusterOptions.setup (json : Json) (o : ClusterOptions) : Except Str HarnessSetup :=
  if o.numNodes < 1 then .error "need at least one node".toList
  else match Profile.named o.faults with
  | none => .error ("unknown fault profile: ".toList ++ json.repr (.str o.faults))
  | some profile =>
    if hm : o.membership = true ∧ o.numNodes < 3 then
      .error "membership mode needs at least three nodes".toList
    else
      let base : Setup := {
        numNodes := o.numNodes.toNat, initialVoters := o.voters
        config := o.config, bugs := o.bugs }
      if hv : base.Accepted then
        if hn : ∀ s ∈ o.nemesis, s.maxNode < base.numNodes then
          .ok {
            toSetup := base, recordHistory := o.recordHistory, readIndex := o.readIndex
            seed := o.seed, profile, timers := o.timers, clientInterval := o.clientInterval
            suppressed := o.suppressed, membership := o.membership, nemesis := o.nemesis
            accepted := hv
            enough := fun h => by
              have hlt : ¬ o.numNodes < 3 := fun hlt => hm ⟨h, hlt⟩
              show 3 ≤ o.numNodes.toNat
              omega
            known := hn }
        else
          let maxNode := (o.nemesis.map (·.maxNode)).getD (-1)
          .error ("nemesis schedule names node n".toList ++ intStr maxNode ++
            "; this cluster only has n0..n".toList ++ intStr (o.numNodes-1))
      else .error "initial_voters must name existing nodes".toList

/-- What a cluster takes from Python: the texts of values and `random.Random`, whose `choice` is
given as a place in a sequence of some length. -/
structure Platform (σ : Type) extends Rng σ where
  json : Json
  seeded : ℤ → σ
  choice : ℕ → σ → ℕ × σ
  choice_lt : ∀ n s, 0 < n → (choice n s).1 < n
  randint_mem : ∀ a b s, a ≤ b → ∃ k s', randint a b s = .ok (k, s') ∧ a ≤ k ∧ k ≤ b

/-! ### The state -/

/-- What a cluster schedules, deliveries apart. -/
inductive Job
  | timer (i : NodeId) (t : Timer)
  | clientTick
  | faultTick
  | membershipTick
  | maybeResume (i : NodeId)
  | nemesisFire (op : NemesisOp)
  | healPartition
  | linkUp (a b : NodeId)
  | clearLossyLink (a b : NodeId)
  deriving DecidableEq

/-- An entry of the trace. -/
inductive Note
  | traffic (t : Traffic Message)
  | record (r : Record)

structure Stats where
  elections : ℕ := 0
  leadersElected : ℕ := 0
  partitions : ℕ := 0
  heals : ℕ := 0
  crashes : ℕ := 0
  resumes : ℕ := 0
  commandsSubmitted : ℕ := 0
  retries : ℕ := 0
  configChanges : ℕ := 0
  deriving DecidableEq, Repr

/-- What `record` counts. -/
def Stats.count (s : Stats) (kind detail : Str) : Stats :=
  if kind = "election".toList then { s with elections := s.elections+1 }
  else if kind = "role".toList ∧ "|leader|".toList <:+: detail then
    { s with leadersElected := s.leadersElected+1 }
  else if kind = "cfgchange".toList then { s with configChanges := s.configChanges+1 }
  else s

/-- An exception that ends a run, a violation apart. -/
inductive Failure
  | python (e : PyError)
  | net (e : NetError)

structure Harness (σ : Type) where
  nodes : NodeId → RaftNode
  net : MessageNetwork σ Message Job
  clients : Clients := {}
  trace : List (ℤ × Note) := []
  events : List (ℤ × Record) := []
  stats : Stats := {}
  memberTurn : ℕ := 0
  faultSeq : ℕ := 0
  checker : InvariantChecker

namespace Harness
variable {σ : Type}

def now (h : Harness σ) : ℤ := h.net.sim.now
def steps (h : Harness σ) : ℕ := h.net.sim.steps
def faults (h : Harness σ) : Network := h.net.faults

def setFaults (h : Harness σ) (faults : Network) : Harness σ :=
  { h with net := { h.net with faults } }

/-! ### Recording -/

/-- `record`, for all kinds but those of the network. -/
def record (h : Harness σ) (r : Record) : Harness σ :=
  { h with
    trace := h.trace ++ [(h.now, .record r)]
    events := h.events ++ [(h.now, r)]
    stats := h.stats.count r.kind r.detail }

/-- The network has moved on; what it has recorded is only in the trace. -/
def absorb (h : Harness σ) (net : MessageNetwork σ Message Job) : Harness σ :=
  { h with
    net
    trace := h.trace ++ (net.trace.drop h.net.trace.length).map fun t => (h.now, .traffic t) }

/-! ### Random numbers -/

section
variable (D : Platform σ)

def random (h : Harness σ) : ℚ × Harness σ :=
  let r := D.random h.net.rng
  (r.1, { h with net := { h.net with rng := r.2 } })

def randint (h : Harness σ) (a b : ℤ) : Except Failure (ℤ × Harness σ) :=
  match D.randint a b h.net.rng with
  | .ok r => .ok (r.1, { h with net := { h.net with rng := r.2 } })
  | .error text => .error (.net (.valueError text))

def choice (h : Harness σ) (xs : List NodeId) : Except Failure (NodeId × Harness σ) :=
  let r := D.choice xs.length h.net.rng
  match xs[r.1]? with
  | some x => .ok (x, { h with net := { h.net with rng := r.2 } })
  | none => .error (.python .indexError)

end

/-! ### Callbacks of the nodes -/

/-- `sim.schedule`. -/
def schedule (h : Harness σ) (delay : ℤ) (job : Job) : Except Failure (Harness σ) :=
  match h.net.schedule delay (.other job) with
  | .ok net => .ok { h with net }
  | .error e => .error (.net e)

/-- `net.send`. -/
def send (D : Platform σ) (c : HarnessSetup) (h : Harness σ) (src dst : NodeId)
    (msg : Message) : Except Failure (Harness σ) :=
  match h.net.send D.toRng c.profile.toFaultProfile ⟨src, dst, msg⟩ with
  | .ok net => .ok (h.absorb net)
  | .error e => .error (.net e)

/-- The scheduling of a timer of node `i`. -/
def arm (D : Platform σ) (c : HarnessSetup) (h : Harness σ) (i : NodeId) :
    Timer → Except Failure (Harness σ)
  | .electionTimeout seq => do
    let r ← h.randint D c.timers.electionTimeoutMin c.timers.electionTimeoutMax
    r.2.schedule r.1 (.timer i (.electionTimeout seq))
  | .heartbeat seq => h.schedule c.timers.heartbeatInterval (.timer i (.heartbeat seq))

/-- `_on_apply`. -/
def onApply (c : HarnessSetup) (h : Harness σ) (encoded result : Str) : Harness σ :=
  { h with clients := h.clients.onApply c.toServiceSetup h.steps encoded result }

/-- A call of node `i` through one of its injected callables. -/
def call (D : Platform σ) (c : HarnessSetup) (i : NodeId) (h : Harness σ) :
    Call → Except Failure (Harness σ)
  | .send dst msg => h.send D c i dst msg
  | .record event => .ok (h.record (.trace event))
  | .schedule timer => h.arm D c i timer
  | .onApply command result => .ok (h.onApply c command result)

/-- A callback of node `i`. Its calls tell the node nothing, so they may follow it. -/
def perform (D : Platform σ) (c : HarnessSetup) (h : Harness σ) (i : NodeId) :
    Except PyError Exec → Except Failure (Harness σ)
  | .ok x => x.calls.foldlM (call D c i) { h with nodes := Function.update h.nodes i x.node }
  | .error e => .error (.python e)

/-- Node `i` at the start of a callback. -/
def enter (h : Harness σ) (i : NodeId) : Exec := { node := h.nodes i }

/-! ### Fault controls -/

/-- `_fire_fault`: whether the fault happens. -/
def fireFault (c : HarnessSetup) (h : Harness σ) : Bool × Harness σ :=
  (h.faultSeq ∉ c.suppressed, { h with faultSeq := h.faultSeq+1 })

def linkDown (h : Harness σ) (a b : NodeId) : Harness σ :=
  if h.faults.linkIsDown a b then h
  else (h.setFaults (h.faults.setLinkDown a b)).record (.driver (.linkdown a b))

def linkUp (h : Harness σ) (a b : NodeId) : Harness σ :=
  if h.faults.linkIsDown a b then
    (h.setFaults (h.faults.setLinkUp a b)).record (.driver (.linkup a b))
  else h

def setLossyLink (D : Platform σ) (h : Harness σ) (a b : NodeId) (dropP : Number) : Harness σ :=
  (h.setFaults (h.faults.setLinkLossy a b dropP.value)).record
    (.driver (.lossy a b (D.json.repr dropP.toValue)))

def clearLossyLink (h : Harness σ) (a b : NodeId) : Harness σ :=
  if h.faults.linkIsLossy a b then
    (h.setFaults (h.faults.clearLinkLossy a b)).record (.driver (.lossyheal a b))
  else h

def setPartition (h : Harness σ) (groups : List (List NodeId)) : Except Failure (Harness σ) :=
  match h.faults.setPartition groups with
  | .ok faults =>
    let h := h.setFaults faults
    let h := { h with stats := { h.stats with partitions := h.stats.partitions+1 } }
    .ok (h.record (.driver (.partition groups)))
  | .error _ =>
    .error (.net (.valueError "partition groups must cover all nodes exactly once".toList))

def healPartition (h : Harness σ) : Harness σ :=
  let h := h.setFaults h.faults.heal
  { h with stats := { h.stats with heals := h.stats.heals+1 } }.record (.driver .heal)

def pause (D : Platform σ) (c : HarnessSetup) (h : Harness σ) (i : NodeId) :
    Except Failure (Harness σ) := do
  let h := h.setFaults { h.faults with crashed := insert i h.faults.crashed }
  let h ← h.perform D c i (.ok { node := (h.nodes i).pause })
  .ok ({ h with stats := { h.stats with crashes := h.stats.crashes+1 } }.record (.crash i))

def resume (D : Platform σ) (c : HarnessSetup) (h : Harness σ) (i : NodeId) :
    Except Failure (Harness σ) := do
  let h := h.setFaults { h.faults with crashed := h.faults.crashed.erase i }
  let h ← h.perform D c i (.ok (h.enter i).resume)
  .ok ({ h with stats := { h.stats with resumes := h.stats.resumes+1 } }.record (.resume i))

/-! ### Inspection -/

/-- The ids of `leaders()`. -/
def leaders (c : HarnessSetup) (h : Harness σ) : List NodeId :=
  c.ids.filter fun i => (h.nodes i).role = .leader ∧ (h.nodes i).alive = true

/-- The id of `leader()`: of the live leaders the first of the highest term. -/
def leader (c : HarnessSetup) (h : Harness σ) : Option NodeId :=
  (h.leaders c).argmax fun i => (h.nodes i).term

end Harness
end RaftVerified
