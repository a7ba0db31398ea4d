import RaftVerified.Harness
import RaftVerified.Machine

/-! The drivers of a cluster and its run (`cluster.py`): clients, random faults, membership churn,
the fault schedule, and a check after every simulator step. -/
namespace RaftVerified

namespace HarnessSetup

/-- `client_interval or CLIENT_INTERVAL`. -/
def interval (c : HarnessSetup) : ℤ :=
  match c.clientInterval with
  | some 0 => CLIENT_INTERVAL
  | some z => z
  | none => CLIENT_INTERVAL

/-- A majority is kept alive under chaos. -/
def crashLimit (c : HarnessSetup) : ℕ := (c.numNodes-1)/2

def injections (c : HarnessSetup) : List Injection := (c.nemesis.map (·.injections)).getD []

end HarnessSetup

/-- What ends a run before its last step. A check that fails finds the cluster as the step has
left it. -/
inductive Stopped (σ : Type)
  | violated (v : InvariantViolation) (left : Harness σ)
  | raised (e : Failure)

namespace Harness
variable {σ : Type} (D : Platform σ) (c : HarnessSetup)

/-! ### The clients -/

/-- The second half of `_client_tick`: the operation goes to the target if that believes it is
the leader. -/
def submit (h : Harness σ) (target : NodeId) (encoded : Str) : Except Failure (Harness σ) :=
  let node := h.nodes target
  if node.alive = true ∧ node.role = .leader then
    let cmd := Command.decode encoded
    if c.bugs.staleLocalReads = true ∧ cmd.op = .get then
      let result := (node.kv.store.lookup cmd.key).getD []
      .ok ((h.record (.driver (.staleread target encoded result))).onApply c encoded result)
    else if c.readIndex = true ∧ cmd.op = .get then
      h.perform D c target (.ok ((h.enter target).requestRead encoded).1)
    else h.perform D c target (((h.enter target).clientCommand encoded).map Prod.fst)
  else .ok h

/-- What `_client_tick` notes of an attempt: a new operation or a retry. -/
def noteAttempt (h : Harness σ) (target clientId : NodeId) (encoded : Str) (idle : Bool) :
    Harness σ :=
  if idle then
    { h with stats := { h.stats with commandsSubmitted := h.stats.commandsSubmitted+1 } }.record
      (.driver (.client target clientId encoded))
  else
    { h with stats := { h.stats with retries := h.stats.retries+1 } }.record
      (.driver (.retry target clientId encoded))

/-- `_client_tick`. -/
def clientTick (h : Harness σ) : Except Failure (Harness σ) := do
  let clientId := h.clients.clientTurn % WORKLOAD_CLIENTS
  let t ← h.choice D c.ids
  let h := t.2
  let idle := decide (h.clients.outstanding.lookup clientId = none)
  let a := h.clients.attempt c.toServiceSetup h.steps
  let h := { h with clients := a.2 }
  let h ← (h.noteAttempt t.1 clientId a.1 idle).submit D c t.1 a.1
  h.schedule c.interval .clientTick

/-! ### The fault driver -/

/-- A side for every node, drawn in order. -/
def drawSides (h : Harness σ) : List NodeId → Except Failure (List (NodeId × ℤ) × Harness σ)
  | [] => .ok ([], h)
  | i :: rest => do
    let s ← h.randint D 0 1
    let r ← s.2.drawSides rest
    .ok ((i, s.1) :: r.1, r.2)

def side (sides : List (NodeId × ℤ)) (k : ℤ) : List NodeId :=
  (sides.filter (·.2 = k)).map Prod.fst

/-- The first half of `_fault_tick`. -/
def partitionTick (h : Harness σ) : Except Failure (Harness σ) :=
  if c.profile.partitions = false then .ok h
  else
    let r := h.random D
    if h.faults.isPartitioned then .ok (if r.1 < 25/100 then r.2.healPartition else r.2)
    else if r.1 < 15/100 then do
      let s ← r.2.drawSides D c.ids
      let low := side s.1 0
      let high := side s.1 1
      if low = [] ∨ high = [] then .ok s.2
      else match s.2.fireFault c with
        | (false, h) => .ok h
        | (true, h) => h.setPartition [low, high]
    else .ok r.2

/-- The nodes the fault driver may crash. -/
def candidates (h : Harness σ) : List NodeId :=
  if h.faults.crashed.card < c.crashLimit then c.ids.filter fun i => (h.nodes i).alive = true
  else []

/-- The second half of `_fault_tick`. -/
def crashTick (h : Harness σ) : Except Failure (Harness σ) :=
  if c.profile.crashes = false then .ok h
  else
    let r := h.random D
    if r.1 < 10/100 then
      let h := r.2
      if h.candidates c = [] then .ok h
      else do
        let v ← h.choice D (h.candidates c)
        let delay ← v.2.randint D 100 400
        match delay.2.fireFault c with
        | (false, h) => .ok h
        | (true, h) => do
          let h ← h.pause D c v.1
          h.schedule delay.1 (.maybeResume v.1)
    else .ok r.2

/-- `_fault_tick`. -/
def faultTick (h : Harness σ) : Except Failure (Harness σ) := do
  let h ← h.partitionTick D c
  let h ← h.crashTick D c
  h.schedule FAULT_INTERVAL .faultTick

/-- `_maybe_resume`. -/
def maybeResume (h : Harness σ) (i : NodeId) : Except Failure (Harness σ) :=
  if i ∈ h.faults.crashed then h.resume D c i else .ok h

/-! ### The membership driver -/

/-- What `_membership_tick` proposes to a leader, the turn it has come to, and whether the
proposal adds a server. -/
def proposal (servers : List NodeId) (turn : ℕ) (leader : RaftNode) : List NodeId × ℕ × Bool :=
  match servers.filter (· ∉ leader.voters) with
  | spare :: _ => (sorted (leader.voters ++ [spare]), turn, true)
  | [] =>
    let turn := if servers.getD (turn % servers.length) 0 = leader.id then turn+1 else turn
    let victim := servers.getD (turn % servers.length) 0
    (leader.voters.filter (· ≠ victim), turn, false)

/-- The round of `_membership_tick` for one leader. -/
def propose (h : Harness σ) (leader : NodeId) : Except Failure (Harness σ) :=
  let p := proposal c.ids h.memberTurn (h.nodes leader)
  let h := { h with memberTurn := p.2.1 }
  match (h.enter leader).changeConfig p.1 with
  | .error e => .error (.python e)
  | .ok r => do
    let h ← h.perform D c leader (.ok r.1)
    .ok (if r.2 = true ∧ p.2.2 = false then { h with memberTurn := h.memberTurn+1 } else h)

/-- `_membership_tick`. -/
def membershipTick (h : Harness σ) : Except Failure (Harness σ) := do
  let h ← (h.leaders c).foldlM (propose D c) h
  h.schedule MEMBERSHIP_INTERVAL .membershipTick

/-! ### The fault schedule -/

/-- The fault of an injection, which the mask may suppress, and its recovery. -/
def inject (h : Harness σ) (fault : Harness σ → Except Failure (Harness σ)) (delay : ℤ)
    (recovery : Job) : Except Failure (Harness σ) :=
  match h.fireFault c with
  | (false, h) => .ok h
  | (true, h) => do
    let h ← fault h
    h.schedule delay recovery

/-- `_nemesis_fire`. -/
def nemesisFire (h : Harness σ) : NemesisOp → Except Failure (Harness σ)
  | .partitionHalves _ duration =>
    let half := (c.ids.length+1)/2
    let low := c.ids.take half
    let high := c.ids.drop half
    if high = [] then .ok (h.record (.driver .singleNode))
    else h.inject c (·.setPartition [low, high]) duration .healPartition
  | .isolateLeader _ duration =>
    match h.leader c with
    | none => .ok (h.record (.driver .noLeader))
    | some victim =>
      if c.ids.length < 2 then .ok (h.record (.driver .noLeader))
      else
        h.inject c (·.setPartition [[victim], c.ids.filter (· ≠ victim)]) duration .healPartition
  | .flappingLink a b _ period _ => h.inject c (fun h => .ok (h.linkDown a b)) period (.linkUp a b)
  | .lossyLink a b _ duration dropP =>
    h.inject c (fun h => .ok (h.setLossyLink D a b dropP)) duration (.clearLossyLink a b)
  | .crashNode node _ duration =>
    if (h.nodes node).alive = false then .ok (h.record (.driver (.alreadyDown node)))
    else h.inject c (·.pause D c node) duration (.maybeResume node)

/-! ### Running -/

/-- What a job does when it is its turn. -/
def execute (h : Harness σ) : Job → Except Failure (Harness σ)
  | .timer i (.electionTimeout seq) => h.perform D c i ((h.enter i).onElectionTimeout seq)
  | .timer i (.heartbeat seq) => h.perform D c i ((h.enter i).onHeartbeat seq)
  | .clientTick => h.clientTick D c
  | .faultTick => h.faultTick D c
  | .membershipTick => h.membershipTick D c
  | .maybeResume i => h.maybeResume D c i
  | .nemesisFire op => h.nemesisFire D c op
  | .healPartition => .ok h.healPartition
  | .linkUp a b => .ok (h.linkUp a b)
  | .clearLossyLink a b => .ok (h.clearLossyLink a b)

/-- `_delivery`, and `_deliver` for a message that arrives. -/
def deliver (h : Harness σ) (number : ℕ) (l : Letter Message) : Except Failure (Harness σ) :=
  match h.net.delivery number l with
  | .error e => .error (.net e)
  | .ok (true, net) => (h.absorb net).perform D c l.dst ((h.enter l.dst).handle l.msg)
  | .ok (false, net) => .ok (h.absorb net)

/-- `Simulator.step`; there is nothing to do when the queue is empty. -/
def simStep (h : Harness σ) : Except Failure (Option (Harness σ)) :=
  match h.net.pop with
  | none => .ok none
  | some (.delivery number l, net) => ({ h with net }.deliver D c number l).map some
  | some (.other job, net) => ({ h with net }.execute D c job).map some

/-- `Cluster.step`. -/
def step : Machine (Harness σ) (Stopped σ) := fun h =>
  match h.simStep D c with
  | .error e => .error (.raised e)
  | .ok none => .ok none
  | .ok (some h) =>
    match h.checker.check h.nodes c.ids h.steps with
    | .ok checker => .ok (some { h with checker })
    | .error (.violation v) => .error (.violated v h)
    | .error (.python e) => .error (.raised (.python e))

/-- A driver's first tick. -/
def startDriver (h : Harness σ) (on : Bool) (delay : ℤ) (job : Job) :
    Except Failure (Harness σ) := if on then h.schedule delay job else .ok h

/-- The cluster before anything is scheduled. -/
def blank : Harness σ where
  nodes := (World.init c.toSetup).nodes
  net := .init c.ids (D.seeded c.seed)
  checker := .new c.seed
    (replayHint D.json c.numNodes c.seed c.profile.name c.membership c.nemesis)

/-- `Cluster.__init__`, once the arguments are accepted. -/
def init : Except Failure (Harness σ) := do
  -- the nodes start one after the other
  let h ← c.ids.foldlM
    (fun h i => ({ node := c.node i } : Exec).start.calls.foldlM (call D c i) h) (blank D c)
  let h ← h.startDriver (decide (c.clientInterval.getD 0 ≠ 0)) c.interval .clientTick
  let h ← h.startDriver (c.profile.partitions || c.profile.crashes) FAULT_INTERVAL .faultTick
  let h ← h.startDriver c.membership MEMBERSHIP_INTERVAL .membershipTick
  -- every injection is scheduled up-front
  c.injections.foldlM (fun h i => h.schedule i.atTime (.nemesisFire i.op)) h

/-- The runs of a cluster: all states between steps, the newest first. -/
inductive Run : List (Harness σ) → Prop
  | init {h : Harness σ} : init D c = .ok h → Run [h]
  | step {h h' : Harness σ} {past : List (Harness σ)} : Run (h :: past) →
      step D c h = .ok (some h') → Run (h' :: h :: past)

/-! ### The result -/

/-- What a run tells of one node in the end. -/
structure FinalRow where
  id : NodeId
  role : Role
  term : ℕ
  alive : Bool
  commitIndex : ℕ
  applied : ℕ
  logLength : ℕ

/-- The numbers of a result beside its statistics. -/
structure Totals where
  sent : ℕ
  delivered : ℕ
  dropped : ℕ
  duplicated : ℕ
  invariantChecks : ℕ

/-- `RunResult`, less the digests. -/
structure Result where
  seed : ℤ
  faults : Str
  numNodes : ℕ
  steps : ℕ
  virtualTime : ℤ
  trace : List (ℤ × Note)
  events : List (ℤ × Record)
  stats : Stats
  totals : Totals
  final : List FinalRow

/-- `result`. -/
def result (h : Harness σ) : Result where
  seed := c.seed
  faults := c.profile.name
  numNodes := c.numNodes
  steps := h.steps
  virtualTime := h.now
  trace := h.trace
  events := h.events
  stats := h.stats
  totals := {
    sent := h.net.sent, delivered := h.net.delivered, dropped := h.net.dropped
    duplicated := h.net.duplicated, invariantChecks := h.checker.checksRun }
  final := c.ids.map fun i => {
    id := i, role := (h.nodes i).role, term := (h.nodes i).term, alive := (h.nodes i).alive
    commitIndex := (h.nodes i).commitIndex, applied := (h.nodes i).applied.length
    logLength := (h.nodes i).lastLogIndex }

/-- `run`. -/
def run (n : ℕ) (h : Harness σ) : Except (Stopped σ) (Harness σ) := Machine.run (step D c) n h

/-- `run_until`. -/
def runUntil (wanted : Harness σ → Bool) (n : ℕ) (h : Harness σ) :
    Except (Stopped σ) (Bool × Harness σ) := Machine.runUntil (step D c) wanted n h

end Harness
end RaftVerified
