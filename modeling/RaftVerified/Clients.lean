import RaftVerified.RaftWorld

/-! The client driver of a cluster (`cluster.py`): a few clients, each with one operation
outstanding at a time, the nodes they try, and the history of what they observe. -/
namespace RaftVerified

def WORKLOAD_CLIENTS : ℤ := 3
def WORKLOAD_KEYS : List Str := ["k0".toList, "k1".toList, "k2".toList]
def WORKLOAD_OPS : List Op := [.put, .put, .get, .cas]

/-- `client_workload`. Both indices are in range. -/
def clientWorkload (clientId reqId : ℤ) : Command :=
  let seq := reqId*WORKLOAD_CLIENTS+clientId
  let key := WORKLOAD_KEYS.getD (seq % WORKLOAD_KEYS.length).toNat []
  match WORKLOAD_OPS.getD (seq % WORKLOAD_OPS.length).toNat .noop with
  | .get => { clientId, reqId, op := .get, key }
  | .cas => {
      clientId, reqId, op := .cas, key, value := 'v' :: intStr seq
      expected := if seq ≠ 0 then 'v' :: intStr (seq-1) else [] }
  | _ => { clientId, reqId, op := .put, key, value := 'v' :: intStr seq }

/-- What a `Cluster` is built from, with what it does about its clients. -/
structure ServiceSetup extends Setup where
  recordHistory : Bool := true
  readIndex : Bool := false

/-- The client-driver state of a `Cluster`. A row of the history that `_pending` shares is
named by its place. -/
structure Clients where
  history : List HistoryEntry := []
  pending : Dict Str ℕ := ∅
  nextReq : ℤ → ℤ := fun _ => 0
  outstanding : Dict ℤ Str := ∅
  clientTurn : ℤ := 0

namespace Clients

/-- `_invoke` at step `steps`. -/
def invoke (c : ServiceSetup) (steps : ℤ) (command : Command) (encoded : Str) (d : Clients) :
    Clients :=
  if c.recordHistory = false then d
  else
    let row : HistoryEntry := {
      clientId := command.clientId, reqId := command.reqId, op := command.op
      key := command.key, value := command.value, expected := command.expected
      invokeStep := steps }
    { d with
      history := d.history ++ [row]
      pending := d.pending.insert encoded d.history.length }

/-- The client whose outstanding operation has been applied moves on. -/
def moveOn (cmd : Command) (encoded : Str) (d : Clients) : Clients :=
  if d.outstanding.lookup cmd.clientId = some encoded then
    { d with
      outstanding := d.outstanding.erase cmd.clientId
      nextReq := Function.update d.nextReq cmd.clientId (d.nextReq cmd.clientId+1) }
  else d

/-- The row of an operation, if it is still open, is closed with the result. -/
def close (c : ServiceSetup) (steps : ℤ) (encoded result : Str) (d : Clients) : Clients :=
  if c.recordHistory = false then d
  else match d.pending.lookup encoded with
    | none => d
    | some k => { d with
        pending := d.pending.erase encoded
        history := d.history.modify k fun row =>
          { row with returnStep := some steps, observed := some result } }

/-- `_on_apply` at step `steps`. -/
def onApply (c : ServiceSetup) (steps : ℤ) (encoded result : Str) (d : Clients) : Clients :=
  let cmd := Command.decode encoded
  if cmd.isStructured = false then d
  else (d.moveOn cmd encoded).close c steps encoded result

/-- The first half of `_client_tick`: the client whose turn it is, and its encoded operation,
which is new when nothing of the client is outstanding. -/
def attempt (c : ServiceSetup) (steps : ℤ) (d : Clients) : Str × Clients :=
  let clientId := d.clientTurn % WORKLOAD_CLIENTS
  let d := { d with clientTurn := d.clientTurn+1 }
  match d.outstanding.lookup clientId with
  | some encoded => (encoded, d)
  | none =>
    let command := clientWorkload clientId (d.nextReq clientId)
    let encoded := command.encode
    let d := { d with outstanding := d.outstanding.insert clientId encoded }
    (encoded, d.invoke c steps command encoded)

end Clients

/-- The commands and results that a callback has reported through `on_apply`. -/
def onApplies : List Call → List (Str × Str)
  | [] => []
  | .onApply command result :: rest => (command, result) :: onApplies rest
  | _ :: rest => onApplies rest

/-- A cluster with its clients, after some simulator steps. -/
structure Service where
  world : World
  clients : Clients := {}
  steps : ℤ := 0

/-- What the simulator can run in one step. `quiet` is a driver that leaves the nodes alone,
or a message that the network drops. -/
inductive ServiceEvent
  | clientTick (target : NodeId)
  | callback (e : Event)
  | quiet
  deriving DecidableEq, Repr

namespace Service

def init (c : ServiceSetup) : Service where
  world := World.init c.toSetup

/-- Run a callback; the cluster hears of what it applies. -/
def perform (c : ServiceSetup) (s : Service) (e : Event) : Except PyError Service :=
  match s.world.target e with
  | none => .ok s
  | some i =>
    if i ∈ c.ids then do
      let x ← s.world.callback (s.world.nodes i) e
      .ok { s with
        world := s.world.put i x
        clients := (onApplies x.calls).foldl (fun d r => d.onApply c s.steps r.1 r.2) s.clients }
    else .ok s

/-- The second half of `_client_tick`: the operation goes to the target if that believes it is
the leader. -/
def submit (c : ServiceSetup) (s : Service) (target : NodeId) (encoded : Str) :
    Except PyError Service :=
  let node := s.world.nodes target
  if node.alive = true ∧ node.role = .leader then
    let cmd := Command.decode encoded
    if c.bugs.staleLocalReads = true ∧ cmd.op = .get then
      let result := (node.kv.store.lookup cmd.key).getD []
      .ok { s with clients := s.clients.onApply c s.steps encoded result }
    else if c.readIndex = true ∧ cmd.op = .get then s.perform c (.requestRead target encoded)
    else s.perform c (.clientCommand target encoded)
  else .ok s

/-- `_client_tick` when `rng.choice` draws the target. -/
def clientTick (c : ServiceSetup) (s : Service) (target : NodeId) : Except PyError Service :=
  let r := s.clients.attempt c s.steps
  submit c { s with clients := r.2 } target r.1

/-- One simulator step. -/
def step (c : ServiceSetup) (s : Service) (e : ServiceEvent) : Except PyError Service :=
  let s := { s with steps := s.steps+1 }
  match e with
  | .clientTick target => s.clientTick c target
  | .callback e => s.perform c e
  | .quiet => .ok s

/-- Whether the simulator can run an event. Any message ever sent may be delivered at any later
moment, and any timer may fire. -/
def Possible (c : ServiceSetup) : ServiceEvent → Prop
  | .clientTick target => target ∈ c.ids
  | .callback e => e.Ambient
  | .quiet => True

instance (c : ServiceSetup) (e : ServiceEvent) : Decidable (Possible c e) := by
  cases e <;> unfold Possible <;> infer_instance

/-- The runs of a cluster under its clients: all states so far, the newest first. -/
inductive Run (c : ServiceSetup) : List Service → Prop
  | init : Run c [init c]
  | step {s s' : Service} {past : List Service} {e : ServiceEvent} : Run c (s :: past) →
      Possible c e → s.step c e = .ok s' → Run c (s' :: s :: past)

/-- The run that goes on from `ss` with the events that are possible and do not fail. -/
def follow (c : ServiceSetup) : List Service → List ServiceEvent → List Service
  | ss, [] => ss
  | [], _ => []
  | s :: past, e :: rest =>
    if Possible c e then
      match s.step c e with
      | .ok s' => follow c (s' :: s :: past) rest
      | .error _ => follow c (s :: past) rest
    else follow c (s :: past) rest

theorem follow_run {c : ServiceSetup} {ss : List Service} (h : Run c ss)
    (es : List ServiceEvent) : Run c (follow c ss es) := by
  induction es generalizing ss with
  | nil => rwa [follow]
  | cons e rest ih =>
    cases ss with
    | nil => cases h
    | cons s past =>
      unfold follow
      split
      next hp =>
        split
        next s' hs' => exact ih (.step h hp hs')
        next => exact ih h
      next => exact ih h

end Service
end RaftVerified
