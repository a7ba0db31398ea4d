import Mathlib.Logic.Relation
import RaftVerified.Network
import RaftVerified.Simulator
import RaftVerified.Timeline

/-! The traffic of the simulated network (`Network.send` and `Network._delivery` in `sim.py`). -/
namespace RaftVerified

/-- `FaultProfile`, as far as it decides what happens to a message. -/
structure FaultProfile where
  dropP : ℚ
  dupP : ℚ
  minDelay : ℤ
  maxDelay : ℤ

/-- `random.Random` with states `σ`. An empty range makes `randint` raise a `ValueError`. -/
structure Rng (σ : Type) where
  random : σ → ℚ × σ
  randint : ℤ → ℤ → σ → Except Str (ℤ × σ)

structure Letter (μ : Type) where
  src : NodeId
  dst : NodeId
  msg : μ
  deriving DecidableEq

/-- Why a message is dropped: three times at its sending, three times at its delivery. -/
inductive Loss
  | senderCrashed
  | lossyLink
  | lost
  | dstCrashed
  | linkDown
  | partitioned
  deriving DecidableEq, Repr

def Loss.text : Loss → Str
  | .senderCrashed => "sender-crashed".toList
  | .lossyLink => "lossy-link".toList
  | .lost => "lost".toList
  | .dstCrashed => "dst-crashed".toList
  | .linkDown => "link-down".toList
  | .partitioned => "partitioned".toList

/-- What the network records. -/
inductive Traffic (μ : Type)
  | send (letter : Letter μ)
  | drop (letter : Letter μ) (loss : Loss)
  | dup (letter : Letter μ)
  | deliver (letter : Letter μ)

namespace Traffic
variable {μ : Type}

def kind : Traffic μ → Str
  | send _ => "send".toList
  | drop _ _ => "drop".toList
  | dup _ => "dup".toList
  | deliver _ => "deliver".toList

def detail (repr : μ → Str) : Traffic μ → Str
  | send l | dup l | deliver l =>
    nodeText l.src ++ "->".toList ++ nodeText l.dst ++ '|' :: repr l.msg
  | drop l loss => nodeText l.src ++ "->".toList ++ nodeText l.dst ++ '|' :: loss.text

end Traffic

/-- What the queue holds. A delivery carries the number of its sending, a history variable that
nothing reads. -/
inductive NetEvent (μ κ : Type)
  | delivery (number : ℕ) (letter : Letter μ)
  | other (event : κ)

/-- A delivery that has been made, with the faults of the network at that moment. -/
structure Delivered (μ : Type) where
  number : ℕ
  letter : Letter μ
  faults : Network

/-- The exceptions the network raises. -/
inductive NetError
  | valueError (text : Str)
  | keyError (node : NodeId)

/-- A `Network` with its simulator. `letters` are all the messages given to `send`, in order, and
`deliveries` all calls of the handler; both are history variables. -/
structure MessageNetwork (σ μ κ : Type) where
  faults : Network
  sim : Simulator (NetEvent μ κ)
  rng : σ
  sent : ℕ
  delivered : ℕ
  dropped : ℕ
  duplicated : ℕ
  trace : List (Traffic μ)
  letters : List (Letter μ)
  deliveries : List (Delivered μ)

namespace MessageNetwork
variable {σ μ κ : Type}

def init (nodeIds : List NodeId) (rng : σ) : MessageNetwork σ μ κ where
  faults := Network.init nodeIds
  sim := Simulator.init _
  rng := rng
  sent := 0
  delivered := 0
  dropped := 0
  duplicated := 0
  trace := []
  letters := []
  deliveries := []

def schedule (s : MessageNetwork σ μ κ) (delay : ℤ) (event : NetEvent μ κ) :
    Except NetError (MessageNetwork σ μ κ) :=
  match s.sim.schedule delay event with
  | .ok sim => .ok { s with sim := sim }
  | .error text => .error (.valueError text)

/-- A message is given to `send`. -/
def count (s : MessageNetwork σ μ κ) (l : Letter μ) : MessageNetwork σ μ κ :=
  { s with sent := s.sent+1, trace := s.trace ++ [.send l], letters := s.letters ++ [l] }

def drop (s : MessageNetwork σ μ κ) (l : Letter μ) (loss : Loss) : MessageNetwork σ μ κ :=
  { s with dropped := s.dropped+1, trace := s.trace ++ [.drop l loss] }

def duplicate (s : MessageNetwork σ μ κ) (l : Letter μ) : MessageNetwork σ μ κ :=
  { s with duplicated := s.duplicated+1, trace := s.trace ++ [.dup l] }

/-! ### Sending -/

section
variable (D : Rng σ)

/-- `rng.random() < p`. -/
def draw (s : MessageNetwork σ μ κ) (p : ℚ) : Bool × MessageNetwork σ μ κ :=
  let r := D.random s.rng
  (decide (r.1 < p), { s with rng := r.2 })

/-- `p > 0 and rng.random() < p`. -/
def chance (s : MessageNetwork σ μ κ) (p : ℚ) : Bool × MessageNetwork σ μ κ :=
  if 0 < p then s.draw D p else (false, s)

/-- Whether a lossy link eats the message. A link that is not lossy costs no random number. -/
def lossy (s : MessageNetwork σ μ κ) (l : Letter μ) : Bool × MessageNetwork σ μ κ :=
  match s.faults.lossyLinks.lookup (link l.src l.dst) with
  | some p => s.draw D p
  | none => (false, s)

def delay (P : FaultProfile) (s : MessageNetwork σ μ κ) :
    Except NetError (ℤ × MessageNetwork σ μ κ) :=
  match D.randint P.minDelay P.maxDelay s.rng with
  | .ok r => .ok (r.1, { s with rng := r.2 })
  | .error text => .error (.valueError text)

/-- A message that gets on its way, and sometimes once more. -/
def post (P : FaultProfile) (s : MessageNetwork σ μ κ) (number : ℕ) (l : Letter μ) :
    Except NetError (MessageNetwork σ μ κ) := do
  let d ← s.delay D P
  let s ← d.2.schedule d.1 (.delivery number l)
  let c := s.chance D P.dupP
  if c.1 then
    let d ← c.2.delay D P
    (d.2.duplicate l).schedule d.1 (.delivery number l)
  else .ok c.2

/-- `send`. The number of the message is the count of those before it. -/
def send (P : FaultProfile) (s : MessageNetwork σ μ κ) (l : Letter μ) :
    Except NetError (MessageNetwork σ μ κ) :=
  if l.src ∈ s.faults.crashed then .ok ((s.count l).drop l .senderCrashed)
  else
    let c := (s.count l).lossy D l
    if c.1 then .ok (c.2.drop l .lossyLink)
    else
      let c := c.2.chance D P.dropP
      if c.1 then .ok (c.2.drop l .lost)
      else c.2.post D P s.sent l

end

/-! ### Delivery -/

/-- `reachable`, which looks both nodes up. -/
def reachable (s : MessageNetwork σ μ κ) (a b : NodeId) : Except NetError Bool :=
  if a ∉ s.faults.group then .error (.keyError a)
  else if b ∉ s.faults.group then .error (.keyError b)
  else .ok (s.faults.reachable a b)

/-- `_delivery` up to the call of the handler, and whether there is one. -/
def delivery (s : MessageNetwork σ μ κ) (number : ℕ) (l : Letter μ) :
    Except NetError (Bool × MessageNetwork σ μ κ) :=
  if l.dst ∈ s.faults.crashed then .ok (false, s.drop l .dstCrashed)
  else if link l.src l.dst ∈ s.faults.downLinks then .ok (false, s.drop l .linkDown)
  else do
    if ← s.reachable l.src l.dst then
      .ok (true, { s with
        delivered := s.delivered+1
        trace := s.trace ++ [.deliver l]
        deliveries := s.deliveries ++ [⟨number, l, s.faults⟩] })
    else .ok (false, s.drop l .partitioned)

/-! ### Runs -/

/-- What happens to the faults of a network. A call of `set_partition` that raises also leaves
its mark. -/
inductive FaultCall
  | setPartition (groups : List (List NodeId))
  | heal
  | setLinkDown (a b : NodeId)
  | setLinkUp (a b : NodeId)
  | setLinkLossy (a b : NodeId) (dropP : ℚ)
  | clearLinkLossy (a b : NodeId)
  | crash (node : NodeId)
  | resume (node : NodeId)

def FaultCall.apply (net : Network) : FaultCall → Network
  | .setPartition groups =>
    match net.setPartition groups with
    | .ok net => net
    | .error net => net
  | .heal => net.heal
  | .setLinkDown a b => net.setLinkDown a b
  | .setLinkUp a b => net.setLinkUp a b
  | .setLinkLossy a b dropP => net.setLinkLossy a b dropP
  | .clearLinkLossy a b => net.clearLinkLossy a b
  | .crash node => { net with crashed := insert node net.crashed }
  | .resume node => { net with crashed := net.crashed.erase node }

/-- What code outside the network asks of it. -/
inductive NetCall (μ κ : Type)
  | send (letter : Letter μ)
  | schedule (delay : ℤ) (event : κ)
  | fault (call : FaultCall)

variable (D : Rng σ) (P : FaultProfile)

def call (s : MessageNetwork σ μ κ) : NetCall μ κ → Except NetError (MessageNetwork σ μ κ)
  | .send l => s.send D P l
  | .schedule delay event => s.schedule delay (.other event)
  | .fault call => .ok { s with faults := call.apply s.faults }

/-- Some code makes any calls it likes, all of which return. -/
def Calls : MessageNetwork σ μ κ → MessageNetwork σ μ κ → Prop :=
  Relation.ReflTransGen fun s s' => ∃ c, s.call D P c = .ok s'

/-- The next event and the network that is about to run it. -/
def pop (s : MessageNetwork σ μ κ) : Option (NetEvent μ κ × MessageNetwork σ μ κ) :=
  s.sim.pop.map fun e => (e.1, { s with sim := e.2 })

/-- `Simulator.step`, where the handler of a delivery and every other event may run any code. -/
inductive Step : MessageNetwork σ μ κ → MessageNetwork σ μ κ → Prop
  | handled {s s₁ s₂ s' number l} : s.pop = some (.delivery number l, s₁) →
      s₁.delivery number l = .ok (true, s₂) → Calls D P s₂ s' → Step s s'
  | dropped {s s₁ s' number l} : s.pop = some (.delivery number l, s₁) →
      s₁.delivery number l = .ok (false, s') → Step s s'
  | other {s s₁ s' event} : s.pop = some (.other event, s₁) → Calls D P s₁ s' → Step s s'

/-- The networks between simulator steps. An exception ends a run. -/
inductive Run (nodeIds : List NodeId) : MessageNetwork σ μ κ → Prop
  | init (rng : σ) : Run nodeIds (init nodeIds rng)
  | calls {s s'} : Run nodeIds s → Calls D P s s' → Run nodeIds s'
  | step {s s'} : Run nodeIds s → Step D P s s' → Run nodeIds s'

end MessageNetwork
end RaftVerified
