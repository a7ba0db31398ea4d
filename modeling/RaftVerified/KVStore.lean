import RaftVerified.PyText
import RaftVerified.PyData

/-! The replicated key-value store (`kv.py`): the command codec, the session table
and the client-observed history. -/
namespace RaftVerified

/-- `PUT`, `GET`, `CAS` and `NOOP`. -/
inductive Op
  | put
  | get
  | cas
  | noop
  deriving DecidableEq, Repr

def Op.str : Op → Str
  | .put => "put".toList
  | .get => "get".toList
  | .cas => "cas".toList
  | .noop => "noop".toList

structure Command where
  clientId : ℤ
  reqId : ℤ
  op : Op
  key : Str := []
  value : Str := []
  expected : Str := []
  deriving DecidableEq, Repr

def Command.encode (c : Command) : Str :=
  [':'].intercalate [intStr c.clientId, intStr c.reqId, c.op.str, c.key, c.value, c.expected]

/-- `cls(-1, -1, NOOP)`. -/
def Command.noop : Command := { clientId := -1, reqId := -1, op := .noop }

/-- The operations `decode` accepts in the third field. -/
def Op.ofStr (s : Str) : Option Op :=
  if s = Op.put.str then some .put
  else if s = Op.get.str then some .get
  else if s = Op.cas.str then some .cas
  else none

def Command.decode (s : Str) : Command :=
  match s.splitOn ':' with
  | [cid, rid, op, key, value, expected] =>
    match pyInt cid, pyInt rid, Op.ofStr op with
    | some clientId, some reqId, some op => { clientId, reqId, op, key, value, expected }
    | _, _, _ => .noop
  | _ => .noop

def Command.isStructured (c : Command) : Bool :=
  decide (0 ≤ c.clientId) && decide (c.op ≠ .noop)

@[ext] structure KVStateMachine where
  store : Dict Str Str := ∅
  sessions : Dict ℤ (ℤ × Str) := ∅

namespace KVStateMachine

def execute (kv : KVStateMachine) (cmd : Command) : KVStateMachine × Str :=
  match cmd.op with
  | .put => ({ kv with store := kv.store.insert cmd.key cmd.value }, "ok".toList)
  | .get => (kv, (kv.store.lookup cmd.key).getD [])
  | .cas =>
    if (kv.store.lookup cmd.key).getD [] = cmd.expected then
      ({ kv with store := kv.store.insert cmd.key cmd.value }, "ok".toList)
    else (kv, "fail".toList)
  | .noop => (kv, [])

/-- Execute a command that is no duplicate, and remember its result in the session table. -/
def executeFresh (kv : KVStateMachine) (cmd : Command) : KVStateMachine × Str :=
  let r := kv.execute cmd
  ({ r.1 with sessions := r.1.sessions.insert cmd.clientId (cmd.reqId, r.2) }, r.2)

/-- `is_duplicate`: whether the command has already been applied for its client. -/
def isDuplicate (kv : KVStateMachine) (cmd : Command) : Bool :=
  match kv.sessions.lookup cmd.clientId with
  | some last => decide (cmd.reqId ≤ last.1)
  | none => false

def apply (kv : KVStateMachine) (cmd : Command) : KVStateMachine × Str :=
  if cmd.isStructured = false then (kv, [])
  else match kv.sessions.lookup cmd.clientId with
    | some last => if cmd.reqId ≤ last.1 then (kv, last.2) else kv.executeFresh cmd
    | none => kv.executeFresh cmd

def applyRead (kv : KVStateMachine) (cmd : Command) : Str :=
  if cmd.op = .get then (kv.store.lookup cmd.key).getD [] else []

/-- A copy of the whole replicated state. -/
def capture (kv : KVStateMachine) : Dict Str Str × Dict ℤ (ℤ × Str) := (kv.store, kv.sessions)

def restore (store : Dict Str Str) (sessions : Dict ℤ (ℤ × Str)) : KVStateMachine :=
  { store, sessions }

end KVStateMachine

/-- One client-observed operation. -/
structure HistoryEntry where
  clientId : ℤ
  reqId : ℤ
  op : Op
  key : Str
  value : Str
  expected : Str
  invokeStep : ℤ
  returnStep : Option ℤ := none
  observed : Option Str := none
  deriving DecidableEq, Repr

def HistoryEntry.completed (h : HistoryEntry) : Bool := h.returnStep.isSome

end RaftVerified
