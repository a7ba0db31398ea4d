import Mathlib.Data.List.Sort
import RaftVerified.KVStore

/-! Entries, messages, configuration entries and the injectable defects. -/
namespace RaftVerified

/-- A Python `int` naming a server. -/
abbrev NodeId := ℤ

/-- `Bugs`: deliberately injectable defects, all off by default. -/
structure Bugs where
  dropCommitTermGuard : Bool := false
  voteForStaleCandidate : Bool := false
  skipLogConsistency : Bool := false
  allowCommitRegression : Bool := false
  staleLocalReads : Bool := false
  dropConfigCommitGuard : Bool := false
  deriving DecidableEq, Repr

def NO_BUGS : Bugs := {}

inductive Role
  | follower
  | candidate
  | leader
  deriving DecidableEq, Repr

/-- The field of `RaftConfig` that decides what a node does; the three timer
periods only decide when. -/
structure RaftConfig where
  snapshotThreshold : ℤ := 0
  deriving DecidableEq, Repr

structure Entry where
  term : ℕ
  command : Str
  deriving DecidableEq, Repr

def CONFIG_PREFIX : Str := "cfg:".toList

/-- `sorted(xs)`. -/
def sorted (xs : List NodeId) : List NodeId := xs.insertionSort (· ≤ ·)

def encodeConfig (voters : List NodeId) : Str :=
  CONFIG_PREFIX ++ [','].intercalate ((sorted voters).map intStr)

def decodeConfig (command : Str) : Option (List NodeId) :=
  if CONFIG_PREFIX.isPrefixOf command then
    ((command.drop CONFIG_PREFIX.length).splitOn ',').mapM pyInt
  else none

/-- A compacted state-machine image. `folded` is the log prefix the image stands
for; it is a history variable that no handler reads. -/
structure Snapshot where
  lastIndex : ℕ
  lastTerm : ℕ
  store : Dict Str Str
  sessions : Dict ℤ (ℤ × Str)
  voters : List NodeId
  folded : List Entry

structure RequestVote where
  term : ℕ
  candidate : NodeId
  lastLogIndex : ℕ
  lastLogTerm : ℕ
  deriving DecidableEq, Repr

structure VoteReply where
  term : ℕ
  voter : NodeId
  granted : Bool
  deriving DecidableEq, Repr

structure AppendEntries where
  term : ℕ
  leader : NodeId
  prevIndex : ℕ
  prevTerm : ℕ
  entries : List Entry
  leaderCommit : ℕ
  deriving DecidableEq, Repr

structure AppendReply where
  term : ℕ
  follower : NodeId
  success : Bool
  matchIndex : ℕ
  deriving DecidableEq, Repr

/-- `folded` is the same history variable as in `Snapshot`. -/
structure InstallSnapshot where
  term : ℕ
  leader : NodeId
  lastIndex : ℕ
  lastTerm : ℕ
  store : Dict Str Str
  sessions : Dict ℤ (ℤ × Str)
  voters : List NodeId
  folded : List Entry

structure ReadHeartbeat where
  term : ℕ
  leader : NodeId
  readId : ℕ
  deriving DecidableEq, Repr

structure ReadAck where
  term : ℕ
  follower : NodeId
  readId : ℕ
  deriving DecidableEq, Repr

inductive Message
  | requestVote (m : RequestVote)
  | voteReply (m : VoteReply)
  | appendEntries (m : AppendEntries)
  | appendReply (m : AppendReply)
  | installSnapshot (m : InstallSnapshot)
  | readHeartbeat (m : ReadHeartbeat)
  | readAck (m : ReadAck)

/-- What a node hands to `record`, field by field; the source formats it as text. -/
inductive TraceEvent
  | timer (node : NodeId) (term : ℕ)
  | role (node : NodeId) (role : Role) (term : ℕ)
  | election (node : NodeId) (term : ℕ)
  | dedup (node : NodeId) (command : Str)
  | append (node : NodeId) (index term : ℕ) (command : Str)
  | cfgchange (node : NodeId) (index term : ℕ) (voters : List NodeId)
  | read (node : NodeId) (readId index : ℕ)
  | readserved (node : NodeId) (readId : ℕ) (command : Str)
  | vote (node candidate : NodeId) (term : ℕ)
  | commit (node : NodeId) (index : ℕ)
  | apply (node : NodeId) (index : ℕ) (command : Str)
  | installsnap (node : NodeId) (index term : ℕ)
  | snapshot (node : NodeId) (index term : ℕ)
  deriving DecidableEq, Repr

def TraceEvent.node : TraceEvent → NodeId
  | timer node _ | role node _ _ | election node _ | dedup node _ | append node _ _ _
  | cfgchange node _ _ _ | read node _ _ | readserved node _ _ | vote node _ _ | commit node _
  | apply node _ _ | installsnap node _ _ | snapshot node _ _ => node

/-- The callback a node schedules, with the timer sequence number it captures. -/
inductive Timer
  | electionTimeout (seq : ℕ)
  | heartbeat (seq : ℕ)
  deriving DecidableEq, Repr

/-- A call through one of the callables the cluster injects into a node. -/
inductive Call
  | send (dst : NodeId) (msg : Message)
  | record (event : TraceEvent)
  | schedule (timer : Timer)
  | onApply (command result : Str)

/-! ### The configuration codec -/

theorem mapM_pyInt_intStr (vs : List NodeId) : (vs.map intStr).mapM pyInt = some vs := by
  induction vs with
  | nil => rfl
  | cons v vs ih =>
    rw [List.map_cons, List.mapM_cons, pyInt_intStr, ih]
    rfl

theorem sorted_ne_nil (vs : List NodeId) (h : vs ≠ []) : sorted vs ≠ [] := by
  intro hs
  have hl : (sorted vs).length = vs.length := List.length_insertionSort _ vs
  rw [hs] at hl
  exact h (List.length_eq_zero_iff.mp hl.symm)

/-- What a leader writes for a configuration is read back as its sorted voters. -/
theorem decodeConfig_encodeConfig (vs : List NodeId) (h : vs ≠ []) :
    decodeConfig (encodeConfig vs) = some (sorted vs) := by
  have hp : CONFIG_PREFIX.isPrefixOf (encodeConfig vs) = true :=
    List.isPrefixOf_iff_prefix.mpr (List.prefix_append _ _)
  have hf : ∀ l ∈ (sorted vs).map intStr, ',' ∉ l := by
    intro l hl
    obtain ⟨v, _, rfl⟩ := List.mem_map.mp hl
    exact intStr_free v ',' (by decide) (by decide)
  have hn : (sorted vs).map intStr ≠ [] := fun hm =>
    sorted_ne_nil vs h (List.map_eq_nil_iff.mp hm)
  rw [decodeConfig, if_pos hp, encodeConfig, List.drop_left,
    List.splitOn_intercalate ',' hf hn, mapM_pyInt_intStr]

theorem decodeConfig_of_plain (s : Str) (h : CONFIG_PREFIX.isPrefixOf s = false) :
    decodeConfig s = none := by
  simp [decodeConfig, h]

end RaftVerified
