import Mathlib.Logic.Relation
import RaftVerified.RaftCached

/-! A node on its own, called from outside in any order with anything, and a checker that
looks at several such nodes from time to time. -/
namespace RaftVerified

/-- A call of a method of a node. A message is any message, sent or not. -/
inductive Operation
  | start
  | electionTimeout (seq : ℕ)
  | heartbeat (seq : ℕ)
  | clientCommand (command : Str)
  | changeConfig (newVoters : List NodeId)
  | requestRead (command : Str)
  | handle (msg : Message)
  | pause
  | resume

/-- The node a call leaves behind, when it returns. -/
def RaftNode.operate (n : RaftNode) : Operation → Except PyError RaftNode
  | .start => .ok ({ node := n } : Exec).start.node
  | .electionTimeout seq => (({ node := n } : Exec).onElectionTimeout seq).map Exec.node
  | .heartbeat seq => (({ node := n } : Exec).onHeartbeat seq).map Exec.node
  | .clientCommand command => (({ node := n } : Exec).clientCommand command).map (·.1.node)
  | .changeConfig newVoters => (({ node := n } : Exec).changeConfig newVoters).map (·.1.node)
  | .requestRead command => .ok (({ node := n } : Exec).requestRead command).1.node
  | .handle msg => (({ node := n } : Exec).handle msg).map Exec.node
  | .pause => .ok n.pause
  | .resume => .ok (({ node := n } : Exec).resume).node

variable {n m m' : RaftNode} {ids : List NodeId}

theorem operate_versioned {op : Operation} (h : n.operate op = .ok m) : Versioned n m := by
  cases op with
  | start =>
    obtain rfl := Except.ok.inj h
    exact versioned_of_eq rfl rfl rfl rfl
  | electionTimeout seq =>
    obtain ⟨y, hy, rfl⟩ := map_ok.mp h
    exact (Exec.onElectionTimeout_kept hy).1
  | heartbeat seq =>
    obtain ⟨y, hy, rfl⟩ := map_ok.mp h
    exact versioned_of_ledger (Exec.onHeartbeat_ledger hy)
  | clientCommand command =>
    obtain ⟨⟨y, b⟩, hy, rfl⟩ := map_ok.mp h
    exact (Exec.clientCommand_kept hy).1
  | changeConfig newVoters =>
    obtain ⟨⟨y, b⟩, hy, rfl⟩ := map_ok.mp h
    exact Exec.changeConfig_versioned hy
  | requestRead command =>
    obtain rfl := Except.ok.inj h
    exact versioned_of_ledger (Exec.requestRead_ledger _ command)
  | handle msg =>
    obtain ⟨y, hy, rfl⟩ := map_ok.mp h
    exact Exec.handle_versioned hy
  | pause =>
    obtain rfl := Except.ok.inj h
    exact versioned_of_eq rfl rfl rfl rfl
  | resume =>
    obtain rfl := Except.ok.inj h
    exact versioned_of_eq rfl rfl rfl rfl

/-- `m` is what any number of calls make of `n`. -/
def Lives : RaftNode → RaftNode → Prop :=
  Relation.ReflTransGen fun n m => ∃ op, n.operate op = .ok m

theorem Lives.versioned (h : Lives n m) : Versioned n m := by
  induction h with
  | refl => exact Versioned.refl n
  | tail _ hop ih =>
    obtain ⟨op, hop⟩ := hop
    exact ih.trans (operate_versioned hop)

/-- The calls that return, one after the other. -/
def RaftNode.operateAll (n : RaftNode) : List Operation → RaftNode
  | [] => n
  | op :: rest =>
    match n.operate op with
    | .ok m => m.operateAll rest
    | .error _ => n.operateAll rest

theorem lives_operateAll (n : RaftNode) (ops : List Operation) : Lives n (n.operateAll ops) := by
  induction ops generalizing n with
  | nil => exact .refl
  | cons op rest ih =>
    unfold RaftNode.operateAll
    split
    next m hm => exact .head ⟨op, hm⟩ (ih m)
    next => exact ih n

/-- The states in which a checker sees the nodes, each with the step it is told: between
two of them every node has gone through any number of calls. -/
inductive Evolves (ids : List NodeId) :
    (NodeId → RaftNode) → List (ℕ × (NodeId → RaftNode)) → Prop
  | nil {nodes : NodeId → RaftNode} : Evolves ids nodes []
  | cons {nodes nodes' : NodeId → RaftNode} {step : ℕ} {rest : List (ℕ × (NodeId → RaftNode))} :
      (∀ i ∈ ids, Lives (nodes i) (nodes' i)) → Evolves ids nodes' rest →
      Evolves ids nodes ((step, nodes') :: rest)

namespace InvariantChecker

/-- `check` called on each state in turn. -/
def checkAll (ids : List NodeId) (ck : InvariantChecker)
    (states : List (ℕ × (NodeId → RaftNode))) : Except RunError InvariantChecker :=
  states.foldlM (fun ck s => ck.check s.2 ids s.1) ck

def recheckAll (ids : List NodeId) (ck : InvariantChecker)
    (states : List (ℕ × (NodeId → RaftNode))) : Except RunError InvariantChecker :=
  states.foldlM (fun ck s => ck.recheck s.2 ids s.1) ck

theorem cachesOk_new {nodes : NodeId → RaftNode} (hids : ∀ i ∈ ids, (nodes i).id = i)
    (seed : ℤ) (replayHint : Str) : CachesOk (new seed replayHint) nodes ids :=
  ⟨hids, fun _ _ _ _ _ _ h => (Option.some_ne_none _ h.symm).elim,
    fun _ _ _ _ _ _ h => (Option.some_ne_none _ h.symm).elim,
    fun _ _ _ _ _ h => (Option.some_ne_none _ h.symm).elim⟩

theorem checkAll_uncached {ck : InvariantChecker} {nodes : NodeId → RaftNode}
    {states : List (ℕ × (NodeId → RaftNode))} (h : CachesOk ck nodes ids)
    (hev : Evolves ids nodes states) :
    (checkAll ids ck states).map uncached = recheckAll ids ck.uncached states := by
  induction hev generalizing ck with
  | nil => rfl
  | @cons nodes nodes' step rest hlives _ ih =>
    have hlater := h.later fun i hi => (hlives i hi).versioned
    unfold checkAll recheckAll
    rw [List.foldlM_cons, List.foldlM_cons]
    exact bind_project (check_uncached hlater) fun c hc => ih (check_keeps hlater hc)

end InvariantChecker
open InvariantChecker

/-- The cached checker and the cache-free one, called on the same nodes again and again,
pass the same states and fail at the same one with the same violation; and a call that
edits the log of a node or its base leaves it with a version it never had. -/
theorem cached_checks_agree (ids : List NodeId) (peers : NodeId → List NodeId)
    (config : NodeId → RaftConfig) (bugs : NodeId → Bugs)
    (initialVoters : NodeId → Option (List NodeId)) (seed : ℤ) (replayHint : Str) :
    (∀ states, Evolves ids (fun i => RaftNode.new i (peers i) (config i) (bugs i)
        (initialVoters i)) states →
      (checkAll ids (new seed replayHint) states).map uncached =
        recheckAll ids (new seed replayHint) states) ∧
    ∀ i n m m' op, Lives (RaftNode.new i (peers i) (config i) (bugs i) (initialVoters i)) n →
      Lives n m → m.operate op = .ok m' → m'.log ≠ m.log ∨ m'.baseIndex ≠ m.baseIndex →
      m'.logVersion ≠ n.logVersion := by
  refine ⟨fun states hev => checkAll_uncached (cachesOk_new (fun _ _ => rfl) seed replayHint) hev,
    ?_⟩
  intro i n m m' op _ hlives hop hedit heq
  have hpast := hlives.versioned
  have hlast := operate_versioned hop
  have hle := hpast.le
  have hle' := hlast.le
  obtain ⟨hlog, hbase⟩ := hlast.same (by omega)
  exact hedit.elim (fun h => h hlog) fun h => h hbase

/-! ### Three nodes that are checked three times -/

def server (i : NodeId) : RaftNode := RaftNode.new i ([0, 1, 2].erase i) {} NO_BUGS none

/-- Node 0, elected by node 1, with one command in its log. -/
def leading : RaftNode :=
  (server 0).operateAll [.start, .electionTimeout 1, .handle (.voteReply ⟨1, 1, true⟩),
    .clientCommand "put a 1".toList]

/-- Node 0, with the command committed by node 1. -/
def leadingAcked : RaftNode := leading.operateAll [.handle (.appendReply ⟨1, 1, true, 1⟩)]

/-- A node that has the command from node 0. -/
def following (i : NodeId) : RaftNode :=
  (server i).operateAll [.handle (.appendEntries ⟨1, 0, 0, 0, [⟨1, "put a 1".toList⟩], 0⟩)]

def triple (n₀ n₁ n₂ : RaftNode) (i : NodeId) : RaftNode :=
  if i = 0 then n₀ else if i = 1 then n₁ else n₂

/-- The command is replicated to node 1, committed, and replicated to node 2. -/
def replicated : List (ℕ × (NodeId → RaftNode)) :=
  [(3, triple leading (following 1) (server 2)), (4, triple leadingAcked (following 1) (server 2)),
    (5, triple leadingAcked (following 1) (following 2))]

theorem lives_triple {n₀ n₁ n₂ m₀ m₁ m₂ : RaftNode} (h₀ : Lives n₀ m₀) (h₁ : Lives n₁ m₁)
    (h₂ : Lives n₂ m₂) (i : NodeId) : Lives (triple n₀ n₁ n₂ i) (triple m₀ m₁ m₂ i) := by
  unfold triple
  split
  · exact h₀
  · split
    · exact h₁
    · exact h₂

theorem evolves_replicated : Evolves [0, 1, 2] server replicated := by
  refine .cons ?_ (.cons ?_ (.cons ?_ .nil))
  · intro i hi
    simp only [List.mem_cons, List.not_mem_nil, or_false] at hi
    rcases hi with rfl | rfl | rfl
    · exact lives_operateAll _ _
    · exact lives_operateAll _ _
    · exact .refl
  · exact fun i _ => lives_triple (lives_operateAll _ _) .refl .refl i
  · exact fun i _ => lives_triple .refl .refl (lives_operateAll _ _) i

/-- Before the third check the caches know the versions of nodes 0 and 1 and the term, version
and committed entries of the leader, so neither the pair nor the leader is looked at again. -/
theorem replicated_checks_agree :
    (checkAll [0, 1, 2] (new 7 []) replicated).map uncached =
      recheckAll [0, 1, 2] (new 7 []) replicated ∧
    (∃ ck, checkAll [0, 1, 2] (new 7 []) (replicated.take 2) = .ok ck ∧
      ck.pairChecked.lookup (0, 1) = some (leadingAcked.logVersion, (following 1).logVersion) ∧
      ck.completenessChecked.lookup 0 =
        some (leadingAcked.term, leadingAcked.logVersion, ck.committed.keys.card)) ∧
    ∃ m, leading.operate (.clientCommand "put a 2".toList) = .ok m ∧ m.log.length = 2 ∧
      m.logVersion ≠ leading.logVersion := by
  obtain ⟨hagree, hfresh⟩ := cached_checks_agree [0, 1, 2] (fun i => [0, 1, 2].erase i)
    (fun _ => {}) (fun _ => NO_BUGS) (fun _ => none) 7 []
  refine ⟨hagree replicated evolves_replicated, by decide +kernel, ?_⟩
  have hlives : Lives (server 0) leading := lives_operateAll _ _
  have hlen : leading.log.length = 1 := by decide +kernel
  have htwo : ∃ m, leading.operate (.clientCommand "put a 2".toList) = .ok m ∧
      m.log.length = 2 := by decide +kernel
  obtain ⟨m, hm, hm2⟩ := htwo
  refine ⟨m, hm, hm2, hfresh 0 leading leading m _ hlives .refl hm (Or.inl ?_)⟩
  intro heq
  rw [heq, hlen] at hm2
  cases hm2

end RaftVerified
