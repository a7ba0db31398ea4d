import Mathlib.Algebra.Order.Ring.Unbundled.Rat
import RaftVerified.PyData
import RaftVerified.RaftTypes

/-! The faults of the simulated network (`Network` in `sim.py`). -/
namespace RaftVerified

/-- `frozenset((a, b))`: the undirected link between two nodes. -/
def link (a b : NodeId) : Finset NodeId := {a, b}

/-- Which nodes can reach each other. Messages and their counters are left out. -/
structure Network where
  nodeIds : List NodeId
  group : Dict NodeId ℕ
  crashed : Finset NodeId
  downLinks : Finset (Finset NodeId)
  lossyLinks : Dict (Finset NodeId) ℚ

namespace Network

def init (nodeIds : List NodeId) : Network where
  nodeIds := sorted nodeIds
  group := Dict.fromKeys (sorted nodeIds) 0
  crashed := ∅
  downLinks := ∅
  lossyLinks := ∅

/-- The loop of `set_partition`: every member of the `k`-th group is put into group `k`. -/
def assign (group : Dict NodeId ℕ) (groups : List (List NodeId)) : Dict NodeId ℕ :=
  groups.zipIdx.foldl (fun d g => g.1.foldl (fun d node => d.insert node g.2) d) group

/-- `set_partition`. An error stands for a `ValueError` and carries the network left behind. -/
def setPartition (net : Network) (groups : List (List NodeId)) : Except Network Network :=
  let net' := { net with group := assign net.group groups }
  if groups.flatten.toFinset ≠ net.nodeIds.toFinset then .error net' else .ok net'

def heal (net : Network) : Network :=
  { net with group := net.nodeIds.foldl (fun d node => d.insert node 0) net.group }

def isPartitioned (net : Network) : Bool :=
  1 < (net.nodeIds.toFinset.image net.group.lookup).card

/-- `reachable`, for two ids of the cluster. -/
def reachable (net : Network) (a b : NodeId) : Bool :=
  net.group.lookup a = net.group.lookup b ∧ link a b ∉ net.downLinks

def setLinkDown (net : Network) (a b : NodeId) : Network :=
  { net with downLinks := insert (link a b) net.downLinks }

def setLinkUp (net : Network) (a b : NodeId) : Network :=
  { net with downLinks := net.downLinks.erase (link a b) }

def linkIsDown (net : Network) (a b : NodeId) : Bool := link a b ∈ net.downLinks

def setLinkLossy (net : Network) (a b : NodeId) (dropP : ℚ) : Network :=
  { net with lossyLinks := net.lossyLinks.insert (link a b) dropP }

def clearLinkLossy (net : Network) (a b : NodeId) : Network :=
  { net with lossyLinks := net.lossyLinks.erase (link a b) }

def linkIsLossy (net : Network) (a b : NodeId) : Bool := link a b ∈ net.lossyLinks

/-- Two nodes are separated when a partition puts them into different groups. -/
def Separated (net : Network) (a b : NodeId) : Prop := net.group.lookup a ≠ net.group.lookup b

theorem Separated.not_reachable {net : Network} {a b : NodeId} (h : net.Separated a b) :
    net.reachable a b = false := by
  unfold reachable
  rw [decide_eq_false_iff_not]
  exact fun hr => h hr.1

theorem Separated.symm {net : Network} {a b : NodeId} (h : net.Separated a b) :
    net.Separated b a := Ne.symm h

theorem lookup_assign_two {low high : List NodeId} (group : Dict NodeId ℕ) (i : NodeId) :
    (assign group [low, high]).lookup i =
      if i ∈ high then some 1 else if i ∈ low then some 0 else group.lookup i := by
  show (high.foldl (fun d node => d.insert node 1)
    (low.foldl (fun d node => d.insert node 0) group)).lookup i = _
  rw [lookup_foldl_insert, lookup_foldl_insert]

/-- What a call of `set_partition` with two sides that returns has done. -/
theorem setPartition_two {net net' : Network} {low high : List NodeId}
    (h : net.setPartition [low, high] = .ok net') :
    net' = { net with group := assign net.group [low, high] } := by
  unfold setPartition at h
  dsimp only at h
  split at h
  · cases h
  · exact (Except.ok.inj h).symm

theorem separated_assign {low high : List NodeId} {a b : NodeId} (net : Network) (ha : a ∈ low)
    (ha' : a ∉ high) (hb : b ∈ high) :
    ({ net with group := assign net.group [low, high] } : Network).Separated a b := by
  unfold Separated
  dsimp only
  rw [lookup_assign_two, lookup_assign_two, if_neg ha', if_pos ha, if_pos hb]
  decide

end Network
end RaftVerified
