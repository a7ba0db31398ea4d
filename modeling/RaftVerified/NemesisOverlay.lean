import Mathlib.Logic.Relation
import RaftVerified.NemesisRun

/-! When the patterns of a schedule overlay. A recovery undoes whatever is in force on its part of
the network, so an injection has its whole window only if no earlier recovery falls into it. -/
namespace RaftVerified

/-- A part of the network that faults and recoveries act on. -/
inductive Part
  | groups
  | downLink (l : Finset NodeId)
  | lossyLink (l : Finset NodeId)
  | node (node : NodeId)
  deriving DecidableEq

/-- The part of the network that an event brings back to normal. -/
def SimEvent.restores {κ : Type} : SimEvent κ → Option Part
  | .healPartition => some .groups
  | .linkUp a b => some (.downLink (link a b))
  | .clearLossyLink a b => some (.lossyLink (link a b))
  | _ => none

/-- What an injection does, its target being known. -/
inductive Fault
  | partition (low high : List NodeId)
  | linkDown (a b : NodeId)
  | lossyLink (a b : NodeId) (dropP : ℚ)
  | crash (node : NodeId)
  deriving DecidableEq

namespace Fault

def part : Fault → Part
  | partition _ _ => .groups
  | linkDown a b => .downLink (link a b)
  | lossyLink a b _ => .lossyLink (link a b)
  | crash node => .node node

/-- The event that ends a fault. -/
def recovery {κ : Type} : Fault → SimEvent κ
  | partition _ _ => .healPartition
  | linkDown a b => .linkUp a b
  | lossyLink a b _ => .clearLossyLink a b
  | crash node => .maybeResume node

def inflict (net : Network) : Fault → Network
  | partition low high => { net with group := Network.assign net.group [low, high] }
  | linkDown a b => net.setLinkDown a b
  | lossyLink a b dropP => net.setLinkLossy a b dropP
  | crash node => { net with crashed := insert node net.crashed }

/-- A partition keeps its two sides mutually unreachable, a link stays down, or lossy with the
fault's own probability. -/
def InForce (net : Network) : Fault → Prop
  | partition low high =>
    ∀ a ∈ low, ∀ b ∈ high, net.reachable a b = false ∧ net.reachable b a = false
  | linkDown a b => net.linkIsDown a b = true
  | lossyLink a b dropP => net.lossyLinks.lookup (link a b) = some dropP
  | crash _ => True

/-- In force, whatever becomes of the other parts of the network. -/
def Held (net : Network) : Fault → Prop
  | partition low high => ∀ a ∈ low, ∀ b ∈ high, net.Separated a b
  | f => f.InForce net

/-- The fault leaves in force what its part of the network suffers already: it cuts every two
nodes apart that were apart, or gives the link the probability it had. -/
def Keeps (net : Network) : Fault → Prop
  | partition low high => ∀ a b, net.Separated a b →
    ({ net with group := Network.assign net.group [low, high] } : Network).Separated a b
  | lossyLink a b dropP => net.lossyLinks.lookup (link a b) = some dropP
  | linkDown _ _ => True
  | crash _ => True

/-! ### What keeps a fault in force -/

variable {net : Network} {f g : Fault} {a b : NodeId}

theorem Held.inForce (h : f.Held net) : f.InForce net := by
  cases f with
  | partition low high =>
    intro a ha b hb
    exact ⟨(h a ha b hb).not_reachable, (h a ha b hb).symm.not_reachable⟩
  | linkDown a b => exact h
  | lossyLink a b dropP => exact h
  | crash node => exact h

theorem Held.heal (hpart : f.part ≠ .groups) (h : f.Held net) : f.Held net.heal := by
  cases f with
  | partition low high => exact absurd rfl hpart
  | linkDown a b => exact h
  | lossyLink a b dropP => exact h
  | crash node => exact h

theorem Held.setLinkUp (hpart : f.part ≠ .downLink (link a b)) (h : f.Held net) :
    f.Held (net.setLinkUp a b) := by
  cases f with
  | partition low high => exact h
  | linkDown a' b' =>
    have hne : link a' b' ≠ link a b := fun heq => hpart (congrArg Part.downLink heq)
    exact decide_eq_true (Finset.mem_erase.mpr ⟨hne, of_decide_eq_true h⟩)
  | lossyLink a' b' dropP => exact h
  | crash node => exact h

theorem Held.clearLinkLossy (hpart : f.part ≠ .lossyLink (link a b)) (h : f.Held net) :
    f.Held (net.clearLinkLossy a b) := by
  cases f with
  | partition low high => exact h
  | linkDown a' b' => exact h
  | lossyLink a' b' dropP =>
    have hne : link a' b' ≠ link a b := fun heq => hpart (congrArg Part.lossyLink heq)
    exact (Finmap.lookup_erase_ne hne).trans h
  | crash node => exact h

/-- A fault of another part changes nothing, and one of the same part is asked to keep it. -/
theorem Held.inflict (hkeeps : g.part = f.part → g.Keeps net) (h : f.Held net) :
    f.Held (g.inflict net) := by
  cases f with
  | partition low high =>
    cases g with
    | partition low' high' =>
      intro a ha b hb
      exact hkeeps rfl a b (h a ha b hb)
    | linkDown a' b' => exact h
    | lossyLink a' b' dropP' => exact h
    | crash node => exact h
  | linkDown a b =>
    cases g with
    | linkDown a' b' => exact decide_eq_true (Finset.mem_insert_of_mem (of_decide_eq_true h))
    | partition low' high' => exact h
    | lossyLink a' b' dropP' => exact h
    | crash node => exact h
  | lossyLink a b dropP =>
    cases g with
    | lossyLink a' b' dropP' =>
      show (net.lossyLinks.insert (link a' b') dropP').lookup (link a b) = some dropP
      rw [Dict.lookup_insert_eq]
      split
      next heq =>
        -- the same link: it has the probability that the fault gives it again
        have hsame := hkeeps (congrArg Part.lossyLink heq.symm)
        have hboth : some dropP' = some dropP := by
          rw [← show net.lossyLinks.lookup (link a b) = some dropP from h, heq]
          exact hsame.symm
        exact hboth
      next => exact h
    | partition low' high' => exact h
    | linkDown a' b' => exact h
    | crash node => exact h
  | crash node => exact trivial

theorem held_inflict (hsides : ∀ low high, f = .partition low high → ∀ a ∈ low, a ∉ high) :
    f.Held (f.inflict net) := by
  cases f with
  | partition low high =>
    intro a ha b hb
    exact net.separated_assign ha (hsides low high rfl a ha) hb
  | linkDown a b => exact decide_eq_true (Finset.mem_insert_self _ _)
  | lossyLink a b dropP => exact Finmap.lookup_insert _
  | crash node => exact trivial

theorem restores_recovery {κ : Type} (h : ∀ node, f ≠ .crash node) :
    (f.recovery : SimEvent κ).restores = some f.part := by
  cases f with
  | partition low high => rfl
  | linkDown a b => rfl
  | lossyLink a b dropP => rfl
  | crash node => exact absurd rfl (h node)

theorem part_of_restores {κ : Type} (h : (f.recovery : SimEvent κ).restores = some g.part) :
    f.part = g.part := by
  cases f with
  | partition low high => exact Option.some.inj h
  | linkDown a b => exact Option.some.inj h
  | lossyLink a b dropP => exact Option.some.inj h
  | crash node => cases h

end Fault

/-- The window of an injection: its `duration`, or the `period` of a flap. -/
def NemesisOp.window : NemesisOp → ℤ
  | partitionHalves _ duration => duration
  | isolateLeader _ duration => duration
  | flappingLink _ _ _ period _ => period
  | lossyLink _ _ _ duration _ => duration
  | crashNode _ _ duration => duration

namespace Cluster
variable {σ κ : Type} {E : Environment σ κ} {c c' d : Cluster σ κ} {e : SimEvent κ} {f : Fault}

/-- The fault that an injection comes to in the present state; `none` when it is skipped. -/
def resolve (E : Environment σ κ) (c : Cluster σ κ) : NemesisOp → Option Fault
  | .partitionHalves _ _ =>
    let half := (c.nodes.length+1)/2
    if c.nodes.drop half = [] then none
    else some (.partition (c.nodes.take half) (c.nodes.drop half))
  | .isolateLeader _ _ =>
    match E.leader c.rest with
    | none => none
    | some victim =>
      if c.nodes.length < 2 then none
      else some (.partition [victim] (c.nodes.filter (· ≠ victim)))
  | .flappingLink a b _ _ _ => some (.linkDown a b)
  | .lossyLink a b _ _ dropP => some (.lossyLink a b dropP.value)
  | .crashNode node _ _ => if E.alive c.rest node = false then none else some (.crash node)

/-- The injection respects the recoveries to come of its part of the network: they are due at the
end of its own window, and it keeps what they will end; or they are due at once, and its window
is over before the next instant. -/
def Respects (E : Environment σ κ) (d : Cluster σ κ) : SimEvent κ → Prop
  | .nemesisFire op => ∀ f, d.resolve E op = some f → ∀ p ∈ d.sim.heap,
    p.event.restores = some f.part →
      p.time = d.sim.now+op.window ∧ f.Keeps d.net ∨ op.window = 1 ∧ p.time = d.sim.now
  | _ => True

/-- One step of a run, of an event that is `allowed` where it runs. -/
def Moves (E : Environment σ κ) (allowed : Cluster σ κ → SimEvent κ → Prop) (c c' : Cluster σ κ) :
    Prop := ∃ e d, Steps E c e d c' ∧ allowed d e

abbrev Reach (E : Environment σ κ) (allowed : Cluster σ κ → SimEvent κ → Prop) :
    Cluster σ κ → Cluster σ κ → Prop := Relation.ReflTransGen (Moves E allowed)

/-- In the runs from `c₀`, an injection that fires at `t` with a window `w` is in force after
every step at a time from `t+1` to `t+w-1`. -/
def Overlays (E : Environment σ κ) (allowed : Cluster σ κ → SimEvent κ → Prop) (c₀ : Cluster σ κ) :
    Prop :=
  ∀ c op d f c' c'', Reach E allowed c₀ c → Steps E c (.nemesisFire op) d c' →
    allowed d (.nemesisFire op) → d.resolve E op = some f → Reach E allowed c' c'' →
    c'.sim.now+1 ≤ c''.sim.now → c''.sim.now ≤ c'.sim.now+op.window-1 → f.InForce c''.net

/-! ### What an event does -/

/-- Nothing but events of the rest of the cluster has been scheduled. -/
structure Grown (c c' : Cluster σ κ) : Prop where
  now : c'.sim.now = c.sim.now
  suppressed : c'.suppressed = c.suppressed
  kept : ∀ p ∈ c.sim.heap, p ∈ c'.sim.heap
  new : ∀ p ∈ c'.sim.heap, p ∈ c.sim.heap ∨ p.event.restores = none

theorem Grown.trans {c c' c'' : Cluster σ κ} (h : Grown c c') (h' : Grown c' c'') :
    Grown c c'' where
  now := h'.now.trans h.now
  suppressed := h'.suppressed.trans h.suppressed
  kept p hp := h'.kept p (h.kept p hp)
  new p hp := by
    rcases h'.new p hp with hp' | hnone
    · exact h.new p hp'
    · exact Or.inr hnone

/-- What a call of `schedule` that returns has done. -/
theorem schedule_ok {delay : ℤ} (h : c.schedule delay e = .ok c') :
    0 ≤ delay ∧ c'.net = c.net ∧ c'.sim.now = c.sim.now ∧ c'.suppressed = c.suppressed ∧
      ∀ p, p ∈ c'.sim.heap ↔ p = ⟨c.sim.now+delay, c.sim.seq, e⟩ ∨ p ∈ c.sim.heap := by
  obtain ⟨sim, hsim, rfl⟩ := map_ok.mp h
  obtain ⟨hdelay, hnow, hheap⟩ := Simulator.schedule_ok hsim
  exact ⟨hdelay, rfl, hnow, rfl, hheap⟩

theorem proceed_ok {next : σ × List (ℤ × κ)} (h : c.proceed next = .ok c') :
    c'.net = c.net ∧ Grown c c' := by
  obtain ⟨rest, later⟩ := next
  have hstart : Grown c { c with rest := rest } := ⟨rfl, rfl, fun _ hp => hp, fun _ => Or.inl⟩
  unfold proceed at h
  dsimp only at h
  generalize hc : ({ c with rest := rest } : Cluster σ κ) = b at h hstart
  have hnet : b.net = c.net := by rw [← hc]
  clear hc
  -- each event of the rest is scheduled on top of the ones before it
  induction later generalizing b with
  | nil =>
    cases h
    exact ⟨hnet, hstart⟩
  | cons x later ih =>
    rw [List.foldlM_cons] at h
    obtain ⟨b', hb', hrest⟩ := bind_ok.mp h
    obtain ⟨-, hnet', hnow, hsup, hheap⟩ := schedule_ok hb'
    refine ih b' hrest (hstart.trans ⟨hnow, hsup, ?_, ?_⟩) (hnet'.trans hnet)
    · intro p hp
      exact (hheap p).mpr (Or.inr hp)
    · intro p hp
      rcases (hheap p).mp hp with rfl | hp
      · exact Or.inr rfl
      · exact Or.inl hp

/-- The fault `f` has been injected, and its recovery is due at the end of the window `w`. -/
structure Injected (w : ℤ) (f : Fault) (c c' : Cluster σ κ) : Prop where
  net : c'.net = f.inflict c.net
  now : c'.sim.now = c.sim.now
  suppressed : c'.suppressed = c.suppressed
  kept : ∀ p ∈ c.sim.heap, p ∈ c'.sim.heap
  own : ∃ p ∈ c'.sim.heap, p.time = c.sim.now+w ∧ p.event = f.recovery
  new : ∀ p ∈ c'.sim.heap, p ∈ c.sim.heap ∨ p.event.restores = none ∨
    p.time = c.sim.now+w ∧ p.event = f.recovery

theorem Injected.of_schedule {w : ℤ} (hnet : d.net = f.inflict c.net) (hgrown : Grown c d)
    (h : d.schedule w f.recovery = .ok c') : Injected w f c c' := by
  obtain ⟨-, hnet', hnow, hsup, hheap⟩ := schedule_ok h
  rw [hgrown.now] at hheap
  refine ⟨hnet'.trans hnet, hnow.trans hgrown.now, hsup.trans hgrown.suppressed, ?_, ?_, ?_⟩
  · intro p hp
    exact (hheap p).mpr (Or.inr (hgrown.kept p hp))
  · exact ⟨_, (hheap _).mpr (Or.inl rfl), rfl, rfl⟩
  · intro p hp
    rcases (hheap p).mp hp with rfl | hp
    · exact Or.inr (Or.inr ⟨rfl, rfl⟩)
    · exact (hgrown.new p hp).imp_right Or.inl

theorem fireFault_of_empty (h : c.suppressed = ∅) :
    c.fireFault = (true, { c with faultSeq := c.faultSeq+1 }) := by
  unfold fireFault
  rw [h]
  simp

theorem setPartition_ok {low high : List NodeId} (h : c.setPartition [low, high] = .ok c') :
    c' = { c with net := (Fault.partition low high).inflict c.net } := by
  unfold setPartition at h
  split at h
  next net hnet =>
    cases h
    rw [Network.setPartition_two hnet]
    rfl
  next => cases h

theorem linkDown_net (a b : NodeId) : c.linkDown a b = { c with net := c.net.setLinkDown a b } := by
  unfold linkDown
  split
  next h =>
    unfold Network.linkIsDown at h
    rw [Network.setLinkDown, Finset.insert_eq_self.mpr (of_decide_eq_true h)]
  next => rfl

/-- With nothing masked, an injection that is not skipped comes to its fault. -/
theorem nemesisFire_ok {op : NemesisOp} (hmask : c.suppressed = ∅)
    (h : c.nemesisFire E op = .ok c') :
    c.resolve E op = none ∧ c' = c ∨
      ∃ f, c.resolve E op = some f ∧ Injected op.window f c c' := by
  have hgrown : ∀ net, Grown c { c with net := net, faultSeq := c.faultSeq+1 } :=
    fun net => ⟨rfl, rfl, fun _ hp => hp, fun _ => Or.inl⟩
  cases op with
  | partitionHalves atTime duration =>
    unfold nemesisFire at h
    unfold resolve
    dsimp only at h ⊢
    split at h
    -- a single node has no other half
    next hhigh =>
      cases h
      exact Or.inl ⟨if_pos hhigh, rfl⟩
    next hhigh =>
      rw [fireFault_of_empty hmask] at h
      dsimp only at h
      obtain ⟨b, hb, hsched⟩ := bind_ok.mp h
      rw [setPartition_ok hb] at hsched
      exact Or.inr ⟨_, if_neg hhigh, .of_schedule rfl (hgrown _) hsched⟩
  | isolateLeader atTime duration =>
    unfold nemesisFire at h
    unfold resolve
    cases hlead : E.leader c.rest with
    -- nobody to isolate
    | none =>
      rw [hlead] at h
      cases h
      exact Or.inl ⟨rfl, rfl⟩
    | some victim =>
      rw [hlead] at h
      dsimp only at h ⊢
      split at h
      -- nobody to isolate the leader from
      next hsmall =>
        cases h
        exact Or.inl ⟨if_pos hsmall, rfl⟩
      next hsmall =>
        rw [fireFault_of_empty hmask] at h
        dsimp only at h
        obtain ⟨b, hb, hsched⟩ := bind_ok.mp h
        rw [setPartition_ok hb] at hsched
        exact Or.inr ⟨_, if_neg hsmall, .of_schedule rfl (hgrown _) hsched⟩
  | flappingLink a b atTime period cycles =>
    unfold nemesisFire at h
    rw [fireFault_of_empty hmask] at h
    dsimp only at h
    rw [linkDown_net] at h
    exact Or.inr ⟨_, rfl, .of_schedule rfl (hgrown _) h⟩
  | lossyLink a b atTime duration dropP =>
    unfold nemesisFire at h
    rw [fireFault_of_empty hmask] at h
    exact Or.inr ⟨_, rfl, .of_schedule rfl (hgrown _) h⟩
  | crashNode node atTime duration =>
    unfold nemesisFire at h
    unfold resolve
    dsimp only at h ⊢
    split at h
    -- the node is down already
    next hdown =>
      cases h
      exact Or.inl ⟨if_pos hdown, rfl⟩
    next hup =>
      rw [fireFault_of_empty hmask] at h
      dsimp only at h
      obtain ⟨b, hb, hsched⟩ := bind_ok.mp h
      obtain ⟨hnet, hrest⟩ := proceed_ok hb
      -- what the paused node has scheduled is not a recovery
      have hfrom : Grown c b := (hgrown _).trans hrest
      exact Or.inr ⟨_, if_neg hup, .of_schedule hnet hfrom hsched⟩

theorem linkUp_net (a b : NodeId) : c.linkUp a b = { c with net := c.net.setLinkUp a b } := by
  unfold linkUp
  split
  next => rfl
  next h =>
    have hnot : link a b ∉ c.net.downLinks := fun hmem => h (decide_eq_true hmem)
    rw [Network.setLinkUp, Finset.erase_eq_of_notMem hnot]

theorem clearLossyLink_net (a b : NodeId) :
    c.clearLossyLink a b = { c with net := c.net.clearLinkLossy a b } := by
  unfold clearLossyLink
  split
  next => rfl
  next h =>
    have hnot : link a b ∉ c.net.lossyLinks := fun hmem => h (decide_eq_true hmem)
    have herase : c.net.lossyLinks.erase (link a b) = c.net.lossyLinks := by
      apply Finmap.ext_lookup
      intro l
      by_cases hl : l = link a b
      · rw [hl, Finmap.lookup_erase, Finmap.lookup_eq_none.mpr hnot]
      · exact Finmap.lookup_erase_ne hl
    rw [Network.clearLinkLossy, herase]

/-- An event other than an injection leaves what is in the queue, and in force every fault of a
part that it does not restore. -/
theorem execute_other (h : d.execute E e = .ok c') (he : ∀ op, e ≠ .nemesisFire op) :
    Grown d c' ∧ c'.net.nodeIds = d.net.nodeIds ∧
      ∀ f : Fault, e.restores ≠ some f.part → f.Held d.net → f.Held c'.net := by
  have hstill : ∀ net, Grown d { d with net := net } :=
    fun net => ⟨rfl, rfl, fun _ hp => hp, fun _ => Or.inl⟩
  cases e with
  | nemesisFire op => exact absurd rfl (he op)
  | healPartition =>
    cases h
    exact ⟨hstill _, rfl, fun f hf => Fault.Held.heal fun heq => hf (congrArg some heq.symm)⟩
  | linkUp a b =>
    have heq : d.linkUp a b = c' := Except.ok.inj h
    rw [linkUp_net] at heq
    rw [← heq]
    exact ⟨hstill _, rfl, fun f hf => Fault.Held.setLinkUp fun heq => hf (congrArg some heq.symm)⟩
  | clearLossyLink a b =>
    have heq : d.clearLossyLink a b = c' := Except.ok.inj h
    rw [clearLossyLink_net] at heq
    rw [← heq]
    exact ⟨hstill _, rfl,
      fun f hf => Fault.Held.clearLinkLossy fun heq => hf (congrArg some heq.symm)⟩
  -- a restart concerns the node, not the network's links
  | maybeResume node =>
    change maybeResume E d node = .ok c' at h
    unfold maybeResume at h
    split at h
    next =>
      obtain ⟨hnet, hgrown⟩ := proceed_ok h
      rw [hnet]
      refine ⟨(hstill _).trans hgrown, rfl, fun f _ => ?_⟩
      cases f <;> exact id
    next =>
      cases h
      exact ⟨hstill _, rfl, fun f _ => id⟩
  -- the rest of the cluster leaves the network as it is
  | other event =>
    obtain ⟨hnet, hgrown⟩ := proceed_ok h
    rw [hnet]
    exact ⟨hgrown, rfl, fun f _ => id⟩

/-! ### A window of one injection -/

/-- Up to the end `u` of its window a fault is in force, its own recovery is pending, and none
that would undo it is due earlier. -/
def Kept (f : Fault) (u : ℤ) (c : Cluster σ κ) : Prop :=
  c.sim.now < u → f.Held c.net ∧
    (∃ p ∈ c.sim.heap, p.time = u ∧ p.event.restores = some f.part) ∧
    ∀ p ∈ c.sim.heap, p.event.restores = some f.part → u ≤ p.time

/-- What the constructor provides and every step leaves. -/
structure Sound (c : Cluster σ κ) : Prop where
  unmasked : c.suppressed = ∅
  nodup : c.net.nodeIds.Nodup

theorem next_eq (h : c.next = some (e, d)) : ∃ p, p.event = e ∧ c.sim.heap = p :: d.sim.heap ∧
    d.sim.now = p.time ∧ c.sim.now ≤ d.sim.now ∧ d.net = c.net ∧ d.suppressed = c.suppressed := by
  obtain ⟨⟨e', sim⟩, hpop, heq⟩ := Option.map_eq_some_iff.mp h
  cases heq
  obtain ⟨p, hp, hheap, hnow, hle⟩ := Simulator.pop_some hpop
  exact ⟨p, hp, hheap, hnow, hle, rfl, rfl⟩

theorem Sound.step (h : Sound c) (hs : Steps E c e d c') : Sound d ∧ Sound c' := by
  obtain ⟨hnext, hexec⟩ := hs
  obtain ⟨-, -, -, -, -, hnet, hsup⟩ := next_eq hnext
  have hd : Sound d := ⟨hsup.trans h.unmasked, hnet ▸ h.nodup⟩
  refine ⟨hd, ?_⟩
  -- an injection, or any other event
  by_cases hfire : ∃ op, e = .nemesisFire op
  · obtain ⟨op, rfl⟩ := hfire
    rcases nemesisFire_ok hd.unmasked hexec with ⟨-, rfl⟩ | ⟨f, -, hinj⟩
    · exact hd
    · refine ⟨hinj.suppressed.trans hd.unmasked, ?_⟩
      rw [hinj.net]
      cases f <;> exact hd.nodup
  · obtain ⟨hgrown, hids, -⟩ := execute_other hexec fun op heq => hfire ⟨op, heq⟩
    exact ⟨hgrown.suppressed.trans hd.unmasked, hids ▸ hd.nodup⟩

theorem Steps.now_le (h : Sound c) (hs : Steps E c e d c') :
    c.sim.now ≤ d.sim.now ∧ c'.sim.now = d.sim.now := by
  obtain ⟨-, -, -, -, hle, -, -⟩ := next_eq hs.1
  refine ⟨hle, ?_⟩
  by_cases hfire : ∃ op, e = .nemesisFire op
  · obtain ⟨op, rfl⟩ := hfire
    rcases nemesisFire_ok (h.step hs).1.unmasked hs.2 with ⟨-, rfl⟩ | ⟨f, -, hinj⟩
    · rfl
    · exact hinj.now
  · exact (execute_other hs.2 fun op heq => hfire ⟨op, heq⟩).1.now

/-- One step of a run whose injections respect the recoveries to come. -/
theorem Kept.step {u : ℤ} (h : Sound c) (hs : Steps E c e d c') (hrespects : Respects E d e)
    (hk : Kept f u c) : Kept f u c' := by
  intro hlt
  have hd := (h.step hs).1
  obtain ⟨hle, hnow⟩ := hs.now_le h
  rw [hnow] at hlt
  obtain ⟨hheld, ⟨q, hq, hqtime, hqpart⟩, hdue⟩ := hk (hle.trans_lt hlt)
  obtain ⟨hnext, hexec⟩ := hs
  obtain ⟨p, rfl, hheap, hptime, -, hnet, -⟩ := next_eq hnext
  rw [hheap] at hq hdue
  rw [← hnet] at hheld
  -- the window is not over, so the event is not a recovery of this part
  have hother : p.event.restores ≠ some f.part := by
    intro heq
    have hup := hdue p List.mem_cons_self heq
    omega
  have hq' : q ∈ d.sim.heap := by
    rcases List.mem_cons.mp hq with rfl | hq
    · exact absurd hqpart hother
    · exact hq
  have hdue' : ∀ p ∈ d.sim.heap, p.event.restores = some f.part → u ≤ p.time :=
    fun p hp => hdue p (List.mem_cons_of_mem _ hp)
  by_cases hfire : ∃ op, p.event = .nemesisFire op
  · obtain ⟨op, hop⟩ := hfire
    rw [hop] at hexec hrespects
    rcases nemesisFire_ok hd.unmasked hexec with ⟨-, rfl⟩ | ⟨g, hg, hinj⟩
    · exact ⟨hheld, ⟨q, hq', hqtime, hqpart⟩, hdue'⟩
    · -- a fault of the same part ends when this one does
      have hsame : g.part = f.part → u = d.sim.now+op.window ∧ g.Keeps d.net := by
        intro heq
        rcases hrespects g hg q hq' (heq ▸ hqpart) with ⟨htime, hkeeps⟩ | ⟨-, htime⟩
        · exact ⟨hqtime ▸ htime, hkeeps⟩
        · omega
      refine ⟨?_, ⟨q, hinj.kept q hq', hqtime, hqpart⟩, ?_⟩
      · rw [hinj.net]
        exact hheld.inflict fun heq => (hsame heq).2
      · intro r hr hrpart
        rcases hinj.new r hr with hr | hnone | ⟨htime, hrec⟩
        · exact hdue' r hr hrpart
        · rw [hnone] at hrpart
          cases hrpart
        · rw [hrec] at hrpart
          rw [htime]
          exact (hsame (Fault.part_of_restores hrpart)).1.le
  · obtain ⟨hgrown, -, hheld'⟩ := execute_other hexec fun op heq => hfire ⟨op, heq⟩
    refine ⟨hheld' f hother hheld, ⟨q, hgrown.kept q hq', hqtime, hqpart⟩, ?_⟩
    intro r hr hrpart
    rcases hgrown.new r hr with hr | hnone
    · exact hdue' r hr hrpart
    · rw [hnone] at hrpart
      cases hrpart

/-- No node is on both sides of a partition. -/
theorem resolve_sides {op : NemesisOp} (h : Sound d) (hf : d.resolve E op = some f)
    {low high : List NodeId} (hsides : f = .partition low high) : ∀ a ∈ low, a ∉ high := by
  rw [hsides] at hf
  cases op with
  | partitionHalves atTime duration =>
    unfold resolve at hf
    dsimp only at hf
    split at hf
    next => cases hf
    next =>
      cases hf
      intro a ha hb
      -- the halves are a list without repetition, cut in two
      have hids : (d.nodes.take ((d.nodes.length+1)/2) ++
          d.nodes.drop ((d.nodes.length+1)/2)).Nodup := by
        rw [List.take_append_drop]
        exact h.nodup
      exact (List.nodup_append.mp hids).2.2 a ha a hb rfl
  | isolateLeader atTime duration =>
    unfold resolve at hf
    cases hlead : E.leader d.rest with
    | none =>
      rw [hlead] at hf
      cases hf
    | some victim =>
      rw [hlead] at hf
      dsimp only at hf
      split at hf
      next => cases hf
      next =>
        cases hf
        intro a ha hb
        rw [List.mem_singleton.mp ha] at hb
        exact of_decide_eq_true (List.mem_filter.mp hb).2 rfl
  | flappingLink a b atTime period cycles => cases hf
  | lossyLink a b atTime duration dropP => cases hf
  | crashNode node atTime duration =>
    unfold resolve at hf
    dsimp only at hf
    split at hf <;> cases hf

/-- An injection that fires starts its window, unless the window is too short to matter. -/
theorem Kept.start {op : NemesisOp} (h : Sound c) (hs : Steps E c (.nemesisFire op) d c')
    (hrespects : Respects E d (.nemesisFire op)) (hf : d.resolve E op = some f)
    (hcrash : ∀ node, f ≠ .crash node) (hw : op.window ≠ 1) :
    Kept f (c'.sim.now+op.window) c' := by
  intro _
  have hd := (h.step hs).1
  obtain ⟨-, hnow⟩ := hs.now_le h
  rw [hnow]
  rcases nemesisFire_ok hd.unmasked hs.2 with ⟨hnone, -⟩ | ⟨g, hg, hinj⟩
  · rw [hf] at hnone
    cases hnone
  · obtain rfl : f = g := Option.some.inj (hf.symm.trans hg)
    have hpart := Fault.restores_recovery (κ := κ) hcrash
    refine ⟨?_, ?_, ?_⟩
    · rw [hinj.net]
      exact Fault.held_inflict fun low high heq => resolve_sides hd hf heq
    · obtain ⟨p, hp, htime, hrec⟩ := hinj.own
      exact ⟨p, hp, htime, hrec ▸ hpart⟩
    -- the recoveries that were pending are due at the same instant
    · intro p hp hppart
      rcases hinj.new p hp with hp | hnone | ⟨htime, -⟩
      · rcases hrespects f hf p hp hppart with ⟨htime, -⟩ | ⟨hone, -⟩
        · exact htime.ge
        · exact absurd hone hw
      · rw [hnone] at hppart
        cases hppart
      · exact htime.ge

/-! ### Runs -/

theorem Sound.reach {allowed : Cluster σ κ → SimEvent κ → Prop} (h : Sound c)
    (hr : Reach E allowed c c') : Sound c' := by
  induction hr with
  | refl => exact h
  | tail _ hmove ih =>
    obtain ⟨e, d, hs, -⟩ := hmove
    exact (ih.step hs).2

theorem Kept.reach {u : ℤ} (h : Sound c) (hk : Kept f u c) (hr : Reach E (Respects E) c c') :
    Kept f u c' := by
  induction hr with
  | refl => exact hk
  | tail hr hmove ih =>
    obtain ⟨e, d, hs, hrespects⟩ := hmove
    exact ih.step (h.reach hr) hs hrespects

theorem foldlM_schedule_ok {injections : List Injection}
    (h : injections.foldlM (fun c i => c.schedule i.atTime (.nemesisFire i.op)) c = .ok c') :
    c'.net = c.net ∧ c'.suppressed = c.suppressed := by
  refine foldlM_keeps (P := fun d => d.net = c.net ∧ d.suppressed = c.suppressed) ?_ ⟨rfl, rfl⟩ h
  intro i _ b b' hsame hb
  obtain ⟨-, hnet, -, hsup, -⟩ := schedule_ok hb
  exact ⟨hnet.trans hsame.1, hsup.trans hsame.2⟩

theorem nodup_init (n : ℕ) : (Network.init ((List.range n).map Int.ofNat)).nodeIds.Nodup := by
  have hids : ((List.range n).map Int.ofNat).Nodup :=
    List.nodup_range.map fun _ _ h => Int.ofNat.inj h
  exact (List.perm_insertionSort _ _).nodup_iff.mpr hids

theorem Sound.init {numNodes : ℤ} {rest : σ} {started : List (ℤ × κ)} {nemesis : NemesisSchedule}
    (h : Cluster.init numNodes rest started ∅ nemesis = .ok c) : Sound c := by
  unfold Cluster.init at h
  split at h
  next => cases h
  next =>
    split at h
    next => cases h
    next =>
      obtain ⟨b, hb, hsched⟩ := bind_ok.mp h
      obtain ⟨hnet, hgrown⟩ := proceed_ok hb
      obtain ⟨hnet', hsup⟩ := foldlM_schedule_ok hsched
      refine ⟨hsup.trans hgrown.suppressed, ?_⟩
      rw [hnet', hnet]
      exact nodup_init _

/-- Patterns overlay: in a run in which every injection respects the recoveries to come of its
part of the network, each injection is in force for the whole of its window. -/
theorem patterns_overlay (E : Environment σ κ) {numNodes : ℤ} {rest : σ} {started : List (ℤ × κ)}
    {nemesis : NemesisSchedule} {c₀ : Cluster σ κ}
    (h : Cluster.init numNodes rest started ∅ nemesis = .ok c₀) : Overlays E (Respects E) c₀ := by
  intro c op d f c' c'' hbefore hfire hrespects hf hafter hlo hhi
  have hc := (Sound.init h).reach hbefore
  have hc' := (hc.step hfire).2
  by_cases hcrash : ∃ node, f = .crash node
  · obtain ⟨node, rfl⟩ := hcrash
    trivial
  · have hw : op.window ≠ 1 := by omega
    have hkept := Kept.start hc hfire hrespects hf (fun node heq => hcrash ⟨node, heq⟩) hw
    have hin := hkept.reach hc' hafter
    exact (hin (by omega)).1.inForce

/-- Nothing is to come that would undo the next event, should it be an injection. -/
def Unopposed (E : Environment σ κ) (c : Cluster σ κ) : Prop :=
  match c.next with
  | some (.nemesisFire op, d) =>
    ∀ f ∈ d.resolve E op, ∀ p ∈ d.sim.heap, p.event.restores ≠ some f.part
  | _ => True

instance : Decidable (c.Unopposed E) := by
  unfold Unopposed
  split <;> infer_instance

theorem Unopposed.respects (h : c.Unopposed E) (hs : Steps E c e d c') : Respects E d e := by
  unfold Unopposed at h
  rw [hs.1] at h
  cases e with
  | nemesisFire op => exact fun f hf p hp hpart => absurd hpart (h f hf p hp)
  | healPartition => trivial
  | linkUp a b => trivial
  | clearLossyLink a b => trivial
  | maybeResume node => trivial
  | other event => trivial

/-! ### An overlap that holds and one that fails -/

/-- Three nodes in their first 150 ms: nobody leads, and the ticks of the client and the election
timers, scheduled for later, do nothing. -/
def quiet : Environment Unit Unit where
  leader _ := none
  alive _ _ := true
  pause _ s := (s, [])
  resume _ s := (s, [])
  run _ _ _ s := (s, [(100, ())])

def timers : List (ℤ × Unit) := [(170, ()), (210, ()), (260, ()), (100, ())]

/-- The second partition begins inside the window of the first and ends after it. -/
def overlapping : NemesisSchedule where
  ops := [.partitionHalves 0 50, .partitionHalves 10 200]
  valid := by decide

/-- A lossy link and a flapping link inside the window of a partition. -/
def layered : NemesisSchedule where
  ops := [.partitionHalves 0 300, .lossyLink 0 1 10 50 (.float (1/2)), .flappingLink 0 2 20 30 2]
  valid := by decide +kernel

/-- The first steps of the run under a schedule. -/
def early (nemesis : NemesisSchedule) : ℕ → Option (Cluster Unit Unit)
  | 0 => (Cluster.init 3 () timers ∅ nemesis).toOption
  | n+1 => (early nemesis n).bind (step quiet)

/-- The event of the next step, and the fault that an injection comes to there. -/
def fires (op : NemesisOp) (c : Cluster Unit Unit) : Option (SimEvent Unit × Option Fault) :=
  c.next.map fun p => (p.1, p.2.resolve quiet op)

theorem init_of_early {nemesis : NemesisSchedule} {c₀ : Cluster Unit Unit}
    (h : early nemesis 0 = some c₀) : Cluster.init 3 () timers ∅ nemesis = .ok c₀ := by
  unfold early at h
  cases hinit : Cluster.init 3 () timers ∅ nemesis with
  | error message =>
    rw [hinit] at h
    cases h
  | ok b =>
    rw [hinit] at h
    exact congrArg Except.ok (Option.some.inj h)

theorem steps_of_fires {op : NemesisOp} {f : Fault} {c c' : Cluster Unit Unit}
    (h : fires op c = some (.nemesisFire op, some f)) (hstep : c.step quiet = some c') :
    ∃ d, Steps quiet c (.nemesisFire op) d c' ∧ d.resolve quiet op = some f := by
  obtain ⟨e, d, hs⟩ := step_eq_some.mp hstep
  unfold fires at h
  rw [hs.1] at h
  have hpair := Option.some.inj h
  have hop : e = .nemesisFire op := congrArg Prod.fst hpair
  rw [hop] at hs
  exact ⟨d, hs, congrArg Prod.snd hpair⟩

/-- While the link of 0 and 2 flaps, the partition and the lossy link are both in force. -/
theorem layered_overlay : ∃ c₀ c₃, Cluster.init 3 () timers ∅ layered = .ok c₀ ∧
    Overlays quiet (Respects quiet) c₀ ∧ early layered 3 = some c₃ ∧ c₃.sim.now = 20 ∧
    c₃.net.linkIsDown 0 2 = true ∧ (Fault.partition [0, 1] [2]).InForce c₃.net ∧
    (Fault.lossyLink 0 1 (1/2)).InForce c₃.net := by
  have hthree : (early layered 3).isSome = true := by decide +kernel
  obtain ⟨c₃, h3⟩ := Option.isSome_iff_exists.mp hthree
  obtain ⟨c₂, h2, h23⟩ := Option.bind_eq_some_iff.mp h3
  obtain ⟨c₁, h1, h12⟩ := Option.bind_eq_some_iff.mp h2
  obtain ⟨c₀, h0, h01⟩ := Option.bind_eq_some_iff.mp h1
  have hfree : ∀ n < 3, ∀ c ∈ early layered n, c.Unopposed quiet := by decide +kernel
  have hfire : (early layered 0).bind (fires (.partitionHalves 0 300)) =
      some (.nemesisFire (.partitionHalves 0 300), some (.partition [0, 1] [2])) := by
    decide +kernel
  have hfire' : (early layered 1).bind (fires (.lossyLink 0 1 10 50 (.float (1/2)))) =
      some (.nemesisFire (.lossyLink 0 1 10 50 (.float (1/2))), some (.lossyLink 0 1 (1/2))) := by
    decide +kernel
  have htimes : (early layered 1).map (fun c => c.sim.now) = some 0 ∧
      (early layered 2).map (fun c => c.sim.now) = some 10 ∧
      (early layered 3).map (fun c => (c.sim.now, c.net.linkIsDown 0 2)) = some (20, true) := by
    decide +kernel
  rw [h0, Option.bind_some] at hfire
  rw [h1, Option.bind_some] at hfire'
  rw [h1, h2, h3] at htimes
  have hnow₁ : c₁.sim.now = 0 := Option.some.inj htimes.1
  have hnow₂ : c₂.sim.now = 10 := Option.some.inj htimes.2.1
  have hlast := Option.some.inj htimes.2.2
  have hnow₃ : c₃.sim.now = 20 := congrArg Prod.fst hlast
  have hmove : ∀ n < 3, ∀ {c c'}, early layered n = some c → c.step quiet = some c' →
      Reach quiet (Respects quiet) c c' := by
    intro n hn c c' hc hstep
    obtain ⟨e, d, hs⟩ := step_eq_some.mp hstep
    exact .single ⟨e, d, hs, (hfree n hn c hc).respects hs⟩
  have hover := patterns_overlay quiet (init_of_early h0)
  obtain ⟨d, hs, hf⟩ := steps_of_fires hfire h01
  obtain ⟨d', hs', hf'⟩ := steps_of_fires hfire' h12
  refine ⟨c₀, c₃, init_of_early h0, hover, h3, hnow₃, congrArg Prod.snd hlast, ?_, ?_⟩
  · exact hover c₀ _ d _ c₁ c₃ .refl hs ((hfree 0 (by decide) c₀ h0).respects hs) hf
      ((hmove 1 (by decide) h1 h12).trans (hmove 2 (by decide) h2 h23))
      (by rw [hnow₁, hnow₃]; decide) (by rw [hnow₁, hnow₃]; decide)
  · exact hover c₁ _ d' _ c₂ c₃ (hmove 0 (by decide) h0 h01) hs'
      ((hfree 1 (by decide) c₁ h1).respects hs') hf' (hmove 2 (by decide) h2 h23)
      (by rw [hnow₂, hnow₃]; decide) (by rw [hnow₂, hnow₃]; decide)

theorem overlapping_heals_early : ¬ ∀ c₀, Cluster.init 3 () timers ∅ overlapping = .ok c₀ →
    Overlays quiet (fun _ _ => True) c₀ := by
  intro hall
  have hthree : (early overlapping 3).isSome = true := by decide +kernel
  obtain ⟨c₃, h3⟩ := Option.isSome_iff_exists.mp hthree
  obtain ⟨c₂, h2, h23⟩ := Option.bind_eq_some_iff.mp h3
  obtain ⟨c₁, h1, h12⟩ := Option.bind_eq_some_iff.mp h2
  obtain ⟨c₀, h0, h01⟩ := Option.bind_eq_some_iff.mp h1
  -- the second partition fires at 10, and the first one's recovery runs at 50
  have hfire : (early overlapping 1).bind (fires (.partitionHalves 10 200)) =
      some (.nemesisFire (.partitionHalves 10 200), some (.partition [0, 1] [2])) := by
    decide +kernel
  have hten : (early overlapping 2).map (fun c => c.sim.now) = some 10 := by decide +kernel
  have hfifty : (early overlapping 3).map (fun c => (c.sim.now, c.net.reachable 0 2)) =
      some (50, true) := by decide +kernel
  rw [h1, Option.bind_some] at hfire
  rw [h2] at hten
  rw [h3] at hfifty
  have hnow : c₂.sim.now = 10 := Option.some.inj hten
  have hend := Option.some.inj hfifty
  have hnow' : c₃.sim.now = 50 := congrArg Prod.fst hend
  have hreach : c₃.net.reachable 0 2 = true := congrArg Prod.snd hend
  have hmove : ∀ {c c' : Cluster Unit Unit}, c.step quiet = some c' →
      Reach quiet (fun _ _ => True) c c' := by
    intro c c' hstep
    obtain ⟨e, d, hs⟩ := step_eq_some.mp hstep
    exact .single ⟨e, d, hs, trivial⟩
  obtain ⟨d, hs, hf⟩ := steps_of_fires hfire h12
  have hin := hall c₀ (init_of_early h0) c₁ _ d _ c₂ c₃ (hmove h01) hs trivial hf (hmove h23)
    (by rw [hnow, hnow']; decide) (by rw [hnow, hnow']; decide)
  have hapart := (hin 0 (by decide) 2 (by decide)).1
  rw [hreach] at hapart
  cases hapart

end Cluster
end RaftVerified
