import Mathlib.Data.List.Sort
import RaftVerified.PyText

/-! The discrete-event simulator (`sim.py`): a virtual clock and a queue of events. -/
namespace RaftVerified

/-- An event in the queue. Of the events of one instant the one scheduled first runs first. -/
structure Due (ε : Type) where
  time : ℤ
  seq : ℕ
  event : ε

namespace Due
variable {ε : Type}

def Before (p q : Due ε) : Prop := p.time < q.time ∨ p.time = q.time ∧ p.seq ≤ q.seq

instance (p q : Due ε) : Decidable (Before p q) := inferInstanceAs (Decidable (_ ∨ _))

instance : Std.Total (Before (ε := ε)) where
  total p q := by
    unfold Before
    omega

instance : IsTrans (Due ε) Before where
  trans p q r := by
    unfold Before
    omega

theorem Before.time_le {p q : Due ε} (h : Before p q) : p.time ≤ q.time := by
  rcases h with hlt | ⟨heq, -⟩
  · exact hlt.le
  · exact heq.le

end Due

/-- `Simulator`, less its random numbers. The queue is in order and nothing in it is due
before the present. -/
structure Simulator (ε : Type) where
  now : ℤ
  steps : ℕ
  seq : ℕ
  heap : List (Due ε)
  ordered : heap.Pairwise Due.Before
  ahead : ∀ p ∈ heap, now ≤ p.time

namespace Simulator
variable {ε : Type}

def init (ε : Type) : Simulator ε where
  now := 0
  steps := 0
  seq := 0
  heap := []
  ordered := .nil
  ahead := nofun

/-- `schedule` raises `ValueError` for a negative delay. -/
def schedule (s : Simulator ε) (delay : ℤ) (event : ε) : Except Str (Simulator ε) :=
  if h : delay < 0 then .error ("negative delay: ".toList ++ intStr delay)
  else .ok { s with
    seq := s.seq+1
    heap := s.heap.orderedInsert Due.Before ⟨s.now+delay, s.seq, event⟩
    ordered := s.ordered.orderedInsert _ _
    ahead := by
      intro p hp
      rcases (List.mem_orderedInsert _).mp hp with rfl | hp
      · show s.now ≤ s.now+delay
        omega
      · exact s.ahead p hp }

/-- The next event and the simulator that is about to run it. -/
def pop (s : Simulator ε) : Option (ε × Simulator ε) :=
  match hs : s.heap with
  | [] => none
  | p :: rest => some (p.event, { s with
    now := p.time
    steps := s.steps+1
    heap := rest
    ordered := (List.pairwise_cons.mp (hs ▸ s.ordered)).2
    ahead := fun q hq => ((List.pairwise_cons.mp (hs ▸ s.ordered)).1 q hq).time_le })

/-- What a call of `schedule` that returns has done. -/
theorem schedule_ok {s s' : Simulator ε} {delay : ℤ} {event : ε} :
    s.schedule delay event = .ok s' → 0 ≤ delay ∧ s'.now = s.now ∧
      ∀ p, p ∈ s'.heap ↔ p = ⟨s.now+delay, s.seq, event⟩ ∨ p ∈ s.heap := by
  unfold schedule
  split
  · exact nofun
  · intro h
    cases h
    exact ⟨by omega, rfl, fun p => List.mem_orderedInsert _⟩

theorem schedule_perm {s s' : Simulator ε} {delay : ℤ} {event : ε}
    (h : s.schedule delay event = .ok s') :
    (s'.heap.map (·.event)).Perm (event :: s.heap.map (·.event)) := by
  unfold schedule at h
  split at h
  · cases h
  · cases h
    exact (List.perm_orderedInsert _ _ _).map _

/-- What the call of `step` has done before the event runs. -/
theorem pop_some {s s' : Simulator ε} {event : ε} (h : s.pop = some (event, s')) :
    ∃ p, p.event = event ∧ s.heap = p :: s'.heap ∧ s'.now = p.time ∧ s.now ≤ s'.now := by
  unfold pop at h
  split at h
  · cases h
  · rename_i p rest hs
    cases h
    refine ⟨p, rfl, hs, rfl, ?_⟩
    apply s.ahead
    rw [hs]
    exact List.mem_cons_self

end Simulator
end RaftVerified
