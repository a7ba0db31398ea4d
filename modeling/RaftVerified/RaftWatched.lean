import RaftVerified.RaftChecker
import RaftVerified.RaftProgress

/-! The cluster as it runs: one simulator step, then `check`. Beside it a history of what
the nodes have applied, which neither reads. -/
namespace RaftVerified

/-- The index and command of each `apply` record among the calls of a callback. -/
def applies : List Call → List (ℕ × Str)
  | [] => []
  | .record (.apply _ index command) :: rest => (index, command) :: applies rest
  | _ :: rest => applies rest

/-- One round of an apply loop: a node applies a command at an index, which its log holds
there. `moved` tells whether the callback has moved the commit index over the index. -/
structure Application where
  node : NodeId
  index : ℕ
  command : Str
  entry : Option Entry
  moved : Bool
  deriving DecidableEq, Repr

/-- What a callback that started at `n` has applied. -/
def applications (i : NodeId) (n : RaftNode) (x : Exec) : List Application :=
  (applies x.calls).map fun p => {
    node := i
    index := p.1
    command := p.2
    entry := x.node.logical[p.1-1]?
    moved := decide (n.commitIndex < p.1 ∧ p.1 ≤ x.node.commitIndex) }

def World.applications (c : Setup) (w : World) (e : Event) : List Application :=
  match w.target e with
  | none => []
  | some i =>
    if i ∈ c.ids then
      match w.callback (w.nodes i) e with
      | .ok x => RaftVerified.applications i (w.nodes i) x
      | .error _ => []
    else []

/-- The callbacks of one simulator step: one at most, except that `_membership_tick`
proposes a configuration to every leader. -/
def SimStep (es : List Event) : Prop :=
  es.length ≤ 1 ∨ ∀ e ∈ es, ∃ i vs, e = .changeConfig i vs

def runCallbacks (c : Setup) (w : World) :
    List Event → Except PyError (World × List Application)
  | [] => .ok (w, [])
  | e :: es => do
    let w' ← w.step c e
    let r ← runCallbacks c w' es
    .ok (r.1, w.applications c e ++ r.2)

structure Watched where
  world : World
  checker : InvariantChecker
  steps : ℕ := 0
  history : List Application := []

namespace Watched

/-- `Cluster.__init__`. -/
def init (c : Setup) (seed : ℤ) (replayHint : Str) : Watched where
  world := World.init c
  checker := .new seed replayHint

/-- `Cluster.step`, with the callbacks the simulator runs in it. -/
def step (c : Setup) (s : Watched) (es : List Event) : Except RunError Watched := do
  let r ← raises (runCallbacks c s.world es)
  let checker ← s.checker.check r.1.nodes c.ids (s.steps+1)
  .ok { world := r.1, checker, steps := s.steps+1, history := s.history ++ r.2 }

/-- The runs in which `check` has not raised: all states so far, the newest first. -/
inductive Run (c : Setup) : List Watched → Prop
  | init (seed : ℤ) (replayHint : Str) : Run c [init c seed replayHint]
  | step {s s' : Watched} {past : List Watched} {es : List Event} : Run c (s :: past) →
      SimStep es → s.step c es = .ok s' → Run c (s' :: s :: past)

/-- The run that goes on from `ss`, one callback a step, as far as nothing is raised. -/
def follow (c : Setup) : List Watched → List Event → List Watched
  | ss, [] => ss
  | [], _ => []
  | s :: past, e :: rest =>
    match s.step c [e] with
    | .ok s' => follow c (s' :: s :: past) rest
    | .error _ => s :: past

theorem follow_run {c : Setup} {ss : List Watched} (h : Run c ss) (es : List Event) :
    Run c (follow c ss es) := by
  induction es generalizing ss with
  | nil => rwa [follow]
  | cons e rest ih =>
    cases ss with
    | nil => cases h
    | cons s past =>
      unfold follow
      split
      next s' hs' => exact ih (.step h (Or.inl le_rfl) hs')
      next => exact h

/-- The checker holds every application: its command, and where the commit index has moved
over the index, its entry. -/
def Observed (s : Watched) : Prop :=
  ∀ a ∈ s.history, s.checker.appliedAt.lookup a.index = some a.command ∧
    (a.moved = true → ∃ entry term, a.entry = some entry ∧
      s.checker.committed.lookup a.index = some (entry, term))

/-- No two applications at one index differ, nor two commits. -/
def Consistent (s : Watched) : Prop :=
  ∀ a ∈ s.history, ∀ b ∈ s.history, a.index = b.index → a.command = b.command ∧
    (a.moved = true → b.moved = true → a.entry = b.entry)

theorem Observed.consistent {s : Watched} (h : s.Observed) : s.Consistent := by
  intro a ha b hb hidx
  obtain ⟨ha1, ha2⟩ := h a ha
  obtain ⟨hb1, hb2⟩ := h b hb
  rw [hidx] at ha1 ha2
  refine ⟨Option.some.inj (ha1.symm.trans hb1), fun hma hmb => ?_⟩
  obtain ⟨e, t, hae, hat⟩ := ha2 hma
  obtain ⟨f, u, hbf, hbu⟩ := hb2 hmb
  have heq := Option.some.inj (hat.symm.trans hbu)
  rw [hae, hbf, (Prod.mk.inj heq).1]

end Watched
end RaftVerified
