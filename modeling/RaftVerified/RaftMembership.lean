import RaftVerified.RaftElections

/-! Only `change_config` is meant to change the voting set. A client command that reads as a
configuration changes it too; without one nobody ever leaves the initial configuration. -/
namespace RaftVerified

variable {c : Setup} {ws : List World}

/-- No node of a run without membership changes ever knows another configuration. -/
theorem plain_nodes (hr : Run c (PlainClients c) ws) :
    ∀ w ∈ ws, ∀ i ∈ c.ids, FixedNode c (w.nodes i) := by
  intro w hw i hi
  obtain ⟨later, past, rfl⟩ := List.append_of_mem hw
  obtain ⟨a, h⟩ := run_elects hr.earlier
  exact ((h.now w rfl).nodes i hi).fixed

theorem fixed_nodes (hr : Run c FixedVoters ws) :
    ∀ w ∈ ws, ∀ i ∈ c.ids, FixedNode c (w.nodes i) :=
  plain_nodes (hr.mono fun _ _ _ => plainClients_of_fixed)

/-- `change_config` is never called; clients may send anything. -/
def NoChange (_ : List World) : Event → Prop
  | .changeConfig _ _ => False
  | _ => True

instance (ws : List World) (e : Event) : Decidable (NoChange ws e) :=
  match e with
  | .changeConfig _ _ => instDecidableFalse
  | .electionTimeout _ _ | .heartbeat _ _ | .clientCommand _ _ | .requestRead _ _ | .deliver _
  | .pause _ | .resume _ => instDecidableTrue

theorem plainClients_command {w : World} {past : List World} {i : NodeId} {command : Str} :
    (i ∈ c.ids → (w.nodes i).role = .leader → (w.nodes i).alive = true →
      decodeConfig command = none) ↔ PlainClients c (w :: past) (.clientCommand i command) := by
  constructor
  · rintro h v ⟨⟩
    exact h
  · exact fun h => h w rfl

instance (c : Setup) (ws : List World) (e : Event) : Decidable (PlainClients c ws e) :=
  match e, ws with
  | .clientCommand _ _, [] => isTrue nofun
  | .clientCommand i command, w :: _ =>
    decidable_of_iff (i ∈ c.ids → (w.nodes i).role = .leader → (w.nodes i).alive = true →
      decodeConfig command = none) plainClients_command
  | .changeConfig _ _, _ => instDecidableFalse
  | .electionTimeout _ _, _ | .heartbeat _ _, _ | .requestRead _ _, _ | .deliver _, _
  | .pause _, _ | .resume _, _ => instDecidableTrue

/-- Where no client command reads as a configuration, the voting set stays the initial one
in every node, whatever is replicated, cut off, compacted, installed or restarted. -/
theorem membership_kept (hr : Run c (PlainClients c) ws) :
    ∀ w ∈ ws, ∀ i ∈ c.ids, (w.nodes i).voters = (c.node i).voters := by
  intro w hw i hi
  rw [(plain_nodes hr w hw i hi).voters]
  exact (c.node_initialVoters hi).symm

/-- Node 0 leads term 1 and replicates a client command to node 1. -/
def oneCommand (command : Str) : List Event :=
  [.electionTimeout 0 1, .deliver 0, .deliver 2, .clientCommand 0 command, .deliver 5]

theorem plain_command_keeps : ∃ w past, Run trio (PlainClients trio) (w :: past) ∧
    (w.nodes 1).log = [⟨1, "a".toList⟩] ∧ (w.nodes 1).voters = (trio.node 1).voters := by
  have hr : Run trio (PlainClients trio) (Run.follow trio (PlainClients trio)
    [World.init trio] (oneCommand "a".toList)) := Run.follow_run .init _
  have hw : (Run.follow trio (PlainClients trio) [World.init trio]
      (oneCommand "a".toList)).head?.map (fun w => (w.nodes 1).log) =
        some [⟨1, "a".toList⟩] := by decide +kernel
  obtain ⟨w, past, hws⟩ := hr.exists_cons
  rw [hws] at hr hw
  have hlog := Option.some.inj hw
  exact ⟨w, past, hr, hlog, membership_kept hr w List.mem_cons_self 1 (by decide)⟩

/-- One client command shrinks the voting set of node 1 to node 0 alone. -/
theorem client_command_changes_membership : trio.Accepted ∧ trio.bugs = NO_BUGS ∧
    ∃ ws, Run trio NoChange ws ∧
      ¬ ∀ w ∈ ws, ∀ i ∈ trio.ids, (w.nodes i).voters = (trio.node i).voters := by
  refine ⟨by decide, rfl, _, Run.follow_run .init (oneCommand "cfg:0".toList), ?_⟩
  have hw : (Run.follow trio NoChange [World.init trio] (oneCommand "cfg:0".toList)).head?.map
      (fun w => (w.nodes 1).voters) = some [0] := by decide +kernel
  generalize Run.follow trio NoChange [World.init trio] (oneCommand "cfg:0".toList) = ws at hw
  intro hall
  cases ws with
  | nil => cases hw
  | cons w past =>
    have hkept := hall w List.mem_cons_self 1 (by decide)
    have hw : (w.nodes 1).voters = [0] := Option.some.inj hw
    rw [hw] at hkept
    exact absurd hkept (by decide)

end RaftVerified
