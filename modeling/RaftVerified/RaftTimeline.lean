import RaftVerified.RaftCompleteness
import RaftVerified.RaftRecords
import RaftVerified.Timeline

/-! The timeline against the run it was recorded from. What `Cluster.record` keeps tells the role,
the term and the liveness of every node, but for a role lost in a crash: the timeline is right at
every moment unless a node is up in a term in which it crashed as candidate or leader. -/
namespace RaftVerified

variable {c : Setup} {i j : NodeId} {n : RaftNode} {t : ℕ}

/-- A cluster with its clock and the records so far. `crashed` are the nodes that the network
takes for down. -/
structure Recorded where
  world : World
  crashed : Finset NodeId
  now : ℕ
  events : List (ℕ × Record)

/-- A callback of a node, a record of a driver, or a driver that crashes or resumes a node. -/
inductive ClusterEvent
  | node (e : Event)
  | driver (e : DriverEvent)
  | crash (i : NodeId)
  | maybeResume (i : NodeId)
  deriving DecidableEq, Repr

/-- The records among the calls of a callback at time `t`. -/
def recordsOf (t : ℕ) : List Call → List (ℕ × Record)
  | [] => []
  | .record event :: rest => (t, .trace event) :: recordsOf t rest
  | _ :: rest => recordsOf t rest

namespace Recorded

/-- Every node has been created and started. -/
def init (c : Setup) : Recorded where
  world := World.init c
  crashed := ∅
  now := 0
  events := []

def record (s : Recorded) (e : Record) : Recorded :=
  { s with events := s.events ++ [(s.now, e)] }

/-- Run the callback of an event at its node and keep what it records. -/
def perform (c : Setup) (s : Recorded) (e : Event) : Except PyError Recorded :=
  match s.world.target e with
  | none => .ok s
  | some i =>
    if i ∈ c.ids then do
      let x ← s.world.callback (s.world.nodes i) e
      .ok { s with
        world := s.world.put i x
        events := s.events ++ recordsOf s.now x.calls }
    else .ok s

/-- `Cluster.pause`. -/
def pause (c : Setup) (s : Recorded) (i : NodeId) : Except PyError Recorded := do
  let s ← { s with crashed := insert i s.crashed }.perform c (.pause i)
  .ok (s.record (.crash i))

/-- `Cluster.resume`. -/
def resume (c : Setup) (s : Recorded) (i : NodeId) : Except PyError Recorded := do
  let s ← { s with crashed := s.crashed.erase i }.perform c (.resume i)
  .ok (s.record (.resume i))

/-- One event at time `t`. The drivers crash a node that is up, and resume one that the network
takes for down. -/
def step (c : Setup) (s : Recorded) (t : ℕ) : ClusterEvent → Except PyError Recorded
  | .node e => { s with now := t }.perform c e
  | .driver e => .ok ({ s with now := t }.record (.driver e))
  | .crash i =>
    if i ∈ c.ids ∧ (s.world.nodes i).alive = true then { s with now := t }.pause c i
    else .ok { s with now := t }
  | .maybeResume i =>
    if i ∈ s.crashed then { s with now := t }.resume c i else .ok { s with now := t }

end Recorded

/-- A node crashes and comes back through its cluster only. -/
def ClusterEvent.Allowed : ClusterEvent → Prop
  | .node e => e.Inner
  | _ => True

instance (e : Event) : Decidable e.Inner :=
  match e with
  | .pause _ | .resume _ => instDecidableFalse
  | .electionTimeout _ _ | .heartbeat _ _ | .clientCommand _ _ | .changeConfig _ _
  | .requestRead _ _ | .deliver _ => instDecidableTrue

instance (e : ClusterEvent) : Decidable e.Allowed := by
  cases e <;> unfold ClusterEvent.Allowed <;> infer_instance

namespace Recorded

/-- The runs of a cluster on a clock that never goes back: all states so far, the newest first. -/
inductive Run (c : Setup) : List Recorded → Prop
  | init : Run c [Recorded.init c]
  | step {s s' : Recorded} {past : List Recorded} {t : ℕ} {e : ClusterEvent} :
      Run c (s :: past) → s.now ≤ t → e.Allowed → s.step c t e = .ok s' →
      Run c (s' :: s :: past)

/-- The run that goes on from `ss` with the events that are due and do not fail. -/
def follow (c : Setup) : List Recorded → List (ℕ × ClusterEvent) → List Recorded
  | ss, [] => ss
  | [], _ => []
  | s :: past, (t, e) :: rest =>
    if s.now ≤ t ∧ e.Allowed then
      match s.step c t e with
      | .ok s' => follow c (s' :: s :: past) rest
      | .error _ => follow c (s :: past) rest
    else follow c (s :: past) rest

theorem follow_run {ss : List Recorded} (h : Run c ss) (es : List (ℕ × ClusterEvent)) :
    Run c (follow c ss es) := by
  induction es generalizing ss with
  | nil => rwa [follow]
  | cons p rest ih =>
    cases ss with
    | nil => cases h
    | cons s past =>
      unfold follow
      split
      next hall =>
        split
        next s' hs' => exact ih (.step h hall.1 hall.2 hs')
        next => exact ih h
      next => exact ih h

/-- What a run has recorded. -/
def records : List Recorded → List (ℕ × Record)
  | [] => []
  | s :: _ => s.events

/-- The events that `render_timeline` is given. -/
def entries (ss : List Recorded) : List (ℕ × Str × Str) := (records ss).map Record.entry

end Recorded

/-! ### What the records of a callback tell -/

/-- Either the calls name no role, or the lane of their node ends with the last one named. -/
theorem recordsOf_tell (cs : List Call) (l : Lane)
    (hnode : ∀ event, .record event ∈ cs → event.node = i) :
    (l.tellAll i (recordsOf t cs)).curAlive = l.curAlive ∧
    ((∀ p, told p cs = p) ∧ (l.tellAll i (recordsOf t cs)).curRole = l.curRole ∧
        (l.tellAll i (recordsOf t cs)).curTerm = l.curTerm ∨
      ∃ q : Role × ℕ, (∀ p, told p cs = q) ∧
        (l.tellAll i (recordsOf t cs)).curRole = q.1.text ∧
        (l.tellAll i (recordsOf t cs)).curTerm = q.2) := by
  induction cs generalizing l with
  | nil => exact ⟨rfl, Or.inl ⟨fun _ => rfl, rfl, rfl⟩⟩
  | cons call cs ih =>
    have hrest (l : Lane) := ih l fun event he => hnode event (List.mem_cons_of_mem _ he)
    cases call with
    | record event =>
      have hid := hnode event List.mem_cons_self
      cases event with
      | role k role term =>
        obtain rfl : k = i := hid
        let l' : Lane := l.tell k t (.trace (.role k role term))
        have htell : l' = { l.closeSegment t with curRole := role.text, curTerm := term } :=
          if_pos rfl
        obtain ⟨halive, hcase⟩ := hrest l'
        refine ⟨halive.trans (by rw [htell]; rfl), Or.inr ?_⟩
        rcases hcase with ⟨htold, hrole, hterm⟩ | ⟨q, htold, hrole, hterm⟩
        · refine ⟨(role, term), fun p => htold _, ?_, ?_⟩
          · exact hrole.trans (by rw [htell])
          · exact hterm.trans (by rw [htell])
        · exact ⟨q, fun p => htold _, hrole, hterm⟩
      | _ => exact hrest l
    | _ => exact hrest l

theorem recordsOf_node (cs : List Call) (hnode : ∀ event, .record event ∈ cs → event.node = i) :
    ∀ p ∈ recordsOf t cs, p.1 = t ∧ p.2.node? = some i := by
  induction cs with
  | nil => nofun
  | cons call cs ih =>
    have hrest := ih fun event he => hnode event (List.mem_cons_of_mem _ he)
    cases call with
    | record event =>
      intro p hp
      rcases List.mem_cons.mp hp with rfl | hp
      · exact ⟨rfl, congrArg some (hnode event List.mem_cons_self)⟩
      · exact hrest p hp
    | _ => exact hrest

theorem tell_other {e : Record} (h : e.node? ≠ some j) (l : Lane) : l.tell j t e = l := by
  cases e with
  | trace e =>
    cases e with
    | role => exact if_neg fun hk => h (congrArg some hk)
    | _ => rfl
  | driver e => rfl
  | crash => exact if_neg fun hk => h (congrArg some hk)
  | resume => exact if_neg fun hk => h (congrArg some hk)

/-- Records about others leave a lane. -/
theorem tellAll_other (es : List (ℕ × Record)) (l : Lane)
    (h : ∀ p ∈ es, p.2.node? ≠ some j) : l.tellAll j es = l := by
  induction es generalizing l with
  | nil => rfl
  | cons p es ih =>
    change (l.tell j p.1 p.2).tellAll j es = l
    rw [tell_other (h p List.mem_cons_self)]
    exact ih l fun q hq => h q (List.mem_cons_of_mem p hq)

/-! ### The lane of a node and the node -/

namespace Recorded

/-- A crash has hit node `i` while it was a candidate or the leader of `term`. -/
def Toppled (i : NodeId) (term : ℕ) : List Recorded → Prop
  | s' :: s :: past =>
    ((s.world.nodes i).alive = true ∧ (s'.world.nodes i).alive = false ∧
      (s.world.nodes i).role ≠ .follower ∧ (s.world.nodes i).term = term) ∨
    Toppled i term (s :: past)
  | _ => False

/-- The lane of node `i` as the records leave it. -/
def lane (s : Recorded) (i : NodeId) : Lane := ({} : Lane).tellAll i s.events

/-- How the lane of a node stands to the node. A crash that topples it leaves the lane behind. -/
structure Tracked (i : NodeId) (n : RaftNode) (l : Lane) (ss : List Recorded) : Prop where
  id : n.id = i
  alive : l.curAlive = n.alive
  term : l.curTerm = n.term
  role : ¬ Toppled i n.term ss → l.curRole = n.role.text
  stale : Toppled i n.term ss → n.role = .follower ∧ l.curRole ≠ n.role.text
  past : ∀ T, Toppled i T ss → T ≤ n.term

variable {s s' : Recorded} {past : List Recorded} {l : Lane} {m : RaftNode} {y : Exec}

/-- A step that does not crash the node topples nothing. -/
theorem toppled_cons (h : (s.world.nodes i).alive = true → (s'.world.nodes i).alive = true)
    (T : ℕ) : Toppled i T (s' :: s :: past) ↔ Toppled i T (s :: past) := by
  refine ⟨fun hT => ?_, Or.inr⟩
  rcases hT with ⟨halive, hdead, -⟩ | hT
  · exact absurd ((h halive).symm.trans hdead) nofun
  · exact hT

/-- What a callback does to the lane of its node. -/
theorem Tracked.told (h : Tracked i n l (s :: past)) (hn : s.world.nodes i = n)
    (hn' : s'.world.nodes i = y.node) (ht : Exec.Told ⟨n, []⟩ y) :
    Tracked i y.node (l.tellAll i (recordsOf t y.calls)) (s' :: s :: past) := by
  obtain ⟨cs, hcs, hnode, hrank⟩ := ht.calls
  obtain rfl : y.calls = cs := hcs
  obtain ⟨halive, hcase⟩ := recordsOf_tell (t := t) y.calls l fun e he => (hnode e he).trans h.id
  have hsame (T : ℕ) : Toppled i T (s' :: s :: past) ↔ Toppled i T (s :: past) :=
    toppled_cons (fun ha => by rw [hn', ht.alive, ← hn]; exact ha) T
  have hpast (T : ℕ) (hT : Toppled i T (s' :: s :: past)) : T ≤ n.term :=
    h.past T ((hsame T).mp hT)
  rcases hrank with ⟨heq, hquiet⟩ | ⟨hmove, htold⟩
  · -- nothing is told, and the node keeps its role and term
    have hrole : y.node.role = n.role := congrArg Prod.fst heq
    have hterm : y.node.term = n.term := congrArg Prod.snd heq
    rcases hcase with ⟨-, hr, htm⟩ | ⟨q, hq, -⟩
    · refine ⟨ht.id.trans h.id, halive.trans (h.alive.trans ht.alive.symm), ?_, ?_, ?_, ?_⟩
      · rw [htm, h.term, hterm]
      · rw [hsame, hterm, hr, hrole]
        exact h.role
      · rw [hsame, hterm, hr, hrole]
        exact h.stale
      · intro T hT
        exact hterm.symm ▸ hpast T hT
    · have hone := (hquiet (.follower, 0)).symm.trans (hq _)
      have htwo := (hquiet (.leader, 0)).symm.trans (hq _)
      exact absurd (congrArg Prod.fst (hone.trans htwo.symm)) nofun
  · -- a follower that has been toppled leaves its term
    have hfresh : ¬ Toppled i y.node.term (s' :: s :: past) := by
      intro hT
      have hle := hpast _ hT
      rcases hmove with hlt | hrole
      · exact absurd hlt (Nat.not_lt.mpr hle)
      · have heq : y.node.term = n.term := le_antisymm hle ht.term
        rw [hsame, heq] at hT
        exact hrole (h.stale hT).1
    rcases hcase with ⟨hquiet, -⟩ | ⟨q, hq, hr, htm⟩
    · have hone := (hquiet (.follower, 0)).symm.trans (htold _)
      have htwo := (hquiet (.leader, 0)).symm.trans (htold _)
      exact absurd (congrArg Prod.fst (hone.trans htwo.symm)) nofun
    · obtain rfl : y.node.rank = q := (htold (.follower, 0)).symm.trans (hq _)
      refine ⟨ht.id.trans h.id, halive.trans (h.alive.trans ht.alive.symm), htm, fun _ => hr,
        fun hT => absurd hT hfresh, fun T hT => (hpast T hT).trans ht.term⟩

/-- What a crash does to the lane of its node. -/
theorem Tracked.pause (h : Tracked i n l (s :: past)) (hn : s.world.nodes i = n)
    (hn' : s'.world.nodes i = n.pause) (halive : n.alive = true) :
    Tracked i n.pause (l.tell i t (.crash i)) (s' :: s :: past) := by
  have hlane : l.tell i t (.crash i) = { l.closeSegment t with curAlive := false } := if_pos rfl
  have htop (T : ℕ) : Toppled i T (s' :: s :: past) ↔
      n.role ≠ .follower ∧ n.term = T ∨ Toppled i T (s :: past) := by
    change (_ ∨ _) ↔ _
    rw [hn, hn']
    exact or_congr_left ⟨fun h => h.2.2, fun h => ⟨halive, rfl, h⟩⟩
  rw [hlane]
  refine ⟨h.id, rfl, h.term, fun hT => ?_, fun hT => ⟨rfl, ?_⟩, fun T hT => ?_⟩
  · rw [htop] at hT
    push Not at hT
    have hfollower : n.role = .follower := by
      by_contra hr
      exact hT.1 hr rfl
    exact (h.role hT.2).trans (congrArg Role.text hfollower)
  · change l.curRole ≠ Role.follower.text
    rw [htop] at hT
    rcases hT with ⟨hr, -⟩ | hT
    · have hnot : ¬ Toppled i n.term (s :: past) := fun hT => hr (h.stale hT).1
      rw [h.role hnot]
      exact fun heq => hr (Role.text_injective heq)
    · obtain ⟨hr, hne⟩ := h.stale hT
      rwa [hr] at hne
  · rw [htop] at hT
    rcases hT with ⟨-, rfl⟩ | hT
    · exact le_rfl
    · exact h.past T hT

/-- What a restart does to the lane of its node. -/
theorem Tracked.resume (h : Tracked i n l (s :: past))
    (hn' : s'.world.nodes i = (({ node := n } : Exec).resume).node) :
    Tracked i (({ node := n } : Exec).resume).node (l.tell i t (.resume i)) (s' :: s :: past) := by
  have hlane : l.tell i t (.resume i) = { l.closeSegment t with curAlive := true } := if_pos rfl
  have hsame (T : ℕ) : Toppled i T (s' :: s :: past) ↔ Toppled i T (s :: past) :=
    toppled_cons (fun _ => by rw [hn']; rfl) T
  rw [hlane]
  refine ⟨h.id, rfl, h.term, ?_, ?_, ?_⟩
  · rw [hsame]
    exact h.role
  · rw [hsame]
    exact h.stale
  · intro T
    rw [hsame]
    exact h.past T

/-- A step that is not about the node. -/
theorem Tracked.frame (h : Tracked i n l (s :: past)) (hn : s.world.nodes i = n)
    (hn' : s'.world.nodes i = n) : Tracked i n l (s' :: s :: past) := by
  have hsame (T : ℕ) : Toppled i T (s' :: s :: past) ↔ Toppled i T (s :: past) :=
    toppled_cons (fun ha => by rw [hn', ← hn]; exact ha) T
  refine ⟨h.id, h.alive, h.term, ?_, ?_, ?_⟩
  · rw [hsame]
    exact h.role
  · rw [hsame]
    exact h.stale
  · intro T
    rw [hsame]
    exact h.past T

/-! ### What one step does -/

theorem perform_cases {e : Event} (h : s.perform c e = .ok s') : s' = s ∨
    ∃ i ∈ c.ids, ∃ x, s.world.callback (s.world.nodes i) e = .ok x ∧ s' = { s with
      world := s.world.put i x
      events := s.events ++ recordsOf s.now x.calls } := by
  unfold perform at h
  cases ht : s.world.target e with
  | none =>
    simp only [ht] at h
    exact Or.inl (Except.ok.inj h).symm
  | some i =>
    simp only [ht] at h
    by_cases hi : i ∈ c.ids
    · rw [if_pos hi] at h
      obtain ⟨x, hx, h⟩ := bind_ok.mp h
      exact Or.inr ⟨i, hi, x, hx, (Except.ok.inj h).symm⟩
    · rw [if_neg hi] at h
      exact Or.inl (Except.ok.inj h).symm

theorem pause_ok (hi : i ∈ c.ids) (h : s.pause c i = .ok s') : s' = { s with
    crashed := insert i s.crashed
    world := s.world.put i ⟨(s.world.nodes i).pause, []⟩
    events := s.events ++ [(s.now, .crash i)] } := by
  obtain ⟨u, hu, h⟩ := bind_ok.mp h
  obtain rfl := Except.ok.inj h
  have hat : { s with crashed := insert i s.crashed }.perform c (.pause i) = .ok { s with
      crashed := insert i s.crashed
      world := s.world.put i ⟨(s.world.nodes i).pause, []⟩
      events := s.events ++ [] } := if_pos hi
  obtain rfl := Except.ok.inj (hat.symm.trans hu)
  rw [List.append_nil]
  rfl

theorem resume_ok (hi : i ∈ c.ids) (h : s.resume c i = .ok s') : s' = { s with
    crashed := s.crashed.erase i
    world := s.world.put i (({ node := s.world.nodes i } : Exec).resume)
    events := s.events ++ [(s.now, .resume i)] } := by
  obtain ⟨u, hu, h⟩ := bind_ok.mp h
  obtain rfl := Except.ok.inj h
  have hat : { s with crashed := s.crashed.erase i }.perform c (.resume i) = .ok { s with
      crashed := s.crashed.erase i
      world := s.world.put i (({ node := s.world.nodes i } : Exec).resume)
      events := s.events ++ [] } := if_pos hi
  obtain rfl := Except.ok.inj (hat.symm.trans hu)
  rw [List.append_nil]
  rfl

/-! ### Every run -/

/-- What holds in every state of a run. -/
structure Kept (c : Setup) (s : Recorded) (past : List Recorded) : Prop where
  tracked : ∀ i ∈ c.ids, Tracked i (s.world.nodes i) (s.lane i) (s :: past)
  events : ∀ p ∈ s.events, p.1 ≤ s.now ∧ p.2.Drawn c.numNodes
  crashed : ∀ i ∈ s.crashed, i ∈ c.ids

theorem drawn_of_mem {e : Record} (hi : i ∈ c.ids) (he : e.node? = some i) :
    e.Drawn c.numNodes := by
  rintro j hj
  obtain rfl : j = i := Option.some.inj (hj.symm.trans he)
  obtain ⟨k, hk, rfl⟩ := List.mem_map.mp hi
  exact ⟨Int.natCast_nonneg k, Int.ofNat_lt.mpr (List.mem_range.mp hk)⟩

/-- A step with the records `es`. -/
theorem Kept.after (h : Kept c s past) {es : List (ℕ × Record)} (hnow : s.now ≤ s'.now)
    (hevents : s'.events = s.events ++ es)
    (hes : ∀ p ∈ es, p.1 = s'.now ∧ p.2.Drawn c.numNodes)
    (htracked : ∀ i ∈ c.ids, Tracked i (s.world.nodes i) (s.lane i) (s :: past) →
      Tracked i (s'.world.nodes i) ((s.lane i).tellAll i es) (s' :: s :: past))
    (hcrashed : ∀ i ∈ s'.crashed, i ∈ c.ids) : Kept c s' (s :: past) := by
  refine ⟨fun i hi => ?_, fun p hp => ?_, hcrashed⟩
  · unfold lane
    rw [hevents, Lane.tellAll_append]
    exact htracked i hi (h.tracked i hi)
  · rw [hevents] at hp
    rcases List.mem_append.mp hp with hp | hp
    · exact ⟨(h.events p hp).1.trans hnow, (h.events p hp).2⟩
    · exact ⟨(hes p hp).1.le, (hes p hp).2⟩

/-- A step at node `i`. The lanes of the others do not move. -/
theorem Kept.at (h : Kept c s past) {es : List (ℕ × Record)} (hi : i ∈ c.ids)
    (hnow : s.now ≤ s'.now) (hworld : s'.world = s.world.put i y)
    (hevents : s'.events = s.events ++ es)
    (hes : ∀ p ∈ es, p.1 = s'.now ∧ p.2.node? = some i)
    (htracked : Tracked i (s.world.nodes i) (s.lane i) (s :: past) → s'.world.nodes i = y.node →
      Tracked i y.node ((s.lane i).tellAll i es) (s' :: s :: past))
    (hcrashed : ∀ i ∈ s'.crashed, i ∈ c.ids) : Kept c s' (s :: past) := by
  refine h.after hnow hevents (fun p hp => ⟨(hes p hp).1, drawn_of_mem hi (hes p hp).2⟩)
    (fun j _ hj => ?_) hcrashed
  by_cases hji : j = i
  · subst hji
    have hnode : s'.world.nodes j = y.node := by rw [hworld, World.put_nodes_self]
    rw [hnode]
    exact htracked hj hnode
  · have hnode : s'.world.nodes j = s.world.nodes j := by rw [hworld, World.put_nodes_ne _ _ hji]
    rw [hnode, tellAll_other es _ fun p hp he => hji (Option.some.inj (he.symm.trans (hes p hp).2))]
    exact hj.frame rfl hnode

theorem Kept.idle (h : Kept c s past) (hnow : s.now ≤ t) :
    Kept c { s with now := t } (s :: past) := by
  have hnone : s.events = s.events ++ [] := (List.append_nil _).symm
  refine h.after hnow hnone (List.forall_mem_nil _) (fun i _ hi => ?_) h.crashed
  exact hi.frame rfl rfl

theorem Kept.perform {e : Event} (h : Kept c s past) (hnow : s.now ≤ t)
    (he : (ClusterEvent.node e).Allowed) (hs : { s with now := t }.perform c e = .ok s') :
    Kept c s' (s :: past) ∧ s'.now = t ∧
      ∃ es, s'.events = s.events ++ es ∧ ∀ p ∈ es, p.1 = t := by
  rcases perform_cases hs with rfl | ⟨i, hi, x, hx, rfl⟩
  · exact ⟨h.idle hnow, rfl, [], (List.append_nil _).symm, List.forall_mem_nil _⟩
  have htold := callback_told he hx
  -- a callback writes of its own node alone
  have hes : ∀ p ∈ recordsOf t x.calls, p.1 = t ∧ p.2.node? = some i := by
    obtain ⟨cs, hcs, hnode, -⟩ := htold.calls
    obtain rfl : x.calls = cs := hcs
    exact recordsOf_node x.calls fun event hevent =>
      (hnode event hevent).trans (h.tracked i hi).id
  refine ⟨h.at hi hnow rfl rfl hes (fun hold hnode => ?_) h.crashed, rfl, _, rfl,
    fun p hp => (hes p hp).1⟩
  exact hold.told rfl hnode htold

theorem Kept.driver (h : Kept c s past) (hnow : s.now ≤ t) (d : DriverEvent) :
    Kept c { s with now := t, events := s.events ++ [(t, .driver d)] } (s :: past) := by
  have hdrawn : (Record.driver d).Drawn c.numNodes := fun i hi => by cases hi
  refine h.after hnow rfl ?_ (fun i _ hi => ?_) h.crashed
  · rw [List.forall_mem_singleton]
    exact ⟨rfl, hdrawn⟩
  · exact hi.frame rfl rfl

theorem Kept.crash (h : Kept c s past) (hnow : s.now ≤ t) (hi : i ∈ c.ids)
    (hup : (s.world.nodes i).alive = true) (hs : { s with now := t }.pause c i = .ok s') :
    Kept c s' (s :: past) ∧ s'.now = t ∧ s'.events = s.events ++ [(t, .crash i)] := by
  obtain rfl := pause_ok hi hs
  refine ⟨h.at hi hnow rfl rfl ?_ (fun hold hnode => ?_) (fun j hj => ?_), rfl, rfl⟩
  · rw [List.forall_mem_singleton]
    exact ⟨rfl, rfl⟩
  · exact hold.pause rfl hnode hup
  · rcases Finset.mem_insert.mp hj with rfl | hj
    · exact hi
    · exact h.crashed j hj

theorem Kept.maybeResume (h : Kept c s past) (hnow : s.now ≤ t) (hdown : i ∈ s.crashed)
    (hs : { s with now := t }.resume c i = .ok s') :
    Kept c s' (s :: past) ∧ s'.now = t ∧ s'.events = s.events ++ [(t, .resume i)] := by
  have hi := h.crashed i hdown
  obtain rfl := resume_ok hi hs
  refine ⟨h.at hi hnow rfl rfl ?_ (fun hold hnode => ?_) (fun j hj => ?_), rfl, rfl⟩
  · rw [List.forall_mem_singleton]
    exact ⟨rfl, rfl⟩
  · exact hold.resume hnode
  · exact h.crashed j (Finset.mem_of_mem_erase hj)

/-- Records are only added, each with the time of its step. -/
theorem Kept.step {e : ClusterEvent} (h : Kept c s past) (hnow : s.now ≤ t) (he : e.Allowed)
    (hs : s.step c t e = .ok s') : Kept c s' (s :: past) ∧ s'.now = t ∧
      ∃ es, s'.events = s.events ++ es ∧ ∀ p ∈ es, p.1 = t := by
  have hone (r : Record) : ∀ p ∈ [(t, r)], p.1 = t := List.forall_mem_singleton.mpr rfl
  -- what a driver asks of a node that is in the state already leaves no record
  have hidle : Kept c { s with now := t } (s :: past) ∧ t = t ∧
      ∃ es, s.events = s.events ++ es ∧ ∀ p ∈ es, p.1 = t :=
    ⟨h.idle hnow, rfl, [], (List.append_nil _).symm, List.forall_mem_nil _⟩
  cases e with
  | node e => exact h.perform hnow he hs
  | driver d =>
    obtain rfl := Except.ok.inj hs
    exact ⟨h.driver hnow d, rfl, _, rfl, hone _⟩
  | crash i =>
    unfold Recorded.step at hs
    dsimp only at hs
    split at hs
    next hup =>
      obtain ⟨hkept, hnow', hevents⟩ := h.crash hnow hup.1 hup.2 hs
      exact ⟨hkept, hnow', _, hevents, hone _⟩
    next =>
      cases hs
      exact hidle
  | maybeResume i =>
    unfold Recorded.step at hs
    dsimp only at hs
    split at hs
    next hdown =>
      obtain ⟨hkept, hnow', hevents⟩ := h.maybeResume hnow hdown hs
      exact ⟨hkept, hnow', _, hevents, hone _⟩
    next =>
      cases hs
      exact hidle

theorem Kept.init (c : Setup) : Kept c (Recorded.init c) [] where
  tracked _ _ := ⟨rfl, rfl, rfl, fun _ => rfl, fun h => h.elim, fun _ h => h.elim⟩
  events := nofun
  crashed _ hi := absurd hi (Finset.notMem_empty _)

theorem Run.kept {ss : List Recorded} (h : Run c ss) :
    ∃ s past, ss = s :: past ∧ Kept c s past := by
  induction h with
  | init => exact ⟨_, _, rfl, Kept.init c⟩
  | step hr hnow he hs ih =>
    obtain ⟨_, _, heq, hkept⟩ := ih
    obtain ⟨rfl, rfl⟩ := List.cons.inj heq
    exact ⟨_, _, rfl, (hkept.step hnow he hs).1⟩

theorem Run.last (h : Run c (s' :: s :: past)) :
    Run c (s :: past) ∧ ∃ t e, s.now ≤ t ∧ ClusterEvent.Allowed e ∧ s.step c t e = .ok s' := by
  cases h with
  | step hr hnow he hs => exact ⟨hr, _, _, hnow, he, hs⟩

/-- A run goes on from each of its states, and what it records then has the times of later
states. -/
theorem Run.split {later : List Recorded} (h : Run c (later ++ s :: past)) : Run c (s :: past) ∧
    ∃ fs, records (later ++ s :: past) = s.events ++ fs ∧
      ∀ p ∈ fs, ∃ s' ∈ later, p.1 = s'.now := by
  induction later with
  | nil => exact ⟨h, [], (List.append_nil _).symm, nofun⟩
  | cons v later ih =>
    obtain ⟨u, rest, hu⟩ : ∃ u rest, later ++ s :: past = u :: rest := by
      cases later with
      | nil => exact ⟨_, _, rfl⟩
      | cons u later => exact ⟨_, _, rfl⟩
    rw [List.cons_append, hu] at h
    obtain ⟨hr, t, e, hnow, he, hs⟩ := h.last
    obtain ⟨_, _, heq, hkept⟩ := hr.kept
    obtain ⟨rfl, rfl⟩ := List.cons.inj heq
    obtain ⟨-, htime, es, hes, hall⟩ := hkept.step hnow he hs
    rw [hu] at ih
    obtain ⟨hearlier, fs, hfs, hlater⟩ := ih hr
    refine ⟨hearlier, fs ++ es, ?_, fun p hp => ?_⟩
    · have hrec : u.events = s.events ++ fs := hfs
      rw [← List.append_assoc, ← hrec]
      exact hes
    · rcases List.mem_append.mp hp with hp | hp
      · obtain ⟨s', hs', hp⟩ := hlater p hp
        exact ⟨s', List.mem_cons_of_mem v hs', hp⟩
      · exact ⟨v, List.mem_cons_self, (hall p hp).trans htime.symm⟩

/-- Just after a time `t` whose events are all processed, the timeline shows a node as its lane
has come to be. -/
theorem Run.shows {later : List Recorded} {duration : ℕ} (h : Run c (later ++ s :: past))
    (hnow : s.now ≤ t) (hlater : ∀ s' ∈ later, t < s'.now) (hd : t < max duration 1) :
    ∃ r, renderTimeline (entries (later ++ s :: past)) c.numNodes duration = .ok r ∧
      ∀ i, (r.lanes i).Drawn t (s.lane i) := by
  obtain ⟨_, _, hss, hlast⟩ := h.kept
  obtain ⟨hr, fs, hfs, htimes⟩ := h.split
  obtain ⟨_, _, heq, hkept⟩ := hr.kept
  obtain ⟨rfl, rfl⟩ := List.cons.inj heq
  have hdrawn : ∀ p ∈ s.events ++ fs, p.2.Drawn c.numNodes := by
    rw [← hfs, hss]
    exact fun p hp => (hlast.events p hp).2
  unfold entries
  rw [hfs]
  refine renderTimeline_shows hdrawn (fun p hp => (hkept.events p hp).1.trans hnow) ?_ hd
  intro p hp
  obtain ⟨s', hs', htime⟩ := htimes p hp
  rw [htime]
  exact hlater s' hs'

/-! ### When the timeline is right -/

/-- Just after `t` the timeline shows one segment for node `i`, with the liveness of `n` and, if it
is up, its role and its term. -/
def ShownAs (ss : List Recorded) (numNodes duration t : ℕ) (i : NodeId) (n : RaftNode) : Prop :=
  ∃ r g, renderTimeline (entries ss) numNodes duration = .ok r ∧
    (r.lanes i).segments.filter (Segment.covers t) = [g] ∧ g.alive = n.alive ∧
    (n.alive = true → g.role = n.role.text ∧ g.term = n.term)

/-- At each time whose events are all processed, the timeline of the run shows each node as it is
then. -/
def TimelineRight (c : Setup) (ss : List Recorded) : Prop :=
  ∀ later s past t duration, ss = later ++ s :: past → s.now ≤ t → (∀ s' ∈ later, t < s'.now) →
    t < max duration 1 → ∀ i ∈ c.ids, ShownAs ss c.numNodes duration t i (s.world.nodes i)

/-- Whenever all events of a time are processed, no node is up in a term in which it crashed as
candidate or leader. -/
def NoneUpToppled (c : Setup) (ss : List Recorded) : Prop :=
  ∀ later s past, ss = later ++ s :: past → (∀ s' ∈ later, s.now < s'.now) → ∀ i ∈ c.ids,
    (s.world.nodes i).alive = true → ¬ Toppled i (s.world.nodes i).term (s :: past)

theorem Tracked.shown_iff {ss : List Recorded} {numNodes duration : ℕ} {r : Rendering}
    (h : Tracked i n l (s :: past))
    (hr : renderTimeline (entries ss) numNodes duration = .ok r) (hl : (r.lanes i).Drawn t l) :
    ShownAs ss numNodes duration t i n ↔ (n.alive = true → ¬ Toppled i n.term (s :: past)) := by
  obtain ⟨start, stop, hone⟩ := hl.one
  constructor
  · rintro ⟨r', g, hr', hg, -, hup⟩ halive htop
    obtain rfl : r' = r := Except.ok.inj (hr'.symm.trans hr)
    obtain rfl := List.singleton_injective (hg.symm.trans hone)
    exact (h.stale htop).2 (hup halive).1
  · intro hfine
    exact ⟨r, _, hr, hone, h.alive, fun halive => ⟨h.role (hfine halive), h.term⟩⟩

/-- A step that crashes no candidate and no leader. -/
def Gentle (c : Setup) (s' s : Recorded) : Prop :=
  ∀ i ∈ c.ids, (s.world.nodes i).alive = true → (s'.world.nodes i).alive = false →
    (s.world.nodes i).role = .follower

instance (c : Setup) (s' s : Recorded) : Decidable (Gentle c s' s) := by
  unfold Gentle
  infer_instance

theorem not_toppled_of_gentle {ss : List Recorded} (h : ss.IsChain (Gentle c)) (hi : i ∈ c.ids)
    (T : ℕ) : ¬ Toppled i T ss := by
  induction h with
  | nil => exact id
  | singleton => exact id
  | cons_cons hstep _ ih =>
    rintro (⟨halive, hdead, hrole, -⟩ | hT)
    · exact hrole (hstep i hi halive hdead)
    · exact ih hT

/-- Crashes that hit followers only do not spoil the timeline. -/
theorem noneUpToppled_of_gentle {ss : List Recorded} (h : ss.IsChain (Gentle c)) :
    NoneUpToppled c ss := by
  rintro later s past rfl - i hi -
  exact not_toppled_of_gentle h.right_of_append hi _

/-- The timeline of a run is right exactly if no node is up in a term in which it crashed as
candidate or leader. -/
theorem timeline_right_iff {ss : List Recorded} (h : Run c ss) :
    TimelineRight c ss ↔ NoneUpToppled c ss := by
  have hshown (later : List Recorded) (s : Recorded) (past : List Recorded) (t duration : ℕ)
      (hss : ss = later ++ s :: past) (hnow : s.now ≤ t) (hlater : ∀ s' ∈ later, t < s'.now)
      (hd : t < max duration 1) (i : NodeId) (hi : i ∈ c.ids) :
      ShownAs ss c.numNodes duration t i (s.world.nodes i) ↔
        ((s.world.nodes i).alive = true → ¬ Toppled i (s.world.nodes i).term (s :: past)) := by
    subst hss
    obtain ⟨r, hr, hlanes⟩ := h.shows hnow hlater hd
    obtain ⟨_, _, heq, hkept⟩ := h.split.1.kept
    obtain ⟨rfl, rfl⟩ := List.cons.inj heq
    exact (hkept.tracked i hi).shown_iff hr (hlanes i)
  constructor
  · intro hright later s past hss hlater i hi
    have hd : s.now < max (s.now+1) 1 := by omega
    exact (hshown later s past s.now (s.now+1) hss le_rfl hlater hd i hi).mp
      (hright later s past s.now (s.now+1) hss le_rfl hlater hd i hi)
  · intro hnone later s past t duration hss hnow hlater hd i hi
    exact (hshown later s past t duration hss hnow hlater hd i hi).mpr
      (hnone later s past hss (fun s' hs' => hnow.trans_lt (hlater s' hs')) i hi)

/-- Node 0 wins an election. -/
def elected : List (ℕ × ClusterEvent) :=
  [(200, .node (.electionTimeout 0 1)), (210, .node (.deliver 0)), (220, .node (.deliver 2))]

/-- A follower crashes and comes back. -/
theorem follower_crash_drawn : TimelineRight trio
    (follow trio [init trio] (elected ++ [(300, .crash 2), (400, .maybeResume 2)])) :=
  (timeline_right_iff (follow_run .init _)).mpr (noneUpToppled_of_gentle (by decide +kernel))

/-- The leader crashes and comes back as a follower. The timeline draws it as the leader. -/
def leaderCrash : List Recorded :=
  follow trio [init trio] (elected ++ [(300, .crash 0), (400, .maybeResume 0)])

theorem leader_crash_not_drawn : ¬ ∀ ss, Run trio ss → TimelineRight trio ss := by
  intro hall
  have hr : Run trio leaderCrash := follow_run .init _
  have hdrawn : ((renderTimeline (entries leaderCrash) 3 500).toOption.map fun r =>
      (r.lanes 0).segments.filter (Segment.covers 400)) =
        some [⟨400, 500, 1, Role.leader.text, true⟩] := by decide +kernel
  have hnode : leaderCrash.head?.map (fun s => (s.now, (s.world.nodes 0).alive,
      (s.world.nodes 0).role)) = some (400, true, .follower) := by decide +kernel
  obtain ⟨s, past, hss, -⟩ := hr.kept
  rw [hss] at hnode
  have hnode := Option.some.inj hnode
  simp only [Prod.mk.injEq] at hnode
  obtain ⟨hnow, halive, hrole⟩ := hnode
  obtain ⟨r, g, hrender, hone, -, hup⟩ :=
    hall leaderCrash hr [] s past 400 500 hss hnow.le nofun (by decide) 0 (by decide)
  have hdraw : (r.lanes 0).segments.filter (Segment.covers 400) =
      [⟨400, 500, 1, Role.leader.text, true⟩] := by
    rw [show renderTimeline (entries leaderCrash) 3 500 = .ok r from hrender] at hdrawn
    exact Option.some.inj hdrawn
  obtain rfl := List.singleton_injective (hone.symm.trans hdraw)
  have hrole' := (hup halive).1
  rw [hrole] at hrole'
  have hsame : Role.leader = .follower := Role.text_injective hrole'
  cases hsame

end Recorded
end RaftVerified
