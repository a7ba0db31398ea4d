import RaftVerified.RaftCompleteness
import RaftVerified.RaftProgress

/-! Commit indices over whole runs, with compaction: what lowers one is a crash of the
node itself or an image older than what the node has committed, and nothing else. -/
namespace RaftVerified

variable {c : Setup} {allowed : List World → Event → Prop} {v w w' : World}
  {ws past : List World} {i : NodeId} {n : RaftNode} {e : Event} {y : Exec}

def Message.image : Message → Option InstallSnapshot
  | .installSnapshot m => some m
  | _ => none

/-- The event delivers an image that takes back the commit index of `n`. -/
def StaleImage (w : World) (n : RaftNode) : Event → Prop
  | .deliver k => ∃ p ∈ w.sent[k]?, ∃ m ∈ p.msg.image, Exec.Stale n m
  | _ => False

instance (w : World) (n : RaftNode) (e : Event) : Decidable (StaleImage w n e) :=
  match e with
  | .deliver k => inferInstanceAs (Decidable (∃ p ∈ w.sent[k]?, ∃ m ∈ p.msg.image, Exec.Stale n m))
  | .electionTimeout _ _ | .heartbeat _ _ | .clientCommand _ _ | .changeConfig _ _
  | .requestRead _ _ | .pause _ | .resume _ => instDecidableFalse

/-- A fixed voting set, and no image older than what its receiver has committed. -/
def FreshImages (ws : List World) (e : Event) : Prop :=
  FixedVoters ws e ∧ ∀ w ∈ ws.head?, ∀ i ∈ w.target e, ¬ StaleImage w (w.nodes i) e

instance (ws : List World) (e : Event) : Decidable (FreshImages ws e) :=
  inferInstanceAs (Decidable (_ ∧ _))

/-- What holds of every node of every state: no planted defect, and everything
committed is applied. -/
structure Sound (n : RaftNode) : Prop where
  bugs : n.bugs = NO_BUGS
  settled : n.lastApplied = n.commitIndex

theorem Grows.sound {m : RaftNode} (h : Grows n m) (hn : Sound n) : Sound m :=
  ⟨h.bugs.trans hn.bugs, h.settled hn.settled⟩

/-- The three ways a callback moves the commit index. -/
inductive Moved (w : World) (n : RaftNode) (e : Event) (m : RaftNode) : Prop
  | grows : Grows n m → ¬ StaleImage w n e → Moved w n e m
  | crash (i : NodeId) : e = .pause i → Sound m → m.incarnation = n.incarnation+1 → Moved w n e m
  | stale : StaleImage w n e → Sound m → m.incarnation = n.incarnation →
      m.commitIndex < n.commitIndex → Moved w n e m

theorem Moved.sound {m : RaftNode} (h : Moved w n e m) (hn : Sound n) : Sound m := by
  cases h with
  | grows h _ => exact h.sound hn
  | crash _ _ h _ => exact h
  | stale _ h _ _ => exact h

theorem resetVolatile_sound (hb : n.bugs = NO_BUGS) : Sound n.resetVolatile :=
  ⟨hb, rfl⟩

theorem callback_moved (hn : Sound n) (hy : w.callback n e = .ok y) : Moved w n e y.node := by
  have hkeeps {m : RaftNode} (h : m.progress = n.progress) (he : ¬ StaleImage w n e) :
      Moved w n e m := .grows (grows_of_progress h) he
  cases e with
  | electionTimeout j seq => exact hkeeps (Exec.onElectionTimeout_quiet hy).progress id
  | heartbeat j seq => exact hkeeps (Exec.onHeartbeat_quiet hy).progress id
  | clientCommand j command =>
    obtain ⟨b, hy⟩ := map_fst_ok hy
    exact hkeeps (Exec.clientCommand_quiet hy).progress id
  | changeConfig j newVoters =>
    obtain ⟨b, hy⟩ := map_fst_ok hy
    exact hkeeps (Exec.changeConfig_quiet hy).progress id
  | requestRead j command =>
    obtain rfl := Except.ok.inj hy
    exact hkeeps (Exec.requestRead_serves _ command).progress id
  | deliver k =>
    rw [World.callback] at hy
    cases hp : w.sent[k]? with
    | none =>
      rw [hp] at hy
      obtain rfl := Except.ok.inj hy
      refine hkeeps rfl ?_
      rintro ⟨p, hp', -⟩
      rw [hp] at hp'
      cases hp'
    | some p =>
      rw [hp] at hy
      rcases Exec.handle_grows hn.bugs hn.settled hy with
        ⟨hg, hfresh⟩ | ⟨hb, hi, hs, hlt, m, hm, hst⟩
      · refine .grows hg ?_
        rintro ⟨p', hp', m, hm, hst⟩
        obtain rfl := Option.some.inj (hp.symm.trans hp')
        refine hfresh m ?_ hst
        cases hmsg : p.msg <;> rw [hmsg] at hm <;> cases hm
        rfl
      -- only a stale image takes the commit index back
      · refine .stale ⟨p, hp, m, ?_, hst⟩ ⟨hb.trans hn.bugs, hs⟩ hi hlt
        rw [hm]
        rfl
  | pause j =>
    obtain rfl := Except.ok.inj hy
    exact .crash j rfl (resetVolatile_sound hn.bugs) rfl
  | resume j =>
    obtain rfl := Except.ok.inj hy
    exact .grows ⟨rfl, rfl, le_rfl, le_rfl, id⟩ id

theorem step_moved (hs : ∀ i, Sound (w.nodes i)) (hstep : w.step c e = .ok w') (i : NodeId) :
    w'.nodes i = w.nodes i ∧ (i ∈ c.ids → w.target e ≠ some i) ∨
      w.target e = some i ∧ i ∈ c.ids ∧ Moved w (w.nodes i) e (w'.nodes i) := by
  rcases World.step_node hstep i with hsame | ⟨hi, ht, y, hy, hnode⟩
  · exact Or.inl hsame
  · rw [hnode]
    exact Or.inr ⟨ht, hi, callback_moved (hs i) hy⟩

theorem run_sound (hb : c.bugs = NO_BUGS) (hr : Run c allowed ws) :
    ∀ w ∈ ws, ∀ i, Sound (w.nodes i) := by
  induction hr with
  | init =>
    intro w hw i
    obtain rfl := List.mem_singleton.mp hw
    exact ⟨hb, rfl⟩
  | step _ _ hstep ih =>
    intro v hv i
    rcases List.mem_cons.mp hv with rfl | hv
    · have hw := ih _ List.mem_cons_self
      rcases step_moved hw hstep i with ⟨hsame, -⟩ | ⟨-, -, hm⟩
      · rw [hsame]
        exact hw i
      · exact hm.sound (hw i)
    · exact ih v hv i

/-- Apart from its own crash, exactly a stale image takes a node back. -/
theorem step_lowers_iff (hs : ∀ i, Sound (w.nodes i)) (hstep : w.step c e = .ok w')
    (hi : i ∈ c.ids) (hp : e ≠ .pause i) :
    ((w'.nodes i).commitIndex < (w.nodes i).commitIndex ∨
      (w'.nodes i).lastApplied < (w.nodes i).lastApplied) ↔
      w.target e = some i ∧ StaleImage w (w.nodes i) e := by
  have hsound := hs i
  rcases step_moved hs hstep i with ⟨hsame, hother⟩ | ⟨ht, -, hm⟩
  · rw [hsame]
    constructor
    · rintro (h | h) <;> exact absurd h (lt_irrefl _)
    · rintro ⟨h, -⟩
      exact absurd h (hother hi)
  · cases hm with
    | grows hg hfresh =>
      have hc := hg.commit
      have ha := hg.applied
      constructor
      · rintro (h | h) <;> omega
      · rintro ⟨-, h⟩
        exact absurd h hfresh
    | crash j he =>
      -- the crash of the node an event runs at is the node's own
      rw [he] at ht hp
      obtain rfl := Option.some.inj ht
      exact absurd rfl hp
    | stale hst _ _ hlt => exact ⟨fun _ => ⟨ht, hst⟩, fun _ => Or.inl hlt⟩

/-- Between two states of one incarnation nothing is taken back. -/
theorem run_keeps_commits (hb : c.bugs = NO_BUGS) (hr : Run c allowed (w :: past))
    (hfresh : ∀ u before e, Run c allowed (u :: before) → allowed (u :: before) e →
      ∀ i ∈ u.target e, ¬ StaleImage u (u.nodes i) e) :
    ∀ v ∈ w :: past, ∀ i, (v.nodes i).incarnation ≤ (w.nodes i).incarnation ∧
      ((v.nodes i).incarnation = (w.nodes i).incarnation →
        (v.nodes i).commitIndex ≤ (w.nodes i).commitIndex ∧
        (v.nodes i).lastApplied ≤ (w.nodes i).lastApplied) := by
  generalize hws : w :: past = ws at hr
  induction hr generalizing w past with
  | init =>
    obtain ⟨rfl, rfl⟩ := List.cons.inj hws
    intro v hv i
    obtain rfl := List.mem_singleton.mp hv
    exact ⟨le_rfl, fun _ => ⟨le_rfl, le_rfl⟩⟩
  | @step u w' past e hrun hall hstep ih =>
    obtain ⟨rfl, rfl⟩ := List.cons.inj hws
    intro v hv i
    rcases List.mem_cons.mp hv with rfl | hv
    · exact ⟨le_rfl, fun _ => ⟨le_rfl, le_rfl⟩⟩
    obtain ⟨hinc, hle⟩ := ih rfl v hv i
    have hu := run_sound hb hrun u List.mem_cons_self
    rcases step_moved hu hstep i with ⟨hsame, -⟩ | ⟨ht, -, hm⟩
    · rw [hsame]
      exact ⟨hinc, hle⟩
    · cases hm with
      | grows hg _ =>
        refine ⟨hinc.trans hg.incarnation.ge, fun heq => ?_⟩
        obtain ⟨h1, h2⟩ := hle (heq.trans hg.incarnation)
        exact ⟨h1.trans hg.commit, h2.trans hg.applied⟩
      -- a crash starts a new incarnation, of which nothing is claimed yet
      | crash _ _ _ hnew => exact ⟨by omega, fun heq => by omega⟩
      | stale hst => exact absurd hst (hfresh u _ e hrun hall i ht)

theorem run_grows (hb : c.bugs = NO_BUGS) (hr : Run c FreshImages (w :: past)) :
    ∀ v ∈ w :: past, ∀ i, (v.nodes i).incarnation ≤ (w.nodes i).incarnation ∧
      ((v.nodes i).incarnation = (w.nodes i).incarnation →
        (v.nodes i).commitIndex ≤ (w.nodes i).commitIndex ∧
        (v.nodes i).lastApplied ≤ (w.nodes i).lastApplied) :=
  run_keeps_commits hb hr fun u _ _ _ hall i ht => hall.2 u rfl i ht

/-- Commit indices are monotone per incarnation in every run without stale images, and
in every reachable state it takes a stale image to lower one. -/
theorem commit_index_monotone (hb : c.bugs = NO_BUGS) :
    (∀ w past, Run c FreshImages (w :: past) → ∀ v ∈ past, ∀ i ∈ c.ids,
      (v.nodes i).incarnation = (w.nodes i).incarnation →
        (v.nodes i).commitIndex ≤ (w.nodes i).commitIndex ∧
        (v.nodes i).lastApplied ≤ (w.nodes i).lastApplied) ∧
    ∀ w past, Run c FixedVoters (w :: past) → ∀ e w', FixedVoters (w :: past) e →
      w.step c e = .ok w' → ∀ i ∈ c.ids, e ≠ .pause i →
        (((w'.nodes i).commitIndex < (w.nodes i).commitIndex ∨
          (w'.nodes i).lastApplied < (w.nodes i).lastApplied) ↔
          w.target e = some i ∧ StaleImage w (w.nodes i) e) := by
  refine ⟨?_, ?_⟩
  · intro w past hr v hv i _ heq
    exact (run_grows hb hr v (List.mem_cons_of_mem _ hv) i).2 heq
  · intro w past hr e w' _ hstep i hi hp
    exact step_lowers_iff (run_sound hb hr w List.mem_cons_self) hstep hi hp

def compacting : Setup := { numNodes := 3, config := { snapshotThreshold := 3 } }

/-- The image that node 0, the leader of term 2, has sent to node 2 on a heartbeat arrives after
node 2 has taken two more entries from its messages. -/
def imageDelayed : List Event :=
  [.electionTimeout 1 1, .deliver 0, .deliver 2, .clientCommand 1 "a".toList,
    .clientCommand 1 "b".toList, .deliver 7, .deliver 9, .clientCommand 1 "c".toList, .deliver 10,
    .deliver 11, .deliver 12, .deliver 13, .heartbeat 1 3, .deliver 15, .electionTimeout 0 5,
    .deliver 18, .deliver 19, .clientCommand 0 "d".toList, .deliver 22, .deliver 24,
    .heartbeat 0 7, .deliver 23, .deliver 27, .clientCommand 0 "e".toList, .deliver 29,
    .deliver 30, .heartbeat 0 8, .deliver 32, .deliver 26]

theorem delayed_image_lowers_commit : ¬ ∀ w past, Run compacting FixedVoters (w :: past) →
    ∀ v ∈ past, ∀ i ∈ compacting.ids, (v.nodes i).incarnation = (w.nodes i).incarnation →
      (v.nodes i).commitIndex ≤ (w.nodes i).commitIndex := by
  intro hall
  have hr : Run compacting FixedVoters (Run.follow compacting FixedVoters
    [World.init compacting] imageDelayed) := Run.follow_run .init _
  have hw : ((Run.follow compacting FixedVoters [World.init compacting] imageDelayed).take 2).map
      (fun w => ((w.nodes 2).incarnation, (w.nodes 2).commitIndex)) = [(0, 4), (0, 5)] := by
    decide +kernel
  obtain ⟨w, past, hws⟩ := hr.exists_cons
  rw [hws] at hr hw
  cases past with
  | nil => simp at hw
  | cons v past =>
    simp only [List.take, List.map, List.cons.injEq, Prod.mk.injEq] at hw
    have hle := hall w _ hr v List.mem_cons_self 2 (by decide) (by omega)
    omega

theorem images_fresh_without_delayed : ∃ w past, Run compacting FreshImages (w :: past) ∧
    (w.nodes 2).commitIndex = 5 ∧ ∀ v ∈ past, (v.nodes 2).commitIndex ≤ 5 := by
  have hr : Run compacting FreshImages (Run.follow compacting FreshImages
    [World.init compacting] imageDelayed) := Run.follow_run .init _
  have hw : (Run.follow compacting FreshImages [World.init compacting] imageDelayed).all
      (fun w => decide ((w.nodes 2).incarnation = 0)) = true ∧
      (Run.follow compacting FreshImages [World.init compacting] imageDelayed).head?.map
        (fun w => (w.nodes 2).commitIndex) = some 5 := by decide +kernel
  obtain ⟨w, past, hws⟩ := hr.exists_cons
  rw [hws] at hr hw
  have hcommit := Option.some.inj hw.2
  have hinc := List.all_eq_true.mp hw.1
  refine ⟨w, past, hr, hcommit, ?_⟩
  intro v hv
  have hv' := of_decide_eq_true (hinc v (List.mem_cons_of_mem _ hv))
  have hw' := of_decide_eq_true (hinc w List.mem_cons_self)
  rw [← hcommit]
  exact ((commit_index_monotone rfl).1 w past hr v hv 2 (by decide) (hv'.trans hw'.symm)).1

end RaftVerified
