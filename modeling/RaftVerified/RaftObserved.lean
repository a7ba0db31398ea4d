import RaftVerified.RaftApplying
import RaftVerified.RaftChecking

/-! The checker sees everything that is applied until a node compacts its log, and misses
what the first compaction folds away. -/
namespace RaftVerified
open Consensus InvariantChecker

variable {c : Setup} {w w' : World} {e : Event} {i j : NodeId} {n m : RaftNode}
  {ck ck' : InvariantChecker} {s s' : Watched} {ss past : List Watched}
  {as : List Application} {x y : Exec}

/-- No image is under way. -/
def NoImages (w : World) : Prop := ∀ p ∈ w.sent, ∀ m, p.msg ≠ .installSnapshot m

/-! ### One simulator step -/

/-- What a simulator step does to a node that has not compacted yet, and what it applies
there. -/
inductive NodeStep (i : NodeId) (n m : RaftNode) (as : List Application) : Prop
  | quiet (hp : m.progress = n.progress) (ha : as = [])
  | crashed (hu : Unfolded m) (hc : m.commitIndex = 0) (hl : m.lastApplied = 0)
      (hi : m.incarnation = n.incarnation+1) (hf : m.config = n.config) (ha : as = [])
  | assigned (hu : Unfolded m) (hl : m.lastApplied = n.lastApplied)
      (hi : m.incarnation = n.incarnation) (hf : m.config = n.config) (ha : as = [])
  | advanced (es : List Entry) (y : Exec) (hy : y.node = m) (h : Advanced ⟨n, []⟩ y es)
      (ha : as = applications i n y)

theorem applications_nil (h : applies y.calls = []) : applications i n y = [] := by
  rw [applications, h]
  rfl

theorem applications_node {a : Application} (h : a ∈ applications i n y) : a.node = i := by
  obtain ⟨p, -, rfl⟩ := List.mem_map.mp h
  rfl

theorem effect_step (h : Effect ⟨n, []⟩ y) : NodeStep i n y.node (applications i n y) := by
  cases h with
  | serves hs =>
    obtain ⟨cs, hcs, hall⟩ := hs.calls
    refine .quiet hs.progress (applications_nil ?_)
    rw [hcs]
    exact applies_of_plain hall
  | assigned ha =>
    exact .assigned ha.unfolded ha.last ha.incarnation ha.config (applications_nil ha.calls)
  | advanced es ha => exact .advanced es y rfl ha rfl

theorem effect_images (h : Effect ⟨n, []⟩ y) (hu : Unfolded n) :
    ∀ p ∈ sends i y.calls, ∀ msg, p.msg ≠ .installSnapshot msg := by
  intro p hp msg hmsg
  have hcall := mem_sends hp
  rw [hmsg] at hcall
  cases h with
  | serves hs =>
    obtain ⟨cs, hcs, hall⟩ := hs.calls
    rw [hcs] at hcall
    exact plain_images hall hu.snapshot hcall
  | assigned ha => cases ha.images _ _ hcall
  | advanced es ha => cases ha.images _ _ hcall

/-- Every node has come through without compacting so far. -/
structure Intact (c : Setup) (w : World) : Prop where
  unfolded : ∀ i ∈ c.ids, Unfolded (w.nodes i)
  le : ∀ i ∈ c.ids, (w.nodes i).lastApplied ≤ (w.nodes i).commitIndex
  images : NoImages w

theorem event_step (h : Intact c w) (hs : w.step c e = .ok w') : NoImages w' ∧
    (∀ i, NodeStep i (w.nodes i) (w'.nodes i)
      ((w.applications c e).filter (·.node = i))) := by
  unfold World.step at hs
  unfold World.applications
  cases ht : w.target e with
  | none =>
    rw [ht] at hs
    obtain rfl := Except.ok.inj hs
    exact ⟨h.images, fun i => .quiet rfl rfl⟩
  | some j =>
    rw [ht] at hs
    dsimp only at hs ⊢
    split at hs
    next hj =>
      obtain ⟨y, hy, hs⟩ := bind_ok.mp hs
      obtain rfl := Except.ok.inj hs
      simp only [hj, if_true, hy]
      have hself : (applications j (w.nodes j) y).filter (·.node = j) =
          applications j (w.nodes j) y :=
        List.filter_eq_self.mpr fun a ha => decide_eq_true (applications_node ha)
      have hother : ∀ i, i ≠ j → (applications j (w.nodes j) y).filter (·.node = i) = [] := by
        intro i hij
        refine List.filter_eq_nil_iff.mpr fun a ha heq => hij ?_
        exact (of_decide_eq_true heq).symm.trans (applications_node ha)
      -- a pause wipes the volatile state, any other callback only advances it
      have hnode : NodeStep j (w.nodes j) y.node (applications j (w.nodes j) y) ∧
          ∀ p ∈ sends j y.calls, ∀ msg, p.msg ≠ .installSnapshot msg := by
        by_cases hp : ∃ k, e = .pause k
        · obtain ⟨k, rfl⟩ := hp
          obtain rfl := Except.ok.inj hy
          obtain ⟨hu, hc, hl, hi, hf⟩ := pause_unfolded (h.unfolded j hj)
          exact ⟨.crashed hu hc hl hi hf rfl, nofun⟩
        · push Not at hp
          have heff := callback_effect (h.unfolded j hj) (h.le j hj) h.images hp hy
          exact ⟨effect_step heff, effect_images heff (h.unfolded j hj)⟩
      refine ⟨?_, fun i => ?_⟩
      · intro p hp
        rcases List.mem_append.mp hp with hp | hp
        · exact h.images p hp
        · exact hnode.2 p hp
      · by_cases hij : i = j
        · subst hij
          rw [World.put_nodes_self, hself]
          exact hnode.1
        · rw [World.put_nodes_ne w y hij, hother i hij]
          exact .quiet rfl rfl
    next hj =>
      obtain rfl := Except.ok.inj hs
      simp only [hj, if_false]
      exact ⟨h.images, fun i => .quiet rfl rfl⟩

theorem applications_mem {a : Application} (h : a ∈ w.applications c e) : a.node ∈ c.ids := by
  unfold World.applications at h
  split at h
  · cases h
  · split at h
    next hj =>
      split at h
      · rw [applications_node h]
        exact hj
      · cases h
    · cases h

/-- Proposing a configuration applies nothing. -/
theorem changeConfig_step {vs : List NodeId} (h : Intact c w)
    (hs : w.step c (.changeConfig j vs) = .ok w') : NoImages w' ∧
      (∀ i, (w'.nodes i).progress = (w.nodes i).progress) ∧
      w.applications c (.changeConfig j vs) = [] := by
  have himg := (event_step h hs).1
  unfold World.step World.target at hs
  unfold World.applications World.target
  dsimp only at hs ⊢
  split at hs
  next hj =>
    obtain ⟨y, hy, hs⟩ := bind_ok.mp hs
    obtain rfl := Except.ok.inj hs
    obtain ⟨b, hq⟩ := map_fst_ok hy
    have hq := Exec.changeConfig_quiet hq
    rw [if_pos hj, hy]
    refine ⟨himg, fun i => ?_, applications_nil hq.applies⟩
    by_cases hij : i = j
    · subst hij
      rw [World.put_nodes_self]
      exact hq.progress
    · rw [World.put_nodes_ne w y hij]
  next hj =>
    obtain rfl := Except.ok.inj hs
    rw [if_neg hj]
    exact ⟨himg, fun _ => rfl, rfl⟩

theorem Intact.congr (h : Intact c w) (hi : NoImages w')
    (hp : ∀ i, (w'.nodes i).progress = (w.nodes i).progress) : Intact c w' := by
  refine ⟨fun i hmem => (h.unfolded i hmem).congr (hp i), fun i hmem => ?_, hi⟩
  have hq := hp i
  simp only [RaftNode.progress, Prod.mk.injEq] at hq
  rw [hq.2.2.1, hq.2.2.2.1]
  exact h.le i hmem

theorem membership_step {es : List Event} (hall : ∀ e ∈ es, ∃ i vs, e = .changeConfig i vs)
    {r : World × List Application} (h : Intact c w) (hr : runCallbacks c w es = .ok r) :
    NoImages r.1 ∧ (∀ i, (r.1.nodes i).progress = (w.nodes i).progress) ∧ r.2 = [] := by
  induction es generalizing w r with
  | nil =>
    obtain rfl := Except.ok.inj hr
    exact ⟨h.images, fun _ => rfl, rfl⟩
  | cons e es ih =>
    obtain ⟨w', hs, hr⟩ := bind_ok.mp hr
    obtain ⟨r', hr', hr⟩ := bind_ok.mp hr
    obtain rfl := Except.ok.inj hr
    obtain ⟨j, vs, rfl⟩ := hall e List.mem_cons_self
    obtain ⟨himg, hp, happ⟩ := changeConfig_step h hs
    obtain ⟨himg', hp', happ'⟩ := ih (fun e he => hall e (List.mem_cons_of_mem _ he))
      (h.congr himg hp) hr'
    refine ⟨himg', fun i => (hp' i).trans (hp i), ?_⟩
    change w.applications c _ ++ r'.2 = []
    rw [happ, happ']
    rfl

theorem sim_step {es : List Event} (hes : SimStep es) {r : World × List Application}
    (h : Intact c w) (hr : runCallbacks c w es = .ok r) : NoImages r.1 ∧
      (∀ i, NodeStep i (w.nodes i) (r.1.nodes i) (r.2.filter (·.node = i))) ∧
      ∀ a ∈ r.2, a.node ∈ c.ids := by
  rcases hes with hlen | hall
  · match es, hlen with
    | [], _ =>
      obtain rfl := Except.ok.inj hr
      exact ⟨h.images, fun i => .quiet rfl rfl, nofun⟩
    | [e], _ =>
      obtain ⟨w', hs, hr⟩ := bind_ok.mp hr
      obtain rfl := Except.ok.inj hr
      obtain ⟨himg, hnode⟩ := event_step h hs
      refine ⟨himg, ?_, ?_⟩
      · intro i
        change NodeStep i _ _ ((w.applications c e ++ []).filter _)
        rw [List.append_nil]
        exact hnode i
      · intro a ha
        change a ∈ w.applications c e ++ [] at ha
        rw [List.append_nil] at ha
        exact applications_mem ha
  -- membership callbacks run together, and none of them applies anything
  · obtain ⟨himg, hp, happ⟩ := membership_step hall h hr
    rw [happ]
    exact ⟨himg, fun i => .quiet (hp i) rfl, nofun⟩

/-! ### The cursors of the checker -/

/-- The checker knows exactly how far the node has come. -/
structure Tracked (c : Setup) (ck : InvariantChecker) (i : NodeId) (n : RaftNode) : Prop where
  unfolded : Unfolded n
  config : n.config = c.config
  le : n.lastApplied ≤ n.commitIndex
  prev : (ck.prevCommit.lookup i).getD 0 = n.commitIndex
  seen : (ck.appliedSeen.lookup i).getD 0 = n.lastApplied
  incarnation : ck.incarnation.lookup i = some n.incarnation ∨
    (ck.incarnation.lookup i = none ∧ n.commitIndex = 0)
  below : c.config.snapshotThreshold ≤ 0 ∨ (n.lastApplied : ℤ) < c.config.snapshotThreshold

theorem Unfolded.top (h : Unfolded n) : n.baseIndex+n.applied.length = n.lastApplied := by
  rw [h.base, h.applied, Nat.zero_add]

theorem Tracked.not_restarted (h : Tracked c ck i n) (hi : m.incarnation = n.incarnation) :
    ck.observedUpTo i m = n.commitIndex ∧ ck.comparedUpTo i m = n.lastApplied := by
  have hnot : ¬ ck.Restarted i m := by
    rintro ⟨hne, hne'⟩
    rcases h.incarnation with heq | ⟨heq, -⟩
    · rw [hi] at hne'
      exact hne' heq
    · exact hne heq
  rw [observedUpTo, comparedUpTo, if_neg hnot, if_neg hnot]
  exact ⟨h.prev, h.seen⟩

/-- After a check the cursors stand where the node stands. -/
theorem tracked_of_checked (hu : Unfolded m) (hf : m.config = c.config)
    (hle : m.lastApplied ≤ m.commitIndex) (hk : Checked ck ck' i m)
    (hs : ck.comparedUpTo i m ≤ m.lastApplied)
    (hb : c.config.snapshotThreshold ≤ 0 ∨
      (m.lastApplied : ℤ) < c.config.snapshotThreshold) : Tracked c ck' i m where
  unfolded := hu
  config := hf
  le := hle
  prev := by rw [hk.prev, Option.getD_some]
  seen := by rw [hk.seen, hu.top, Option.getD_some, max_eq_right hs]
  incarnation := Or.inl hk.incarnation
  below := hb

/-- The first compaction: what the callback has applied last is folded away before the
check. -/
def FoldsLast (c : Setup) (m : RaftNode) (as : List Application) : Prop :=
  0 < c.config.snapshotThreshold ∧ c.config.snapshotThreshold ≤ m.lastApplied ∧
    m.baseIndex = m.lastApplied ∧ m.applied = [] ∧ ∃ a ∈ as, a.index = m.lastApplied

/-- What has just been applied is in the books. -/
def Seen (ck : InvariantChecker) (a : Application) : Prop :=
  ck.appliedAt.lookup a.index = some a.command ∧
    (a.moved = true → ∃ entry term, a.entry = some entry ∧
      ck.committed.lookup a.index = some (entry, term))

theorem advanced_seen {es : List Entry} (hn : Unfolded n) (hm : Unfolded y.node)
    (ha : Advanced ⟨n, []⟩ y es)
    (happ : y.node.applied = n.applied ++ es.map Entry.command) (ht : Tracked c ck i n)
    (hk : Checked ck ck' i y.node) : ∀ a ∈ applications i n y, Seen ck' a := by
  intro a hmem
  obtain ⟨p, hp, rfl⟩ := List.mem_map.mp hmem
  rw [ha.calls] at hp
  obtain ⟨k, e, he, rfl⟩ := mem_numbered hp
  have hlt := length_lt_of_getElem? he
  have hlast : y.node.lastApplied = n.lastApplied+es.length := ha.last
  have hlogical : y.node.logical[n.lastApplied+k]? = some e := ha.entries k e he
  obtain ⟨hobs, hcmp⟩ := ht.not_restarted (m := y.node) ha.incarnation
  have hidx : n.lastApplied+1+k = n.lastApplied+k+1 := by omega
  change Seen ck' ⟨i, n.lastApplied+1+k, e.command, y.node.logical[n.lastApplied+1+k-1]?, _⟩
  rw [hidx, Nat.add_sub_cancel]
  constructor
  · obtain ⟨cmd, hcmd, hbook⟩ := hk.told (n.lastApplied+k+1) (by omega) (by rw [hm.base]; omega)
      (by rw [hm.top]; omega)
    -- nothing is folded away, so the index is the position
    have hphys : ((n.lastApplied+k+1 : ℕ) : ℤ)-y.node.baseIndex-1 = (n.lastApplied+k : ℕ) := by
      rw [hm.base]
      omega
    rw [hphys, pyGet_eq_ok, happ, List.getElem?_append_right (by rw [hn.applied]; omega),
      hn.applied, Nat.add_sub_cancel_left, List.getElem?_map, he] at hcmd
    rw [hbook, ← hcmd]
    rfl
  · intro hmoved
    obtain ⟨h1, h2⟩ := of_decide_eq_true hmoved
    obtain ⟨entry, term, hentry, hbook⟩ := hk.noted (n.lastApplied+k+1) (by omega)
      (by rw [hm.base]; omega) h2
    rw [hm.entryAt, ← hm.logical, hlogical] at hentry
    exact ⟨e, term, hlogical, Option.some.inj hentry ▸ hbook⟩

theorem node_checked (ht : Tracked c ck i n) (hs : NodeStep i n m as)
    (hk : Checked ck ck' i m) :
    (Tracked c ck' i m ∧ ∀ a ∈ as, Seen ck' a) ∨ FoldsLast c m as := by
  have hn := ht.unfolded
  cases hs with
  | quiet hp ha =>
    have hm := hn.congr hp
    simp only [RaftNode.progress, Prod.mk.injEq] at hp
    obtain ⟨-, hinc, hcom, hla, -, -, -, -, hconf⟩ := hp
    have hcmp := (ht.not_restarted hinc).2
    refine Or.inl ⟨tracked_of_checked hm (hconf.trans ht.config) ?_ hk (by omega) ?_, ?_⟩
    · rw [hla, hcom]
      exact ht.le
    · rw [hla]
      exact ht.below
    · rw [ha]
      exact List.forall_mem_nil _
  | crashed hu hc hl hi hf ha =>
    have hcmp : ck.comparedUpTo i m ≤ m.lastApplied := by
      unfold comparedUpTo
      split
      · exact hu.top.le
      next hre =>
        -- a node that was never checked has come nowhere
        rcases ht.incarnation with heq | ⟨-, hz⟩
        · refine absurd ⟨?_, ?_⟩ hre
          · rw [heq]
            exact Option.some_ne_none _
          · rw [heq, hi]
            intro heq'
            have := Option.some.inj heq'
            omega
        · have := ht.le
          rw [ht.seen]
          omega
    refine Or.inl ⟨tracked_of_checked hu (hf.trans ht.config) (by omega) hk hcmp ?_, ?_⟩
    · rw [hl]
      have := ht.below
      omega
    · rw [ha]
      exact List.forall_mem_nil _
  | assigned hu hl hi hf ha =>
    obtain ⟨hobs, hcmp⟩ := ht.not_restarted hi
    have hmono := hk.monotone
    have hle := ht.le
    refine Or.inl ⟨tracked_of_checked hu (hf.trans ht.config) (by omega) hk (by omega) ?_, ?_⟩
    · rw [hl]
      exact ht.below
    · rw [ha]
      exact List.forall_mem_nil _
  | advanced es y hy h ha =>
    subst hy
    obtain ⟨hobs, hcmp⟩ := ht.not_restarted (m := y.node) h.incarnation
    have hconf : y.node.config = c.config := h.config.trans ht.config
    have hlast : y.node.lastApplied = n.lastApplied+es.length := h.last
    rcases h.after with ⟨hu, happ, hth⟩ | ⟨hpos, hth, hbase, happ⟩
    · refine Or.inl ⟨tracked_of_checked hu hconf h.settled.le hk (by omega) ?_, ?_⟩
      · rw [← hconf]
        exact hth
      · rw [ha]
        exact advanced_seen hn hu h happ ht hk
    · have hcom : n.commitIndex < y.node.commitIndex := h.commit
      have hset := h.settled
      have hle := ht.le
      have hlen : es.length-1 < es.length := by omega
      have hget := List.getElem?_eq_getElem hlen
      have hnum : (n.lastApplied+1+(es.length-1), es[es.length-1].command) ∈
          numbered (n.lastApplied+1) es := numbered_mem hget
      have hidx : n.lastApplied+1+(es.length-1) = y.node.lastApplied := by omega
      refine Or.inr ⟨hconf ▸ hpos, hconf ▸ hth, hbase, happ, ?_⟩
      rw [ha]
      refine ⟨_, List.mem_map.mpr
        ⟨(n.lastApplied+1+(es.length-1), es[es.length-1].command), ?_, rfl⟩, hidx⟩
      rw [h.calls]
      exact hnum

/-! ### Whole runs -/

/-- A state before the first compaction: all cursors are right, and everything is in the
books. -/
structure Good (c : Setup) (s : Watched) : Prop where
  tracked : ∀ i ∈ c.ids, Tracked c s.checker i (s.world.nodes i)
  images : NoImages s.world
  keys : ∀ k, s.checker.appliedAt.lookup k ≠ none →
    c.config.snapshotThreshold ≤ 0 ∨ (k : ℤ) < c.config.snapshotThreshold
  observed : s.Observed

theorem Good.intact (h : Good c s) : Intact c s.world :=
  ⟨fun i hi => (h.tracked i hi).unfolded, fun i hi => (h.tracked i hi).le, h.images⟩

theorem good_init (c : Setup) (seed : ℤ) (replayHint : Str) :
    Good c (Watched.init c seed replayHint) where
  tracked _ _ :=
    { unfolded := ⟨rfl, rfl, rfl, rfl⟩
      config := rfl
      le := le_rfl
      prev := rfl
      seen := rfl
      incarnation := Or.inr ⟨rfl, rfl⟩
      below := le_or_gt c.config.snapshotThreshold 0 }
  images := nofun
  keys _ hk := absurd rfl hk
  observed := nofun

theorem Seen.keeps {a : Application} (h : Seen ck a) (hc : Keeps ck.committed ck'.committed)
    (ha : Keeps ck.appliedAt ck'.appliedAt) : Seen ck' a := by
  refine ⟨ha _ _ h.1, fun hm => ?_⟩
  obtain ⟨entry, term, he, hb⟩ := h.2 hm
  exact ⟨entry, term, he, hc _ _ hb⟩

/-- A step leads to such a state again, or it is the first to compact and hides something. -/
theorem good_step {es : List Event} (hg : Good c s) (hes : SimStep es)
    (hs : s.step c es = .ok s') :
    Good c s' ∨ ((∃ i ∈ c.ids, (s'.world.nodes i).baseIndex ≠ 0) ∧ ¬ s'.Observed) := by
  obtain ⟨r, hr, hs⟩ := bind_ok.mp hs
  obtain ⟨ck', hck, hs⟩ := bind_ok.mp hs
  obtain rfl := Except.ok.inj hs
  have hr := raises_ok.mp hr
  obtain ⟨himg, hnode, hmem⟩ := sim_step hes hg.intact hr
  obtain ⟨hchecked, hkc, hka, hnew⟩ := check_checked c.ids_nodup hck
  have hcase : ∀ i ∈ c.ids, (Tracked c ck' i (r.1.nodes i) ∧
      ∀ a ∈ r.2.filter (·.node = i), Seen ck' a) ∨
      FoldsLast c (r.1.nodes i) (r.2.filter (·.node = i)) :=
    fun i hi => node_checked (hg.tracked i hi) (hnode i) (hchecked i hi)
  -- indices that are still compared lie below the threshold
  have hlive : 0 < c.config.snapshotThreshold → ∀ i ∈ c.ids, ∀ k ∈ liveApplied (r.1.nodes i),
      (k : ℤ) < c.config.snapshotThreshold := by
    intro hpos i hi k hk
    rcases hcase i hi with ⟨ht, -⟩ | ⟨-, -, hb, happ, -⟩
    · have htop := ht.unfolded.top
      have hbelow := ht.below
      have hle := hk.2
      omega
    · have hlow := hk.1
      have hhigh := hk.2
      rw [happ, List.length_nil] at hhigh
      omega
  have hkeys : 0 < c.config.snapshotThreshold → ∀ k, ck'.appliedAt.lookup k ≠ none →
      (k : ℤ) < c.config.snapshotThreshold := by
    intro hpos k hk
    rcases hnew k hk with hold | ⟨i, hi, hl⟩
    · have := hg.keys k hold
      omega
    · exact hlive hpos i hi k hl
  by_cases hfold : ∃ i ∈ c.ids, FoldsLast c (r.1.nodes i) (r.2.filter (·.node = i))
  · obtain ⟨i, hi, hpos, hth, hb, -, a, ha, hidx⟩ := hfold
    refine Or.inr ⟨⟨i, hi, ?_⟩, fun hobs => ?_⟩
    · rw [hb]
      omega
    · have hin : a ∈ s.history ++ r.2 :=
        List.mem_append_right _ (List.mem_of_mem_filter ha)
      have hbook := (hobs a hin).1
      have hlt := hkeys hpos a.index (by rw [hbook]; exact Option.some_ne_none _)
      omega
  · refine Or.inl ⟨fun i hi => ?_, himg, fun k hk => ?_, ?_⟩
    · exact ((hcase i hi).resolve_right fun h => hfold ⟨i, hi, h⟩).1
    · rcases lt_or_ge 0 c.config.snapshotThreshold with hpos | hneg
      · exact Or.inr (hkeys hpos k hk)
      · exact Or.inl hneg
    · intro a ha
      rcases List.mem_append.mp ha with ha | ha
      · exact Seen.keeps (hg.observed a ha) hkc hka
      · have hi := hmem a ha
        refine ((hcase a.node hi).resolve_right fun h => hfold ⟨a.node, hi, h⟩).2 a ?_
        exact List.mem_filter.mpr ⟨ha, decide_eq_true rfl⟩

theorem run_good (hr : Watched.Run c ss) (h : ∀ s ∈ ss, s.Observed ∨
    ∀ i ∈ c.ids, (s.world.nodes i).baseIndex = 0) : ∀ s ∈ ss, Good c s := by
  induction hr with
  | init seed replayHint =>
    intro s hs
    obtain rfl := List.mem_singleton.mp hs
    exact good_init c seed replayHint
  | @step s s' past es _ hes hstep ih =>
    have ih := ih fun t ht => h t (List.mem_cons_of_mem _ ht)
    intro t ht
    rcases List.mem_cons.mp ht with rfl | ht
    · refine (good_step (ih s List.mem_cons_self) hes hstep).resolve_right ?_
      rintro ⟨⟨i, hi, hne⟩, hnot⟩
      rcases h t List.mem_cons_self with hobs | hbase
      · exact hnot hobs
      · exact hne (hbase i hi)
    · exact ih t ht

/-- In all states of a run the checker has everything in its books, and so no two nodes
have applied or committed different things at one index, exactly when no node of the run
ever compacts its log. -/
theorem observed_iff_never_compacted (hr : Watched.Run c ss) :
    (∀ s ∈ ss, s.Observed ∧ s.Consistent) ↔
      ∀ s ∈ ss, ∀ i ∈ c.ids, (s.world.nodes i).baseIndex = 0 := by
  constructor
  · intro h s hs i hi
    have hgood := run_good hr (fun t ht => Or.inl (h t ht).1) s hs
    exact (hgood.tracked i hi).unfolded.base
  · intro h s hs
    have hobs := (run_good hr (fun t ht => Or.inr (h t ht)) s hs).observed
    exact ⟨hobs, hobs.consistent⟩

def compactsAtOnce : Setup := { numNodes := 3, config := { snapshotThreshold := 1 } }

/-- Node 1 is elected and commits the first client command. -/
def firstCommit : List Event :=
  [.electionTimeout 1 1, .deliver 0, .deliver 2, .clientCommand 1 "0:0:put:k0:v0:".toList,
    .deliver 5, .deliver 6, .deliver 7]

theorem first_commit_unobserved : ¬ ∀ ss, Watched.Run compactsAtOnce ss →
    ∀ s ∈ ss, s.Observed := by
  intro hall
  have hr : Watched.Run compactsAtOnce (Watched.follow compactsAtOnce
    [Watched.init compactsAtOnce 0 []] firstCommit) := Watched.follow_run (.init 0 []) _
  have hs : (Watched.follow compactsAtOnce [Watched.init compactsAtOnce 0 []]
      firstCommit).head?.map (fun s => (s.history.map Application.index,
        (s.checker.committed.lookup 1).isSome, (s.checker.appliedAt.lookup 1).isSome)) =
      some ([1], false, false) := by decide +kernel
  obtain ⟨s, hs, heq⟩ := Option.map_eq_some_iff.mp hs
  simp only [Prod.mk.injEq] at heq
  obtain ⟨hidx, -, hbook⟩ := heq
  have hobs := hall _ hr s (List.mem_of_mem_head? hs)
  obtain ⟨a, ha, hone⟩ : ∃ a ∈ s.history, a.index = 1 := by
    have hmem : 1 ∈ s.history.map Application.index := by
      rw [hidx]
      exact List.mem_singleton_self 1
    exact List.mem_map.mp hmem
  have hlook := (hobs a ha).1
  rw [hone] at hlook
  rw [hlook] at hbook
  cases hbook

def compactsLater : Setup := { numNodes := 3, config := { snapshotThreshold := 2 } }

theorem first_commit_observed : ∃ s past, Watched.Run compactsLater (s :: past) ∧
    s.history.map Application.index = [1] ∧ s.Observed := by
  have hr : Watched.Run compactsLater (Watched.follow compactsLater
    [Watched.init compactsLater 0 []] firstCommit) := Watched.follow_run (.init 0 []) _
  have hs : (Watched.follow compactsLater [Watched.init compactsLater 0 []]
      firstCommit).head?.map (fun s => s.history.map Application.index) = some [1] := by
    decide +kernel
  have hb : (Watched.follow compactsLater [Watched.init compactsLater 0 []] firstCommit).all
      (fun s => compactsLater.ids.all fun i => (s.world.nodes i).baseIndex == 0) = true := by
    decide +kernel
  generalize Watched.follow compactsLater [Watched.init compactsLater 0 []] firstCommit = ss
    at hr hs hb
  cases ss with
  | nil => cases hs
  | cons s past =>
    refine ⟨s, past, hr, Option.some.inj hs, ?_⟩
    have hbase : ∀ t ∈ s :: past, ∀ i ∈ compactsLater.ids, (t.world.nodes i).baseIndex = 0 := by
      intro t ht i hi
      exact beq_iff_eq.mp (List.all_eq_true.mp (List.all_eq_true.mp hb t ht) i hi)
    exact (((observed_iff_never_compacted hr).mpr hbase) s List.mem_cons_self).1

end RaftVerified
