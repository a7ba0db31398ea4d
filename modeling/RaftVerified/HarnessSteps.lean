import RaftVerified.HarnessEffects
import RaftVerified.NetworkPartition

/-! What one step of the simulator can do to a cluster. -/
namespace RaftVerified

theorem le_foldl_max (xs : List ℤ) (a : ℤ) : a ≤ xs.foldl max a ∧ ∀ x ∈ xs, x ≤ xs.foldl max a := by
  induction xs generalizing a with
  | nil => exact ⟨le_rfl, fun x hx => by cases hx⟩
  | cons y ys ih =>
    obtain ⟨hle, hall⟩ := ih (max a y)
    refine ⟨(le_max_left a y).trans hle, fun x hx => ?_⟩
    rcases List.mem_cons.mp hx with rfl | hx
    · exact (le_max_right a x).trans hle
    · exact hall x hx

theorem Dict.erase_of_notMem {K V : Type} [DecidableEq K] {d : Dict K V} {k : K} (h : k ∉ d) :
    d.erase k = d := by
  refine Finmap.ext_lookup fun j => ?_
  by_cases hj : j = k
  · subst hj
    rw [Finmap.lookup_erase, Finmap.lookup_eq_none.mpr h]
  · exact Finmap.lookup_erase_ne hj

/-- The faults are about the given nodes. -/
structure Network.Knows (net : Network) (ids : List NodeId) : Prop where
  nodeIds : net.nodeIds = ids
  group : ∀ i, i ∈ net.group ↔ i ∈ ids
  crashed : ∀ i ∈ net.crashed, i ∈ ids

namespace Network.Knows
variable {net net' : Network} {ids : List NodeId} {i : NodeId}

theorem init (hs : sorted ids = ids) : (Network.init ids).Knows ids where
  nodeIds := hs
  group i := by
    unfold Network.init
    rw [hs, ← Finmap.lookup_isSome, Dict.lookup_fromKeys]
    by_cases hi : i ∈ ids
    · rw [if_pos hi]
      exact iff_of_true rfl hi
    · rw [if_neg hi]
      exact iff_of_false Bool.false_ne_true hi
  crashed i hi := absurd hi (Finset.notMem_empty i)

theorem setPartition {groups : List (List NodeId)} (h : net.Knows ids)
    (hs : net.setPartition groups = .ok net') : net'.Knows ids := by
  unfold Network.setPartition at hs
  dsimp only at hs
  split at hs
  · cases hs
  next hcover =>
    obtain rfl := Except.ok.inj hs
    refine ⟨h.nodeIds, fun i => ?_, h.crashed⟩
    dsimp only
    have hids := covers_iff.mp (not_not.mp hcover)
    rw [h.nodeIds] at hids
    rw [← Finmap.lookup_isSome]
    rcases lookup_assign net.group groups i with ⟨k, hlast, heq⟩ | ⟨-, heq⟩
    · rw [heq]
      obtain ⟨g, hg, hi⟩ := hlast.lists
      exact iff_of_true rfl ((hids i).mp ⟨g, List.mem_of_getElem? hg, hi⟩)
    · rw [heq, Finmap.lookup_isSome]
      exact h.group i

theorem heal (h : net.Knows ids) : net.heal.Knows ids where
  nodeIds := h.nodeIds
  group i := by
    unfold Network.heal
    rw [← Finmap.lookup_isSome, lookup_foldl_insert, h.nodeIds]
    by_cases hi : i ∈ ids
    · rw [if_pos hi]
      exact iff_of_true rfl hi
    · rw [if_neg hi, Finmap.lookup_isSome]
      exact h.group i
  crashed := h.crashed

theorem crash (h : net.Knows ids) (hi : i ∈ ids) :
    ({ net with crashed := insert i net.crashed } : Network).Knows ids where
  nodeIds := h.nodeIds
  group := h.group
  crashed j hj := by
    rcases Finset.mem_insert.mp hj with rfl | hj
    · exact hi
    · exact h.crashed j hj

theorem erase (h : net.Knows ids) :
    ({ net with crashed := net.crashed.erase i } : Network).Knows ids :=
  ⟨h.nodeIds, h.group, fun j hj => h.crashed j (Finset.mem_of_mem_erase hj)⟩

end Network.Knows

namespace HarnessSetup
variable {c : HarnessSetup} {i : NodeId} {op : NemesisOp}

theorem mem_ids : i ∈ c.ids ↔ 0 ≤ i ∧ i < c.numNodes := by
  unfold Setup.ids
  rw [List.mem_map]
  constructor
  · rintro ⟨n, hn, rfl⟩
    have hlt := List.mem_range.mp hn
    exact ⟨Int.natCast_nonneg n, Int.ofNat_lt.mpr hlt⟩
  · rintro ⟨hlo, hhi⟩
    exact ⟨i.toNat, List.mem_range.mpr ((Int.toNat_lt hlo).mpr hhi), Int.toNat_of_nonneg hlo⟩

theorem ids_nodup (c : HarnessSetup) : c.ids.Nodup :=
  List.nodup_range.map fun _ _ h => Int.ofNat.inj h

theorem length_ids (c : HarnessSetup) : c.ids.length = c.numNodes := by
  unfold Setup.ids
  rw [List.length_map, List.length_range]

/-- Whether the fault schedule has an injection of the pattern. -/
def Injects (c : HarnessSetup) (op : NemesisOp) : Prop := ∃ t, (⟨t, op⟩ : Injection) ∈ c.injections

theorem Injects.mem (h : c.Injects op) : ∃ s ∈ c.nemesis, op ∈ s.ops := by
  obtain ⟨t, ht⟩ := h
  unfold injections at ht
  cases hs : c.nemesis with
  | none =>
    rw [hs] at ht
    cases ht
  | some s =>
    rw [hs] at ht
    have ht : ⟨t, op⟩ ∈ s.injections := ht
    refine ⟨s, rfl, ?_⟩
    obtain ⟨op', hop', hmem⟩ := List.mem_flatMap.mp ((List.mem_insertionSort _).mp ht)
    cases op' with
    | flappingLink a b u period cycles =>
      obtain ⟨k, -, heq⟩ := List.mem_map.mp hmem
      cases heq
      exact hop'
    | _ =>
      cases List.mem_singleton.mp hmem
      exact hop'

theorem Injects.valid (h : c.Injects op) : op.Valid := by
  obtain ⟨s, -, hmem⟩ := h.mem
  exact s.valid op hmem

theorem Injects.named (h : c.Injects op) (hi : i ∈ op.named) (h0 : 0 ≤ i) : i ∈ c.ids := by
  obtain ⟨s, hs, hmem⟩ := h.mem
  have hlt : s.maxNode < c.numNodes := c.known s hs
  have hle : i ≤ s.maxNode := (le_foldl_max _ _).2 i (List.mem_flatMap.mpr ⟨op, hmem, hi⟩)
  exact mem_ids.mpr ⟨h0, hle.trans_lt hlt⟩

end HarnessSetup

/-- What a job of the cluster can be. -/
def Job.Wired (c : HarnessSetup) : Job → Prop
  | .timer i _ => i ∈ c.ids
  | .maybeResume i => i ∈ c.ids
  | .nemesisFire op => c.Injects op
  | .membershipTick => c.membership = true
  | .clientTick => c.clientInterval.getD 0 ≠ 0
  | .faultTick => (c.profile.partitions || c.profile.crashes) = true
  | .healPartition => ∃ op, c.Injects op
  | .linkUp _ _ => ∃ op, c.Injects op
  | .clearLossyLink _ _ => ∃ op, c.Injects op

/-- A proposal of the membership driver: it adds the first server that is left out, or takes one
that is not the leader out of a full set. -/
inductive Proposes (c : HarnessSetup) (leader : RaftNode) : List NodeId → Prop
  | adds {spare : NodeId} : spare ∈ c.ids → spare ∉ leader.voters →
      Proposes c leader (sorted (leader.voters ++ [spare]))
  | removes {victim : NodeId} : (∀ i ∈ c.ids, i ∈ leader.voters) → victim ∈ c.ids →
      victim ≠ leader.id → Proposes c leader (leader.voters.filter (· ≠ victim))

/-- What is up in a step of the simulator. -/
inductive Turn
  | arrival (k : ℕ)
  | loss
  | job (job : Job)

def Turn.job? : Turn → Option Job
  | .arrival _ => none
  | .loss => none
  | .job j => some j

theorem Turn.eq_of_mem {turn : Turn} {job : Job} (h : job ∈ turn.job?.toList) :
    turn = .job job := by
  cases turn with
  | arrival k => cases h
  | loss => cases h
  | job j => rw [List.mem_singleton.mp h]

namespace Harness
variable {σ : Type} {D : Platform σ} {c : HarnessSetup} {h h' h'' : Harness σ} {i : NodeId}

/-- The callbacks, the new jobs and the faults of what is up. -/
inductive Fires (c : HarnessSetup) (h : Harness σ) :
    Turn → Runs → List (ℤ × Job) → Network → Prop
  | arrival {k : ℕ} : k < h.net.letters.length →
      Fires c h (.arrival k) (·.perform c.toServiceSetup (.deliver k)) [] h.faults
  | loss : Fires c h .loss .ok [] h.faults
  | electionTimeout {i : NodeId} {seq : ℕ} : i ∈ c.ids →
      Fires c h (.job (.timer i (.electionTimeout seq)))
        (·.perform c.toServiceSetup (.electionTimeout i seq)) [] h.faults
  | heartbeat {i : NodeId} {seq : ℕ} : i ∈ c.ids →
      Fires c h (.job (.timer i (.heartbeat seq)))
        (·.perform c.toServiceSetup (.heartbeat i seq)) [] h.faults
  | client {target : NodeId} : target ∈ c.ids →
      Fires c h (.job .clientTick) (·.clientTick c.toServiceSetup target)
        [(h.now+c.interval, .clientTick)] h.faults
  | fault {net faults : Network} {run : Runs} {jobs : List (ℤ × Job)} : Reparts c h.faults net →
      Crashes c h.nodes h.now net run jobs faults →
      Fires c h (.job .faultTick) run ((h.now+FAULT_INTERVAL, .faultTick) :: jobs) faults
  | membership {es : List Event} : List.Forall₂ (fun i e => ∃ vs,
        e = .changeConfig i vs ∧ Proposes c (h.nodes i) vs) (h.leaders c) es →
      Fires c h (.job .membershipTick) (fun s => es.foldlM (·.perform c.toServiceSetup) s)
        [(h.now+MEMBERSHIP_INTERVAL, .membershipTick)] h.faults
  | resume {i : NodeId} : i ∈ c.ids → i ∈ h.faults.crashed →
      Fires c h (.job (.maybeResume i)) (·.perform c.toServiceSetup (.resume i)) []
        { h.faults with crashed := h.faults.crashed.erase i }
  | up {i : NodeId} : i ∉ h.faults.crashed → Fires c h (.job (.maybeResume i)) .ok [] h.faults
  | skip {op : NemesisOp} : Fires c h (.job (.nemesisFire op)) .ok [] h.faults
  | halves {t duration : ℤ} {net : Network} :
      h.faults.setPartition [c.ids.take ((c.ids.length+1)/2), c.ids.drop ((c.ids.length+1)/2)] =
        .ok net →
      Fires c h (.job (.nemesisFire (.partitionHalves t duration))) .ok
        [(h.now+duration, .healPartition)] net
  | isolate {t duration : ℤ} {victim : NodeId} {net : Network} : h.leader c = some victim →
      h.faults.setPartition [[victim], c.ids.filter (· ≠ victim)] = .ok net →
      Fires c h (.job (.nemesisFire (.isolateLeader t duration))) .ok
        [(h.now+duration, .healPartition)] net
  | flap {a b : NodeId} {t period cycles : ℤ} :
      Fires c h (.job (.nemesisFire (.flappingLink a b t period cycles))) .ok
        [(h.now+period, .linkUp a b)] (h.faults.setLinkDown a b)
  | lossy {a b : NodeId} {t duration : ℤ} {dropP : Number} :
      Fires c h (.job (.nemesisFire (.lossyLink a b t duration dropP))) .ok
        [(h.now+duration, .clearLossyLink a b)] (h.faults.setLinkLossy a b dropP.value)
  | crash {node : NodeId} {t duration : ℤ} : node ∈ c.ids → (h.nodes node).alive = true →
      Fires c h (.job (.nemesisFire (.crashNode node t duration)))
        (·.perform c.toServiceSetup (.pause node)) [(h.now+duration, .maybeResume node)]
        { h.faults with crashed := insert node h.faults.crashed }
  | heal : Fires c h (.job .healPartition) .ok [] h.faults.heal
  | linkUp {a b : NodeId} : Fires c h (.job (.linkUp a b)) .ok [] (h.faults.setLinkUp a b)
  | clear {a b : NodeId} :
      Fires c h (.job (.clearLossyLink a b)) .ok [] (h.faults.clearLinkLossy a b)

/-! ### Links -/

theorem linkDown_effect (a b : NodeId) :
    Effect c .ok [] (h.faults.setLinkDown a b) h (h.linkDown a b) := by
  unfold linkDown
  split
  next hdown =>
    have hsame : h.faults.setLinkDown a b = h.faults := by
      unfold Network.setLinkDown
      rw [Finset.insert_eq_of_mem (of_decide_eq_true hdown)]
    rw [hsame]
    exact idle_effect
  next =>
    exact (setFaults_effect _).after
      (record_effect (h := h.setFaults _) (.driver (.linkdown a b)) h.stats rfl)

theorem linkUp_effect (a b : NodeId) :
    Effect c .ok [] (h.faults.setLinkUp a b) h (h.linkUp a b) := by
  unfold linkUp
  split
  next =>
    exact (setFaults_effect _).after
      (record_effect (h := h.setFaults _) (.driver (.linkup a b)) h.stats rfl)
  next hup =>
    have hsame : h.faults.setLinkUp a b = h.faults := by
      unfold Network.setLinkUp
      rw [Finset.erase_eq_of_notMem fun hmem => hup (decide_eq_true hmem)]
    rw [hsame]
    exact idle_effect

theorem setLossyLink_effect (a b : NodeId) (dropP : Number) :
    Effect c .ok [] (h.faults.setLinkLossy a b dropP.value) h (h.setLossyLink D a b dropP) :=
  (setFaults_effect _).after (record_effect (h := h.setFaults _)
    (.driver (.lossy a b (D.json.repr dropP.toValue))) h.stats rfl)

theorem clearLossyLink_effect (a b : NodeId) :
    Effect c .ok [] (h.faults.clearLinkLossy a b) h (h.clearLossyLink a b) := by
  unfold clearLossyLink
  split
  next =>
    exact (setFaults_effect _).after
      (record_effect (h := h.setFaults _) (.driver (.lossyheal a b)) h.stats rfl)
  next hclear =>
    have hnone : link a b ∉ h.faults.lossyLinks := fun hmem => hclear (decide_eq_true hmem)
    have hsame : h.faults.clearLinkLossy a b = h.faults := by
      unfold Network.clearLinkLossy
      rw [Dict.erase_of_notMem hnone]
    rw [hsame]
    exact idle_effect

/-! ### The fault schedule -/

theorem leader_mem (hl : h.leader c = some i) : i ∈ c.ids :=
  (List.mem_filter.mp (List.argmax_mem hl)).1

/-- An injection does nothing, or its fault strikes and its recovery is scheduled. -/
theorem inject_cases {fault : Harness σ → Except Failure (Harness σ)} {delay : ℤ} {recovery : Job}
    (hs : h.inject c fault delay recovery = .ok h') :
    Effect c .ok [] h.faults h h' ∨ ∃ h₁ h₂, h₁.faults = h.faults ∧ fault h₁ = .ok h₂ ∧
      ∀ (run : Runs) (net : Network), Effect c run [] net h₁ h₂ →
        Effect c run [(h.now+delay, recovery)] net h h' := by
  have hfire := fireFault_effect (c := c) (h := h)
  unfold inject at hs
  split at hs
  next h₁ heq =>
    obtain rfl := Except.ok.inj hs
    rw [heq] at hfire
    exact Or.inl hfire
  next h₁ heq =>
    rw [heq] at hfire
    obtain ⟨h₂, h₂ok, hs⟩ := bind_ok.mp hs
    refine Or.inr ⟨h₁, h₂, hfire.faults, h₂ok, fun run net hstrike => ?_⟩
    have hsched := schedule_effect (c := c) hs
    rw [hstrike.faults, hstrike.now, hfire.now] at hsched
    exact hfire.after (hstrike.and hsched)

theorem inject_setPartition {groups : List (List NodeId)} {delay : ℤ} {recovery : Job}
    (hs : h.inject c (·.setPartition groups) delay recovery = .ok h') :
    Effect c .ok [] h.faults h h' ∨ ∃ net, h.faults.setPartition groups = .ok net ∧
      Effect c .ok [(h.now+delay, recovery)] net h h' := by
  refine (inject_cases hs).imp_right ?_
  rintro ⟨h₁, h₂, hf, h₂ok, hall⟩
  obtain ⟨net, hnet, he⟩ := setPartition_effect (c := c) h₂ok
  rw [hf] at hnet
  exact ⟨net, hnet, hall _ _ he⟩

theorem nemesisFire_effect {op : NemesisOp} (hop : c.Injects op)
    (hs : h.nemesisFire D c op = .ok h') : ∃ run jobs net,
    Fires c h (.job (.nemesisFire op)) run jobs net ∧ Effect c run jobs net h h' := by
  have hskip : Effect c .ok [] h.faults h h' → ∃ run jobs net,
      Fires c h (.job (.nemesisFire op)) run jobs net ∧ Effect c run jobs net h h' :=
    fun he => ⟨_, _, _, .skip, he⟩
  cases op with
  | partitionHalves t duration =>
    unfold nemesisFire at hs
    dsimp only at hs
    split at hs
    · obtain rfl := Except.ok.inj hs
      exact hskip (record_effect (.driver .singleNode) h.stats rfl)
    · rcases inject_setPartition hs with he | ⟨net, hnet, he⟩
      · exact hskip he
      · exact ⟨_, _, _, .halves hnet, he⟩
  | isolateLeader t duration =>
    unfold nemesisFire at hs
    dsimp only at hs
    split at hs
    · obtain rfl := Except.ok.inj hs
      exact hskip (record_effect (.driver .noLeader) h.stats rfl)
    next victim hl =>
      split at hs
      · obtain rfl := Except.ok.inj hs
        exact hskip (record_effect (.driver .noLeader) h.stats rfl)
      · rcases inject_setPartition hs with he | ⟨net, hnet, he⟩
        · exact hskip he
        · exact ⟨_, _, _, .isolate hl hnet, he⟩
  | flappingLink a b t period cycles =>
    rcases inject_cases hs with he | ⟨h₁, h₂, hf, h₂ok, hall⟩
    · exact hskip he
    · obtain rfl := Except.ok.inj h₂ok
      refine ⟨_, _, _, .flap, hall _ _ ?_⟩
      rw [← hf]
      exact linkDown_effect a b
  | lossyLink a b t duration dropP =>
    rcases inject_cases hs with he | ⟨h₁, h₂, hf, h₂ok, hall⟩
    · exact hskip he
    · obtain rfl := Except.ok.inj h₂ok
      refine ⟨_, _, _, .lossy, hall _ _ ?_⟩
      rw [← hf]
      exact setLossyLink_effect a b dropP
  | crashNode node t duration =>
    have hid : node ∈ c.ids := hop.named List.mem_cons_self hop.valid.1
    unfold nemesisFire at hs
    dsimp only at hs
    split at hs
    · obtain rfl := Except.ok.inj hs
      exact hskip (record_effect (.driver (.alreadyDown node)) h.stats rfl)
    next hup =>
      rcases inject_cases hs with he | ⟨h₁, h₂, hf, h₂ok, hall⟩
      · exact hskip he
      · refine ⟨_, _, _, .crash hid (Bool.eq_true_of_not_eq_false hup), hall _ _ ?_⟩
        rw [← hf]
        exact pause_effect hid h₂ok

/-! ### Membership churn -/

/-- The turn goes on past the leader, who is not taken out. -/
theorem proposes_proposal (hn : 2 ≤ c.numNodes) (turn : ℕ) (leader : RaftNode) :
    Proposes c leader (proposal c.ids turn leader).1 := by
  unfold proposal
  split
  next spare rest hs =>
    have hmem : spare ∈ c.ids.filter (· ∉ leader.voters) := hs ▸ List.mem_cons_self
    obtain ⟨hid, hout⟩ := List.mem_filter.mp hmem
    exact .adds hid (of_decide_eq_true hout)
  next hfull =>
    have hall : ∀ i ∈ c.ids, i ∈ leader.voters := by
      intro i hi
      by_contra hout
      have hmem : i ∈ c.ids.filter (· ∉ leader.voters) :=
        List.mem_filter.mpr ⟨hi, decide_eq_true hout⟩
      rw [hfull] at hmem
      cases hmem
    have hlen := c.length_ids
    have hget : ∀ k, ∃ hk : k % c.ids.length < c.ids.length,
        c.ids.getD (k % c.ids.length) 0 = c.ids.get ⟨k % c.ids.length, hk⟩ := by
      intro k
      have hk : k % c.ids.length < c.ids.length := Nat.mod_lt k (by omega)
      refine ⟨hk, ?_⟩
      rw [List.getD_eq_getElem?_getD, List.getElem?_eq_getElem hk]
      rfl
    dsimp only
    split
    next hleader =>
      obtain ⟨hk, hk'⟩ := hget turn
      obtain ⟨hm, hm'⟩ := hget (turn+1)
      refine .removes hall (hm' ▸ List.get_mem _ _) fun heq => ?_
      -- two turns in a row are different places of a list without duplicates
      rw [hm', ← hleader, hk'] at heq
      have hplace := congrArg Fin.val ((List.nodup_iff_injective_get.mp c.ids_nodup) heq)
      have hplace : (turn+1) % c.ids.length = turn % c.ids.length := hplace
      have hzero := Nat.sub_mod_eq_zero_of_mod_eq hplace
      rw [Nat.add_sub_cancel_left, Nat.mod_eq_of_lt (by omega)] at hzero
      cases hzero
    next hleader =>
      obtain ⟨hk, hk'⟩ := hget turn
      exact .removes hall (hk' ▸ List.get_mem _ _) hleader

theorem propose_effect (hi : i ∈ c.ids) (hn : 2 ≤ c.numNodes) (hs : h.propose D c i = .ok h') :
    ∃ vs, Proposes c (h.nodes i) vs ∧ (∀ j, j ≠ i → h'.nodes j = h.nodes j) ∧
      Effect c (·.perform c.toServiceSetup (.changeConfig i vs)) [] h.faults h h' := by
  unfold propose at hs
  dsimp only at hs
  split at hs
  next => cases hs
  next r hr =>
    obtain ⟨h₁, h₁ok, hs⟩ := bind_ok.mp hs
    obtain rfl := Except.ok.inj hs
    have hturn := turn_effect (c := c) (proposal c.ids h.memberTurn (h.nodes i)).2.1
      (le_refl h.faultSeq)
    refine ⟨_, proposes_proposal hn h.memberTurn (h.nodes i), fun j hj => ?_, ?_⟩
    · obtain ⟨y, -, hp⟩ := perform_ok h₁ok
      have hnode : h₁.nodes j = h.nodes j := by
        have hw := congrArg (fun w : World => w.nodes j) hp.world
        exact hw.trans (World.put_nodes_ne _ _ hj)
      split
      · exact hnode
      · exact hnode
    -- the answer of `change_config` moves the turn only
    · have hback : h.world.callback (h.nodes i)
          (.changeConfig i (proposal c.ids h.memberTurn (h.nodes i)).1) = .ok r.1 :=
        congrArg (Except.map Prod.fst) hr
      rw [← hback] at h₁ok
      have hcall := perform_effect (c := c) (e := .changeConfig i _) rfl hi h₁ok
      have hdone := hturn.after hcall
      split
      · have hnext := turn_effect (c := c) (h₁.memberTurn+1) (le_refl h₁.faultSeq)
        rw [hdone.faults] at hnext
        exact hdone.and hnext
      · exact hdone

theorem proposals_effect (hn : 2 ≤ c.numNodes) (is : List NodeId) (his : ∀ i ∈ is, i ∈ c.ids)
    (hnodup : is.Nodup) (hs : is.foldlM (propose D c) h = .ok h') :
    ∃ es, List.Forall₂ (fun i e => ∃ vs, e = .changeConfig i vs ∧ Proposes c (h.nodes i) vs) is es ∧
      Effect c (fun s => es.foldlM (·.perform c.toServiceSetup) s) [] h.faults h h' := by
  induction is generalizing h with
  | nil =>
    obtain rfl := Except.ok.inj hs
    exact ⟨[], .nil, idle_effect⟩
  | cons i is ih =>
    rw [List.foldlM_cons] at hs
    obtain ⟨h₁, h₁ok, hs⟩ := bind_ok.mp hs
    obtain ⟨hnot, hnodup⟩ := List.nodup_cons.mp hnodup
    obtain ⟨vs, hvs, hothers, he⟩ := propose_effect (his i List.mem_cons_self) hn h₁ok
    obtain ⟨es, hes, hrest⟩ := ih (fun j hj => his j (List.mem_cons_of_mem i hj)) hnodup hs
    -- the leaders still to come have not been touched by the first proposal
    have hes : List.Forall₂ (fun i e => ∃ vs, e = .changeConfig i vs ∧ Proposes c (h.nodes i) vs)
        is es := by
      refine (List.forall₂_iff_get.mpr ⟨hes.length_eq, fun k hk hk' => ?_⟩)
      obtain ⟨ws, heq, hws⟩ := (List.forall₂_iff_get.mp hes).2 k hk hk'
      rw [hothers _ fun heq => hnot (heq ▸ List.get_mem _ _)] at hws
      exact ⟨ws, heq, hws⟩
    rw [he.faults] at hrest
    exact ⟨.changeConfig i vs :: es, .cons ⟨vs, rfl, hvs⟩ hes, he.trans hrest⟩

theorem membershipTick_effect (hm : c.membership = true) (hs : h.membershipTick D c = .ok h') :
    ∃ run jobs net, Fires c h (.job .membershipTick) run jobs net ∧
      Effect c run jobs net h h' := by
  obtain ⟨h₁, h₁ok, hs⟩ := bind_ok.mp hs
  have hn := c.enough hm
  have hids : ∀ i ∈ h.leaders c, i ∈ c.ids := fun i hi => (List.mem_filter.mp hi).1
  obtain ⟨es, hes, he⟩ := proposals_effect (by omega) _ hids (c.ids_nodup.filter _) h₁ok
  have hsched := schedule_effect (c := c) hs
  rw [he.faults, he.now] at hsched
  exact ⟨_, _, _, .membership hes, he.and hsched⟩

/-! ### One step -/

theorem execute_effect {job : Job} (hj : job.Wired c) (hs : h.execute D c job = .ok h') :
    ∃ run jobs net, Fires c h (.job job) run jobs net ∧ Effect c run jobs net h h' := by
  cases job with
  | timer i t =>
    cases t with
    | electionTimeout seq =>
      exact ⟨_, _, _, .electionTimeout hj,
        perform_effect (e := .electionTimeout i seq) rfl hj hs⟩
    | heartbeat seq =>
      exact ⟨_, _, _, .heartbeat hj, perform_effect (e := .heartbeat i seq) rfl hj hs⟩
  | clientTick =>
    obtain ⟨target, hi, he⟩ := clientTick_effect hs
    exact ⟨_, _, _, .client hi, he⟩
  | faultTick =>
    obtain ⟨net, run, jobs, faults, hnet, hcrash, he⟩ := faultTick_effect hs
    exact ⟨_, _, _, .fault hnet hcrash, he⟩
  | membershipTick => exact membershipTick_effect hj hs
  | maybeResume i =>
    have hs : h.maybeResume D c i = .ok h' := hs
    unfold maybeResume at hs
    split at hs
    next hdown => exact ⟨_, _, _, .resume hj hdown, resume_effect hj hs⟩
    next hup =>
      obtain rfl := Except.ok.inj hs
      exact ⟨_, _, _, .up hup, idle_effect⟩
  | nemesisFire op => exact nemesisFire_effect hj hs
  | healPartition =>
    obtain rfl := Except.ok.inj hs
    exact ⟨_, _, _, .heal, healPartition_effect⟩
  | linkUp a b =>
    obtain rfl := Except.ok.inj hs
    exact ⟨_, _, _, .linkUp, linkUp_effect a b⟩
  | clearLossyLink a b =>
    obtain rfl := Except.ok.inj hs
    exact ⟨_, _, _, .clear, clearLossyLink_effect a b⟩

/-- The next event has left the queue; what it does is still to come. -/
structure Turned (h h' : Harness σ) (turn : Turn) : Prop where
  world : h'.world = h.world
  clients : h'.clients = h.clients
  faults : h'.faults = h.faults
  checker : h'.checker = h.checker
  seq : h'.faultSeq = h.faultSeq
  steps : h'.steps = h.steps+1
  now : h.now ≤ h'.now
  agenda : h.agenda.Perm ((turn.job?.map fun job => (h'.now, job)).toList ++ h'.agenda)
  logged : h.Logged → h'.Logged
  balanced : h.net.Balanced → h'.net.Balanced

/-- What the queue of a cluster holds and whom its network knows. -/
structure Wired (c : HarnessSetup) (h : Harness σ) : Prop where
  jobs : ∀ p ∈ h.agenda, p.2.Wired c
  faults : h.faults.Knows c.ids
  balanced : h.net.Balanced

/-- What comes out of a queue is what the queue may hold. -/
theorem Wired.turn {turn : Turn} (hw : h.Wired c) (ht : Turned h h' turn) :
    ∀ j ∈ turn.job?, j.Wired c := by
  intro j hj
  refine hw.jobs (h'.now, j) (ht.agenda.mem_iff.mpr (List.mem_append_left _ ?_))
  rw [show turn.job? = some j from hj]
  exact List.mem_cons_self

theorem pop_faults {e : NetEvent Message Job} {net : MessageNetwork σ Message Job}
    (hpop : h.net.pop = some (e, net)) :
    net.sim.steps = h.steps+1 ∧ h.now ≤ net.sim.now ∧ h.net.agenda =
      (MessageNetwork.due? ⟨net.sim.now, 0, e⟩).toList ++ net.agenda := by
  obtain ⟨⟨e', sim⟩, hsim, heq⟩ := Option.map_eq_some_iff.mp hpop
  cases heq
  obtain ⟨hsteps, p, hp, hheap, hnow⟩ := Simulator.pop_heap hsim
  obtain ⟨-, -, -, -, hle⟩ := Simulator.pop_some hsim
  refine ⟨hsteps, hle, ?_⟩
  unfold MessageNetwork.agenda
  rw [hheap, List.filterMap_cons]
  dsimp only
  rw [hnow, ← hp]
  unfold MessageNetwork.due?
  cases p.event with
  | delivery n l => rfl
  | other job => rfl

theorem MessageNetwork.delivery_group {μ κ : Type} {s s' : MessageNetwork σ μ κ} {n : ℕ}
    {l : Letter μ} (hs : s.delivery n l = .ok (true, s')) : l.dst ∈ s.faults.group := by
  unfold MessageNetwork.delivery at hs
  split at hs
  · cases hs
  split at hs
  · cases hs
  obtain ⟨r, hr, -⟩ := bind_ok.mp hs
  unfold MessageNetwork.reachable at hr
  split at hr
  · cases hr
  split at hr
  next => cases hr
  next hdst => exact not_not.mp hdst

/-- A job comes out of the queue. -/
theorem turned_job {job : Job} {net : MessageNetwork σ Message Job}
    (hpop : h.net.pop = some (.other job, net)) :
    Turned h { h with net } (.job job) := by
  obtain ⟨hsteps, hnow, hagenda⟩ := pop_faults hpop
  obtain ⟨hqueue, sim, rfl⟩ := MessageNetwork.pop_some hpop
  exact ⟨rfl, rfl, rfl, rfl, rfl, hsteps, hnow, .of_eq hagenda,
    fun hl => hl.congr rfl, fun hb => hb.aside (List.Perm.of_eq hqueue.symm)⟩

/-- A message comes out of the queue, and the network delivers or drops it. -/
theorem turned_delivery {k : ℕ} {l : Letter Message} {b : Bool} {t : Turn}
    {net net' : MessageNetwork σ Message Job} (hpop : h.net.pop = some (.delivery k l, net))
    (hdel : net.delivery k l = .ok (b, net')) (ht : t.job? = none) :
    Turned h (({ h with net } : Harness σ).absorb net') t := by
  obtain ⟨hsteps, hnow, hagenda⟩ := pop_faults hpop
  obtain ⟨hon, hletters⟩ := MessageNetwork.delivery_onward_ok hdel
  have hbalanced := fun hb : h.net.Balanced => hb.delivers hpop (MessageNetwork.delivery_ok hdel)
  obtain ⟨-, sim, rfl⟩ := MessageNetwork.pop_some hpop
  refine ⟨?_, rfl, hon.faults, rfl, rfl, hon.steps.trans hsteps,
    hnow.trans (le_of_eq hon.now.symm), ?_, fun hl => ?_, hbalanced⟩
  · show World.mk h.nodes (net'.letters.map Letter.packet) = _
    rw [hletters]
    rfl
  · rw [ht]
    exact (List.Perm.of_eq hagenda).trans hon.agenda.symm
  · have hl' : Logged ({ h with net := { h.net with sim } } : Harness σ) :=
      hl.congr rfl
    exact hl'.absorb hon.trace (hon.tally hl'.tally)

/-- What one step can do. -/
theorem simStep_cases (hw : h.Wired c) (hs : h.simStep D c = .ok (some h')) :
    ∃ h₁ turn run jobs net, Turned h h₁ turn ∧ Fires c h₁ turn run jobs net ∧
      Effect c run jobs net h₁ h' := by
  unfold simStep at hs
  split at hs
  next => cases hs
  -- the letter is still among those sent, so the arrival is one of the model of the nodes
  next k l net hpop =>
    obtain ⟨h₂, h₂ok, hs⟩ := map_ok.mp hs
    obtain rfl := Option.some.inj hs
    unfold deliver at h₂ok
    dsimp only at h₂ok
    split at h₂ok
    next => cases h₂ok
    next net' hdel =>
      have hturned := turned_delivery (t := .arrival k) hpop hdel rfl
      obtain ⟨hqueue, sim, rfl⟩ := MessageNetwork.pop_some hpop
      have hletter : h.net.letters[k]? = some l :=
        hw.balanced.queued (k, l) (hqueue ▸ List.mem_cons_self)
      have hsame := (MessageNetwork.delivery_onward_ok hdel).2
      have hletter' : net'.letters[k]? = some l := by rw [hsame]; exact hletter
      have hlt : k < net'.letters.length := (List.getElem?_eq_some_iff.mp hletter').1
      -- the network raises on a receiver it does not know
      have hmem := MessageNetwork.delivery_group hdel
      have hdst : l.dst ∈ c.ids := (hw.faults.group _).mp hmem
      have hsent : (net'.letters.map Letter.packet)[k]? = some l.packet := by
        rw [List.getElem?_map, hletter']
        rfl
      refine ⟨_, _, _, _, _, hturned, .arrival hlt, ?_⟩
      refine perform_effect (D := D) (i := l.dst) (e := .deliver k) ?_ hdst ?_
      · show (net'.letters.map Letter.packet)[k]?.map Packet.dst = _
        rw [hsent]
        rfl
      · unfold World.callback
        dsimp only [absorb, world]
        rw [hsent]
        exact h₂ok
    next net' hdel =>
      obtain rfl := Except.ok.inj h₂ok
      exact ⟨_, _, _, _, _, turned_delivery (t := .loss) hpop hdel rfl, .loss, idle_effect⟩
  next job net hpop =>
    obtain ⟨h₂, h₂ok, hs⟩ := map_ok.mp hs
    obtain rfl := Option.some.inj hs
    have hturned := turned_job hpop
    obtain ⟨run, jobs, faults, hfires, he⟩ := execute_effect (hw.turn hturned job rfl) h₂ok
    exact ⟨_, _, _, _, _, hturned, hfires, he⟩

namespace Fires
variable {turn : Turn} {run : Runs} {jobs : List (ℤ × Job)} {net : Network}

theorem knows (hf : Fires c h turn run jobs net) (hk : h.faults.Knows c.ids) :
    net.Knows c.ids := by
  cases hf with
  | fault hparts hcrash =>
    have hmid : ∀ {net'}, Reparts c h.faults net' → net'.Knows c.ids := by
      intro net' hparts
      cases hparts with
      | stays => exact hk
      | heals => exact hk.heal
      | splits _ _ _ _ hs => exact hk.setPartition hs
    cases hcrash with
    | spares => exact hmid hparts
    | strikes _ _ hi => exact (hmid hparts).crash hi
  | resume => exact hk.erase
  | halves hs => exact hk.setPartition hs
  | isolate _ hs => exact hk.setPartition hs
  | crash hi => exact hk.crash hi
  | heal => exact hk.heal
  | _ => exact ⟨hk.nodeIds, hk.group, hk.crashed⟩

theorem wired (hf : Fires c h turn run jobs net) (hj : ∀ j ∈ turn.job?, j.Wired c) :
    ∀ p ∈ jobs, p.2.Wired c := by
  have hone : ∀ {p q : ℤ × Job}, p ∈ [q] → q.2.Wired c → p.2.Wired c :=
    fun hp hq => List.mem_singleton.mp hp ▸ hq
  cases hf with
  | client => exact fun p hp => hone hp (hj _ rfl)
  | fault _ hcrash =>
    intro p hp
    rcases List.mem_cons.mp hp with rfl | hp
    · exact hj _ rfl
    · cases hcrash with
      | spares => cases hp
      | strikes _ _ hi => exact hone hp hi
  | membership => exact fun p hp => hone hp (hj _ rfl)
  | halves => exact fun p hp => hone hp ⟨_, hj _ rfl⟩
  | isolate => exact fun p hp => hone hp ⟨_, hj _ rfl⟩
  | flap => exact fun p hp => hone hp ⟨_, hj _ rfl⟩
  | lossy => exact fun p hp => hone hp ⟨_, hj _ rfl⟩
  | crash hi => exact fun p hp => hone hp hi
  | _ => exact fun p hp => by cases hp

end Fires

theorem Wired.simStep (hw : h.Wired c) (hs : h.simStep D c = .ok (some h')) : h'.Wired c := by
  obtain ⟨h₁, turn, run, jobs, net, hturned, hfires, he⟩ := simStep_cases hw hs
  refine ⟨fun p hp => ?_, ?_, he.balanced (hturned.balanced hw.balanced)⟩
  · rcases he.mem_agenda hp with ⟨i, hi, t, heq⟩ | hp | hp
    · rw [heq]
      exact hi
    · exact hfires.wired (hw.turn hturned) p hp
    · exact hw.jobs p (hturned.agenda.mem_iff.mpr (List.mem_append_right _ hp))
  · rw [he.faults]
    refine hfires.knows ?_
    rw [hturned.faults]
    exact hw.faults

/-- A step of the cluster is one of the simulator and a check that passes. -/
theorem step_cases (hs : step D c h = .ok (some h')) :
    ∃ h₁ checker, h.simStep D c = .ok (some h₁) ∧
      h₁.checker.check h₁.nodes c.ids h₁.steps = .ok checker ∧ h' = { h₁ with checker } := by
  unfold step at hs
  split at hs
  · cases hs
  · cases hs
  next h₁ h₁ok =>
    split at hs
    next checker hck => exact ⟨h₁, checker, h₁ok, hck, (Option.some.inj (Except.ok.inj hs)).symm⟩
    next => cases hs
    next => cases hs

theorem step_ok {h₁ : Harness σ} {checker : InvariantChecker}
    (hsim : h.simStep D c = .ok (some h₁))
    (hck : h₁.checker.check h₁.nodes c.ids h₁.steps = .ok checker) :
    step D c h = .ok (some { h₁ with checker }) := by
  unfold step
  rw [hsim]
  dsimp only
  rw [hck]

/-- A violation is found in the cluster as the step of the simulator has left it. -/
theorem step_violated {v : InvariantViolation} {left : Harness σ} :
    step D c h = .error (.violated v left) ↔ h.simStep D c = .ok (some left) ∧
      left.checker.check left.nodes c.ids left.steps = .error (.violation v) := by
  constructor
  · intro hs
    unfold step at hs
    split at hs
    · cases hs
    · cases hs
    next left' hsim =>
      split at hs
      · cases hs
      next v' hck =>
        cases hs
        exact ⟨hsim, hck⟩
      · cases hs
  · rintro ⟨hsim, hck⟩
    unfold step
    rw [hsim]
    dsimp only
    rw [hck]

/-- A cluster has nothing to do when its queue is empty. -/
theorem step_none : step D c h = .ok none ↔ h.net.pop = none := by
  constructor
  · intro hs
    unfold step at hs
    split at hs
    · cases hs
    next hsim =>
      unfold simStep at hsim
      split at hsim
      next hpop => exact hpop
      next =>
        obtain ⟨h', -, heq⟩ := map_ok.mp hsim
        cases heq
      next =>
        obtain ⟨h', -, heq⟩ := map_ok.mp hsim
        cases heq
    next =>
      split at hs
      · cases hs
      · cases hs
      · cases hs
  · intro hpop
    unfold step simStep
    rw [hpop]

end Harness
end RaftVerified
