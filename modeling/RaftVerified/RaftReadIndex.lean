import RaftVerified.RaftAnswers
import RaftVerified.RaftCommitQuorum

/-! What a read index is worth: a leader that has committed in its own term, and that a
majority of nodes at terms up to its own has confirmed, covers everything ever committed. -/
namespace RaftVerified
open Consensus

variable {c : Setup} {a : Protocol} {n m k : RaftNode} {v w w' : World} {past : List World}
  {fresh : List Str} {i j : NodeId}

/-! ### What every callback keeps -/

/-- How a node moves on within its term and to later ones. Only a node that follows loses
commits or entries, and only the commands in `fresh` are appended. -/
structure Tends (fresh : List Str) (n m : RaftNode) : Prop where
  term : n.term ≤ m.term
  stays : m.term = n.term → m.role ≠ .follower → n.role = m.role ∨ n.role = .candidate
  next : n.nextReadId ≤ m.nextReadId
  commit : n.commitIndex ≤ m.commitIndex ∨ m.role = .follower
  log : m.log = n.log ∨ m.role = .follower ∨
    ∃ command ∈ fresh, m.log = n.log ++ [⟨n.term, command⟩]

theorem Tends.refl (n : RaftNode) : Tends fresh n n :=
  ⟨le_rfl, fun _ _ => Or.inl rfl, le_rfl, Or.inl le_rfl, Or.inl rfl⟩

namespace Exec
variable {x y : Exec}

theorem Answers.tends (h : Answers fresh x y) : Tends fresh x.node y.node :=
  ⟨h.term, h.stays, h.next.ge, h.commit, h.log⟩

theorem Silent.tends (h : Silent x y) : Tends fresh x.node y.node := h.answered.tends

theorem tryServeRead_node (x : Exec) (readId : ℕ) : ∃ reads,
    (x.tryServeRead readId).node = { x.node with pendingReads := reads } := by
  rcases tryServeRead_cases x readId with heq | ⟨r, -, -, -, heq⟩
  · exact ⟨_, by rw [heq]⟩
  · exact ⟨_, by rw [heq]; rfl⟩

theorem requestRead_tends (x : Exec) (command : Str) :
    Tends fresh x.node (x.requestRead command).1.node := by
  rcases requestRead_cases x command with heq | ⟨-, -, heq⟩
  · rw [heq]
    exact Tends.refl _
  · obtain ⟨reads, hnode⟩ := tryServeRead_node (((x.set (x.node.queueRead command)).record
      (.read x.node.id x.node.nextReadId x.node.commitIndex)).sendAll x.node.otherVoters
        (.readHeartbeat {
          term := x.node.term, leader := x.node.id, readId := x.node.nextReadId }))
        x.node.nextReadId
    rw [heq, hnode]
    exact ⟨le_rfl, fun _ _ => Or.inl rfl, Nat.le_succ _, Or.inl le_rfl, Or.inl rfl⟩

theorem onReadHeartbeat_tends (x : Exec) (msg : ReadHeartbeat) :
    Tends fresh x.node (x.onReadHeartbeat msg).node := by
  obtain ⟨z, hz, heq⟩ := onReadHeartbeat_sends x msg
  rw [heq]
  exact hz.tends

theorem onReadAck_tends (x : Exec) (msg : ReadAck) :
    Tends fresh x.node (x.onReadAck msg).node := by
  rcases onReadAck_cases x msg with hs | ⟨r, -, -, -, heq⟩
  · exact hs.tends
  · obtain ⟨reads, hnode⟩ := tryServeRead_node (x.set (x.node.ackRead msg r)) msg.readId
    rw [heq, hnode]
    exact ⟨le_rfl, fun _ _ => Or.inl rfl, le_rfl, Or.inl le_rfl, Or.inl rfl⟩

theorem handle_tends {msg : Message} (hx : Plainly x.node) (hm : ∀ m, msg ≠ .installSnapshot m)
    (hy : x.handle msg = .ok y) : Tends fresh x.node y.node := by
  by_cases hr : msg.IsRead
  · unfold handle at hy
    split at hy
    · obtain rfl := Except.ok.inj hy
      exact Tends.refl _
    · cases msg with
      | readHeartbeat m =>
        obtain rfl := Except.ok.inj hy
        exact onReadHeartbeat_tends x m
      | readAck m =>
        obtain rfl := Except.ok.inj hy
        exact onReadAck_tends x m
      | _ => exact hr.elim
  · exact (handle_answers hx hr hm hy).tends

end Exec

theorem callback_tends {e : Event} {y : Exec} (hn : Exec.Plainly n)
    (hi : ∀ p ∈ w.sent, ∀ m, p.msg ≠ .installSnapshot m) (he : ∀ j vs, e ≠ .changeConfig j vs)
    (hy : w.callback n e = .ok y) : Tends e.fresh n y.node := by
  cases e with
  | changeConfig j vs => exact absurd rfl (he j vs)
  | requestRead j command =>
    obtain rfl := Except.ok.inj hy
    exact Exec.requestRead_tends ⟨n, []⟩ command
  | deliver k =>
    rw [World.callback] at hy
    cases hk : w.sent[k]? with
    | none =>
      rw [hk] at hy
      obtain rfl := Except.ok.inj hy
      exact Tends.refl n
    | some p =>
      rw [hk] at hy
      exact Exec.handle_tends (x := ⟨n, []⟩) hn (hi p (List.mem_of_getElem? hk)) hy
  | _ =>
    refine (callback_answers hn ?_ hy).tends
    trivial

/-! ### Runs -/

theorem flat_images (h : WorldRel c a w) (ht : c.config.snapshotThreshold = 0) {p : Packet}
    (hp : p ∈ w.sent) (m : InstallSnapshot) : p.msg ≠ .installSnapshot m := by
  intro hm
  have hrel := h.sent p hp
  obtain ⟨src, dst, msg⟩ := p
  obtain rfl : msg = _ := hm
  obtain ⟨-, -, -, hpos, -⟩ := hrel
  omega

theorem NodeRel.plainly (h : NodeRel c a i n) (hb : c.bugs = NO_BUGS)
    (ht : c.config.snapshotThreshold = 0) : Exec.Plainly n := by
  have hs : n.snapshot = none := by
    by_contra hne
    obtain ⟨s, hs⟩ := Option.ne_none_iff_exists'.mp hne
    exact absurd (h.ok.compacts s hs) (by omega)
  refine ⟨?_, hs, ?_, h.ok.bugs.trans hb⟩
  · rw [← h.ok.base, h.ok.no_snapshot hs, List.length_nil]
  · rw [h.ok.config]
    exact ht.le

/-- A node at rest whose log has never been folded: it has applied what it has committed. -/
structure Level (i : NodeId) (n : RaftNode) : Prop extends Exec.Plainly n where
  id : n.id = i
  logical : n.logical = n.log
  settled : n.lastApplied = n.commitIndex
  commit_le : n.commitIndex ≤ n.log.length
  kv : n.kv = replay (n.log.take n.commitIndex)

theorem NodeRel.level (h : NodeRel c a i n) (hb : c.bugs = NO_BUGS)
    (ht : c.config.snapshotThreshold = 0) : Level i n := by
  have hp := h.plainly hb ht
  have hlog : n.logical = n.log := by
    rw [RaftNode.logical, h.ok.no_snapshot hp.snapshot, List.nil_append]
  refine ⟨hp, h.id, hlog, h.settled, ?_, ?_⟩
  · rw [← hlog]
    exact h.ok.commit_le
  · rw [← hlog, ← h.settled]
    exact h.ok.kv

/-- Every node is level in every state of a run. -/
theorem run_level (hb : c.bugs = NO_BUGS) (ht : c.config.snapshotThreshold = 0) {ws : List World}
    (hr : Run c FixedVoters ws) : ∀ w ∈ ws, ∀ i ∈ c.ids, Level i (w.nodes i) := by
  obtain ⟨a, ha⟩ := fixed_explained hb ht hr
  intro w hw i hi
  obtain ⟨b, -, -, hrel⟩ := ha.past w hw
  exact (hrel.nodes i hi).level hb ht

/-- What two nodes ever covered is the same, as far as both covered it. -/
theorem log_agree (hb : c.bugs = NO_BUGS) (ht : c.config.snapshotThreshold = 0) {ws : List World}
    (hr : Run c FixedVoters ws) (hv : v ∈ ws) (hw : w ∈ ws) (hi : i ∈ c.ids) (hj : j ∈ c.ids)
    {o : ℕ} (ho : o ≤ (v.nodes i).commitIndex) (ho' : o ≤ (w.nodes j).commitIndex) :
    (v.nodes i).log.take o = (w.nodes j).log.take o := by
  obtain ⟨a, ha⟩ := fixed_explained hb ht hr
  have hvi := run_level hb ht hr v hv i hi
  have hwj := run_level hb ht hr w hw j hj
  have hlen := ho.trans hvi.commit_le
  have hlen' := ho'.trans hwj.commit_le
  refine List.ext_getElem ?_ fun q hq hq' => ?_
  · rw [List.length_take, List.length_take]
    omega
  · rw [List.length_take] at hq hq'
    rw [List.getElem_take, List.getElem_take]
    refine ha.covered_agree hv hw hi hj (show q < _ by omega) ?_ (show q < _ by omega) ?_
    · rw [hvi.logical]
      exact List.getElem?_eq_getElem (by omega)
    · rw [hwj.logical]
      exact List.getElem?_eq_getElem (by omega)

theorem FixedVoters.changes {ws : List World} {e : Event} (h : FixedVoters ws e) :
    ∀ j vs, e ≠ .changeConfig j vs := by
  rintro j vs rfl
  exact h

theorem step_tends (hb : c.bugs = NO_BUGS) (ht : c.config.snapshotThreshold = 0)
    (hr : Run c FixedVoters (w :: past)) {e : Event} (he : FixedVoters (w :: past) e)
    (hs : w.step c e = .ok w') (hi : i ∈ c.ids) :
    Tends e.fresh (w.nodes i) (w'.nodes i) := by
  obtain ⟨a, ha⟩ := fixed_explained hb ht hr
  have hw := ha.now w rfl
  rcases World.step_node hs i with ⟨hsame, -⟩ | ⟨-, -, y, hy, hnode⟩
  · rw [hsame]
    exact Tends.refl _
  · rw [hnode]
    exact callback_tends (hw.nodes i hi |>.plainly hb ht) (fun p hp => flat_images hw ht hp)
      he.changes hy

/-- What is left of a node some steps later. A leader that still leads its term has kept
its commits. -/
structure Lasts (n m : RaftNode) : Prop where
  term : n.term ≤ m.term
  next : n.nextReadId ≤ m.nextReadId
  leads : n.role = .leader → m.term = n.term → m.role ≠ .follower →
    m.role = .leader ∧ n.commitIndex ≤ m.commitIndex

theorem Lasts.refl (n : RaftNode) : Lasts n n :=
  ⟨le_rfl, le_rfl, fun hr _ _ => ⟨hr, le_rfl⟩⟩

theorem Lasts.step (h : Lasts n m) (h' : Tends fresh m k) : Lasts n k where
  term := h.term.trans h'.term
  next := h.next.trans h'.next
  leads hr ht hk := by
    have hle := h.term
    have hle' := h'.term
    have hstays := h'.stays (by omega) hk
    have hm : m.role ≠ .follower := by
      intro hf
      rcases hstays with heq | hcand
      · exact hk (heq.symm.trans hf)
      · cases hf.symm.trans hcand
    obtain ⟨hlead, hcom⟩ := h.leads hr (by omega) hm
    refine ⟨?_, ?_⟩
    · rcases hstays with heq | hcand
      · exact heq.symm.trans hlead
      · cases hlead.symm.trans hcand
    · rcases h'.commit with hle | hf
      · exact hcom.trans hle
      · exact absurd hf hk

theorem run_lasts (hb : c.bugs = NO_BUGS) (ht : c.config.snapshotThreshold = 0)
    (hr : Run c FixedVoters (w :: past)) :
    ∀ v ∈ w :: past, ∀ i ∈ c.ids, Lasts (v.nodes i) (w.nodes i) := by
  generalize hws : w :: past = ws at hr
  induction hr generalizing w past with
  | init =>
    obtain ⟨rfl, rfl⟩ := List.cons.inj hws
    intro v hv i _
    obtain rfl := List.mem_singleton.mp hv
    exact Lasts.refl _
  | @step w₁ w₂ past₁ e hr he hs ih =>
    obtain ⟨rfl, rfl⟩ := List.cons.inj hws
    intro v hv i hi
    rcases List.mem_cons.mp hv with rfl | hv
    · exact Lasts.refl _
    · exact (ih rfl v hv i hi).step (step_tends hb ht hr he hs hi)

/-! ### The read index -/

/-- A leader that has committed in its own term covers whatever was committed in earlier
ones, and in its own. -/
theorem Explains.chosen_below (h : Explains c a (v :: past)) (hb : c.bugs = NO_BUGS)
    (ht : c.config.snapshotThreshold = 0) (hr : Run c FixedVoters (v :: past)) (hi : i ∈ c.ids)
    (hlead : (v.nodes i).role = .leader) (hct : (v.nodes i).committedThisTerm = true)
    {t p q : ℕ} (hc : a.chosen t p q) (hle : t ≤ (v.nodes i).term) :
    p ≤ (v.nodes i).commitIndex := by
  have hrel := (h.now v rfl).nodes i hi
  obtain ⟨o, ho⟩ := hrel.committed hlead hct
  rcases Nat.lt_or_eq_of_le hle with hlt | heq
  · -- an earlier term's commits hold no entry of this term, and the last covered one is of it
    by_contra hgt
    obtain ⟨l, e, hl, he, hterm⟩ := h.inv.chosen_own _ _ _ ho
    have hpre := h.inv.leader_complete hc (h.inv.chosen_led _ _ _ ho).1 hle
    have hpt := (h.inv.chosen_led _ _ _ hc).2
    have hlen : l < ((a.trunk t).take p).length := by
      rw [List.length_take]
      omega
    have hget := List.getElem?_eq_getElem hlen
    have hsame := (prefix_getElem? hpre hget).symm.trans he
    rw [hsame] at hget
    have hmem : e ∈ a.trunk t := List.mem_of_mem_take (List.mem_of_getElem? hget)
    have := h.inv.trunk_below hmem
    omega
  · -- the leader of this term is the node itself, and it has kept its commits
    obtain ⟨u, hu, j, hj, hrole, hterm, hcom⟩ := h.commits _ _ _ hc
    obtain rfl : j = i := h.one_leader hu List.mem_cons_self hj hi hrole hlead
      (hterm.trans heq)
    have hkept := (run_lasts hb ht hr u hu j hj).leads hrole (by omega)
      (by rw [hlead]; exact nofun)
    omega

/-- No node of a majority that is at terms up to `t` has voted in a later one. -/
theorem Explains.term_le (h : Explains c a (v :: past)) (ht : c.config.snapshotThreshold = 0)
    (hr : Run c FixedVoters (v :: past)) {P : Finset NodeId} (hP : elects c.voters P) {t : ℕ}
    (hterm : ∀ q ∈ P, q ∈ c.ids ∧ (v.nodes q).term ≤ t) {u p o : ℕ} (hc : a.chosen u p o) :
    u ≤ t := by
  have hled := (h.inv.chosen_led _ _ _ hc).1
  obtain ⟨l, B, hB⟩ := hled
  obtain ⟨Q, hQ, hvote⟩ := h.inv.elected_support _ _ _ hB
  have hconf : c.reading.conf B = c.voters := by
    have hbase := (h.inv.elected_base _ _ _ hB).1
    rw [List.prefix_iff_eq_take.mp hbase]
    exact h.conf_fixed ht hr ⟨l, B, hB⟩ _
  rw [hconf] at hQ
  obtain ⟨q, hq, hq'⟩ := commits_meet_self (commits_of_elects hP) (commits_of_elects hQ)
  obtain ⟨V, hV, -⟩ := hvote q hq'
  obtain ⟨hid, hle⟩ := hterm q hq
  have hvoted := h.inv.voted_term _ _ _ _ hV
  rw [((h.now v rfl).nodes q hid).view] at hvoted
  exact hvoted.trans hle

/-- The read index: what any node ever covered by then, the leader covers. -/
theorem read_index_covers (hb : c.bugs = NO_BUGS) (ht : c.config.snapshotThreshold = 0)
    (hr : Run c FixedVoters (v :: past)) (hi : i ∈ c.ids) (hlead : (v.nodes i).role = .leader)
    (hct : (v.nodes i).committedThisTerm = true) {P : Finset NodeId} (hP : elects c.voters P)
    (hterm : ∀ q ∈ P, q ∈ c.ids ∧ (v.nodes q).term ≤ (v.nodes i).term) :
    ∀ u ∈ v :: past, ∀ j ∈ c.ids, (u.nodes j).commitIndex ≤ (v.nodes i).commitIndex := by
  obtain ⟨a, ha⟩ := fixed_explained hb ht hr
  intro u hu j hj
  by_contra hgt
  obtain ⟨b, -, -, hrel⟩ := ha.past u hu
  have hlen := (hrel.nodes j hj).ok.commit_le
  have hget := List.getElem?_eq_getElem
    (show (v.nodes i).commitIndex < (u.nodes j).logical.length by omega)
  obtain ⟨t, p, o, -, hc, hlt, -⟩ := ha.covered_chosen hu hj (by omega) hget
  have hle := ha.chosen_below hb ht hr hi hlead hct hc (ha.term_le ht hr hP hterm hc)
  omega

end RaftVerified
