import RaftVerified.RaftSessions
import RaftVerified.ServiceRuns

/-! What every run of a cluster under its clients keeps: logs hold requests that have a row,
pending reads are from a leader's moment, and a closed row has its place in the log. -/
namespace RaftVerified
namespace Service
open Consensus

variable {c : ServiceSetup} {s s' u : Service} {past ss : List Service} {i j : NodeId} {k : ℕ}
  {row : HistoryEntry} {d : Clients} {e : Event} {y : Exec}

/-! ### Logs hold requests -/

/-- The entry of a request that has been invoked by the step of `u`. -/
def Requested (c : ServiceSetup) (s u : Service) (entry : Entry) : Prop :=
  ∃ row ∈ s.clients.history, row.command.encode = entry.command ∧ row.invokeStep ≤ u.steps ∧
    ¬ Reads c entry.command

theorem Requested.keep {answers : List (Str × Str)} {entry : Entry} (h : Requested c s u entry)
    (hrows : RowStep c s s' answers) : Requested c s' u entry := by
  obtain ⟨row, hrow, hcmd, hle, hreads⟩ := h
  obtain ⟨row', hrow', hcmd', hinv, -⟩ := hrows.old row hrow
  exact ⟨row', hrow', by rw [hcmd', hcmd], by rwa [hinv], hreads⟩

theorem Requested.later {v : Service} {entry : Entry} (h : Requested c s u entry)
    (hle : u.steps ≤ v.steps) : Requested c s v entry := by
  obtain ⟨row, hrow, hcmd, hinv, hreads⟩ := h
  exact ⟨row, hrow, hcmd, hinv.trans hle, hreads⟩

/-- Whatever stands in the log of a leader after a step stood there before, or is what a
client has just sent. -/
theorem Ran.leader_log (h : Ran c s s' d e i y) (hrec : c.recordHistory = true)
    (hs : s'.steps = s.steps+1) (hk : Clients.Kept s.steps s.clients)
    (hrows : RowStep c s s' (onApplies y.calls))
    (htends : Tends e.fresh (s.world.nodes j) (s'.world.nodes j))
    (hlead : (s'.world.nodes j).role = .leader) {entry : Entry}
    (hmem : entry ∈ (s'.world.nodes j).log) :
    entry ∈ (s.world.nodes j).log ∨ Requested c s' s' entry := by
  rcases htends.log with heq | hf | ⟨command, hc, heq⟩
  · rw [heq] at hmem
    exact Or.inl hmem
  · cases hlead.symm.trans hf
  · rw [heq] at hmem
    rcases List.mem_append.mp hmem with hmem | hmem
    · exact Or.inl hmem
    · obtain rfl := List.mem_singleton.mp hmem
      right
      cases h.offers with
      | ambient ha =>
        cases e with
        | clientCommand i command => exact ha.elim
        | _ => cases hc
      | read target hreads => cases hc
      | command target hreads =>
        obtain rfl := List.mem_singleton.mp hc
        obtain ⟨row, hrow, hcmd⟩ := h.sent_row hrec hs hk rfl
        exact ⟨row, hrow, hcmd, (hrows.kept.rows row hrow).2.1, hreads⟩

/-- Every entry of every log is a request that a client had made by then. -/
theorem logs_requested (hb : c.bugs = NO_BUGS) (ht : c.config.snapshotThreshold = 0)
    (hc : c.recordHistory = true) (hr : Run c (s :: past)) : ∀ u ∈ s :: past, ∀ j ∈ c.ids,
      ∀ entry ∈ (u.world.nodes j).log, Requested c s u entry := by
  refine run_induction (P := fun s past => ∀ u ∈ s :: past, ∀ j ∈ c.ids,
    ∀ entry ∈ (u.world.nodes j).log, Requested c s u entry) hb hc ?_ ?_ ?_ hr
  · intro u hu j _ entry hentry
    obtain rfl := List.mem_singleton.mp hu
    cases hentry
  · intro s s' past d hr hs hstood hrows ih u hu j hj entry hentry
    rcases List.mem_cons.mp hu with rfl | hu
    · rw [hstood.world] at hentry
      have hreq := ih s List.mem_cons_self j hj entry hentry
      exact (hreq.keep hrows).later (by omega)
    · exact (ih u hu j hj entry hentry).keep hrows
  · intro s s' past d e i y hr hs hran hrows ih u hu j hj entry hentry
    rcases List.mem_cons.mp hu with rfl | hu
    · obtain ⟨hk, hw⟩ := run_world hb hc hr.tail
      obtain ⟨-, hw'⟩ := run_world hb hc hr
      obtain ⟨a, ha⟩ := fixed_explained hb ht hw'
      have hlevel := run_level hb ht hw'
      have hlog := (hlevel u.world List.mem_cons_self j hj).logical
      have hne : (u.world.nodes j).logical ≠ [] := by
        rw [hlog]
        exact List.ne_nil_of_mem hentry
      -- the entry came from a leader, now or in an earlier state
      obtain ⟨w, hmem, l, hl, hlead, hpre⟩ := ha.log_of_leader hj hne
      rw [hlog, (hlevel w hmem l hl).logical] at hpre
      obtain ⟨v, hv, rfl⟩ : ∃ v ∈ u :: s :: past, v.world = w := List.mem_map.mp hmem
      have hold := hpre.subset hentry
      rcases List.mem_cons.mp hv with rfl | hv
      · obtain ⟨hfix, hstep⟩ := hran.step hc hs hk ((s :: past).map world)
        have htends := step_tends hb ht hw hfix hstep hl
        rcases hran.leader_log hc hs hk hrows htends hlead hold with hold | hreq
        · have hreq := ih s List.mem_cons_self l hl entry hold
          exact (hreq.keep hrows).later (by omega)
        · exact hreq
      · have hreq := ih v hv l hl entry hold
        have hle := List.rel_of_pairwise_cons (run_steps hb hr) hv
        exact (hreq.keep hrows).later hle.le
    · exact (ih u hu j hj entry hentry).keep hrows

/-! ### Pending reads -/

/-- The read `r` that node `i` holds in state `s` was asked for in the state `v`, when the node
led term `t`: nobody who has confirmed it, or may still do so in term `t`, was ahead then. -/
structure AskedAt (c : ServiceSetup) (s : Service) (i : NodeId) (t readId : ℕ) (r : PendingRead)
    (v : Service) : Prop where
  leader : (v.world.nodes i).role = .leader
  committed : (v.world.nodes i).committedThisTerm = true
  term : (v.world.nodes i).term = t
  index : (v.world.nodes i).commitIndex = r.readIndex
  acks : ∀ q ∈ r.acks, q ∈ c.ids ∧ (v.world.nodes q).term ≤ t
  replies : ∀ p ∈ s.world.sent, ∀ m, p.msg = .readAck m → p.dst = i → m.readId = readId →
    m.follower ∈ c.ids ∧ (v.world.nodes m.follower).term ≤ m.term
  row : ∃ row ∈ s.clients.history, row.command.encode = r.command ∧
    row.invokeStep ≤ v.steps+1 ∧ Reads c r.command

/-- The pending reads in the last state of a run, and the messages about reads. -/
structure ReadsKept (c : ServiceSetup) (s : Service) (past : List Service) : Prop where
  reads : ∀ i ∈ c.ids, ∀ readId r, (s.world.nodes i).pendingReads.lookup readId = some r →
    (s.world.nodes i).role = .leader ∧
      ∃ v ∈ s :: past, AskedAt c s i (s.world.nodes i).term readId r v
  pings : ∀ p ∈ s.world.sent, ∀ m, p.msg = .readHeartbeat m →
    m.readId < (s.world.nodes m.leader).nextReadId
  acks : ∀ p ∈ s.world.sent, ∀ m, p.msg = .readAck m →
    m.readId < (s.world.nodes p.dst).nextReadId

/-- A state in which a read was asked for stays one. -/
theorem AskedAt.keep {t readId : ℕ} {r : PendingRead} {v : Service}
    (h : AskedAt c s i t readId r v) {answers : List (Str × Str)} (hrows : RowStep c s s' answers)
    (hsent : ∀ p ∈ s'.world.sent, p ∈ s.world.sent ∨ ∀ m, p.msg = .readAck m →
      m.follower ∈ c.ids ∧ (v.world.nodes m.follower).term ≤ m.term) :
    AskedAt c s' i t readId r v where
  leader := h.leader
  committed := h.committed
  term := h.term
  index := h.index
  acks := h.acks
  replies p hp m hm hdst hid := by
    rcases hsent p hp with hold | hnew
    · exact h.replies p hold m hm hdst hid
    · exact hnew m hm
  row := by
    obtain ⟨row, hrow, hcmd, hle, hreads⟩ := h.row
    obtain ⟨row', hrow', hcmd', hinv, -⟩ := hrows.old row hrow
    exact ⟨row', hrow', by rw [hcmd', hcmd], by rwa [hinv], hreads⟩

/-- Whatever read a callback holds was asked for in some state of the run so far. -/
theorem Ran.held (h : Ran c s s' d e i y) (hrec : c.recordHistory = true)
    (hs : s'.steps = s.steps+1) (hk : Clients.Kept s.steps s.clients)
    (hrows : RowStep c s s' (onApplies y.calls)) (hkept : ReadsKept c s past)
    (hid : (s.world.nodes i).id = i)
    (hsent : ∀ p ∈ s'.world.sent, p ∈ s.world.sent ∨ ∀ m, p.msg = .readAck m →
      m.follower ∈ c.ids ∧ ∀ v ∈ s :: past, (v.world.nodes m.follower).term ≤ m.term)
    {readId : ℕ} {r : PendingRead} (hr : Held s.world (s.world.nodes i) e readId r) :
    ∃ v ∈ s :: past, AskedAt c s' i (s.world.nodes i).term readId r v := by
  have hkeep : ∀ {v r}, v ∈ s :: past → AskedAt c s i (s.world.nodes i).term readId r v →
      AskedAt c s' i (s.world.nodes i).term readId r v := by
    intro v r hv ha
    refine ha.keep hrows fun p hp => ?_
    rcases hsent p hp with hold | hnew
    · exact Or.inl hold
    · exact Or.inr fun m hm => ⟨(hnew m hm).1, (hnew m hm).2 v hv⟩
  cases hr with
  | kept hr =>
    obtain ⟨-, v, hv, ha⟩ := hkept.reads i h.server readId r hr
    exact ⟨v, hv, hkeep hv ha⟩
  | asked he hlead hct hnew =>
    subst he
    refine ⟨s, List.mem_cons_self, hlead, hct, rfl, rfl, fun q hq => ?_,
      fun p hp m hm hdst hread => ?_, ?_⟩
    · obtain rfl := Finset.mem_singleton.mp hq
      rw [hid]
      exact ⟨h.server, le_rfl⟩
    · rcases hsent p hp with hold | hfresh
      · -- no reply to this number has been sent so far
        have hlt := hkept.acks p hold m hm
        rw [hdst, hread, hnew] at hlt
        exact absurd hlt (Nat.lt_irrefl _)
      · exact ⟨(hfresh m hm).1, (hfresh m hm).2 s List.mem_cons_self⟩
    · cases h.offers with
      | ambient ha => exact ha.elim
      | read target hreads =>
        obtain ⟨row, hrow, hcmd⟩ := h.sent_row hrec hs hk rfl
        refine ⟨row, hrow, hcmd, ?_, hreads⟩
        rw [← hs]
        exact (hrows.kept.rows row hrow).2.1
  | @acked k p m r he hp hm hread hmterm hr =>
    subst he
    obtain ⟨-, v, hv, ha⟩ := hkept.reads i h.server readId r hr
    refine ⟨v, hv, ?_⟩
    -- the follower had the term of the reply when it answered
    have hdst : p.dst = i := by
      have htarget : s.world.sent[k]?.map Packet.dst = some i := h.target
      rw [hp] at htarget
      exact Option.some.inj htarget
    have hreply := ha.replies p (List.mem_of_getElem? hp) m hm hdst hread
    have hk := hkeep hv ha
    refine ⟨hk.leader, hk.committed, hk.term, hk.index, fun q hq => ?_, hk.replies, hk.row⟩
    rcases Finset.mem_insert.mp hq with rfl | hq
    · exact ⟨hreply.1, hmterm ▸ hreply.2⟩
    · exact hk.acks q hq

/-- What the callback of a step makes of the reads of its node. -/
theorem Ran.readStep (h : Ran c s s' d e i y) (hb : c.bugs = NO_BUGS)
    (ht : c.config.snapshotThreshold = 0) (hc : c.recordHistory = true)
    (hr : Run c (s' :: s :: past)) (hs : s'.steps = s.steps+1) (hkept : ReadsKept c s past) :
    ReadStep s.world (s.world.nodes i) e y := by
  obtain ⟨hk, hw⟩ := run_world hb hc hr.tail
  obtain ⟨a, ha⟩ := fixed_explained hb ht hw
  have hrel := ha.now s.world rfl
  have hfix := (h.step hc hs hk ((s :: past).map Service.world)).1
  exact callback_readStep ((hrel.nodes i h.server).plainly hb ht)
    (fun p hp => flat_images hrel ht hp) hfix.changes
    (fun id r hr => (hkept.reads i h.server id r hr).1) h.callback

/-- A new acknowledgement of a read bears the name of its sender and a term that the sender
has not been ahead of. -/
theorem Ran.sent_acks (h : Ran c s s' d e i y) (hb : c.bugs = NO_BUGS)
    (ht : c.config.snapshotThreshold = 0) (hc : c.recordHistory = true)
    (hr : Run c (s' :: s :: past)) (hs : s'.steps = s.steps+1) (hkept : ReadsKept c s past)
    {p : Packet} (hp : p ∈ s'.world.sent) : p ∈ s.world.sent ∨ ∀ m, p.msg = .readAck m →
      m.follower ∈ c.ids ∧ ∀ v ∈ s :: past, (v.world.nodes m.follower).term ≤ m.term := by
  have hread := h.readStep hb ht hc hr hs hkept
  obtain ⟨-, hw⟩ := run_world hb hc hr.tail
  obtain ⟨-, hw'⟩ := run_world hb hc hr
  have hid := (run_level hb ht hw s.world List.mem_cons_self i h.server).id
  rw [h.world] at hp
  rcases List.mem_append.mp hp with hp | hp
  · exact Or.inl hp
  · refine Or.inr fun m hm => ?_
    have hcall := mem_sends hp
    rw [hm] at hcall
    obtain ⟨hfollower, hterm, -⟩ := hread.acks _ m hcall
    have hnode : (s'.world.nodes i).term = y.node.term := by
      rw [h.world, World.put_nodes_self]
    rw [hfollower, hid, hterm, ← hnode]
    refine ⟨h.server, fun v hv => ?_⟩
    exact (run_lasts hb ht hw' v.world (mem_worlds (List.mem_cons_of_mem _ hv)) i h.server).term

theorem reads_kept (hb : c.bugs = NO_BUGS) (ht : c.config.snapshotThreshold = 0)
    (hc : c.recordHistory = true) (hr : Run c (s :: past)) : ReadsKept c s past := by
  refine run_induction (P := ReadsKept c) hb hc ?_ ?_ ?_ hr
  · refine ⟨fun i hi id r hr => ?_, nofun, nofun⟩
    cases hr
  · intro s s' past d hr hs hstood hrows ih
    refine ⟨fun i hi id r hr => ?_, ?_, ?_⟩
    · rw [hstood.world] at hr ⊢
      obtain ⟨hlead, v, hv, ha⟩ := ih.reads i hi id r hr
      refine ⟨hlead, v, List.mem_cons_of_mem _ hv, ha.keep hrows fun p hp => Or.inl ?_⟩
      rwa [hstood.world] at hp
    · rw [hstood.world]
      exact ih.pings
    · rw [hstood.world]
      exact ih.acks
  · intro s s' past d e i y hr hs hran hrows ih
    obtain ⟨hk, hw⟩ := run_world hb hc hr.tail
    obtain ⟨hfix, hstep⟩ := hran.step hc hs hk ((s :: past).map world)
    have hread := hran.readStep hb ht hc hr hs ih
    have hid := (run_level hb ht hw s.world List.mem_cons_self i hran.server).id
    have hnode : s'.world.nodes i = y.node := by
      rw [hran.world]
      exact World.put_nodes_self _ _ _
    have hother : ∀ l, l ≠ i → s'.world.nodes l = s.world.nodes l := by
      intro l hl
      rw [hran.world]
      exact World.put_nodes_ne _ _ hl
    have hnext : ∀ l, (s.world.nodes l).nextReadId ≤ (s'.world.nodes l).nextReadId := by
      intro l
      by_cases hl : l = i
      · subst hl
        exact (step_tends hb ht hw hfix hstep hran.server).next
      · rw [hother l hl]
    -- a new packet is from the running node
    have hnew : ∀ p ∈ s'.world.sent, p ∈ s.world.sent ∨ .send p.dst p.msg ∈ y.calls := by
      intro p hp
      rw [hran.world] at hp
      rcases List.mem_append.mp hp with hp | hp
      · exact Or.inl hp
      · exact Or.inr (mem_sends hp)
    have hsent := fun p hp => hran.sent_acks hb ht hc hr hs ih (p := p) hp
    refine ⟨fun l hl id r hr => ?_, fun p hp m hm => ?_, fun p hp m hm => ?_⟩
    · by_cases hli : l = i
      · subst hli
        rw [hnode] at hr ⊢
        obtain ⟨hheld, hlead, hterm⟩ := hread.reads id r hr
        obtain ⟨v, hv, ha⟩ := hran.held hc hs hk hrows ih hid hsent hheld
        rw [hterm]
        exact ⟨hlead, v, List.mem_cons_of_mem _ hv, ha⟩
      · rw [hother l hli] at hr ⊢
        obtain ⟨hlead, v, hv, ha⟩ := ih.reads l hl id r hr
        refine ⟨hlead, v, List.mem_cons_of_mem _ hv, ha.keep hrows fun p hp => ?_⟩
        rcases hsent p hp with hold | hfresh
        · exact Or.inl hold
        · exact Or.inr fun m hm => ⟨(hfresh m hm).1, (hfresh m hm).2 v hv⟩
    · rcases hnew p hp with hold | hcall
      · exact (ih.pings p hold m hm).trans_le (hnext _)
      · rw [hm] at hcall
        obtain ⟨hleader, hlt⟩ := hread.pings _ m hcall
        rw [hleader, hid, hnode]
        exact hlt
    · rcases hnew p hp with hold | hcall
      · exact (ih.acks p hold m hm).trans_le (hnext _)
      · rw [hm] at hcall
        obtain ⟨-, -, k, q, h, -, hq, hping, hread, hdst⟩ := hread.acks _ m hcall
        rw [hread, hdst]
        exact (ih.pings q (List.mem_of_getElem? hq) h hping).trans_le (hnext _)

end Service
end RaftVerified
