import RaftVerified.Linearization
import RaftVerified.Linearizability
import RaftVerified.ServiceInvariant

/-! The histories that the clients of a cluster observe: every answer is what a sequential
store gives at a place in one order that never contradicts real time. -/
namespace RaftVerified
namespace Service
open Consensus

variable {c : ServiceSetup} {s s' u : Service} {past ss : List Service} {i j : NodeId} {k : ℕ}
  {row : HistoryEntry} {d : Clients} {e : Event} {y : Exec} {n : ℤ}

/-! ### Places -/

/-- Where a row that was answered by step `n` stands among what some node had covered by then:
its request is entry `k`, or it read the state that the node had reached, and no node had got
further before the row was opened. -/
inductive Placed (c : ServiceSetup) (ss : List Service) (row : HistoryEntry) (n : ℤ) : Prop
  | logged {u : Service} {j : NodeId} {k : ℕ} {entry : Entry} : u ∈ ss → u.steps ≤ n →
      j ∈ c.ids → k < (u.world.nodes j).commitIndex → (u.world.nodes j).log[k]? = some entry →
      entry.command = row.command.encode →
      row.observed = some ((replay ((u.world.nodes j).log.take k)).apply row.command).2 →
      Placed c ss row n
  | read {u : Service} {j : NodeId} : u ∈ ss → u.steps ≤ n → j ∈ c.ids →
      Reads c row.command.encode →
      row.observed = some ((replay ((u.world.nodes j).log.take
        (u.world.nodes j).commitIndex)).applyRead row.command) →
      (∀ v ∈ ss, v.steps < row.invokeStep → ∀ l ∈ c.ids,
        (v.world.nodes l).commitIndex ≤ (u.world.nodes j).commitIndex) → Placed c ss row n

theorem Placed.keep (h : Placed c ss row n) (hle : row.invokeStep ≤ s'.steps) :
    Placed c (s' :: ss) row n := by
  cases h with
  | logged hu hn hj hk he hcmd hobs =>
    exact .logged (List.mem_cons_of_mem _ hu) hn hj hk he hcmd hobs
  | read hu hn hj hreads hobs hfloor =>
    refine .read (List.mem_cons_of_mem _ hu) hn hj hreads hobs fun v hv hlt => ?_
    rcases List.mem_cons.mp hv with rfl | hv
    · omega
    · exact hfloor v hv hlt

/-- A row that the callback of a step has answered has its place. -/
theorem Ran.placed (h : Ran c s s' d e i y) (hb : c.bugs = NO_BUGS)
    (ht : c.config.snapshotThreshold = 0) (hc : c.recordHistory = true)
    (hr : Run c (s' :: s :: past)) (hs : s'.steps = s.steps+1)
    (hrows : RowStep c s s' (onApplies y.calls)) (hrow : row ∈ s'.clients.history)
    {r : Str × Str} (hmem : r ∈ onApplies y.calls) (hcmd : r.1 = row.command.encode)
    (hobs : row.observed = some r.2) : Placed c (s' :: s :: past) row s'.steps := by
  obtain ⟨hk, hw⟩ := run_world hb hc hr.tail
  obtain ⟨-, hw'⟩ := run_world hb hc hr
  have hkept := reads_kept hb ht hc hr.tail
  have hread := h.readStep hb ht hc hr hs hkept
  have hn := run_level hb ht hw s.world List.mem_cons_self i h.server
  have hm := run_level hb ht hw' s'.world List.mem_cons_self i h.server
  have hnode : s'.world.nodes i = y.node := by
    rw [h.world]
    exact World.put_nodes_self _ _ _
  have hdecode := (hrows.kept.rows row hrow).1.decode
  rcases hread.answers r hmem with hrep | hserve
  · rw [← hnode, hn.kv, hn.settled, hm.settled] at hrep
    have hlt : (s.world.nodes i).commitIndex < (s'.world.nodes i).commitIndex := by
      by_contra hge
      rw [Nat.sub_eq_zero_of_le (not_lt.mp hge), List.take_zero] at hrep
      cases hrep
    rw [log_agree hb ht hw' (mem_worlds (List.mem_cons_of_mem _ List.mem_cons_self))
      (mem_worlds List.mem_cons_self) h.server h.server le_rfl hlt.le] at hrep
    obtain ⟨q, entry, -, hq, he, rfl⟩ := mem_reports_between.mp hrep
    have hcmd : entry.command = row.command.encode := hcmd
    refine .logged List.mem_cons_self le_rfl h.server hq he hcmd ?_
    rw [hobs]
    dsimp only
    rw [hcmd, hdecode]
  · obtain ⟨readId, q, hheld, hmajor, hindex, rfl⟩ := hserve.held
    have hcmd : q.command = row.command.encode := hcmd
    obtain ⟨v, hv, ha⟩ := h.held hc hs hk hrows hkept hn.id
      (fun p hp => h.sent_acks hb ht hc hr hs hkept hp) hheld
    obtain ⟨later, before, hsplit⟩ := List.append_of_mem hv
    -- a majority confirmed the leader of that moment, so it covered what anyone had
    have hcover : ∀ x ∈ v :: before, ∀ l ∈ c.ids,
        (x.world.nodes l).commitIndex ≤ (v.world.nodes i).commitIndex := by
      have hrun : Run c (later ++ v :: before) := hsplit ▸ hr.tail
      have hrun := hrun.earlier
      obtain ⟨-, hwv⟩ := run_world hb hc hrun
      rw [(fixed_nodes hw s.world List.mem_cons_self i h.server).voters] at hmajor
      intro x hx l hl
      refine read_index_covers hb ht hwv h.server ha.leader ha.committed hmajor (fun p hp => ?_)
        x.world (mem_worlds hx) l hl
      rw [ha.term]
      exact ha.acks p hp
    have hcommit : (s'.world.nodes i).commitIndex = (s.world.nodes i).commitIndex := by
      rw [hnode]
      exact hserve.commit
    obtain ⟨row', hrow', hcmd', hinv, hreads⟩ := ha.row
    obtain rfl := hrows.kept.unique hrow' hrow (hcmd'.trans hcmd)
    refine .read List.mem_cons_self le_rfl h.server (hcmd ▸ hreads) ?_ fun x hx hlt l hl => ?_
    · rw [hobs]
      dsimp only
      rw [hcmd, hdecode, hcommit, hnode, hserve.log, hn.kv]
    · have hrun : Run c ((s' :: later) ++ v :: before) := by
        rw [List.cons_append, ← hsplit]
        exact hr
      have hx : x ∈ v :: before := by
        refine mem_before hb hrun ?_ (by omega)
        rw [List.cons_append, ← hsplit]
        exact hx
      have hle := hcover x hx l hl
      have hidx := ha.index
      have hsettled := hn.settled
      omega

theorem rows_placed (hb : c.bugs = NO_BUGS) (ht : c.config.snapshotThreshold = 0)
    (hc : c.recordHistory = true) (hr : Run c (s :: past)) :
    ∀ row ∈ s.clients.history, ∀ n ∈ row.returnStep, Placed c (s :: past) row n := by
  refine run_induction (P := fun s past => ∀ row ∈ s.clients.history, ∀ n ∈ row.returnStep,
    Placed c (s :: past) row n) hb hc nofun ?_ ?_ hr
  · intro s s' past d _ hs _ hrows ih row hrow n hn
    rcases hrows.new row hrow with hold | hopen | ⟨r, hr, -⟩
    · exact (ih row hold n hn).keep (hrows.kept.rows row hrow).2.1
    · rw [hopen] at hn
      cases hn
    · cases hr
  · intro s s' past d e i y hr hs hran hrows ih row hrow n hn
    rcases hrows.new row hrow with hold | hopen | ⟨r, hmem, hcmd, hret, hobs⟩
    · exact (ih row hold n hn).keep (hrows.kept.rows row hrow).2.1
    · rw [hopen] at hn
      cases hn
    · obtain rfl := Option.some.inj (hret.symm.trans hn)
      exact hran.placed hb ht hc hr hs hrows hrow hmem hcmd hobs

/-- The entry has a row that has been answered. -/
def Answered (s : Service) (entry : Entry) : Prop :=
  ∃ row ∈ s.clients.history, row.command.encode = entry.command ∧ row.returnStep ≠ none

theorem Answered.keep {answers : List (Str × Str)} {entry : Entry} (h : Answered s entry)
    (hrows : RowStep c s s' answers) : Answered s' entry := by
  obtain ⟨row, hrow, hcmd, hret⟩ := h
  obtain ⟨row', hrow', -, -, heq⟩ := hrows.old row hrow
  obtain rfl := heq hret
  exact ⟨row', hrow', hcmd, hret⟩

/-- Whatever a node ever covered has been answered. -/
theorem covered_answered (hb : c.bugs = NO_BUGS) (ht : c.config.snapshotThreshold = 0)
    (hc : c.recordHistory = true) (hr : Run c (s :: past)) : ∀ u ∈ s :: past, ∀ j ∈ c.ids,
      ∀ k < (u.world.nodes j).commitIndex, ∀ entry, (u.world.nodes j).log[k]? = some entry →
        Answered s entry := by
  refine run_induction (P := fun s past => ∀ u ∈ s :: past, ∀ j ∈ c.ids,
    ∀ k < (u.world.nodes j).commitIndex, ∀ entry, (u.world.nodes j).log[k]? = some entry →
      Answered s entry) hb hc ?_ ?_ ?_ hr
  · intro u hu j _ k hk
    obtain rfl := List.mem_singleton.mp hu
    cases hk
  · intro s s' past d _ hs hstood hrows ih u hu j hj k hk entry he
    rcases List.mem_cons.mp hu with rfl | hu
    · rw [hstood.world] at hk he
      exact (ih s List.mem_cons_self j hj k hk entry he).keep hrows
    · exact (ih u hu j hj k hk entry he).keep hrows
  · intro s s' past d e i y hr hs hran hrows ih u hu j hj k hk entry he
    rcases List.mem_cons.mp hu with rfl | hu
    · have hold : ∀ k < (s.world.nodes j).commitIndex,
          (s.world.nodes j).log[k]? = some entry → Answered u entry :=
        fun k hk he => (ih s List.mem_cons_self j hj k hk entry he).keep hrows
      by_cases hji : j = i
      · subst hji
        obtain ⟨-, hw⟩ := run_world hb hc hr.tail
        obtain ⟨-, hw'⟩ := run_world hb hc hr
        have hmem := mem_worlds (List.mem_cons_of_mem u (List.mem_cons_self (a := s) (l := past)))
        have hn := run_level hb ht hw s.world List.mem_cons_self j hj
        have hm := run_level hb ht hw' u.world List.mem_cons_self j hj
        rcases Nat.lt_or_ge k (s.world.nodes j).commitIndex with hlt | hge
        · have htake := log_agree hb ht hw' hmem (mem_worlds List.mem_cons_self) hj hj
            (Nat.succ_le_of_lt hlt) (Nat.succ_le_of_lt hk)
          refine hold k hlt ?_
          rw [← List.getElem?_take_of_lt (Nat.lt_succ_self k), htake,
            List.getElem?_take_of_lt (Nat.lt_succ_self k), he]
        -- what the node has just covered, it has just answered
        · have htake := log_agree hb ht hw' hmem (mem_worlds List.mem_cons_self) hj hj
            le_rfl (hge.trans hk.le)
          have hread := hran.readStep hb ht hc hr hs (reads_kept hb ht hc hr.tail)
          have hnode : u.world.nodes j = y.node := by
            rw [hran.world]
            exact World.put_nodes_self _ _ _
          have hrep := hread.reported (entry.command, ((replay ((u.world.nodes j).log.take
            k)).apply (Command.decode entry.command)).2) (by
              rw [← hnode, hn.kv, hn.settled, hm.settled, htake]
              exact mem_reports_between.mpr ⟨k, entry, hge, hk, he, rfl⟩)
          obtain ⟨row, hrow, hcmd, -⟩ := logs_requested hb ht hc hr u List.mem_cons_self j hj
            entry (List.mem_of_getElem? he)
          exact ⟨row, hrow, hcmd, hrows.answered _ hrep row hrow hcmd⟩
      · have hnode : u.world.nodes j = s.world.nodes j := by
          rw [hran.world]
          exact World.put_nodes_ne _ _ hji
        rw [hnode] at hk he
        exact hold k hk he
    · exact (ih u hu j hj k hk entry he).keep hrows

end Service
end RaftVerified
