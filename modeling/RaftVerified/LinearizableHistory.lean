import Mathlib.Data.Finite.Prod
import Mathlib.Data.Set.Finite.Lemmas
import RaftVerified.Linearization
import RaftVerified.Linearizability
import RaftVerified.ServiceHistory

/-! Client histories are linearizable: every closed row has a slot in the one log that all
nodes have covered parts of, and the slots never contradict real time. -/
namespace RaftVerified
namespace Service

variable {c : ServiceSetup} {s : Service} {past ss : List Service} {row : HistoryEntry} {k : ℕ}
  {G : List Entry}

/-! ### The global log -/

/-- What the nodes of a run have covered, taken together. -/
structure Global (c : ServiceSetup) (ss : List Service) (G : List Entry) : Prop where
  covers : ∀ u ∈ ss, ∀ j ∈ c.ids, (u.world.nodes j).commitIndex ≤ G.length ∧
    ∀ k ≤ (u.world.nodes j).commitIndex, (u.world.nodes j).log.take k = G.take k
  covered : ∀ k < G.length, ∃ u ∈ ss, ∃ j ∈ c.ids, k < (u.world.nodes j).commitIndex
  increasing : Increasing G

theorem exists_global (hb : c.bugs = NO_BUGS) (ht : c.config.snapshotThreshold = 0)
    (hc : c.recordHistory = true) (hr : Run c (s :: past)) : ∃ G, Global c (s :: past) G := by
  obtain ⟨-, hw⟩ := run_world hb hc hr
  rcases List.eq_nil_or_concat c.ids with hnone | ⟨_, i, hids⟩
  · refine ⟨[], fun u _ j hj => ?_, nofun, List.Pairwise.nil⟩
    rw [hnone] at hj
    cases hj
  · have hi : i ∈ c.ids := by
      rw [hids]
      simp
    -- the node that ever covered most
    obtain ⟨⟨v, l⟩, ⟨hv, hl⟩, hmax⟩ := Set.exists_max_image
      {p : Service × NodeId | p.1 ∈ s :: past ∧ p.2 ∈ c.ids}
      (fun p => (p.1.world.nodes p.2).commitIndex)
      ((List.finite_toSet (s :: past)).prod (List.finite_toSet c.ids))
      ⟨(s, i), List.mem_cons_self, hi⟩
    have hlevel := run_level hb ht hw v.world (mem_worlds hv) l hl
    have hlen : ((v.world.nodes l).log.take (v.world.nodes l).commitIndex).length =
        (v.world.nodes l).commitIndex := by
      rw [List.length_take]
      exact Nat.min_eq_left hlevel.commit_le
    refine ⟨(v.world.nodes l).log.take (v.world.nodes l).commitIndex, fun u hu j hj => ?_,
      fun k hk => ⟨v, hv, l, hl, by rwa [hlen] at hk⟩, ?_⟩
    · have hle := hmax (u, j) ⟨hu, hj⟩
      rw [hlen]
      refine ⟨hle, fun k hk => ?_⟩
      rw [List.take_take, Nat.min_eq_left (hk.trans hle)]
      exact log_agree hb ht hw (mem_worlds hu) (mem_worlds hv) hj hl hk (hk.trans hle)
    · exact (run_increasing hb ht hw v.world (mem_worlds hv) l hl).1.isPrefix
        ( List.take_prefix _ _)

theorem Global.entry (hG : Global c ss G) {u : Service} (hu : u ∈ ss) {j : NodeId}
    (hj : j ∈ c.ids) (hk : k < (u.world.nodes j).commitIndex) :
    (u.world.nodes j).log[k]? = G[k]? := by
  have htake := (hG.covers u hu j hj).2 (k+1) hk
  rw [← List.getElem?_take_of_lt (Nat.lt_succ_self k), htake,
    List.getElem?_take_of_lt (Nat.lt_succ_self k)]

/-- A request stands at one place at most. -/
theorem Global.once (hG : Global c ss G) {l : ℕ} {e f : Entry} (he : G[k]? = some e)
    (hf : G[l]? = some f) (hcmd : e.command = f.command)
    (hs : (Command.decode e.command).isStructured = true) : k = l := by
  obtain ⟨hk, rfl⟩ := List.getElem?_eq_some_iff.mp he
  obtain ⟨hl, rfl⟩ := List.getElem?_eq_some_iff.mp hf
  have hpair := List.pairwise_iff_getElem.mp hG.increasing
  rcases Nat.lt_trichotomy k l with hlt | heq | hgt
  · have h := hpair k l hk hl hlt
    rw [Later, ← hcmd] at h
    exact absurd (h hs hs rfl) (lt_irrefl _)
  · exact heq
  · have h := hpair l k hl hk hgt
    rw [Later, ← hcmd] at h
    exact absurd (h hs hs rfl) (lt_irrefl _)

/-! ### Slots -/

/-- The row stands at entry `k` of the global log, or reads the state before it. -/
structure Slot (c : ServiceSetup) (ss : List Service) (G : List Entry) (row : HistoryEntry)
    (k : ℕ) : Prop where
  le : k ≤ G.length
  reached : ∃ u ∈ ss, u.steps ≤ Linearizability.ret row ∧ ∃ j ∈ c.ids,
    k ≤ (u.world.nodes j).commitIndex ∧
      (¬ Reads c row.command.encode → k < (u.world.nodes j).commitIndex)
  floor : ∀ v ∈ ss, v.steps < row.invokeStep → ∀ l ∈ c.ids, (v.world.nodes l).commitIndex ≤ k
  logged : ¬ Reads c row.command.encode → (∃ e, G[k]? = some e ∧
    e.command = row.command.encode) ∧
      row.observed = some ((replay (G.take k)).apply row.command).2
  read : Reads c row.command.encode →
    row.observed = some ((replay (G.take k)).applyRead row.command)

theorem exists_slot (hb : c.bugs = NO_BUGS) (ht : c.config.snapshotThreshold = 0)
    (hc : c.recordHistory = true) (hr : Run c (s :: past)) (hG : Global c (s :: past) G)
    (hrow : row ∈ s.clients.history) (hdone : row.completed = true) :
    ∃ k, Slot c (s :: past) G row k := by
  obtain ⟨n, hn⟩ := Option.isSome_iff_exists.mp hdone
  have hret : Linearizability.ret row = n := by
    rw [Linearizability.ret, hn]
    rfl
  obtain ⟨hk, hw⟩ := run_world hb hc hr
  cases rows_placed hb ht hc hr row hrow n hn with
  | @logged u j k entry hu hle hj hlt he hcmd hobs =>
    obtain ⟨hlen, htake⟩ := hG.covers u hu j hj
    have hget := (hG.entry hu hj hlt).symm.trans he
    obtain ⟨row', hrow', hcmd', -, hreads⟩ := logs_requested hb ht hc hr u hu j hj entry
      (List.mem_of_getElem? he)
    rw [hcmd] at hreads
    refine ⟨k, by omega, ⟨u, hu, hret ▸ hle, j, hj, hlt.le, fun _ => hlt⟩,
      fun v hv hinv l hl => ?_, fun _ => ⟨⟨entry, hget, hcmd⟩, ?_⟩, fun h => absurd h hreads⟩
    · -- before the row was opened no log held its request
      by_contra hgt
      have hold := (hG.entry hv hl (not_le.mp hgt)).trans hget
      obtain ⟨row₁, hrow₁, hcmd₁, hinv₁, -⟩ := logs_requested hb ht hc hr v hv l hl entry
        (List.mem_of_getElem? hold)
      obtain rfl := hk.unique hrow₁ hrow (hcmd₁.trans hcmd)
      omega
    · rw [← htake k hlt.le, hobs]
  | @read u j hu hle hj hreads hobs hfloor =>
    obtain ⟨hlen, htake⟩ := hG.covers u hu j hj
    refine ⟨(u.world.nodes j).commitIndex, hlen, ⟨u, hu, hret ▸ hle, j, hj, le_rfl,
      fun h => absurd hreads h⟩, hfloor, fun h => absurd hreads h, fun _ => ?_⟩
    rw [← htake _ le_rfl, hobs]

/-- What an operation of the sequential store does is what the state machine does. -/
theorem apply_execute (kv : KVStateMachine) (row : HistoryEntry) :
    ((kv.execute row.command).1.store, (kv.execute row.command).2) =
      Linearizability.apply kv.store row := by
  obtain ⟨clientId, reqId, op, key, value, expected, invokeStep, returnStep, observed⟩ := row
  unfold KVStateMachine.execute Linearizability.apply HistoryEntry.command
  cases op with
  | cas =>
    dsimp only
    split <;> rfl
  | _ => rfl

/-- A logged row takes the store from its entry to the next. -/
theorem Slot.place_logged (h : Slot c ss G row k) (hG : Global c ss G) (hsent : row.Sent)
    (hl : ¬ Reads c row.command.encode) : k < G.length ∧
      Linearizability.place (replay (G.take k)).store row =
        some (replay (G.take (k+1))).store := by
  obtain ⟨⟨entry, he, hcmd⟩, hobs⟩ := h.logged hl
  have hdecode : Command.decode entry.command = row.command := by rw [hcmd, hsent.decode]
  have hfresh := hG.increasing.fresh he (by rw [hdecode]; exact hsent.structured)
  rw [hdecode] at hfresh
  obtain ⟨hstore, hres⟩ := apply_fresh hsent.structured hfresh
  have happly := apply_execute (replay (G.take k)) row
  refine ⟨(List.getElem?_eq_some_iff.mp he).1, ?_⟩
  rw [Consensus.take_succ_of_getElem? he, replay_append, hdecode, hstore]
  unfold Linearizability.place
  rw [← happly]
  dsimp only
  rw [hobs, hres, if_pos rfl]

/-- A row that reads leaves the store as it is. -/
theorem Slot.place_read (h : Slot c ss G row k) (hsent : row.Sent)
    (hr : Reads c row.command.encode) :
    Linearizability.place (replay (G.take k)).store row = some (replay (G.take k)).store := by
  have hop : row.op = .get := by
    have hget := hr.2
    rwa [hsent.decode] at hget
  have hobs := h.read hr
  have hcmd : row.command.op = .get := hop
  rw [KVStateMachine.applyRead, if_pos hcmd] at hobs
  unfold Linearizability.place Linearizability.apply
  rw [hop]
  dsimp only
  rw [hobs]
  exact if_pos rfl

/-- Slots never contradict real time. -/
theorem Slot.order (hk : Clients.Kept s.steps s.clients) {row' : HistoryEntry} {l : ℕ}
    (h : Slot c ss G row k) (h' : Slot c ss G row' l)
    (hrow : row ∈ s.clients.history) (hdone : row.completed = true)
    (hbefore : Linearizability.precedes row row') :
    row.invokeStep < row'.invokeStep ∧ k ≤ l ∧ (¬ Reads c row.command.encode → k < l) := by
  obtain ⟨n, hn⟩ := Option.isSome_iff_exists.mp hdone
  have hret : Linearizability.ret row = n := by
    rw [Linearizability.ret, hn]
    rfl
  have hinv := ((hk.rows row hrow).2.2.1 n hn).1
  have hbefore : Linearizability.ret row < row'.invokeStep := hbefore
  obtain ⟨u, hu, hle, j, hj, hreach, hpast⟩ := h.reached
  have hfloor := h'.floor u hu (by omega) j hj
  refine ⟨by omega, hreach.trans hfloor, fun hl => (hpast hl).trans_le hfloor⟩

/-- A cluster that records no history has none. -/
theorem no_history (hb : c.bugs = NO_BUGS) (hc : c.recordHistory = false) (hr : Run c ss) :
    ∀ s ∈ ss, s.clients.history = [] := by
  have happly : ∀ (answers : List (Str × Str)) (n : ℤ) (d : Clients), d.history = [] →
      (answers.foldl (fun d r => d.onApply c n r.1 r.2) d).history = [] := by
    intro answers n
    induction answers with
    | nil => exact fun d h => h
    | cons r rest ih =>
      intro d h
      refine ih _ ?_
      unfold Clients.onApply Clients.close
      dsimp only
      rw [if_pos hc]
      split
      · exact h
      · exact (Clients.moveOn_rows _ _ d).1.trans h
  induction hr with
  | init =>
    intro s hs
    obtain rfl := List.mem_singleton.mp hs
    rfl
  | @step s s' past e hr hp hs ih =>
    intro u hu
    rcases List.mem_cons.mp hu with rfl | hu
    · have hold := ih s List.mem_cons_self
      have htried : ∀ d, d = s.clients ∨ d = (s.tries c).2 → d.history = [] := by
        rintro d (rfl | rfl)
        · exact hold
        · unfold tries Clients.attempt Clients.invoke
          dsimp only
          split
          · exact hold
          · rw [if_pos hc]
            exact hold
      obtain ⟨-, d, h | ⟨e, i, y, h⟩⟩ := step_cases hb hp hs
      · rw [h.clients]
        exact htried d h.tried
      · rw [h.clients]
        exact happly _ _ d (htried d h.offers.tried)
    · exact ih u hu

/-! ### The order -/

/-- With a slot for each closed row, every entry of the global log has its one request, and
every request and read sees the store of its slot. -/
theorem slotted_rows (hb : c.bugs = NO_BUGS) (ht : c.config.snapshotThreshold = 0)
    (hc : c.recordHistory = true) (hr : Run c (s :: past)) (hG : Global c (s :: past) G)
    {slot : HistoryEntry → ℕ} (hslot : ∀ row ∈ s.clients.history.filter HistoryEntry.completed,
      Slot c (s :: past) G row (slot row)) :
    Linearization.Slotted Linearizability.place (fun k => (replay (G.take k)).store) G.length
      (fun row => ¬ Reads c row.command.encode) slot
      (s.clients.history.filter HistoryEntry.completed) := by
  obtain ⟨hk, -⟩ := run_world hb hc hr
  have hsent : ∀ row ∈ s.clients.history.filter HistoryEntry.completed, row.Sent :=
    fun row hrow => (hk.rows row (List.mem_of_mem_filter hrow)).1
  refine ⟨?_, ?_, ?_, ?_⟩
  · intro row hrow hread
    exact ⟨(hslot row hrow).le, (hslot row hrow).place_read (hsent row hrow) (not_not.mp hread)⟩
  · exact fun row hrow hl => (hslot row hrow).place_logged hG (hsent row hrow) hl
  · -- one entry is the request of one row
    intro row hrow row' hrow' hl hl' heq
    obtain ⟨⟨e, he, hcmd⟩, -⟩ := (hslot row hrow).logged hl
    obtain ⟨⟨f, hf, hcmd'⟩, -⟩ := (hslot row' hrow').logged hl'
    rw [heq] at he
    obtain rfl := Option.some.inj (he.symm.trans hf)
    exact hk.unique (List.mem_of_mem_filter hrow) (List.mem_of_mem_filter hrow')
      (hcmd.symm.trans hcmd')
  · -- every entry has been answered
    intro k hlt
    obtain ⟨u, hu, j, hj, hcov⟩ := hG.covered k hlt
    have he := hG.entry hu hj hcov
    rw [List.getElem?_eq_getElem hlt] at he
    obtain ⟨row, hrow, hcmd, hret⟩ := covered_answered hb ht hc hr u hu j hj k hcov _ he
    obtain ⟨-, -, -, -, hl⟩ := logs_requested hb ht hc hr u hu j hj _
      (List.mem_of_getElem? he)
    rw [← hcmd] at hl
    have hmem : row ∈ s.clients.history.filter HistoryEntry.completed :=
      List.mem_filter.mpr ⟨hrow, Option.isSome_iff_ne_none.mpr hret⟩
    refine ⟨row, hmem, hl, ?_⟩
    obtain ⟨⟨f, hf, hcmd'⟩, -⟩ := (hslot row hmem).logged hl
    refine hG.once hf (List.getElem?_eq_getElem hlt) (hcmd'.trans hcmd) ?_
    rw [hcmd', (hsent row hmem).decode]
    exact (hsent row hmem).structured

/-- In every run of a cluster without injected defects, with a fixed voting set and without
compaction, the closed rows of the client history can be put in an order that respects real
time and in which each row observed what the sequential store answers, starting empty. -/
theorem histories_linearizable (hb : c.bugs = NO_BUGS) (ht : c.config.snapshotThreshold = 0)
    (hr : Run c (s :: past)) : Linearization.Completes Linearizability.place
      Linearizability.precedes ∅ (s.clients.history.filter HistoryEntry.completed) := by
  by_cases hc : c.recordHistory = true
  · obtain ⟨G, hG⟩ := exists_global hb ht hc hr
    obtain ⟨hk, -⟩ := run_world hb hc hr
    have hexists : ∀ row, ∃ k, row ∈ s.clients.history.filter HistoryEntry.completed →
        Slot c (s :: past) G row k := by
      intro row
      by_cases hrow : row ∈ s.clients.history.filter HistoryEntry.completed
      · obtain ⟨hmem, hdone⟩ := List.mem_filter.mp hrow
        obtain ⟨k, hslot⟩ := exists_slot hb ht hc hr hG hmem hdone
        exact ⟨k, fun _ => hslot⟩
      · exact ⟨0, fun h => absurd h hrow⟩
    choose slot hslot using hexists
    have hslotted := slotted_rows hb ht hc hr hG hslot
    refine Linearization.completes_of_slotted hslotted ?_ HistoryEntry.invokeStep ?_
    · exact (List.Nodup.of_map _ hk.once).filter _
    · intro row hrow row' hrow' hbefore
      obtain ⟨hmem, hdone⟩ := List.mem_filter.mp hrow
      exact (hslot row hrow).order hk (hslot row' hrow') hmem hdone hbefore
  · have hnone := no_history hb (Bool.eq_false_of_not_eq_true hc) hr s List.mem_cons_self
    rw [hnone]
    exact ⟨[], .refl _, List.Pairwise.nil, ∅, rfl⟩

/-- Three nodes whose leader confirms its reads. -/
def indexed : ServiceSetup where
  numNodes := 3
  readIndex := true

/-- Server 0 is elected, a put is logged and applied there, and a get is confirmed by server 1
while another put and a compare-and-set are still open. -/
def askedLeader : List Service :=
  follow indexed [init indexed] [.callback (.electionTimeout 0 1), .callback (.deliver 0),
    .callback (.deliver 2), .clientTick 0, .callback (.deliver 5), .callback (.deliver 7),
    .quiet, .clientTick 0, .clientTick 0, .clientTick 1, .callback (.deliver 10),
    .callback (.deliver 12)]

theorem asked_history_linearizable : ∃ s past, Run indexed (s :: past) ∧
    (s.clients.history.filter HistoryEntry.completed).map (fun row => (row.op, row.observed)) =
      [(.put, some "ok".toList), (.get, some [])] ∧
    Linearization.Completes Linearizability.place Linearizability.precedes ∅
      (s.clients.history.filter HistoryEntry.completed) := by
  have hr : Run indexed askedLeader := follow_run .init _
  have hrows : askedLeader.head?.map (fun s =>
      (s.clients.history.filter HistoryEntry.completed).map fun row => (row.op, row.observed)) =
      some [(.put, some "ok".toList), (.get, some [])] := by
    decide +kernel
  cases hs : askedLeader with
  | nil =>
    rw [hs] at hr
    cases hr
  | cons s past =>
    rw [hs] at hr hrows
    exact ⟨s, past, hr, Option.some.inj hrows, histories_linearizable rfl rfl hr⟩

end Service
end RaftVerified
