import RaftVerified.RaftElections
import RaftVerified.RaftLedger
import RaftVerified.KVSessions

/-! No log holds a client request twice: a leader's client index covers its log, every other
log is part of what some leader had, and so the session table never meets a duplicate. -/
namespace RaftVerified
open Consensus

variable {c : Setup} {a : Protocol} {w : World} {ws past : List World} {n m : RaftNode}

/-- `f` is a later request of the same client than `e`, if both are client requests. -/
def Later (e f : Entry) : Prop :=
  (Command.decode e.command).isStructured = true →
  (Command.decode f.command).isStructured = true →
  (Command.decode e.command).clientId = (Command.decode f.command).clientId →
  (Command.decode e.command).reqId < (Command.decode f.command).reqId

/-- The request ids of each client strictly increase along the log. -/
def Increasing (entries : List Entry) : Prop := entries.Pairwise Later

theorem Increasing.isPrefix {xs ys : List Entry} (h : Increasing ys) (hp : xs <+: ys) :
    Increasing xs := List.Pairwise.sublist hp.sublist h

/-- The index knows every request of the log. -/
def Indexed (index : Dict ℤ ℤ) (entries : List Entry) : Prop :=
  ∀ e ∈ entries, (Command.decode e.command).isStructured = true →
    (Command.decode e.command).reqId ≤
      (index.lookup (Command.decode e.command).clientId).getD (-1)

/-! ### The client index -/

/-- One round of `_rebuild_client_index`. -/
def noteEntry (index : Dict ℤ ℤ) (e : Entry) : Dict ℤ ℤ :=
  let cmd := Command.decode e.command
  if cmd.isStructured = true ∧ (index.lookup cmd.clientId).getD (-1) < cmd.reqId then
    index.insert cmd.clientId cmd.reqId
  else index

theorem noteEntry_le (index : Dict ℤ ℤ) (e : Entry) (client : ℤ) :
    (index.lookup client).getD (-1) ≤ ((noteEntry index e).lookup client).getD (-1) := by
  unfold noteEntry
  dsimp only
  split
  next hlt =>
    rw [Dict.lookup_insert_eq]
    split
    next heq =>
      rw [heq]
      exact hlt.2.le
    next => exact le_rfl
  next => exact le_rfl

theorem noteEntry_covers (index : Dict ℤ ℤ) {e : Entry}
    (hs : (Command.decode e.command).isStructured = true) :
    (Command.decode e.command).reqId ≤
      ((noteEntry index e).lookup (Command.decode e.command).clientId).getD (-1) := by
  unfold noteEntry
  dsimp only
  split
  next => rw [Finmap.lookup_insert, Option.getD_some]
  next hge => exact not_lt.mp fun hlt => hge ⟨hs, hlt⟩

theorem foldl_noteEntry (entries : List Entry) (index : Dict ℤ ℤ) :
    (∀ client, (index.lookup client).getD (-1) ≤
      ((entries.foldl noteEntry index).lookup client).getD (-1)) ∧
      Indexed (entries.foldl noteEntry index) entries := by
  induction entries generalizing index with
  | nil => exact ⟨fun _ => le_rfl, nofun⟩
  | cons e rest ih =>
    obtain ⟨hle, hcov⟩ := ih (noteEntry index e)
    refine ⟨fun client => (noteEntry_le index e client).trans (hle client), ?_⟩
    intro f hf hs
    rcases List.mem_cons.mp hf with rfl | hf
    · exact (noteEntry_covers index hs).trans (hle _)
    · exact hcov f hf hs

theorem rebuildClientIndex_indexed (entries : List Entry) :
    Indexed (RaftNode.rebuildClientIndex entries) entries := (foldl_noteEntry entries ∅).2

/-- A request that is no retry is later than every request in an indexed log. -/
theorem append_increasing {command : Str} {t : ℕ} (hinc : Increasing n.log)
    (hidx : Indexed n.clientIndex n.log)
    (hnew : Exec.isRetry n (Command.decode command) = false) :
    Increasing (n.log ++ [{ term := t, command }]) := by
  apply List.pairwise_append.mpr
  refine ⟨hinc, List.pairwise_singleton _ _, ?_⟩
  intro e he f hf hes hfs hclient
  obtain rfl := List.mem_singleton.mp hf
  have hle := hidx e he hes
  have hgt : (n.clientIndex.lookup (Command.decode command).clientId).getD (-1) <
      (Command.decode command).reqId := by
    unfold Exec.isRetry at hnew
    have hfs : (Command.decode command).isStructured = true := hfs
    rw [hfs, Bool.true_and] at hnew
    exact not_le.mp (of_decide_eq_false hnew)
  rw [hclient] at hle
  exact hle.trans_lt hgt

theorem append_indexed {command : Str} {t : ℕ} (hidx : Indexed n.clientIndex n.log)
    (hnew : Exec.isRetry n (Command.decode command) = false) :
    Indexed (if (Command.decode command).isStructured then
        n.clientIndex.insert (Command.decode command).clientId (Command.decode command).reqId
      else n.clientIndex) (n.log ++ [{ term := t, command }]) := by
  intro e he hes
  rcases List.mem_append.mp he with he | he
  · have hle := hidx e he hes
    split
    next hfs =>
      rw [Dict.lookup_insert_eq]
      split
      next heq =>
        -- the new request id is above the one the index had
        unfold Exec.isRetry at hnew
        rw [hfs, Bool.true_and] at hnew
        have hgt := not_le.mp (of_decide_eq_false hnew)
        rw [heq] at hle
        exact hle.trans hgt.le
      next => exact hle
    next => exact hle
  · obtain rfl := List.mem_singleton.mp he
    have hes : (Command.decode command).isStructured = true := hes
    rw [if_pos hes, Finmap.lookup_insert]
    exact le_rfl

/-- A leader stays without duplicates, and its index covers its log. -/
theorem leads_increasing (h : Leads n m) (hinc : Increasing n.log)
    (hidx : n.role = .leader → Indexed n.clientIndex n.log) (hr : m.role = .leader) :
    Increasing m.log ∧ Indexed m.clientIndex m.log := by
  cases h with
  | follows hne => exact absurd hr hne
  | stays hlead hlog hindex =>
    rw [hlog, hindex]
    exact ⟨hinc, hidx hlead⟩
  | elected hlog hindex =>
    rw [hindex, hlog]
    exact ⟨hinc, rebuildClientIndex_indexed _⟩
  | appended command hlead hnew hlog hindex =>
    rw [hlog, hindex]
    exact ⟨append_increasing hinc (hidx hlead) hnew, append_indexed (hidx hlead) hnew⟩

/-! ### The session table -/

/-- What the session table holds for a client is one of its requests in the log. -/
theorem replay_sessions (entries : List Entry) (client : ℤ) {last : ℤ × Str}
    (h : (replay entries).sessions.lookup client = some last) :
    ∃ e ∈ entries, (Command.decode e.command).isStructured = true ∧
      (Command.decode e.command).clientId = client ∧ (Command.decode e.command).reqId = last.1 := by
  induction entries using List.reverseRecOn with
  | nil => cases h
  | append_singleton xs e ih =>
    rw [replay_append] at h
    rcases apply_sessions (replay xs) (Command.decode e.command) client with hsame | ⟨hs, hc, hr⟩
    · rw [hsame] at h
      obtain ⟨f, hf, hrest⟩ := ih h
      exact ⟨f, List.mem_append_left _ hf, hrest⟩
    · rw [h] at hr
      exact ⟨e, List.mem_append_right _ (List.mem_singleton_self e), hs, hc.symm,
        (Option.some.inj hr).symm⟩

/-- Where request ids increase, the session table never meets a duplicate. -/
theorem Increasing.fresh {entries : List Entry} (h : Increasing entries) {k : ℕ} {e : Entry}
    (he : entries[k]? = some e) (hs : (Command.decode e.command).isStructured = true) :
    (replay (entries.take k)).isDuplicate (Command.decode e.command) = false := by
  unfold KVStateMachine.isDuplicate
  split
  next last hlast =>
    obtain ⟨f, hf, hfs, hclient, hreq⟩ := replay_sessions _ _ hlast
    obtain ⟨j, hj⟩ := List.getElem?_of_mem hf
    have hjk : j < k := by
      have hlen := length_lt_of_getElem? hj
      rw [List.length_take] at hlen
      omega
    rw [List.getElem?_take_of_lt hjk] at hj
    obtain ⟨hjl, rfl⟩ := List.getElem?_eq_some_iff.mp hj
    obtain ⟨hkl, rfl⟩ := List.getElem?_eq_some_iff.mp he
    have hlt := List.pairwise_iff_getElem.mp h j k hjl hkl hjk hfs hs hclient
    rw [← hreq]
    exact decide_eq_false (not_le.mpr hlt)
  next => rfl

/-! ### Runs -/

namespace Explains

/-- Every log is part of what some leader of the run had. -/
theorem log_of_leader (h : Explains c a (w :: past)) {i : NodeId} (hi : i ∈ c.ids)
    (hne : (w.nodes i).logical ≠ []) : ∃ v ∈ w :: past, ∃ j ∈ c.ids,
      (v.nodes j).role = .leader ∧ (w.nodes i).logical <+: (v.nodes j).logical := by
  have hroot := ((h.now w rfl).nodes i hi).rooted h.inv
  obtain ⟨hled, hpre⟩ := rooted_trunk hroot hne
  obtain ⟨v, hv, j, hj, hr, -, hlog⟩ := h.leaders _ hled
  rw [← hlog] at hpre
  exact ⟨v, hv, j, hj, hr, hpre⟩

end Explains

theorem run_increasing (hb : c.bugs = NO_BUGS) (ht : c.config.snapshotThreshold = 0)
    (hr : Run c FixedVoters ws) : ∀ w ∈ ws, ∀ i ∈ c.ids, Increasing (w.nodes i).log ∧
      ((w.nodes i).role = .leader → Indexed (w.nodes i).clientIndex (w.nodes i).log) := by
  induction hr with
  | init =>
    intro w hw i _
    obtain rfl := List.mem_singleton.mp hw
    exact ⟨List.Pairwise.nil, nofun⟩
  | @step w w' past e hrun hall hstep ih =>
    obtain ⟨a, ha⟩ := fixed_explained hb ht (hrun.step hall hstep)
    have hok : ∀ v ∈ w' :: w :: past, ∀ i ∈ c.ids, NodeOk c (v.nodes i) := by
      intro v hv i hi
      obtain ⟨b, -, -, hrel⟩ := ha.past v hv
      exact (hrel.nodes i hi).ok
    have hnow := ih w List.mem_cons_self
    -- a leader of the new state has moved as `Leads` says, or not at all
    have hlead : ∀ i ∈ c.ids, (w'.nodes i).role = .leader →
        Increasing (w'.nodes i).log ∧ Indexed (w'.nodes i).clientIndex (w'.nodes i).log := by
      intro i hi hrole
      rcases World.step_node hstep i with ⟨hsame, -⟩ | ⟨-, -, y, hy, hnode⟩
      · rw [hsame] at hrole ⊢
        exact ⟨(hnow i hi).1, (hnow i hi).2 hrole⟩
      · rw [hnode] at hrole ⊢
        have hthr : (w.nodes i).config.snapshotThreshold ≤ 0 := by
          rw [(hok w (by simp) i hi).config]
          exact ht.le
        have hmove := callback_leads hthr (fun j vs heq => by rw [heq] at hall; exact hall) hy
        exact leads_increasing hmove (hnow i hi).1 (hnow i hi).2 hrole
    intro v hv i hi
    rcases List.mem_cons.mp hv with rfl | hv
    · refine ⟨?_, fun hrole => (hlead i hi hrole).2⟩
      by_cases hnil : (v.nodes i).logical = []
      · rw [(flat_node (hok v (by simp) i hi) ht).2] at hnil
        rw [hnil]
        exact List.Pairwise.nil
      · obtain ⟨u, hu, j, hj, hrole, hpre⟩ := ha.log_of_leader hi hnil
        rw [(flat_node (hok v (by simp) i hi) ht).2, (flat_node (hok u hu j hj) ht).2] at hpre
        refine Increasing.isPrefix ?_ hpre
        rcases List.mem_cons.mp hu with rfl | hu
        · exact (hlead j hj hrole).1
        · exact (ih u hu j hj).1
    · exact ih v hv i hi

/-- No log ever holds a client request twice: in every reachable state the request ids of
each client strictly increase along every log. So whatever index a node applies next, the
session table it has by then holds no request of that number or a later one. -/
theorem requests_increase (hb : c.bugs = NO_BUGS) (ht : c.config.snapshotThreshold = 0)
    (hr : Run c FixedVoters (w :: past)) : ∀ i ∈ c.ids,
    (∀ (k l : ℕ) (e f : Entry), k < l → (w.nodes i).log[k]? = some e →
      (w.nodes i).log[l]? = some f → Later e f) ∧
    (w.nodes i).kv = replay ((w.nodes i).log.take (w.nodes i).lastApplied) ∧
    ∀ (k : ℕ) (e : Entry), (w.nodes i).log[k]? = some e →
      (Command.decode e.command).isStructured = true →
      (replay ((w.nodes i).log.take k)).isDuplicate (Command.decode e.command) = false := by
  intro i hi
  have hinc := (run_increasing hb ht hr w List.mem_cons_self i hi).1
  obtain ⟨a, ha⟩ := fixed_explained hb ht hr
  have hok := ((ha.now w rfl).nodes i hi).ok
  refine ⟨?_, ?_, fun k e he hs => hinc.fresh he hs⟩
  · intro k l e f hkl he hf
    obtain ⟨hk, rfl⟩ := List.getElem?_eq_some_iff.mp he
    obtain ⟨hl, rfl⟩ := List.getElem?_eq_some_iff.mp hf
    exact List.pairwise_iff_getElem.mp hinc k l hk hl hkl
  · rw [hok.kv, (flat_node hok ht).2]

/-- Node 0 commits a request; node 1 takes over, is sent the same request again, and then
the next one. -/
def retried : List World := Run.follow trio FixedVoters [World.init trio]
  [.electionTimeout 0 1, .deliver 0, .deliver 2, .clientCommand 0 "0:0:put:k:v:".toList,
    .deliver 5, .deliver 7, .electionTimeout 1 4, .deliver 9, .deliver 10,
    .clientCommand 1 "0:0:put:k:v:".toList, .clientCommand 1 "0:1:get:k::".toList]

theorem retry_logged_once : ∃ w past, Run trio FixedVoters (w :: past) ∧
    (w.nodes 1).log = [⟨1, "0:0:put:k:v:".toList⟩, ⟨2, "0:1:get:k::".toList⟩] ∧
    Later ⟨1, "0:0:put:k:v:".toList⟩ ⟨2, "0:1:get:k::".toList⟩ := by
  have hr : Run trio FixedVoters retried := Run.follow_run .init _
  have hw : retried.head?.map (fun w => (w.nodes 1).log) =
      some [⟨1, "0:0:put:k:v:".toList⟩, ⟨2, "0:1:get:k::".toList⟩] := by decide +kernel
  obtain ⟨w, past, hws⟩ := hr.exists_cons
  rw [hws] at hr hw
  have hlog : (w.nodes 1).log = _ := Option.some.inj hw
  have hlater := (requests_increase rfl rfl hr 1 (by decide)).1 0 1
  rw [hlog] at hlater
  exact ⟨w, past, hr, hlog, hlater _ _ Nat.zero_lt_one rfl rfl⟩

end RaftVerified
