import RaftVerified.KVStore

/-! The session table: what one command does to it, and that with it each request of a sequence
with repeats takes effect exactly once. -/
namespace RaftVerified

variable {kv : KVStateMachine} {cmd c d : Command}

/-! ### One command -/

theorem isDuplicate_iff : kv.isDuplicate cmd = true ↔
    ∃ last, kv.sessions.lookup cmd.clientId = some last ∧ cmd.reqId ≤ last.1 := by
  unfold KVStateMachine.isDuplicate
  cases hlast : kv.sessions.lookup cmd.clientId with
  | none => exact ⟨nofun, nofun⟩
  | some last =>
    constructor
    · exact fun h => ⟨last, rfl, of_decide_eq_true h⟩
    · rintro ⟨last', hlast', hle⟩
      obtain rfl := Option.some.inj hlast'
      exact decide_eq_true hle

theorem execute_sessions (kv : KVStateMachine) (cmd : Command) :
    (kv.execute cmd).1.sessions = kv.sessions := by
  unfold KVStateMachine.execute
  split
  · rfl
  · rfl
  · split <;> rfl
  · rfl

/-- Only the store is looked at to execute a command. -/
theorem execute_store {kv' : KVStateMachine} (h : kv.store = kv'.store) (cmd : Command) :
    (kv.execute cmd).1.store = (kv'.execute cmd).1.store := by
  unfold KVStateMachine.execute
  rw [h]
  split
  · rfl
  · exact h
  · split
    · rfl
    · exact h
  · exact h

/-- A request that has been applied changes nothing, and is given the result that is kept. -/
theorem apply_duplicate {last : ℤ × Str} (hs : cmd.isStructured = true)
    (hlast : kv.sessions.lookup cmd.clientId = some last) (hle : cmd.reqId ≤ last.1) :
    kv.apply cmd = (kv, last.2) := by
  unfold KVStateMachine.apply
  rw [if_neg (by rw [hs]; decide), hlast]
  exact if_pos hle

/-- A request that has not been applied is executed, whatever the table says of others. -/
theorem apply_new (hs : cmd.isStructured = true) (hnew : kv.isDuplicate cmd = false) :
    kv.apply cmd = kv.executeFresh cmd := by
  unfold KVStateMachine.isDuplicate at hnew
  unfold KVStateMachine.apply
  rw [if_neg (by rw [hs]; decide)]
  split
  next last hlast =>
    rw [hlast] at hnew
    exact if_neg (of_decide_eq_false hnew)
  next => rfl

theorem apply_fresh (hs : cmd.isStructured = true) (hfresh : kv.isDuplicate cmd = false) :
    (kv.apply cmd).1.store = (kv.execute cmd).1.store ∧ (kv.apply cmd).2 = (kv.execute cmd).2 := by
  rw [apply_new hs hfresh]
  exact ⟨rfl, rfl⟩

theorem executeFresh_lookup (kv : KVStateMachine) (cmd : Command) (client : ℤ) :
    (kv.executeFresh cmd).1.sessions.lookup client =
      if client = cmd.clientId then some (cmd.reqId, (kv.executeFresh cmd).2)
      else kv.sessions.lookup client := by
  change ((kv.execute cmd).1.sessions.insert cmd.clientId _).lookup client = _
  split
  next hc =>
    rw [hc, Finmap.lookup_insert]
    rfl
  next hc => rw [Finmap.lookup_insert_of_ne _ hc, execute_sessions]

theorem apply_sessions (kv : KVStateMachine) (cmd : Command) (client : ℤ) :
    (kv.apply cmd).1.sessions.lookup client = kv.sessions.lookup client ∨
      cmd.isStructured = true ∧ client = cmd.clientId ∧
        ((kv.apply cmd).1.sessions.lookup client).map Prod.fst = some cmd.reqId := by
  have hfresh : ((kv.executeFresh cmd).1.sessions.lookup client) = kv.sessions.lookup client ∨
      client = cmd.clientId ∧
        ((kv.executeFresh cmd).1.sessions.lookup client).map Prod.fst = some cmd.reqId := by
    rw [executeFresh_lookup]
    split
    next hc => exact Or.inr ⟨hc, rfl⟩
    next => exact Or.inl rfl
  unfold KVStateMachine.apply
  split
  · exact Or.inl rfl
  next hs =>
    have hs : cmd.isStructured = true := by
      rwa [Bool.not_eq_false] at hs
    split
    · split
      · exact Or.inl rfl
      · exact hfresh.imp_right fun h => ⟨hs, h⟩
    · exact hfresh.imp_right fun h => ⟨hs, h⟩

/-- Once applied, a request is a duplicate. -/
theorem apply_isDuplicate (kv : KVStateMachine) (hs : cmd.isStructured = true) :
    (kv.apply cmd).1.isDuplicate cmd = true := by
  by_cases hdup : kv.isDuplicate cmd = true
  · obtain ⟨last, hlast, hle⟩ := isDuplicate_iff.mp hdup
    rw [apply_duplicate hs hlast hle]
    exact hdup
  · rw [apply_new hs (Bool.not_eq_true _ ▸ hdup)]
    exact isDuplicate_iff.mpr ⟨_, (executeFresh_lookup kv cmd _).trans (if_pos rfl), le_rfl⟩

/-- And it stays one: what the table holds for a client never moves back. -/
theorem isDuplicate_kept (cmd : Command) (h : kv.isDuplicate d = true) :
    (kv.apply cmd).1.isDuplicate d = true := by
  by_cases hs : cmd.isStructured = true
  · by_cases hdup : kv.isDuplicate cmd = true
    · obtain ⟨last, hlast, hle⟩ := isDuplicate_iff.mp hdup
      rw [apply_duplicate hs hlast hle]
      exact h
    · rw [apply_new hs (Bool.not_eq_true _ ▸ hdup)]
      obtain ⟨last, hlast, hle⟩ := isDuplicate_iff.mp h
      by_cases hc : d.clientId = cmd.clientId
      · refine isDuplicate_iff.mpr ⟨_, (executeFresh_lookup kv cmd _).trans (if_pos hc), ?_⟩
        refine hle.trans (le_of_not_ge fun hge => hdup (isDuplicate_iff.mpr ⟨last, ?_, hge⟩))
        rwa [← hc]
      · refine isDuplicate_iff.mpr ⟨last, (executeFresh_lookup kv cmd _).trans ?_, hle⟩
        rw [if_neg hc, hlast]
  · unfold KVStateMachine.apply
    rw [if_pos (Bool.not_eq_true _ ▸ hs)]
    exact h

/-! ### A sequence of requests -/

namespace Sessions

/-- A command is applied, or the machine is captured and restored. -/
inductive Step
  | apply (cmd : Command)
  | reload
  deriving DecidableEq

/-- The machine, and the results given so far. -/
def Step.after (s : KVStateMachine × List Str) : Step → KVStateMachine × List Str
  | .apply cmd => ((s.1.apply cmd).1, s.2 ++ [(s.1.apply cmd).2])
  | .reload => (KVStateMachine.restore s.1.capture.1 s.1.capture.2, s.2)

def serve (steps : List Step) : KVStateMachine × List Str := steps.foldl Step.after ({}, [])

def commands (steps : List Step) : List Command :=
  steps.filterMap fun
    | .apply cmd => some cmd
    | .reload => none

/-- `_execute` alone. -/
def executeAll (cmds : List Command) : KVStateMachine :=
  cmds.foldl (fun kv cmd => (kv.execute cmd).1) {}

def SameRequest (c d : Command) : Prop := c.clientId = d.clientId ∧ c.reqId = d.reqId

instance (c d : Command) : Decidable (SameRequest c d) :=
  inferInstanceAs (Decidable (_ ∧ _))

/-- The first occurrence of each request. -/
def firsts (cmds : List Command) : List Command :=
  cmds.foldl (fun kept c => if ∃ d ∈ kept, SameRequest d c then kept else kept ++ [c]) []

/-- Repeats are identical, and the requests of each client are first made in the order of
their ids. -/
structure Requests (cmds : List Command) : Prop where
  structured : ∀ c ∈ cmds, c.isStructured = true
  identical : ∀ c ∈ cmds, ∀ d ∈ cmds, SameRequest c d → c = d
  increasing : (firsts cmds).Pairwise fun c d => c.clientId = d.clientId → c.reqId < d.reqId

variable {cmds : List Command} {steps : List Step}

theorem serve_append (steps : List Step) (s : Step) :
    serve (steps ++ [s]) = s.after (serve steps) := by
  unfold serve
  rw [List.foldl_append]
  rfl

theorem commands_append_apply (steps : List Step) (c : Command) :
    commands (steps ++ [.apply c]) = commands steps ++ [c] := List.filterMap_append

theorem commands_append_reload (steps : List Step) :
    commands (steps ++ [.reload]) = commands steps :=
  List.filterMap_append.trans (List.append_nil _)

theorem firsts_append (cmds : List Command) (c : Command) : firsts (cmds ++ [c]) =
    if ∃ d ∈ firsts cmds, SameRequest d c then firsts cmds else firsts cmds ++ [c] := by
  unfold firsts
  rw [List.foldl_append]
  rfl

theorem executeAll_append (cmds : List Command) (c : Command) :
    executeAll (cmds ++ [c]) = ((executeAll cmds).execute c).1 := by
  unfold executeAll
  rw [List.foldl_append]
  rfl

/-- Every request is kept once. -/
theorem mem_firsts (cmds : List Command) :
    (∀ c ∈ firsts cmds, c ∈ cmds) ∧ ∀ c ∈ cmds, ∃ d ∈ firsts cmds, SameRequest d c := by
  induction cmds using List.reverseRecOn with
  | nil => exact ⟨nofun, nofun⟩
  | append_singleton cmds c ih =>
    rw [firsts_append]
    split
    next hseen =>
      refine ⟨fun d hd => List.mem_append_left _ (ih.1 d hd), fun d hd => ?_⟩
      rcases List.mem_append.mp hd with hd | hd
      · exact ih.2 d hd
      · rwa [List.mem_singleton.mp hd]
    next =>
      constructor
      · intro d hd
        rcases List.mem_append.mp hd with hd | hd
        · exact List.mem_append_left _ (ih.1 d hd)
        · exact List.mem_append_right _ hd
      · intro d hd
        rcases List.mem_append.mp hd with hd | hd
        · obtain ⟨e, he, hsame⟩ := ih.2 d hd
          exact ⟨e, List.mem_append_left _ he, hsame⟩
        · exact ⟨d, List.mem_append_right _ hd, rfl, rfl⟩

theorem Requests.init (h : Requests (cmds ++ [c])) : Requests cmds where
  structured d hd := h.structured d (List.mem_append_left _ hd)
  identical d hd e he := h.identical d (List.mem_append_left _ hd) e (List.mem_append_left _ he)
  increasing := by
    refine h.increasing.sublist ?_
    rw [firsts_append]
    split
    · exact List.Sublist.refl _
    · exact List.sublist_append_left _ _

/-- A command that comes again is no first occurrence, and one that does not is the latest
request of its client. -/
theorem Requests.last (h : Requests (cmds ++ [c])) :
    c ∈ cmds ∧ firsts (cmds ++ [c]) = firsts cmds ∨
    c ∉ cmds ∧ firsts (cmds ++ [c]) = firsts cmds ++ [c] ∧
      ∀ d ∈ cmds, d.clientId = c.clientId → d.reqId < c.reqId := by
  obtain ⟨hback, hkept⟩ := mem_firsts cmds
  have hfirsts := firsts_append cmds c
  split at hfirsts
  next hseen =>
    obtain ⟨d, hd, hsame⟩ := hseen
    have hdc : d = c := h.identical d (List.mem_append_left _ (hback d hd)) c
      (List.mem_append_right _ (List.mem_singleton_self c)) hsame
    exact Or.inl ⟨hdc ▸ hback d hd, hfirsts⟩
  next hnew =>
    refine Or.inr ⟨fun hc => hnew (hkept c hc), hfirsts, fun d hd hclient => ?_⟩
    obtain ⟨e, he, hsame⟩ := hkept d hd
    have hinc := h.increasing
    rw [hfirsts] at hinc
    have hlt := (List.pairwise_append.mp hinc).2.2 e he c (List.mem_singleton_self c)
      (hsame.1.trans hclient)
    exact hsame.2 ▸ hlt

/-! ### Where requests stand -/

def FirstAt (cmds : List Command) (k : ℕ) (c : Command) : Prop :=
  cmds[k]? = some c ∧ c ∉ cmds.take k

/-- The client has made no later request when the command comes. -/
def LatestAt (cmds : List Command) (l : ℕ) (c : Command) : Prop :=
  cmds[l]? = some c ∧ ∀ d ∈ cmds.take l, d.clientId = c.clientId → d.reqId ≤ c.reqId

section
variable {k l : ℕ}

theorem FirstAt.lt (h : FirstAt cmds k c) : k < cmds.length := (List.getElem?_eq_some_iff.mp h.1).1

theorem FirstAt.mem (h : FirstAt cmds k c) : c ∈ cmds := List.mem_of_getElem? h.1

theorem FirstAt.append (h : FirstAt cmds k c) (d : Command) : FirstAt (cmds ++ [d]) k c := by
  refine ⟨(List.getElem?_append_left h.lt).trans h.1, ?_⟩
  rw [List.take_append_of_le_length h.lt.le]
  exact h.2

theorem FirstAt.of_append (h : FirstAt (cmds ++ [d]) k c) (hk : k < cmds.length) :
    FirstAt cmds k c := by
  obtain ⟨hat, hfirst⟩ := h
  rw [List.getElem?_append_left hk] at hat
  rw [List.take_append_of_le_length hk.le] at hfirst
  exact ⟨hat, hfirst⟩

theorem LatestAt.of_append (h : LatestAt (cmds ++ [d]) l c) (hl : l < cmds.length) :
    LatestAt cmds l c := by
  obtain ⟨hat, hlatest⟩ := h
  rw [List.getElem?_append_left hl] at hat
  rw [List.take_append_of_le_length hl.le] at hlatest
  exact ⟨hat, hlatest⟩

/-- A command does not stand before its first occurrence. -/
theorem FirstAt.le (h : FirstAt cmds k c) (hl : cmds[l]? = some c) : k ≤ l := by
  by_contra hlt
  refine h.2 (List.mem_of_getElem? (i := l) ?_)
  rw [List.getElem?_take_of_lt (not_le.mp hlt)]
  exact hl

theorem FirstAt.unique (h : FirstAt cmds k c) (h' : FirstAt cmds l c) : k = l :=
  le_antisymm (h.le h'.1) (h'.le h.1)

end

/-! ### Exactly once -/

/-- What holds after a sequence of requests: the machine is that of the first occurrences, it
knows each request, and it keeps the result of the latest of each client. -/
structure Served (cmds : List Command) (s : KVStateMachine × List Str) : Prop where
  same : s.1 = (serve ((firsts cmds).map .apply)).1
  store : s.1.store = (executeAll (firsts cmds)).store
  length : s.2.length = cmds.length
  covers : ∀ c ∈ cmds, s.1.isDuplicate c = true
  cached : ∀ client last, s.1.sessions.lookup client = some last →
    ∃ k c, FirstAt cmds k c ∧ c.clientId = client ∧ c.reqId = last.1 ∧ s.2[k]? = some last.2
  repeats : ∀ k l c, FirstAt cmds k c → LatestAt cmds l c → s.2[l]? = s.2[k]?

variable {s : KVStateMachine × List Str}

theorem served_nil : Served [] ({}, []) where
  same := rfl
  store := rfl
  length := rfl
  covers := nofun
  cached := nofun
  repeats _ _ _ h _ := absurd h.lt (Nat.not_lt_zero _)

/-- Results that have been given stay where they are. -/
theorem Served.repeats_before (h : Served cmds s) {result : Str} {k l : ℕ}
    (hk : FirstAt (cmds ++ [d]) k c) (hl : LatestAt (cmds ++ [d]) l c) (hlt : l < cmds.length) :
    (s.2 ++ [result])[l]? = (s.2 ++ [result])[k]? := by
  have hkl : k ≤ l := hk.le hl.1
  rw [List.getElem?_append_left (by rw [h.length]; exact hlt),
    List.getElem?_append_left (by rw [h.length]; omega)]
  exact h.repeats k l c (hk.of_append (by omega)) (hl.of_append hlt)

theorem Served.cached_before (h : Served cmds s) {result : Str} {client : ℤ} {last : ℤ × Str}
    (hlast : s.1.sessions.lookup client = some last) (d : Command) :
    ∃ k c, FirstAt (cmds ++ [d]) k c ∧ c.clientId = client ∧ c.reqId = last.1 ∧
      (s.2 ++ [result])[k]? = some last.2 := by
  obtain ⟨k, c, hk, hclient, hreq, hresult⟩ := h.cached client last hlast
  refine ⟨k, c, hk.append d, hclient, hreq, ?_⟩
  rw [List.getElem?_append_left (by rw [h.length]; exact hk.lt)]
  exact hresult

/-- A repeat changes nothing, and the latest request of its client is answered as at first. -/
theorem Served.repeated (h : Served cmds s) (hreqs : Requests (cmds ++ [c])) (hc : c ∈ cmds)
    (hfirsts : firsts (cmds ++ [c]) = firsts cmds) :
    Served (cmds ++ [c]) (Step.after s (.apply c)) := by
  have hs : c.isStructured = true := hreqs.structured c (List.mem_append_left _ hc)
  obtain ⟨last, hlast, hle⟩ := isDuplicate_iff.mp (h.covers c hc)
  have hstep : Step.after s (.apply c) = (s.1, s.2 ++ [last.2]) := by
    unfold Step.after
    dsimp only
    rw [apply_duplicate hs hlast hle]
  rw [hstep]
  refine ⟨?_, ?_, ?_, ?_, ?_, ?_⟩
  · rw [hfirsts]
    exact h.same
  · rw [hfirsts]
    exact h.store
  · simp only [List.length_append, List.length_singleton, h.length]
  · intro d hd
    rcases List.mem_append.mp hd with hd | hd
    · exact h.covers d hd
    · exact h.covers d (List.mem_singleton.mp hd ▸ hc)
  · exact fun client last' hlast' => h.cached_before hlast' c
  · intro k l c' hk hl
    have hlen := (List.getElem?_eq_some_iff.mp hl.1).1
    rw [List.length_append, List.length_singleton] at hlen
    rcases Nat.lt_succ_iff_lt_or_eq.mp hlen with hlt | rfl
    · exact h.repeats_before hk hl hlt
    · -- what the table holds for the client is the result of this very request
      obtain ⟨hat, hlatest⟩ := hl
      rw [List.getElem?_concat_length] at hat
      obtain rfl := Option.some.inj hat
      rw [List.take_left'] at hlatest
      · obtain ⟨k', c', hk', hclient, hreq, hresult⟩ := h.cached _ _ hlast
        have hc' : c' ∈ cmds := hk'.mem
        have hsame : c' = c := hreqs.identical c' (List.mem_append_left _ hc') c
          (List.mem_append_left _ hc) ⟨hclient, le_antisymm (hlatest c' hc' hclient) (hreq ▸ hle)⟩
        obtain rfl := hsame
        obtain rfl := hk.unique (hk'.append _)
        change (s.2 ++ [last.2])[cmds.length]? = (s.2 ++ [last.2])[k]?
        have hlt : k < s.2.length := by
          rw [h.length]
          exact hk'.lt
        rw [List.getElem?_append_left hlt, hresult, ← h.length]
        exact List.getElem?_concat_length
      · rfl

/-- A new request is executed, and its result kept. -/
theorem Served.executed (h : Served cmds s) (hreqs : Requests (cmds ++ [c])) (hc : c ∉ cmds)
    (hfirsts : firsts (cmds ++ [c]) = firsts cmds ++ [c])
    (hlater : ∀ d ∈ cmds, d.clientId = c.clientId → d.reqId < c.reqId) :
    Served (cmds ++ [c]) (Step.after s (.apply c)) := by
  have hs : c.isStructured = true :=
    hreqs.structured c (List.mem_append_right _ (List.mem_singleton_self c))
  have hnew : s.1.isDuplicate c = false := by
    refine Bool.eq_false_iff.mpr fun hdup => ?_
    -- the table covers no request later than those that were served
    obtain ⟨last, hlast, hle⟩ := isDuplicate_iff.mp hdup
    obtain ⟨k, d, hk, hclient, hreq, -⟩ := h.cached _ _ hlast
    exact absurd (hlater d hk.mem hclient) (not_lt.mpr (hreq ▸ hle))
  refine ⟨?_, ?_, ?_, ?_, ?_, ?_⟩
  · rw [hfirsts, List.map_append, List.map_singleton, serve_append]
    change (s.1.apply c).1 = ((serve _).1.apply c).1
    rw [← h.same]
  · rw [hfirsts, executeAll_append, ← execute_store h.store c]
    exact (apply_fresh hs hnew).1
  · change (s.2 ++ [_]).length = _
    simp only [List.length_append, List.length_singleton, h.length]
  · intro d hd
    rcases List.mem_append.mp hd with hd | hd
    · exact isDuplicate_kept c (h.covers d hd)
    · rw [List.mem_singleton.mp hd]
      exact apply_isDuplicate s.1 hs
  · intro client last hlast
    change (s.1.apply c).1.sessions.lookup client = some last at hlast
    rw [apply_new hs hnew, executeFresh_lookup] at hlast
    split at hlast
    next hclient =>
      obtain rfl := Option.some.inj hlast
      refine ⟨cmds.length, c, ⟨List.getElem?_concat_length, ?_⟩, hclient.symm, rfl, ?_⟩
      · rw [List.take_left' rfl]
        exact hc
      · change (s.2 ++ [(s.1.apply c).2])[cmds.length]? = _
        rw [apply_new hs hnew, ← h.length]
        exact List.getElem?_concat_length
    next => exact h.cached_before hlast c
  · intro k l c' hk hl
    have hlen := (List.getElem?_eq_some_iff.mp hl.1).1
    rw [List.length_append, List.length_singleton] at hlen
    rcases Nat.lt_succ_iff_lt_or_eq.mp hlen with hlt | rfl
    · exact h.repeats_before hk hl hlt
    · have hat := hl.1
      rw [List.getElem?_concat_length] at hat
      obtain rfl := Option.some.inj hat
      rcases Nat.lt_or_eq_of_le (hk.le hl.1) with hlt | rfl
      · exact absurd (hk.of_append hlt).mem hc
      · rfl

theorem serve_served (steps : List Step) (h : Requests (commands steps)) :
    Served (commands steps) (serve steps) := by
  induction steps using List.reverseRecOn with
  | nil => exact served_nil
  | append_singleton steps step ih =>
    rw [serve_append]
    cases step with
    | reload =>
      rw [commands_append_reload] at h ⊢
      exact ih h
    | apply c =>
      rw [commands_append_apply] at h ⊢
      have hserved := ih h.init
      rcases h.last with ⟨hc, hfirsts⟩ | ⟨hc, hfirsts, hlater⟩
      · exact hserved.repeated h hc hfirsts
      · exact hserved.executed h hc hfirsts hlater

/-- Repeats and restores leave no trace: the machine is that of the first occurrences, its
store is theirs without any table, and the latest request of a client is answered as at first. -/
theorem sessions_exactly_once (steps : List Step) (h : Requests (commands steps)) :
    (serve steps).1 = (serve ((firsts (commands steps)).map .apply)).1 ∧
    (serve steps).1.store = (executeAll (firsts (commands steps))).store ∧
    ∀ k l c, FirstAt (commands steps) k c → LatestAt (commands steps) l c →
      ∃ result, (serve steps).2[k]? = some result ∧ (serve steps).2[l]? = some result := by
  have hserved := serve_served steps h
  refine ⟨hserved.same, hserved.store, fun k l c hk hl => ?_⟩
  have hlen : k < (serve steps).2.length := by
    rw [hserved.length]
    exact hk.lt
  refine ⟨(serve steps).2[k], List.getElem?_eq_getElem hlen, ?_⟩
  rw [hserved.repeats k l c hk hl]
  exact List.getElem?_eq_getElem hlen

def swap : Command :=
  { clientId := 1, reqId := 0, op := .cas, key := "x".toList, value := "b".toList }

/-- A swap that is asked for again after another client has moved the value. -/
def swapped : List Step :=
  [.apply swap,
    .apply { clientId := 2, reqId := 0, op := .put, key := "x".toList, value := "a".toList },
    .reload, .apply swap, .apply { clientId := 2, reqId := 1, op := .get, key := "x".toList }]

theorem swapped_exactly_once :
    (serve swapped).1.store = (executeAll (firsts (commands swapped))).store ∧
      ∃ result, (serve swapped).2[0]? = some result ∧ (serve swapped).2[2]? = some result := by
  obtain ⟨-, hstore, hrepeats⟩ := sessions_exactly_once swapped
    ⟨by decide +kernel, by decide +kernel, by decide +kernel⟩
  exact ⟨hstore, hrepeats 0 2 swap ⟨rfl, by decide +kernel⟩ ⟨rfl, by decide +kernel⟩⟩

end Sessions
end RaftVerified
