import RaftVerified.Clients
import RaftVerified.RaftSafety

/-! The rows of the client history: every request has one, the open ones are the pending
ones, and an answer closes the row of its request and no other. -/
namespace RaftVerified

/-! ### The codec -/

/-- A command whose fields the separator does not cut. -/
structure Command.Clean (cmd : Command) : Prop where
  op : cmd.op ≠ .noop
  key : ':' ∉ cmd.key
  value : ':' ∉ cmd.value
  expected : ':' ∉ cmd.expected

theorem Op.ofStr_str {op : Op} (h : op ≠ .noop) : Op.ofStr op.str = some op := by
  cases op with
  | noop => exact absurd rfl h
  | _ => rfl

theorem decode_encode {cmd : Command} (h : cmd.Clean) : Command.decode cmd.encode = cmd := by
  have hop : ':' ∉ cmd.op.str := by cases cmd.op <;> decide
  have hcut : cmd.encode.splitOn ':' = [intStr cmd.clientId, intStr cmd.reqId, cmd.op.str,
      cmd.key, cmd.value, cmd.expected] := by
    refine List.splitOn_intercalate ':' (fun l hl => ?_) nofun
    simp only [List.mem_cons, List.not_mem_nil, or_false] at hl
    rcases hl with rfl | rfl | rfl | rfl | rfl | rfl
    · exact intStr_free _ ':' (by decide) (by decide)
    · exact intStr_free _ ':' (by decide) (by decide)
    · exact hop
    · exact h.key
    · exact h.value
    · exact h.expected
  unfold Command.decode
  rw [hcut]
  dsimp only
  rw [pyInt_intStr, pyInt_intStr, Op.ofStr_str h.op]

theorem encode_inj {cmd cmd' : Command} (h : cmd.Clean) (h' : cmd'.Clean)
    (heq : cmd.encode = cmd'.encode) : cmd = cmd' := by
  rw [← decode_encode h, heq, decode_encode h']

/-- An encoded command starts with a number, so it is no configuration. -/
theorem encode_plain (cmd : Command) : Plain cmd.encode := by
  have hne := intStr_ne_nil cmd.clientId
  have hfree := intStr_free cmd.clientId 'c' (by decide) (by decide)
  unfold Plain Command.encode
  rw [Bool.eq_false_iff]
  intro hp
  obtain ⟨rest, hrest⟩ := List.isPrefixOf_iff_prefix.mp hp
  cases hs : intStr cmd.clientId with
  | nil => exact hne hs
  | cons d ds =>
    rw [hs] at hfree hrest
    have hd : 'c' = d := List.head_eq_of_cons_eq hrest
    exact hfree (hd ▸ List.mem_cons_self)

theorem clientWorkload_ids (clientId reqId : ℤ) :
    (clientWorkload clientId reqId).clientId = clientId ∧
      (clientWorkload clientId reqId).reqId = reqId := by
  unfold clientWorkload
  dsimp only
  split <;> exact ⟨rfl, rfl⟩

theorem clientWorkload_clean (clientId reqId : ℤ) : (clientWorkload clientId reqId).Clean := by
  have hkey : ∀ k, ':' ∉ WORKLOAD_KEYS.getD k [] := by
    intro k
    match k with
    | 0 => decide
    | 1 => decide
    | 2 => decide
    | k+3 => exact List.not_mem_nil
  have hvalue : ∀ z, ':' ∉ 'v' :: intStr z := by
    intro z hz
    rcases List.mem_cons.mp hz with hz | hz
    · exact absurd hz (by decide)
    · exact intStr_free z ':' (by decide) (by decide) hz
  unfold clientWorkload
  dsimp only
  split
  · exact ⟨nofun, hkey _, List.not_mem_nil, List.not_mem_nil⟩
  · refine ⟨nofun, hkey _, hvalue _, ?_⟩
    dsimp only
    split
    · exact hvalue _
    · exact List.not_mem_nil
  · exact ⟨nofun, hkey _, hvalue _, List.not_mem_nil⟩

/-! ### Rows -/

def HistoryEntry.command (row : HistoryEntry) : Command where
  clientId := row.clientId
  reqId := row.reqId
  op := row.op
  key := row.key
  value := row.value
  expected := row.expected

def HistoryEntry.close (row : HistoryEntry) (steps : ℤ) (result : Str) : HistoryEntry :=
  { row with returnStep := some steps, observed := some result }

/-- The row of a request of the workload. -/
structure HistoryEntry.Sent (row : HistoryEntry) : Prop where
  command : row.command = clientWorkload row.clientId row.reqId
  client : 0 ≤ row.clientId
  req : 0 ≤ row.reqId

namespace HistoryEntry.Sent
variable {row : HistoryEntry}

theorem clean (h : row.Sent) : row.command.Clean := by
  rw [h.command]
  exact clientWorkload_clean _ _

theorem decode (h : row.Sent) : Command.decode row.command.encode = row.command :=
  decode_encode h.clean

theorem structured (h : row.Sent) : row.command.isStructured = true := by
  have hc : 0 ≤ row.command.clientId := h.client
  simp [Command.isStructured, hc, h.clean.op]

end HistoryEntry.Sent

/-- From `xs` to `ys` some open rows have been closed in step `n`, each with an answer to its
request. -/
structure Closes (answers : List (Str × Str)) (n : ℤ) (xs ys : List HistoryEntry) : Prop where
  length : ys.length = xs.length
  rows : ∀ (k : ℕ) (row' : HistoryEntry), ys[k]? = some row' → ∃ row, xs[k]? = some row ∧
    (row' = row ∨ (row.returnStep = none ∧ ∃ r ∈ answers, r.1 = row.command.encode ∧
      row' = row.close n r.2))

namespace Closes
variable {answers answers' : List (Str × Str)} {n : ℤ} {xs ys zs : List HistoryEntry}

theorem refl (xs : List HistoryEntry) : Closes answers n xs xs :=
  ⟨rfl, fun _ row h => ⟨row, h, Or.inl rfl⟩⟩

theorem trans (h : Closes answers n xs ys) (h' : Closes answers' n ys zs) :
    Closes (answers ++ answers') n xs zs where
  length := h'.length.trans h.length
  rows k row hrow := by
    obtain ⟨row₁, hrow₁, heq⟩ := h'.rows k row hrow
    obtain ⟨row₂, hrow₂, heq'⟩ := h.rows k row₁ hrow₁
    refine ⟨row₂, hrow₂, ?_⟩
    rcases heq with rfl | ⟨hopen, r, hr, hcmd, rfl⟩
    · rcases heq' with rfl | ⟨hopen, r, hr, hcmd, rfl⟩
      · exact Or.inl rfl
      · exact Or.inr ⟨hopen, r, List.mem_append_left _ hr, hcmd, rfl⟩
    · rcases heq' with rfl | ⟨-, r', -, -, rfl⟩
      · exact Or.inr ⟨hopen, r, List.mem_append_right _ hr, hcmd, rfl⟩
      -- a row that has been closed is not closed again
      · cases hopen

theorem commands (h : Closes answers n xs ys) :
    ys.map HistoryEntry.command = xs.map HistoryEntry.command := by
  refine List.ext_getElem? fun k => ?_
  rw [List.getElem?_map, List.getElem?_map]
  cases hy : ys[k]? with
  | none =>
    have hlen := List.getElem?_eq_none_iff.mp hy
    rw [List.getElem?_eq_none (by rw [← h.length]; exact hlen)]
  | some row' =>
    obtain ⟨row, hrow, heq⟩ := h.rows k row' hy
    rw [hrow]
    rcases heq with rfl | ⟨-, r, -, -, rfl⟩ <;> rfl

/-- Where a row has gone. -/
theorem forward (h : Closes answers n xs ys) {k : ℕ} {row : HistoryEntry}
    (hx : xs[k]? = some row) : ∃ row', ys[k]? = some row' ∧
      (row' = row ∨ (row.returnStep = none ∧ ∃ r ∈ answers, r.1 = row.command.encode ∧
        row' = row.close n r.2)) := by
  have hlt := (List.getElem?_eq_some_iff.mp hx).1
  have hy := List.getElem?_eq_getElem (show k < ys.length by rw [h.length]; exact hlt)
  obtain ⟨row₁, hrow₁, heq⟩ := h.rows k _ hy
  obtain rfl := Option.some.inj (hx.symm.trans hrow₁)
  exact ⟨_, hy, heq⟩

end Closes

/-! ### The driver -/

/-- What holds of the clients of a cluster that records its history, at step `steps`. -/
structure Clients.Kept (steps : ℤ) (d : Clients) : Prop where
  next : ∀ client, 0 ≤ d.nextReq client
  rows : ∀ row ∈ d.history, row.Sent ∧ row.invokeStep ≤ steps ∧
    (∀ n ∈ row.returnStep, row.invokeStep ≤ n ∧ n ≤ steps) ∧
    (row.reqId < d.nextReq row.clientId ∨ (row.reqId = d.nextReq row.clientId ∧
      d.outstanding.lookup row.clientId = some row.command.encode))
  outstanding : ∀ client encoded, d.outstanding.lookup client = some encoded →
    ∃ row ∈ d.history, row.clientId = client ∧ row.command.encode = encoded
  once : (d.history.map HistoryEntry.command).Nodup
  pending : ∀ encoded k, d.pending.lookup encoded = some k ↔ ∃ row, d.history[k]? = some row ∧
    row.command.encode = encoded ∧ row.returnStep = none

namespace Clients
variable {c : ServiceSetup} {n n' : ℤ} {d : Clients} {encoded result : Str}

theorem kept_init : Kept 0 {} where
  next _ := le_rfl
  rows := nofun
  outstanding client encoded h := by cases h
  once := List.nodup_nil
  pending encoded k := by
    refine ⟨fun h => ?_, ?_⟩
    · cases h
    · rintro ⟨row, hrow, -⟩
      cases hrow

theorem Kept.mono (h : Kept n d) (hle : n ≤ n') : Kept n' d where
  next := h.next
  rows row hrow := by
    obtain ⟨hsent, hinv, hret, hreq⟩ := h.rows row hrow
    refine ⟨hsent, hinv.trans hle, fun m hm => ?_, hreq⟩
    exact ⟨(hret m hm).1, (hret m hm).2.trans hle⟩
  outstanding := h.outstanding
  once := h.once
  pending := h.pending

/-- Rows of one request are one row. -/
theorem Kept.unique (h : Kept n d) {row row' : HistoryEntry} (hrow : row ∈ d.history)
    (hrow' : row' ∈ d.history) (heq : row.command.encode = row'.command.encode) : row = row' := by
  have hcmd := encode_inj (h.rows row hrow).1.clean (h.rows row' hrow').1.clean heq
  exact List.inj_on_of_nodup_map h.once hrow hrow' hcmd

/-- Closing rows in the present step keeps what concerns the rows alone. -/
theorem Kept.closed {answers : List (Str × Str)} (h : Kept n d) {rows : List HistoryEntry}
    (hc : Closes answers n d.history rows) {pending : Dict Str ℕ}
    (hp : ∀ encoded k, pending.lookup encoded = some k ↔ ∃ row, rows[k]? = some row ∧
      row.command.encode = encoded ∧ row.returnStep = none) :
    Kept n { d with history := rows, pending } where
  next := h.next
  rows row' hrow' := by
    obtain ⟨k, hk⟩ := List.getElem?_of_mem hrow'
    obtain ⟨row, hrow, heq⟩ := hc.rows k row' hk
    obtain ⟨hsent, hinv, hret, hreq⟩ := h.rows row (List.mem_of_getElem? hrow)
    rcases heq with rfl | ⟨-, r, -, -, rfl⟩
    · exact ⟨hsent, hinv, hret, hreq⟩
    · refine ⟨⟨hsent.command, hsent.client, hsent.req⟩, hinv, ?_, hreq⟩
      rintro m ⟨⟩
      exact ⟨hinv, le_rfl⟩
  outstanding client encoded hout := by
    obtain ⟨row, hrow, hclient, hcmd⟩ := h.outstanding client encoded hout
    obtain ⟨k, hk⟩ := List.getElem?_of_mem hrow
    obtain ⟨row', hrow', heq⟩ := hc.forward hk
    refine ⟨row', List.mem_of_getElem? hrow', ?_⟩
    rcases heq with rfl | ⟨-, r, -, -, rfl⟩
    · exact ⟨hclient, hcmd⟩
    · exact ⟨hclient, hcmd⟩
  once := by
    change (rows.map HistoryEntry.command).Nodup
    rw [hc.commands]
    exact h.once
  pending := hp

theorem moveOn_kept (h : Kept n d) (cmd : Command) : Kept n (d.moveOn cmd encoded) := by
  unfold moveOn
  split
  next hout =>
    refine ⟨fun client => ?_, fun row hrow => ?_, fun client e he => ?_, h.once, h.pending⟩
    · have hnext := h.next client
      have hnext' := h.next cmd.clientId
      dsimp only
      by_cases hclient : client = cmd.clientId
      · rw [hclient, Function.update_self]
        omega
      · rwa [Function.update_of_ne hclient]
    · obtain ⟨hsent, hinv, hret, hreq⟩ := h.rows row hrow
      refine ⟨hsent, hinv, hret, ?_⟩
      dsimp only
      by_cases hclient : row.clientId = cmd.clientId
      · left
        rw [hclient, Function.update_self]
        rw [hclient] at hreq
        omega
      · rw [Function.update_of_ne hclient, Finmap.lookup_erase_ne hclient]
        exact hreq
    · by_cases hclient : client = cmd.clientId
      · subst hclient
        rw [Finmap.lookup_erase] at he
        cases he
      · rw [Finmap.lookup_erase_ne hclient] at he
        exact h.outstanding client e he
  next => exact h

theorem moveOn_rows (cmd : Command) (encoded : Str) (d : Clients) :
    (d.moveOn cmd encoded).history = d.history ∧ (d.moveOn cmd encoded).pending = d.pending := by
  unfold moveOn
  split <;> exact ⟨rfl, rfl⟩

/-- An answer closes the row of its request, if that is still open. -/
theorem close_kept (h : Kept n d) (hc : c.recordHistory = true) :
    Kept n (d.close c n encoded result) ∧
      Closes [(encoded, result)] n d.history (d.close c n encoded result).history ∧
      (d.close c n encoded result).pending.lookup encoded = none := by
  unfold close
  rw [hc, if_neg (by decide)]
  cases hp : d.pending.lookup encoded with
  | none => exact ⟨h, Closes.refl _, hp⟩
  | some k =>
    obtain ⟨row, hrow, hcmd, hopen⟩ := (h.pending encoded k).mp hp
    dsimp only
    have hget : ∀ j, (d.history.modify k fun row =>
        { row with returnStep := some n, observed := some result })[j]? =
        if k = j then some (row.close n result) else d.history[j]? := by
      intro j
      rw [List.getElem?_modify]
      split
      next hkj =>
        rw [← hkj, hrow]
        rfl
      next =>
        cases d.history[j]? <;> rfl
    have hcloses : Closes [(encoded, result)] n d.history (d.history.modify k fun row =>
        { row with returnStep := some n, observed := some result }) := by
      refine ⟨List.length_modify _ _ _, fun j row' hj => ?_⟩
      rw [hget j] at hj
      split at hj
      next hkj =>
        obtain rfl := Option.some.inj hj
        subst hkj
        exact ⟨row, hrow, Or.inr ⟨hopen, _, List.mem_singleton_self _, hcmd.symm, rfl⟩⟩
      next => exact ⟨row', hj, Or.inl rfl⟩
    refine ⟨h.closed hcloses fun e j => ?_, hcloses, Finmap.lookup_erase _ _⟩
    rw [hget j]
    constructor
    · intro hj
      by_cases he : e = encoded
      -- the command itself is pending no more
      · subst he
        rw [Finmap.lookup_erase] at hj
        cases hj
      -- what else is pending has a row of its own
      · rw [Finmap.lookup_erase_ne he] at hj
        obtain ⟨row', hrow', hcmd', hopen'⟩ := (h.pending e j).mp hj
        refine ⟨row', ?_, hcmd', hopen'⟩
        rw [if_neg, hrow']
        rintro rfl
        obtain rfl := Option.some.inj (hrow.symm.trans hrow')
        exact he (hcmd'.symm.trans hcmd)
    · rintro ⟨row', hrow', hcmd', hopen'⟩
      split at hrow'
      next =>
        obtain rfl := Option.some.inj hrow'
        cases hopen'
      -- a row that is still open is not the one that was closed
      next hkj =>
        have hj := (h.pending e j).mpr ⟨row', hrow', hcmd', hopen'⟩
        rw [Finmap.lookup_erase_ne, hj]
        rintro rfl
        exact hkj (Option.some.inj (hp.symm.trans hj))

theorem onApply_kept (h : Kept n d) (hc : c.recordHistory = true) :
    Kept n (d.onApply c n encoded result) ∧
      Closes [(encoded, result)] n d.history (d.onApply c n encoded result).history ∧
      ((Command.decode encoded).isStructured = true →
        (d.onApply c n encoded result).pending.lookup encoded = none) := by
  unfold onApply
  dsimp only
  split
  next hs => exact ⟨h, Closes.refl _, fun hs' => absurd (hs.symm.trans hs') nofun⟩
  next =>
    obtain ⟨hhist, -⟩ := moveOn_rows (Command.decode encoded) encoded d
    have hmoved : Kept n (d.moveOn (Command.decode encoded) encoded) := moveOn_kept h _
    obtain ⟨hk, hcl, hnone⟩ :
        Kept n ((d.moveOn (Command.decode encoded) encoded).close c n encoded result) ∧ _ :=
      close_kept hmoved hc
    rw [hhist] at hcl
    exact ⟨hk, hcl, fun _ => hnone⟩

/-- All the answers of a callback: no row of an answered request stays open. -/
theorem onApplies_kept (answers : List (Str × Str)) (h : Kept n d) (hc : c.recordHistory = true) :
    Kept n (answers.foldl (fun d r => d.onApply c n r.1 r.2) d) ∧
      Closes answers n d.history
        (answers.foldl (fun d r => d.onApply c n r.1 r.2) d).history ∧
      ∀ r ∈ answers, (Command.decode r.1).isStructured = true →
        ∀ row ∈ (answers.foldl (fun d r => d.onApply c n r.1 r.2) d).history,
          row.command.encode = r.1 → row.returnStep ≠ none := by
  induction answers generalizing d with
  | nil => exact ⟨h, Closes.refl _, nofun⟩
  | cons r rest ih =>
    obtain ⟨hk, hcl, hnone⟩ : Kept n (d.onApply c n r.1 r.2) ∧ _ := onApply_kept h hc
    obtain ⟨hk', hcl', hclosed⟩ := ih hk
    refine ⟨hk', hcl.trans hcl', fun q hq hs row hrow hcmd => ?_⟩
    rcases List.mem_cons.mp hq with rfl | hq
    · -- a row that the first answer has left closed stays so
      intro hopen
      obtain ⟨k, hk₁⟩ := List.getElem?_of_mem hrow
      obtain ⟨row₁, hrow₁, heq⟩ := hcl'.rows k row hk₁
      rcases heq with rfl | ⟨-, r', -, -, rfl⟩
      · have hp := (hk.pending _ k).mpr ⟨row, hrow₁, hcmd, hopen⟩
        rw [hnone hs] at hp
        cases hp
      · cases hopen
    · exact hclosed q hq hs row hrow hcmd

/-- An idle client has no row of its next request. -/
theorem Kept.unsent (h : Kept n d) {client : ℤ} (hout : d.outstanding.lookup client = none)
    {row : HistoryEntry} (hrow : row ∈ d.history) :
    row.command ≠ clientWorkload client (d.nextReq client) := by
  intro heq
  obtain ⟨hclient, hreq⟩ := clientWorkload_ids client (d.nextReq client)
  obtain ⟨-, -, -, hids⟩ := h.rows row hrow
  have h1 : row.clientId = client := (congrArg Command.clientId heq).trans hclient
  have h2 : row.reqId = d.nextReq client := (congrArg Command.reqId heq).trans hreq
  rw [h1, hout] at hids
  rcases hids with hlt | ⟨-, hsome⟩
  · omega
  · cases hsome

/-- The new row is open under its encoding, and no other row has it. -/
theorem Kept.pending_append (h : Kept n d) {row : HistoryEntry} (hopen : row.returnStep = none)
    (hnew : ∀ row' ∈ d.history, row'.command.encode ≠ row.command.encode) (e : Str) (k : ℕ) :
    (d.pending.insert row.command.encode d.history.length).lookup e = some k ↔
      ∃ row', (d.history ++ [row])[k]? = some row' ∧ row'.command.encode = e ∧
        row'.returnStep = none := by
  by_cases he : e = row.command.encode
  · subst he
    rw [Finmap.lookup_insert]
    constructor
    · rintro ⟨⟩
      exact ⟨row, List.getElem?_concat_length, rfl, hopen⟩
    · rintro ⟨row', hk, hcmd, -⟩
      rcases Nat.lt_trichotomy k d.history.length with hlt | heq | hgt
      · rw [List.getElem?_append_left hlt] at hk
        exact absurd hcmd (hnew row' (List.mem_of_getElem? hk))
      · rw [heq]
      · rw [List.getElem?_eq_none] at hk
        · cases hk
        · rw [List.length_append, List.length_singleton]
          omega
  · rw [Finmap.lookup_insert_of_ne _ he, h.pending e k]
    constructor
    · rintro ⟨row', hk, hcmd, hopen⟩
      have hlt := (List.getElem?_eq_some_iff.mp hk).1
      exact ⟨row', by rw [List.getElem?_append_left hlt, hk], hcmd, hopen⟩
    · rintro ⟨row', hk, hcmd, hopen⟩
      refine ⟨row', ?_, hcmd, hopen⟩
      rcases Nat.lt_or_ge k d.history.length with hlt | hge
      · rwa [List.getElem?_append_left hlt] at hk
      · rw [List.getElem?_append_right hge] at hk
        obtain rfl := List.mem_singleton.mp (List.mem_of_getElem? hk)
        exact absurd hcmd.symm he

/-- A client with nothing outstanding sends its next request. -/
theorem Kept.send (h : Kept n d) {row : HistoryEntry} (hsent : row.Sent)
    (hstep : row.invokeStep = n) (hopen : row.returnStep = none)
    (hreq : row.reqId = d.nextReq row.clientId)
    (hout : d.outstanding.lookup row.clientId = none) : Kept n { d with
      outstanding := d.outstanding.insert row.clientId row.command.encode
      history := d.history ++ [row]
      pending := d.pending.insert row.command.encode d.history.length } := by
  have hcommand : row.command = clientWorkload row.clientId (d.nextReq row.clientId) := by
    rw [hsent.command, hreq]
  have hfresh : ∀ row' ∈ d.history, row'.command ≠ row.command :=
    fun row' hmem => hcommand ▸ h.unsent hout hmem
  refine ⟨h.next, fun row' hmem => ?_, fun client e he => ?_, ?_, h.pending_append hopen ?_⟩
  · rcases List.mem_append.mp hmem with hmem | hmem
    · obtain ⟨hsent', hinv, hret, hids⟩ := h.rows row' hmem
      refine ⟨hsent', hinv, hret, hids.imp_right fun hids => ⟨hids.1, ?_⟩⟩
      dsimp only
      -- a client that waits is not the one that sends
      rw [Finmap.lookup_insert_of_ne, hids.2]
      intro heq
      have hsome := hids.2
      rw [heq, hout] at hsome
      cases hsome
    · obtain rfl := List.mem_singleton.mp hmem
      refine ⟨hsent, hstep.le, ?_, Or.inr ⟨hreq, Finmap.lookup_insert _⟩⟩
      rw [hopen]
      nofun
  · by_cases hclient : client = row.clientId
    · subst hclient
      dsimp only at he
      rw [Finmap.lookup_insert] at he
      obtain rfl := Option.some.inj he
      exact ⟨row, List.mem_append_right _ (List.mem_singleton_self _), rfl, rfl⟩
    · dsimp only at he
      rw [Finmap.lookup_insert_of_ne _ hclient] at he
      obtain ⟨row', hmem, hids, hcmd⟩ := h.outstanding client e he
      exact ⟨row', List.mem_append_left _ hmem, hids, hcmd⟩
  · rw [List.map_append]
    refine List.Nodup.append h.once (List.nodup_singleton _) ?_
    intro cmd hold hnew
    obtain ⟨row', hmem, hcmd⟩ := List.mem_map.mp hold
    exact hfresh row' hmem (hcmd.trans (List.mem_singleton.mp hnew))
  · intro row' hmem heq
    exact hfresh row' hmem (encode_inj (h.rows row' hmem).1.clean hsent.clean heq)

/-- An attempt: an idle client gets a row for its next request, and what it sends has one. -/
theorem attempt_kept (h : Kept n d) (hc : c.recordHistory = true) :
    Kept n (d.attempt c n).2 ∧
      ((d.attempt c n).2.history = d.history ∨ ∃ row : HistoryEntry, row.returnStep = none ∧
        row.invokeStep = n ∧ (d.attempt c n).2.history = d.history ++ [row]) ∧
      ∃ row ∈ (d.attempt c n).2.history, row.command.encode = (d.attempt c n).1 := by
  unfold attempt
  dsimp only
  have hturn : 0 ≤ d.clientTurn % WORKLOAD_CLIENTS := Int.emod_nonneg _ (by decide)
  generalize d.clientTurn % WORKLOAD_CLIENTS = client at hturn
  cases hout : d.outstanding.lookup client with
  | some encoded =>
    obtain ⟨row, hrow, -, hcmd⟩ := h.outstanding client encoded hout
    exact ⟨⟨h.next, h.rows, h.outstanding, h.once, h.pending⟩, Or.inl rfl, row, hrow, hcmd⟩
  | none =>
    dsimp only
    unfold invoke
    rw [hc, if_neg (by decide)]
    dsimp only
    obtain ⟨hclient, hreq⟩ := clientWorkload_ids client (d.nextReq client)
    generalize hcommand : clientWorkload client (d.nextReq client) = command at *
    let row : HistoryEntry := {
      clientId := command.clientId, reqId := command.reqId, op := command.op
      key := command.key, value := command.value, expected := command.expected
      invokeStep := n }
    have hid : row.clientId = client := hclient
    have hnext : row.reqId = d.nextReq client := hreq
    have hsent : row.Sent := by
      refine ⟨?_, hid.ge.trans' hturn, hnext.ge.trans' (h.next client)⟩
      rw [hid, hnext, hcommand]
      rfl
    have hkept : Kept n { d with clientTurn := d.clientTurn+1 } :=
      ⟨h.next, h.rows, h.outstanding, h.once, h.pending⟩
    have hsend := hkept.send hsent rfl rfl (by rw [hid, hnext]) (by rw [hid, hout])
    rw [hid] at hsend
    exact ⟨hsend, Or.inr ⟨row, rfl, rfl, rfl⟩, row,
      List.mem_append_right _ (List.mem_singleton_self _), rfl⟩

end Clients
end RaftVerified
