import RaftVerified.ClientRows

/-! The two codecs that share the commands of the log: client commands (`Command` in `kv.py`)
and configurations (`encode_config` and `decode_config` in `node.py`). -/
namespace RaftVerified

theorem pyInt_cfg : pyInt "cfg".toList = none := by decide

/-- The first field of a string that starts like a configuration is no number. -/
theorem splitOn_of_not_plain {s : Str} (h : ¬ Plain s) :
    ∃ fields, s.splitOn ':' = "cfg".toList :: fields := by
  unfold Plain at h
  rw [Bool.not_eq_false, List.isPrefixOf_iff_prefix] at h
  obtain ⟨rest, rfl⟩ := h
  have hcut : CONFIG_PREFIX ++ rest = "cfg".toList ++ ':' :: rest := rfl
  rw [hcut, List.splitOn_append_cons_self_of_not_mem (by decide)]
  exact ⟨_, rfl⟩

theorem decode_of_not_plain {s : Str} (h : ¬ Plain s) : Command.decode s = .noop := by
  obtain ⟨fields, hcut⟩ := splitOn_of_not_plain h
  unfold Command.decode
  rw [hcut]
  split
  · rename_i heq
    rw [← List.head_eq_of_cons_eq heq, pyInt_cfg]
  · rfl

theorem not_plain_encodeConfig (vs : List NodeId) : ¬ Plain (encodeConfig vs) := by
  unfold Plain
  rw [Bool.not_eq_false, List.isPrefixOf_iff_prefix]
  exact List.prefix_append _ _

theorem noop_unstructured : Command.noop.isStructured = false := rfl

theorem apply_unstructured {kv : KVStateMachine} {cmd : Command}
    (h : cmd.isStructured = false) : kv.apply cmd = (kv, []) := by
  unfold KVStateMachine.apply
  rw [if_pos h]

/-- Both codecs read back what they write, no string is read by both, and a string that is no
command changes nothing. -/
theorem logCodecs_exact_disjoint :
    (∀ c : Command, c.Clean →
      Command.decode c.encode = c ∧ decodeConfig c.encode = none) ∧
    (∀ vs : List NodeId, vs ≠ [] →
      decodeConfig (encodeConfig vs) = some (sorted vs) ∧
        Command.decode (encodeConfig vs) = .noop) ∧
    (∀ s : Str, ¬ ((Command.decode s).isStructured = true ∧ (decodeConfig s).isSome = true)) ∧
    ∀ (kv : KVStateMachine) (s : Str), (Command.decode s).isStructured = false →
      (kv.apply (Command.decode s)).1 = kv := by
  refine ⟨?_, ?_, ?_, ?_⟩
  · intro c hc
    exact ⟨decode_encode hc, decodeConfig_of_plain _ (encode_plain c)⟩
  · intro vs hvs
    exact ⟨decodeConfig_encodeConfig vs hvs, decode_of_not_plain (not_plain_encodeConfig vs)⟩
  · rintro s ⟨hcmd, hcfg⟩
    by_cases hs : Plain s
    · rw [decodeConfig_of_plain s hs] at hcfg
      cases hcfg
    · rw [decode_of_not_plain hs, noop_unstructured] at hcmd
      cases hcmd
  · intro kv s hs
    rw [apply_unstructured hs]

/-- A command whose empty fields stand next to each other, and a configuration given out of
order. -/
theorem logCodecs_sample :
    Command.decode (Command.encode ⟨-4, 12, .cas, [], "v3".toList, []⟩) =
        ⟨-4, 12, .cas, [], "v3".toList, []⟩ ∧
      decodeConfig (encodeConfig [2, 0, 1]) = some [0, 1, 2] ∧
      Command.decode (encodeConfig [2, 0, 1]) = .noop ∧
      (KVStateMachine.apply {} (Command.decode (encodeConfig [2, 0, 1]))).1 = {} := by
  obtain ⟨hcmd, hcfg, -, happly⟩ := logCodecs_exact_disjoint
  have hclean : (⟨-4, 12, .cas, [], "v3".toList, []⟩ : Command).Clean :=
    ⟨nofun, List.not_mem_nil, by decide, List.not_mem_nil⟩
  obtain ⟨hread, hnoop⟩ := hcfg [2, 0, 1] (List.cons_ne_nil _ _)
  refine ⟨(hcmd _ hclean).1, hread, hnoop, happly _ _ ?_⟩
  rw [hnoop]
  rfl

end RaftVerified
