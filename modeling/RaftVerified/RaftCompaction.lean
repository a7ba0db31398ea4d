import RaftVerified.ConsensusOverlay
import RaftVerified.RaftProgress

/-! What an AppendEntries does to a node that has compacted its log, compared with the
same node before it did. -/
namespace RaftVerified
open Consensus

variable {n m : RaftNode} {x y : Exec}

/-! ### The append loop above the base -/

namespace RaftNode

theorem appendLoop_append (xs ys : List Entry) (n : RaftNode) (p : ℕ) :
    n.appendLoop p (xs ++ ys) =
      n.appendLoop p xs >>= fun m => m.appendLoop (p+xs.length) ys := by
  induction xs generalizing n p with
  | nil => rfl
  | cons e xs ih =>
    rw [List.cons_append, appendLoop, appendLoop]
    cases n.appendEntry (p+1) e with
    | error err => rfl
    | ok k =>
      change k.appendLoop (p+1) (xs ++ ys) = k.appendLoop (p+1) xs >>= _
      rw [ih, List.length_cons, Nat.add_right_comm, Nat.add_assoc]

theorem Edited.base (h : n.Edited m) : m.folded = n.folded ∧ m.baseIndex = n.baseIndex ∧
    m.baseTerm = n.baseTerm := by
  obtain ⟨_, _, _, _, rfl⟩ := h
  exact ⟨rfl, rfl, rfl⟩

/-- At the end of the log the loop appends what is left of the message. -/
theorem appendLoop_end (entries : List Entry) {n : RaftNode}
    (h : n.folded.length = n.baseIndex) :
    ∃ m, n.appendLoop n.logical.length entries = .ok m ∧ n.Edited m ∧
      m.logical = n.logical ++ entries := by
  induction entries generalizing n with
  | nil => exact ⟨n, rfl, Edited.refl n, (List.append_nil _).symm⟩
  | cons e rest ih =>
    have hlast := length_logical h
    have hstep : n.appendEntry (n.logical.length+1) e =
        .ok (n.pushEntry (n.logical.length+1) e) := appendEntry_past (by omega)
    have hed := pushEntry_edited n (n.logical.length+1) e
    have hlog := pushEntry_logical n (n.logical.length+1) e
    obtain ⟨hfold, hbase, -⟩ := hed.base
    obtain ⟨m, hm, hed', hlog'⟩ := ih (n := n.pushEntry (n.logical.length+1) e)
      (by rw [hfold, hbase, h])
    refine ⟨m, ?_, hed.trans hed', ?_⟩
    · rw [appendLoop, hstep]
      rwa [hlog, List.length_append] at hm
    · rw [hlog', hlog, List.append_assoc]
      rfl

/-- From the base upwards the loop writes the entries over the logical log. -/
theorem appendLoop_overlay (entries : List Entry) {n : RaftNode} {p : ℕ}
    (h : n.folded.length = n.baseIndex) (hb : n.baseIndex ≤ p) (hp : p ≤ n.logical.length) :
    ∃ m, n.appendLoop p entries = .ok m ∧ n.Edited m ∧
      m.logical = n.logical.take p ++ overlay Entry.term (n.logical.drop p) entries := by
  induction entries generalizing p with
  | nil =>
    refine ⟨n, rfl, Edited.refl n, ?_⟩
    rw [overlay_nil, List.take_append_drop]
  | cons e rest ih =>
    have hlast := length_logical h
    rcases Nat.lt_or_ge p n.logical.length with hlt | hge
    · have hterm := (termAt_eq h hb).mpr ⟨_, List.getElem?_eq_getElem hlt, rfl⟩
      rw [List.drop_eq_getElem_cons hlt]
      by_cases hte : (n.logical[p]).term = e.term
      -- the entry is there already: the loop goes on
      · have hstep : n.appendEntry (p+1) e = .ok n :=
          appendEntry_present (by omega) (hte ▸ hterm)
        obtain ⟨m, hm, hed, hlog⟩ := ih (by omega) hlt
        refine ⟨m, ?_, hed, ?_⟩
        · rw [appendLoop, hstep]
          exact hm
        · rw [hlog, overlay_cons_same hte, List.take_succ_eq_append_getElem hlt,
            List.append_assoc]
          rfl
      · -- after the first conflict the log ends with the entry
        have hstep : n.appendEntry (p+1) e =
            .ok ((n.truncateFrom (p+1)).pushEntry (p+1) e) :=
          appendEntry_conflict (by omega) hterm hte
        have hed := (truncateFrom_edited n (p+1)).trans (pushEntry_edited _ (p+1) e)
        have hlog : ((n.truncateFrom (p+1)).pushEntry (p+1) e).logical =
            n.logical.take p ++ [e] := by
          rw [pushEntry_logical, truncateFrom_logical h hb]
        have hlen : ((n.truncateFrom (p+1)).pushEntry (p+1) e).logical.length = p+1 := by
          rw [hlog, List.length_append, List.length_take, Nat.min_eq_left hp]
          rfl
        obtain ⟨hfold, hbase, -⟩ := hed.base
        obtain ⟨m, hm, hed', hlog'⟩ := appendLoop_end rest
          (n := (n.truncateFrom (p+1)).pushEntry (p+1) e) (by rw [hfold, hbase, h])
        rw [hlen] at hm
        refine ⟨m, ?_, hed.trans hed', ?_⟩
        · rw [appendLoop, hstep]
          exact hm
        · rw [hlog', hlog, overlay_cons_conflict hte, List.append_assoc]
          rfl
    -- past the end everything is new
    · obtain rfl : p = n.logical.length := by omega
      obtain ⟨m, hm, hed, hlog⟩ := appendLoop_end (e :: rest) h
      refine ⟨m, hm, hed, ?_⟩
      rw [hlog, List.take_length, List.drop_length, nil_overlay]

/-! ### The append loop below the base -/

/-- Below the base a negative slice index counts from the end of the live log. -/
theorem truncateFrom_below {n : RaftNode} {k : ℕ} (hk : k < n.baseIndex) :
    (n.truncateFrom (k+1)).log = n.log.take (n.log.length-(n.baseIndex-k)) := by
  have hneg : n.phys (k+1) < 0 := by
    unfold phys
    omega
  have hdel : delFrom n.log (n.phys (k+1)) = n.log.take (n.log.length-(n.baseIndex-k)) := by
    rw [delFrom, if_pos hneg]
    congr 1
    unfold phys
    omega
  unfold truncateFrom
  split
  · exact hdel
  · exact hdel

/-- Entries below the base are left out if they all have the base's term; any other makes
the live log shorter and puts one of them at its end. -/
theorem appendLoop_below (entries : List Entry) {n : RaftNode} {p : ℕ}
    (hp : p+entries.length ≤ n.baseIndex)
    (hlast : ∀ k e, entries[k]? = some e → p+k+1 = n.baseIndex → e.term = n.baseTerm) :
    ∃ m, n.appendLoop p entries = .ok m ∧ n.Edited m ∧
      ((∀ e ∈ entries, e.term = n.baseTerm) → m = n) ∧
      ((∃ e ∈ entries, e.term ≠ n.baseTerm) → ∃ r g, m.log = n.log.take r ++ [g] ∧
        g ∈ entries ∧ g.term ≠ n.baseTerm ∧ (r = 0 ∨ r+2 ≤ n.log.length)) := by
  induction entries generalizing n p with
  | nil => exact ⟨n, rfl, Edited.refl n, fun _ => rfl, fun ⟨e, he, _⟩ => nomatch he⟩
  | cons e rest ih =>
    rw [List.length_cons] at hp
    have hnext : ∀ k f, rest[k]? = some f → p+1+k+1 = n.baseIndex → f.term = n.baseTerm := by
      intro k f hf hk
      exact hlast (k+1) f hf (by omega)
    have hterm := (termAt_base (n := n) (k := p+1) (by omega)).mpr rfl
    have hle : p+1 ≤ n.lastLogIndex := by
      unfold lastLogIndex
      omega
    -- below the base every lookup answers with the term of the base
    by_cases hte : e.term = n.baseTerm
    · have hstep : n.appendEntry (p+1) e = .ok n :=
        appendEntry_present hle (hte ▸ hterm)
      obtain ⟨m, hm, hed, hkeep, hstray⟩ := ih (by omega) hnext
      refine ⟨m, ?_, hed, fun hall => hkeep fun f hf => hall f (List.mem_cons_of_mem e hf), ?_⟩
      · rw [appendLoop, hstep]
        exact hm
      · rintro ⟨f, hf, hne⟩
        rcases List.mem_cons.mp hf with rfl | hf
        · exact absurd hte hne
        · obtain ⟨r, g, hlog, hg, hgt, hr⟩ := hstray ⟨f, hf, hne⟩
          exact ⟨r, g, hlog, List.mem_cons_of_mem e hg, hgt, hr⟩
    · have hlt : p+1 < n.baseIndex := by
        by_contra hge
        exact hte (hlast 0 e rfl (by omega))
      have hstep : n.appendEntry (p+1) e =
          .ok ((n.truncateFrom (p+1)).pushEntry (p+1) e) :=
        appendEntry_conflict hle hterm (Ne.symm hte)
      have hed := (truncateFrom_edited n (p+1)).trans (pushEntry_edited _ (p+1) e)
      obtain ⟨-, hbase, hbterm⟩ := hed.base
      have hlog : ((n.truncateFrom (p+1)).pushEntry (p+1) e).log =
          n.log.take (n.log.length-(n.baseIndex-p)) ++ [e] := by
        rw [pushEntry_log, truncateFrom_below (by omega)]
      obtain ⟨m, hm, hed', hkeep, hstray⟩ :=
        ih (n := (n.truncateFrom (p+1)).pushEntry (p+1) e) (p := p+1)
          (by rw [hbase]; omega) (by rw [hbase, hbterm]; exact hnext)
      refine ⟨m, ?_, hed.trans hed', ?_, ?_⟩
      · rw [appendLoop, hstep]
        exact hm
      · intro hall
        exact absurd (hall e List.mem_cons_self) hte
      · intro _
        rw [hbterm] at hkeep hstray
        -- the last stray entry decides what the log ends with
        by_cases hrest : ∃ f ∈ rest, f.term ≠ n.baseTerm
        · obtain ⟨r, g, hlog', hg, hgt, hr⟩ := hstray hrest
          rw [hlog, List.length_append, List.length_take, List.length_singleton] at hr
          refine ⟨r, g, ?_, List.mem_cons_of_mem e hg, hgt, by omega⟩
          rw [hlog', hlog, List.take_append_of_le_length, List.take_take]
          · congr 2
            omega
          · rw [List.length_take]
            omega
        · push Not at hrest
          refine ⟨n.log.length-(n.baseIndex-p), e, ?_, List.mem_cons_self, hte, ?_⟩
          · rw [hkeep hrest, hlog]
          · omega

end RaftNode
end RaftVerified
