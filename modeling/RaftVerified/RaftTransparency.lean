import RaftVerified.RaftFollower

/-! A follower that has compacted its log against the same follower before: which
AppendEntries they take alike. -/
namespace RaftVerified
open Consensus

variable {n : RaftNode} {b lastTerm : ℕ} {voters : List NodeId} {msg : AppendEntries}

/-- `n` compacted at `b`: what `_maybe_compact` does there, with the image as of `b`. -/
def RaftNode.compactAt (n : RaftNode) (b lastTerm : ℕ) (voters : List NodeId) : RaftNode :=
  { n.compactTo b lastTerm voters with
    snapshot := some {
      lastIndex := b
      lastTerm
      store := (replay (n.log.take b)).capture.1
      sessions := (replay (n.log.take b)).capture.2
      voters
      folded := n.log.take b } }

/-- A follower that has not compacted yet, and an index it may compact at. -/
structure Compactable (n : RaftNode) (b lastTerm : ℕ) (voters : List NodeId) : Prop where
  bugs : n.bugs = NO_BUGS
  alive : n.alive = true
  role : n.role = .follower
  base : n.baseIndex = 0
  folded : n.folded = []
  settled : n.lastApplied = n.commitIndex
  commit_le : n.commitIndex ≤ n.log.length
  pos : 0 < b
  le : b ≤ n.commitIndex
  term : n.termAt b = .ok lastTerm
  voters : n.configAt b = .ok voters

/-- Up to the commit index the message says what the log says. -/
structure Agrees (n : RaftNode) (msg : AppendEntries) : Prop where
  entries : ∀ k e, msg.entries[k]? = some e → msg.prevIndex+k < n.commitIndex →
    n.log[msg.prevIndex+k]? = some e
  prev : 0 < msg.prevIndex → msg.prevIndex ≤ n.commitIndex →
    n.termAt msg.prevIndex = .ok msg.prevTerm

/-- Log Matching between the log and the message, over its whole length. -/
structure LogsMatch (n : RaftNode) (msg : AppendEntries) : Prop where
  log_sorted : n.log.Pairwise fun e f => e.term ≤ f.term
  entries_sorted : msg.entries.Pairwise fun e f => e.term ≤ f.term
  matched : ∀ k e f, n.log[msg.prevIndex+k]? = some e → msg.entries[k]? = some f →
    e.term = f.term → e = f

/-- Two nodes have given the same answer and hold the same above `b`. -/
structure SameAbove (b : ℕ) (x y : Exec) : Prop where
  answer : ∀ i, sends i x.calls = sends i y.calls
  logical : x.node.logical.drop b = y.node.logical.drop b
  commit : x.node.commitIndex = y.node.commitIndex
  kv : x.node.kv = y.node.kv

/-- Both nodes handle the message, and alike. -/
def Transparent (n m : RaftNode) (b : ℕ) (msg : AppendEntries) : Prop :=
  ∃ x y, Exec.handle ⟨n, []⟩ (.appendEntries msg) = .ok x ∧
    Exec.handle ⟨m, []⟩ (.appendEntries msg) = .ok y ∧ SameAbove b x y

/-- A previous entry below `b` has the term of the entry at `b`. -/
def PrevKept (b lastTerm : ℕ) (msg : AppendEntries) : Prop :=
  msg.prevIndex = 0 ∨ b ≤ msg.prevIndex ∨ msg.prevTerm = lastTerm

/-- So do all entries below `b`. -/
def EntriesKept (b lastTerm : ℕ) (msg : AppendEntries) : Prop :=
  ∀ k e, msg.entries[k]? = some e → msg.prevIndex+k < b → e.term = lastTerm

/-- The message reaches past `b` and replaces everything the log holds there. -/
def Replaces (n : RaftNode) (b : ℕ) (msg : AppendEntries) : Prop :=
  b < msg.prevIndex+msg.entries.length ∧
    Rewrites Entry.term (n.log.drop b) (msg.entries.drop (b-msg.prevIndex))

namespace Compactable

theorem logical (h : Compactable n b lastTerm voters) : n.logical = n.log := by
  rw [RaftNode.logical, h.folded, List.nil_append]

theorem compact_folded (h : Compactable n b lastTerm voters) :
    (n.compactAt b lastTerm voters).folded = n.log.take b := by
  change n.folded ++ n.log.take (b-n.baseIndex) = _
  rw [h.folded, h.base, List.nil_append, Nat.sub_zero]

theorem compact_log (h : Compactable n b lastTerm voters) :
    (n.compactAt b lastTerm voters).log = n.log.drop b := by
  change n.log.drop (b-n.baseIndex) = _
  rw [h.base, Nat.sub_zero]

theorem compact_logical (h : Compactable n b lastTerm voters) :
    (n.compactAt b lastTerm voters).logical = n.log := by
  rw [RaftNode.logical, h.compact_folded, h.compact_log, List.take_append_drop]

theorem compact_base (h : Compactable n b lastTerm voters) :
    (n.compactAt b lastTerm voters).folded.length =
      (n.compactAt b lastTerm voters).baseIndex := by
  have := h.le
  have := h.commit_le
  rw [h.compact_folded, List.length_take]
  exact Nat.min_eq_left (by omega)

theorem follows (h : Compactable n b lastTerm voters) (ht : n.term ≤ msg.term) :
    Follows n msg :=
  ⟨h.bugs, h.alive, h.role, ht, by rw [h.folded, h.base]; rfl, by rw [h.base]; exact Nat.zero_le _,
    h.settled⟩

theorem compact_follows (h : Compactable n b lastTerm voters) (ht : n.term ≤ msg.term) :
    Follows (n.compactAt b lastTerm voters) msg :=
  ⟨h.bugs, h.alive, h.role, ht, h.compact_base, h.le, h.settled⟩

theorem compact_last (h : Compactable n b lastTerm voters) :
    (n.compactAt b lastTerm voters).lastLogIndex = n.lastLogIndex := by
  rw [← RaftNode.length_logical h.compact_base, h.compact_logical, RaftNode.lastLogIndex, h.base,
    Nat.zero_add]

theorem last (h : Compactable n b lastTerm voters) : n.lastLogIndex = n.log.length := by
  rw [RaftNode.lastLogIndex, h.base, Nat.zero_add]

theorem nodeBase (h : Compactable n b lastTerm voters) : n.folded.length = n.baseIndex := by
  rw [h.folded, h.base]
  rfl

theorem base_entry (h : Compactable n b lastTerm voters) :
    ∃ e, n.log[b-1]? = some e ∧ e.term = lastTerm := by
  obtain ⟨j, hj⟩ : ∃ j, b = j+1 := ⟨b-1, by have := h.pos; omega⟩
  have hterm := h.term
  rw [hj, RaftNode.termAt_eq h.nodeBase (by rw [h.base]; exact Nat.zero_le _), h.logical] at hterm
  rw [hj]
  exact hterm

/-- From `b` upwards both nodes know the same terms. -/
theorem compact_termAt (h : Compactable n b lastTerm voters) {k t : ℕ} (hk : b ≤ k) :
    (n.compactAt b lastTerm voters).termAt k = .ok t ↔ n.termAt k = .ok t := by
  rcases Nat.eq_or_lt_of_le hk with rfl | hlt
  · rw [h.term, RaftNode.termAt_base (n := n.compactAt b lastTerm voters) (k := b) le_rfl]
    exact ⟨fun heq => congrArg _ heq, fun heq => Except.ok.inj heq⟩
  · obtain ⟨j, rfl⟩ : ∃ j, k = j+1 := ⟨k-1, by omega⟩
    rw [RaftNode.termAt_eq h.compact_base (Nat.le_of_lt_succ hlt),
      RaftNode.termAt_eq h.nodeBase (by rw [h.base]; exact Nat.zero_le _), h.compact_logical,
      h.logical]

theorem passes_iff (h : Compactable n b lastTerm voters) (ha : Agrees n msg)
    (hk : PrevKept b lastTerm msg) :
    Passes (n.compactAt b lastTerm voters) msg ↔ Passes n msg := by
  unfold Passes
  rw [h.compact_last]
  rcases hk with h0 | hle | hterm
  · simp [h0]
  · rw [h.compact_termAt hle]
  · rcases Nat.lt_or_ge b msg.prevIndex with hlt | hge
    · rw [h.compact_termAt hlt.le]
    rcases Nat.eq_zero_or_pos msg.prevIndex with h0 | hpos
    · simp [h0]
    -- below the base the compacted node answers the term of the entry at `b`
    · have hprev := ha.prev hpos (hge.trans h.le)
      have hbase := (RaftNode.termAt_base (n := n.compactAt b lastTerm voters) hge).mpr rfl
      rw [hprev, hbase, hterm]
      exact iff_of_true (Or.inr ⟨by have := h.le; have := h.commit_le; have := h.last; omega, rfl⟩)
        (Or.inr ⟨by have := h.le; have := h.commit_le; have := h.last; omega, rfl⟩)

end Compactable

/-! ### What the two nodes write -/

/-- The log after the uncompacted node has taken the message. -/
def written (n : RaftNode) (msg : AppendEntries) : List Entry :=
  n.log.take msg.prevIndex ++ overlay Entry.term (n.log.drop msg.prevIndex) msg.entries

namespace Agrees

/-- Entries that do not reach past the commit index are in the log already. -/
theorem isPrefix (ha : Agrees n msg)
    (hle : msg.prevIndex+msg.entries.length ≤ n.commitIndex) :
    msg.entries <+: n.log.drop msg.prevIndex := by
  rw [List.prefix_iff_getElem?]
  intro k hk
  rw [List.getElem?_drop]
  exact ha.entries k _ (List.getElem?_eq_getElem hk) (by omega)

theorem take_isPrefix (ha : Agrees n msg) {j : ℕ} (hle : msg.prevIndex+j ≤ n.commitIndex) :
    msg.entries.take j <+: n.log.drop msg.prevIndex := by
  rw [List.prefix_iff_getElem?]
  intro k hk
  rw [List.length_take] at hk
  rw [List.getElem_take, List.getElem?_drop]
  exact ha.entries k _ (List.getElem?_eq_getElem (by omega)) (by omega)

end Agrees

theorem Took.sameAbove {target : List Entry} {x y : Exec}
    (hx : Took n msg target x) (hy : Took (n.compactAt b lastTerm voters) msg target y) :
    SameAbove b x y where
  answer i := (hx.answer i).trans (hy.answer i).symm
  logical := by rw [hx.logical, hy.logical]
  commit := hx.commit.trans hy.commit.symm
  kv := hx.kv.trans hy.kv.symm

namespace Compactable

theorem prev_le (h : Compactable n b lastTerm voters) (hp : Passes n msg) :
    msg.prevIndex ≤ n.log.length := by
  rcases hp with h0 | ⟨hle, -⟩
  · rw [h0]
    exact Nat.zero_le _
  · rwa [h.last] at hle

/-- What the message commits is there when it is committed. -/
theorem commitAfter_le (h : Compactable n b lastTerm voters) (ha : Agrees n msg)
    (hp : Passes n msg) : commitAfter n msg ≤ (written n msg).length := by
  have hple := h.prev_le hp
  have hlen : (written n msg).length = msg.prevIndex +
      (overlay Entry.term (n.log.drop msg.prevIndex) msg.entries).length := by
    rw [written, List.length_append, List.length_take, Nat.min_eq_left hple]
  have hover : msg.entries.length ≤
      (overlay Entry.term (n.log.drop msg.prevIndex) msg.entries).length :=
    length_le_overlay _ _
  have hcom : n.commitIndex ≤ (written n msg).length := by
    rcases Nat.le_total (msg.prevIndex+msg.entries.length) n.commitIndex with hle | hge
    · rw [hlen, overlay_of_isPrefix (ha.isPrefix hle), List.length_drop]
      have := h.commit_le
      omega
    · omega
  apply max_le hcom
  exact (min_le_right _ _).trans (by omega)

/-- The uncompacted node takes every message that passes. -/
theorem takes (h : Compactable n b lastTerm voters) (ht : n.term ≤ msg.term)
    (ha : Agrees n msg) (hp : Passes n msg) :
    ∃ x, Exec.handle ⟨n, []⟩ (.appendEntries msg) = .ok x ∧ Took n msg (written n msg) x := by
  obtain ⟨target, rfl, -, htook⟩ := (h.follows ht).accepted hp (P := (· = written n msg)) (by
    intro k hk
    simp only [RaftNode.data, Prod.mk.injEq] at hk
    obtain ⟨⟨-, -, -, hfold, hlog, hbase, -⟩, -⟩ := hk
    have hlogical : k.logical = n.log := by
      rw [RaftNode.logical, hfold, hlog, h.folded, List.nil_append]
    obtain ⟨m, hm, hed, hw⟩ := RaftNode.appendLoop_overlay msg.entries (n := k)
      (p := msg.prevIndex) (by rw [hfold, hbase, h.nodeBase])
      (by rw [hbase, h.base]; exact Nat.zero_le _) (by rw [hlogical]; exact h.prev_le hp)
    rw [hlogical] at hw
    exact ⟨m, hm, hed, hw⟩)
  exact htook (h.commitAfter_le ha hp)

/-- A previous entry below `b` of another term is refused after compacting. -/
theorem prevKept_of_transparent (h : Compactable n b lastTerm voters) (ht : n.term ≤ msg.term)
    (ha : Agrees n msg) (htr : Transparent n (n.compactAt b lastTerm voters) b msg) :
    PrevKept b lastTerm msg := by
  by_contra hnot
  rw [PrevKept, not_or, not_or] at hnot
  obtain ⟨h0, hlt, hterm⟩ := hnot
  have hle := h.le
  have hlen := h.commit_le
  have hprev := ha.prev (Nat.pos_of_ne_zero h0) (by omega)
  have hpass : Passes n msg := Or.inr ⟨by rw [h.last]; omega, hprev⟩
  have hfail : ¬ Passes (n.compactAt b lastTerm voters) msg := by
    rintro (hz | ⟨-, hbase⟩)
    · exact h0 hz
    · have hb : msg.prevIndex ≤ (n.compactAt b lastTerm voters).baseIndex := by
        change msg.prevIndex ≤ b
        omega
      exact hterm ((RaftNode.termAt_base hb).mp hbase).symm
  obtain ⟨x, y, hx, hy, hsame⟩ := htr
  obtain ⟨x', hx', htook⟩ := h.takes ht ha hpass
  obtain ⟨y', hy', -, hans⟩ := (h.compact_follows ht).refused hfail
  obtain rfl := Except.ok.inj (hx.symm.trans hx')
  obtain rfl := Except.ok.inj (hy.symm.trans hy')
  -- one answers with a success and the other does not
  have heq := hsame.answer n.id
  rw [htook.answer, hans] at heq
  simp [appendAnswer, sends] at heq

/-- Below `b` the uncompacted node writes what its log says already. -/
theorem written_split (h : Compactable n b lastTerm voters) (ha : Agrees n msg)
    (hlt : msg.prevIndex < b) : written n msg = n.log.take b ++
      overlay Entry.term (n.log.drop b) (msg.entries.drop (b-msg.prevIndex)) := by
  have hle := h.le
  have hlen := h.commit_le
  rcases Nat.le_total msg.entries.length (b-msg.prevIndex) with hshort | hlong
  · rw [written, overlay_of_isPrefix (ha.isPrefix (by omega)),
      List.drop_of_length_le hshort, overlay_nil, List.take_append_drop, List.take_append_drop]
  · have hpre := ha.take_isPrefix (j := b-msg.prevIndex) (by omega)
    have hcount : (msg.entries.take (b-msg.prevIndex)).length = b-msg.prevIndex := by
      rw [List.length_take, Nat.min_eq_left hlong]
    -- both parts of the message up to `b` stand in the log
    have hdrop : n.log.drop msg.prevIndex =
        msg.entries.take (b-msg.prevIndex) ++ n.log.drop b := by
      have htake := List.prefix_iff_eq_take.mp hpre
      rw [hcount] at htake
      have hsum : msg.prevIndex+(b-msg.prevIndex) = b := by omega
      have hcut := List.take_append_drop (b-msg.prevIndex) (n.log.drop msg.prevIndex)
      rw [List.drop_drop, hsum] at hcut
      rw [htake, hcut]
    have hover : overlay Entry.term (n.log.drop msg.prevIndex) msg.entries =
        msg.entries.take (b-msg.prevIndex) ++
          overlay Entry.term (n.log.drop b) (msg.entries.drop (b-msg.prevIndex)) := by
      have hself : overlay Entry.term (msg.entries.take (b-msg.prevIndex) ++ n.log.drop b)
          (msg.entries.take (b-msg.prevIndex) ++ msg.entries.drop (b-msg.prevIndex)) = _ :=
        overlay_append_self _ _ _
      rwa [← hdrop, List.take_append_drop] at hself
    rw [written, hover, ← List.append_assoc]
    congr 1
    have hsum : msg.prevIndex+(b-msg.prevIndex) = b := by omega
    have hb := List.take_add (l := n.log) (i := msg.prevIndex) (j := b-msg.prevIndex)
    rw [hsum] at hb
    rw [hb, hdrop, List.take_left' hcount]

/-- The live log of the compacted node after the part of the message below `b`. -/
def Reduced (n : RaftNode) (b lastTerm : ℕ) (msg : AppendEntries) (live : List Entry) : Prop :=
  (EntriesKept b lastTerm msg → live = n.log.drop b) ∧
    (¬ EntriesKept b lastTerm msg → ∃ r g, live = (n.log.drop b).take r ++ [g] ∧
      g ∈ msg.entries.take (b-msg.prevIndex) ∧ g.term ≠ lastTerm ∧
      (r = 0 ∨ r+2 ≤ (n.log.drop b).length))

theorem entriesKept_iff : EntriesKept b lastTerm msg ↔
    ∀ e ∈ msg.entries.take (b-msg.prevIndex), e.term = lastTerm := by
  constructor
  · intro hk e he
    obtain ⟨k, hlt, rfl⟩ := List.mem_take_iff_getElem.mp he
    exact hk k _ (List.getElem?_eq_getElem (by omega)) (by omega)
  · intro hk k e he hlt
    obtain ⟨hl, rfl⟩ := List.getElem?_eq_some_iff.mp he
    exact hk _ (List.mem_take_iff_getElem.mpr ⟨k, by omega, rfl⟩)

/-- The compacted node writes the rest of the message over what is left of its live log. -/
theorem compact_loop (h : Compactable n b lastTerm voters) (ha : Agrees n msg)
    (hlt : msg.prevIndex < b) {k : RaftNode}
    (hk : k.data = (n.compactAt b lastTerm voters).data) :
    ∃ m, k.appendLoop msg.prevIndex msg.entries = .ok m ∧ k.Edited m ∧
      ∃ live, Reduced n b lastTerm msg live ∧ m.logical = n.log.take b ++
        overlay Entry.term live (msg.entries.drop (b-msg.prevIndex)) := by
  have hle := h.le
  simp only [RaftNode.data, Prod.mk.injEq] at hk
  obtain ⟨⟨-, -, -, hfold, hlog, hbase, hbterm⟩, -⟩ := hk
  rw [h.compact_folded] at hfold
  rw [h.compact_log] at hlog
  change k.baseIndex = b at hbase
  change k.baseTerm = lastTerm at hbterm
  have hkbase : k.folded.length = k.baseIndex := by
    have := h.commit_le
    rw [hfold, hbase, List.length_take]
    omega
  -- an entry at the base is the one the snapshot ended with
  have hlast : ∀ j e, (msg.entries.take (b-msg.prevIndex))[j]? = some e →
      msg.prevIndex+j+1 = k.baseIndex → e.term = k.baseTerm := by
    intro j e he hj
    rw [hbase] at hj
    rw [List.getElem?_take_of_lt (by omega)] at he
    obtain ⟨f, hf, hft⟩ := h.base_entry
    have hx := ha.entries j e he (by omega)
    have hjb : msg.prevIndex+j = b-1 := by omega
    rw [hjb, hf] at hx
    rw [hbterm, ← hft, Option.some.inj hx]
  obtain ⟨m, hm, hed, hkeep, hstray⟩ := RaftNode.appendLoop_below
    (msg.entries.take (b-msg.prevIndex)) (n := k) (p := msg.prevIndex)
    (by rw [hbase, List.length_take]; omega) hlast
  rw [hbterm] at hkeep hstray
  rw [hlog] at hstray
  obtain ⟨hmf, hmb, -⟩ := hed.base
  have hred : Reduced n b lastTerm msg m.log := by
    constructor
    · intro hall
      rw [hkeep (entriesKept_iff.mp hall), hlog]
    · intro hnot
      rw [entriesKept_iff] at hnot
      push Not at hnot
      exact hstray hnot
  have hmlog : m.logical = n.log.take b ++ m.log := by rw [RaftNode.logical, hmf, hfold]
  have htake : (n.log.take b).length = b := by rw [← hfold, hkbase, hbase]
  have hsplit := RaftNode.appendLoop_append (msg.entries.take (b-msg.prevIndex))
    (msg.entries.drop (b-msg.prevIndex)) k msg.prevIndex
  rw [List.take_append_drop, hm] at hsplit
  -- the entries up to the base run below it; the rest overlay what they left
  rcases Nat.le_total msg.entries.length (b-msg.prevIndex) with hshort | hlong
  · refine ⟨m, ?_, hed, m.log, hred, ?_⟩
    · rw [hsplit, List.drop_of_length_le hshort]
      rfl
    · rw [hmlog, List.drop_of_length_le hshort, overlay_nil]
  · have hcount : msg.prevIndex+(msg.entries.take (b-msg.prevIndex)).length = b := by
      rw [List.length_take]
      omega
    obtain ⟨w, hw, hed', hwlog⟩ := RaftNode.appendLoop_overlay
      (msg.entries.drop (b-msg.prevIndex)) (n := m) (p := b) (by rw [hmf, hmb, hkbase])
      (by rw [hmb, hbase]) (by rw [hmlog, List.length_append, htake]; omega)
    refine ⟨w, ?_, hed.trans hed', m.log, hred, ?_⟩
    · rw [hsplit, hcount]
      exact hw
    · rw [hwlog, hmlog, List.take_left' htake, List.drop_left' htake]

/-- A message that starts at `b` or above finds both nodes alike. -/
theorem transparent_above (h : Compactable n b lastTerm voters) (ht : n.term ≤ msg.term)
    (ha : Agrees n msg) (hb : b ≤ msg.prevIndex) :
    Transparent n (n.compactAt b lastTerm voters) b msg := by
  have hiff := h.passes_iff ha (Or.inr (Or.inl hb))
  by_cases hp : Passes n msg
  · obtain ⟨x, hx, hxt⟩ := h.takes ht ha hp
    -- accepted by both: the loop runs over the same logical log
    obtain ⟨target, rfl, -, htook⟩ := (h.compact_follows ht).accepted (hiff.mpr hp)
      (P := (· = written n msg)) (by
        intro k hk
        simp only [RaftNode.data, Prod.mk.injEq] at hk
        obtain ⟨⟨-, -, -, hfold, hlog, hbase, -⟩, -⟩ := hk
        have hlogical : k.logical = n.log := by
          rw [← h.compact_logical, RaftNode.logical, hfold, hlog]
          rfl
        obtain ⟨m, hm, hed, hw⟩ := RaftNode.appendLoop_overlay msg.entries (n := k)
          (p := msg.prevIndex) (by rw [hfold, hbase, h.compact_base]) (by rw [hbase]; exact hb)
          (by rw [hlogical]; exact h.prev_le hp)
        rw [hlogical] at hw
        exact ⟨m, hm, hed, hw⟩)
    obtain ⟨y, hy, hyt⟩ := htook (h.commitAfter_le ha hp)
    exact ⟨x, y, hx, hy, hxt.sameAbove hyt⟩
  -- refused by both: neither node moves
  · obtain ⟨x, hx, hxd, hxa⟩ := (h.follows ht).refused hp
    obtain ⟨y, hy, hyd, hya⟩ := (h.compact_follows ht).refused (mt hiff.mp hp)
    simp only [RaftNode.data, Prod.mk.injEq] at hxd hyd
    obtain ⟨⟨-, -, -, hxf, hxl, -, -⟩, -, -, -, -, hxc, hxk, -⟩ := hxd
    obtain ⟨⟨-, -, -, hyf, hyl, -, -⟩, -, -, -, -, hyc, hyk, -⟩ := hyd
    have hxlog : x.node.logical = n.logical := by rw [RaftNode.logical, hxf, hxl, RaftNode.logical]
    have hylog : y.node.logical = (n.compactAt b lastTerm voters).logical := by
      rw [RaftNode.logical, hyf, hyl, RaftNode.logical]
    refine ⟨x, y, hx, hy, fun i => (hxa i).trans (hya i).symm, ?_, hxc.trans hyc.symm,
      hxk.trans hyk.symm⟩
    rw [hxlog, hylog, h.compact_logical, h.logical]

/-- A message that starts below `b` is handled alike exactly when its part above `b` hides
what its part below has done to the live log. -/
theorem transparent_below (h : Compactable n b lastTerm voters) (ht : n.term ≤ msg.term)
    (ha : Agrees n msg) (hlt : msg.prevIndex < b) (hk : PrevKept b lastTerm msg) :
    ∃ live, Reduced n b lastTerm msg live ∧
      (Transparent n (n.compactAt b lastTerm voters) b msg ↔
        overlay Entry.term live (msg.entries.drop (b-msg.prevIndex)) =
          overlay Entry.term (n.log.drop b) (msg.entries.drop (b-msg.prevIndex))) := by
  have hle := h.le
  have hlen := h.commit_le
  have hpass : Passes n msg := by
    rcases Nat.eq_zero_or_pos msg.prevIndex with h0 | hpos
    · exact Or.inl h0
    · exact Or.inr ⟨by rw [h.last]; omega, ha.prev hpos (by omega)⟩
  obtain ⟨x, hx, hxt⟩ := h.takes ht ha hpass
  obtain ⟨target, ⟨live, hred, htarget⟩, hpart, htook⟩ := (h.compact_follows ht).accepted
    ((h.passes_iff ha hk).mpr hpass)
    (P := fun log => ∃ live, Reduced n b lastTerm msg live ∧ log = n.log.take b ++
      overlay Entry.term live (msg.entries.drop (b-msg.prevIndex)))
    (fun k hk => h.compact_loop ha hlt hk)
  have hsplit := h.written_split ha hlt
  have htake : (n.log.take b).length = b := by
    rw [List.length_take]
    omega
  -- both nodes accept, so only what they write past the base can differ
  refine ⟨live, hred, ?_⟩
  constructor
  · rintro ⟨x', y, hx', hy, hsame⟩
    obtain rfl := Except.ok.inj (hx.symm.trans hx')
    have hlog := hsame.logical
    rw [hxt.logical, hpart y hy, htarget, hsplit, List.drop_left' htake,
      List.drop_left' htake] at hlog
    exact hlog.symm
  · intro heq
    rw [htarget, heq, ← hsplit] at htook
    obtain ⟨y, hy, hyt⟩ := htook (h.commitAfter_le ha hpass)
    exact ⟨x, y, hx, hy, hxt.sameAbove hyt⟩

/-- Below `b` the terms are at most the term there, above it they are at least that. -/
theorem term_le (h : Compactable n b lastTerm voters) (ha : Agrees n msg)
    (hm : LogsMatch n msg) {g : Entry} (hg : g ∈ msg.entries.take (b-msg.prevIndex)) :
    g.term ≤ lastTerm := by
  have hle := h.le
  obtain ⟨k, hlt, rfl⟩ := List.mem_take_iff_getElem.mp hg
  obtain ⟨f, hf, rfl⟩ := h.base_entry
  have hk := ha.entries k _ (List.getElem?_eq_getElem (by omega)) (by omega)
  obtain ⟨hl, hx⟩ := List.getElem?_eq_some_iff.mp hk
  obtain ⟨hl', hy⟩ := List.getElem?_eq_some_iff.mp hf
  rw [← hx, ← hy]
  rcases Nat.eq_or_lt_of_le (show msg.prevIndex+k ≤ b-1 by omega) with heq | hlt'
  · simp only [heq, le_refl]
  · exact List.pairwise_iff_getElem.mp hm.log_sorted _ _ hl hl' hlt'

theorem le_term_log (h : Compactable n b lastTerm voters) (hm : LogsMatch n msg) {e : Entry}
    (he : e ∈ n.log.drop b) : lastTerm ≤ e.term := by
  have hpos := h.pos
  obtain ⟨k, hlt, rfl⟩ := List.mem_drop_iff_getElem.mp he
  obtain ⟨f, hf, rfl⟩ := h.base_entry
  obtain ⟨hl, hy⟩ := List.getElem?_eq_some_iff.mp hf
  rw [← hy]
  exact List.pairwise_iff_getElem.mp hm.log_sorted _ _ hl _ (by omega)

theorem le_term_entries (h : Compactable n b lastTerm voters) (ha : Agrees n msg)
    (hm : LogsMatch n msg) (hlt : msg.prevIndex < b) {e : Entry}
    (he : e ∈ msg.entries.drop (b-msg.prevIndex)) : lastTerm ≤ e.term := by
  have hle := h.le
  obtain ⟨k, hk, rfl⟩ := List.mem_drop_iff_getElem.mp he
  obtain ⟨f, hf, rfl⟩ := h.base_entry
  -- the message carries the entry at `b` too
  have hget := List.getElem?_eq_getElem (l := msg.entries) (i := b-msg.prevIndex-1) (by omega)
  have hx := ha.entries _ _ hget (by omega)
  have hidx : msg.prevIndex+(b-msg.prevIndex-1) = b-1 := by omega
  rw [hidx, hf] at hx
  rw [Option.some.inj hx]
  exact List.pairwise_iff_getElem.mp hm.entries_sorted _ _ _ _ (by omega)

/-- A message that knows no term below the base but the base's own is taken alike. -/
theorem transparent_kept (h : Compactable n b lastTerm voters) (ht : n.term ≤ msg.term)
    (ha : Agrees n msg) (hprev : PrevKept b lastTerm msg) (hent : EntriesKept b lastTerm msg) :
    Transparent n (n.compactAt b lastTerm voters) b msg := by
  rcases Nat.lt_or_ge msg.prevIndex b with hlt | hge
  · obtain ⟨live, hred, hiff⟩ := h.transparent_below ht ha hlt hprev
    apply hiff.mpr
    rw [hred.1 hent]
  · exact h.transparent_above ht ha hge

/-- Between logs that match, another message is taken alike exactly when it replaces the live
log, with the stray entry at its end. -/
theorem transparent_stray (h : Compactable n b lastTerm voters) (ht : n.term ≤ msg.term)
    (ha : Agrees n msg) (hm : LogsMatch n msg) (hprev : PrevKept b lastTerm msg)
    (hent : ¬ EntriesKept b lastTerm msg) :
    Transparent n (n.compactAt b lastTerm voters) b msg ↔ Replaces n b msg := by
  have hlt : msg.prevIndex < b := by
    by_contra hge
    refine hent fun k e he hk => ?_
    omega
  obtain ⟨live, hred, hiff⟩ := h.transparent_below ht ha hlt hprev
  obtain ⟨r, g, rfl, hg, hgt, hr⟩ := hred.2 hent
  have hlow : g.term < lastTerm := lt_of_le_of_ne (h.term_le ha hm hg) hgt
  have hmatch : Matched Entry.term (n.log.drop b)
      (msg.entries.drop (b-msg.prevIndex)) := by
    intro k e f he hf hte
    rw [List.getElem?_drop] at he hf
    refine hm.matched (b-msg.prevIndex+k) e f ?_ hf hte
    have hidx : msg.prevIndex+(b-msg.prevIndex+k) = b+k := by omega
    rw [hidx, he]
  rw [hiff, overlay_stray (by omega) (fun e he => (hlow.trans_le (h.le_term_log hm he)).ne)
    (fun e he => (hlow.trans_le (h.le_term_entries ha hm hlt he)).ne) hmatch, Replaces]
  refine and_congr_left fun _ => ?_
  rw [ne_eq, List.drop_eq_nil_iff]
  omega

end Compactable

/-- Compacting a follower is transparent to a message that knows no term below the base but
the base's own, and to one that matches the log and replaces all that is live of it. Between
logs that match it is transparent to no other message. -/
theorem compaction_transparent (h : Compactable n b lastTerm voters) (ht : n.term ≤ msg.term)
    (ha : Agrees n msg) :
    (PrevKept b lastTerm msg →
      EntriesKept b lastTerm msg ∨ LogsMatch n msg ∧ Replaces n b msg →
        Transparent n (n.compactAt b lastTerm voters) b msg) ∧
    (LogsMatch n msg → (Transparent n (n.compactAt b lastTerm voters) b msg ↔
      PrevKept b lastTerm msg ∧ (EntriesKept b lastTerm msg ∨ Replaces n b msg))) := by
  have henough : PrevKept b lastTerm msg →
      EntriesKept b lastTerm msg ∨ LogsMatch n msg ∧ Replaces n b msg →
        Transparent n (n.compactAt b lastTerm voters) b msg := by
    intro hprev hcase
    by_cases hent : EntriesKept b lastTerm msg
    · exact h.transparent_kept ht ha hprev hent
    · obtain ⟨hm, hrep⟩ := hcase.resolve_left hent
      exact (h.transparent_stray ht ha hm hprev hent).mpr hrep
  refine ⟨henough, fun hm => ⟨fun htr => ?_, ?_⟩⟩
  · have hprev := h.prevKept_of_transparent ht ha htr
    by_cases hent : EntriesKept b lastTerm msg
    · exact ⟨hprev, Or.inl hent⟩
    · exact ⟨hprev, Or.inr ((h.transparent_stray ht ha hm hprev hent).mp htr)⟩
  · rintro ⟨hprev, hcase⟩
    exact henough hprev (hcase.imp_right fun hrep => ⟨hm, hrep⟩)

/-- A follower with an entry of an old term, one committed since, and one more. -/
def tailed : RaftNode :=
  { RaftNode.new 0 [1, 2] {} NO_BUGS none with
    term := 2
    log := [⟨1, "a".toList⟩, ⟨2, "b".toList⟩, ⟨2, "c".toList⟩]
    commitIndex := 2
    lastApplied := 2 }

/-- What its leader sent it first, with nothing else in the log. -/
def delayed : AppendEntries := ⟨2, 1, 0, 0, [⟨1, "a".toList⟩], 0⟩

/-- The leader's whole log, with a fourth entry. -/
def resent : AppendEntries :=
  ⟨2, 1, 0, 0, [⟨1, "a".toList⟩, ⟨2, "b".toList⟩, ⟨2, "c".toList⟩, ⟨2, "d".toList⟩], 4⟩

theorem tailed_compactable : Compactable tailed 2 2 [0, 1, 2] where
  bugs := rfl
  alive := rfl
  role := rfl
  base := rfl
  folded := rfl
  settled := rfl
  commit_le := by decide
  pos := by decide
  le := by decide
  term := by decide +kernel
  voters := by decide +kernel

theorem agrees_of_isPrefix {m : AppendEntries} (h0 : m.prevIndex = 0)
    (h : m.entries.take n.commitIndex <+: n.log) : Agrees n m where
  entries k e he hlt := by
    rw [h0, Nat.zero_add] at hlt ⊢
    refine prefix_getElem? h ?_
    rwa [List.getElem?_take_of_lt hlt]
  prev hpos := by omega

theorem logsMatch_of_merge {m : AppendEntries} (h0 : m.prevIndex = 0)
    (h : m.entries <+: n.log ∨ n.log <+: m.entries)
    (hn : n.log.Pairwise fun e f => e.term ≤ f.term)
    (hm : m.entries.Pairwise fun e f => e.term ≤ f.term) : LogsMatch n m where
  log_sorted := hn
  entries_sorted := hm
  matched k e f he hf _ := by
    rw [h0, Nat.zero_add] at he
    rcases h with h | h
    · exact Option.some.inj (he.symm.trans (prefix_getElem? h hf))
    · exact Option.some.inj ((prefix_getElem? h he).symm.trans hf)

/-- The leader's whole log is taken alike, its first entry alone is not. -/
theorem resent_log_transparent :
    Transparent tailed (tailed.compactAt 2 2 [0, 1, 2]) 2 resent ∧
      ¬ Transparent tailed (tailed.compactAt 2 2 [0, 1, 2]) 2 delayed := by
  have hresent : LogsMatch tailed resent :=
    logsMatch_of_merge rfl (by decide +kernel) (by decide) (by decide)
  have hdelayed : LogsMatch tailed delayed :=
    logsMatch_of_merge rfl (by decide +kernel) (by decide) (by decide)
  constructor
  · refine (compaction_transparent tailed_compactable (by decide)
      (agrees_of_isPrefix rfl (by decide +kernel))).1 (Or.inl rfl) (Or.inr ⟨hresent, ?_⟩)
    exact ⟨by decide, Or.inl (by decide)⟩
  · rw [(compaction_transparent tailed_compactable (by decide)
      (agrees_of_isPrefix rfl (by decide +kernel))).2 hdelayed]
    rintro ⟨-, hkept | ⟨hlong, -⟩⟩
    -- its entry is of the first term, and it ends below the base
    · exact absurd (hkept 0 _ rfl (by decide)) (by decide)
    · exact absurd hlong (by decide)


/-- A delayed message that says nothing new makes the compacted follower drop its last
entry for a committed one. -/
theorem delayed_entry_not_transparent : ¬ ∀ (n : RaftNode) (b lastTerm : ℕ)
    (voters : List NodeId) (msg : AppendEntries), Compactable n b lastTerm voters →
    n.term ≤ msg.term → Agrees n msg → LogsMatch n msg →
      Transparent n (n.compactAt b lastTerm voters) b msg := by
  intro hall
  obtain ⟨x, y, hx, hy, hsame⟩ := hall tailed 2 2 [0, 1, 2] delayed tailed_compactable
    (by decide) (agrees_of_isPrefix rfl (by decide +kernel))
    (logsMatch_of_merge rfl (by decide +kernel) (by decide) (by decide))
  have hxl : (Exec.handle ⟨tailed, []⟩ (.appendEntries delayed)).map
      (fun z => z.node.logical.drop 2) = .ok [⟨2, "c".toList⟩] := by decide +kernel
  have hyl : (Exec.handle ⟨tailed.compactAt 2 2 [0, 1, 2], []⟩ (.appendEntries delayed)).map
      (fun z => z.node.logical.drop 2) = .ok [⟨1, "a".toList⟩] := by decide +kernel
  rw [hx] at hxl
  rw [hy] at hyl
  have hlog := ((Except.ok.inj hxl).symm.trans hsame.logical).trans (Except.ok.inj hyl)
  exact absurd hlog (by decide)

end RaftVerified
