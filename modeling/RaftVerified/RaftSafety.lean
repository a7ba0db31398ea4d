import RaftVerified.RaftRuns

/-! Safety of the cluster without compaction: leader completeness, state machine safety,
election safety under membership changes, log matching, and the state as a replay. -/
namespace RaftVerified
open Consensus

variable {c : Setup} {a : Protocol} {v w : World} {ws past : List World}

/-! ### Which runs -/

/-- A client command that is no configuration entry. -/
def Plain (command : Str) : Prop := CONFIG_PREFIX.isPrefixOf command = false

instance (command : Str) : Decidable (Plain command) :=
  inferInstanceAs (Decidable (_ = _))

/-- The voting set stays as it is; everything else may happen in any order. -/
def FixedVoters (_ : List World) : Event → Prop
  | .clientCommand _ command => Plain command
  | .changeConfig _ _ => False
  | _ => True

/-- Any node may be asked for any change of the voting set as well. -/
def AnyChange (_ : List World) : Event → Prop
  | .clientCommand _ command => Plain command
  | _ => True

/-- Every change a leader accepts keeps the majorities overlapping. -/
def SoundChanges (c : Setup) (ws : List World) : Event → Prop
  | .clientCommand _ command => Plain command
  | .changeConfig i newVoters => ∀ w, ws.head? = some w → i ∈ c.ids →
      Exec.SoundChange (w.nodes i) newVoters
  | _ => True

instance (ws : List World) (e : Event) : Decidable (FixedVoters ws e) :=
  match e with
  | .clientCommand _ command => inferInstanceAs (Decidable (Plain command))
  | .changeConfig _ _ => instDecidableFalse
  | .electionTimeout _ _ | .heartbeat _ _ | .requestRead _ _ | .deliver _ | .pause _ | .resume _ =>
    instDecidableTrue

instance (ws : List World) (e : Event) : Decidable (AnyChange ws e) :=
  match e with
  | .clientCommand _ command => inferInstanceAs (Decidable (Plain command))
  | .electionTimeout _ _ | .heartbeat _ _ | .changeConfig _ _ | .requestRead _ _ | .deliver _
  | .pause _ | .resume _ => instDecidableTrue

/-- Without compaction nothing is ever folded away. -/
theorem flat_node (h : NodeOk c (w.nodes i)) (ht : c.config.snapshotThreshold = 0) :
    (w.nodes i).baseIndex = 0 ∧ (w.nodes i).logical = (w.nodes i).log := by
  have hs : (w.nodes i).snapshot = none := by
    by_contra hne
    obtain ⟨s, hs⟩ := Option.ne_none_iff_exists'.mp hne
    exact absurd (h.compacts s hs) (by omega)
  have hf := h.no_snapshot hs
  refine ⟨by rw [← h.base, hf, List.length_nil], ?_⟩
  rw [RaftNode.logical, hf, List.nil_append]

theorem flat_harmless (h : WorldRel c a w) (ht : c.config.snapshotThreshold = 0) {p : Packet}
    (hp : p ∈ w.sent) (hd : p.dst ∈ c.ids) : Exec.Harmless a (w.nodes p.dst) p.msg := by
  have hbase := (flat_node (h.nodes _ hd).ok ht).1
  have hm := h.sent p hp
  obtain ⟨src, dst, msg⟩ := p
  cases msg with
  | appendEntries m =>
    intro _ _ _ k e _ hk
    change _ < (w.nodes dst).baseIndex at hk
    rw [hbase] at hk
    omega
  | installSnapshot m =>
    obtain ⟨-, -, -, hpos, -⟩ := hm
    omega
  | _ => trivial

theorem fixed_explained (hb : c.bugs = NO_BUGS) (ht : c.config.snapshotThreshold = 0)
    (hr : Run c FixedVoters ws) : ∃ a, Explains c a ws := by
  refine run_explained hb (fun w past e a _ hall ha => ?_) hr
  have hw := ha.now w rfl
  cases e with
  | clientCommand j command => exact decodeConfig_of_plain command hall
  | changeConfig j new => exact hall.elim
  | deliver k => exact fun p hp hd => flat_harmless hw ht (List.mem_of_getElem? hp) hd
  | _ => trivial

theorem membership_explained (hb : c.bugs = NO_BUGS) (ht : c.config.snapshotThreshold = 0)
    (hr : Run c (SoundChanges c) ws) : ∃ a, Explains c a ws := by
  refine run_explained hb (fun w past e a _ hall ha => ?_) hr
  have hw := ha.now w rfl
  cases e with
  | clientCommand j command => exact decodeConfig_of_plain command hall
  | changeConfig j new => exact hall w rfl
  | deliver k => exact fun p hp hd => flat_harmless hw ht (List.mem_of_getElem? hp) hd
  | _ => trivial

/-! ### What an explained run guarantees -/

namespace Explains
variable {i j : NodeId}

theorem leader_trunk (h : Explains c a ws) (hw : w ∈ ws) (hi : i ∈ c.ids)
    (hr : (w.nodes i).role = .leader) :
    (∃ B, a.elected (w.nodes i).term i B ∧ B <+: (w.nodes i).logical) ∧
      (w.nodes i).logical <+: a.trunk (w.nodes i).term := by
  obtain ⟨b, hI, hx, hrel⟩ := h.past w hw
  have hn := hrel.nodes i hi
  have hl := hI.leader i (by rw [hn.view, RaftNode.view, hr]; rfl)
  rw [hn.view] at hl
  obtain ⟨⟨B, hB⟩, ht⟩ := hl
  have ht : b.trunk (w.nodes i).term = (w.nodes i).logical := ht
  refine ⟨⟨B, hx.elected _ _ _ hB, ?_⟩, ?_⟩
  · rw [← ht]
    exact (hI.elected_base _ _ _ hB).1
  · rw [← ht]
    exact hx.trunk _

/-- Election safety over the whole run. -/
theorem one_leader (h : Explains c a ws) (hv : v ∈ ws) (hw : w ∈ ws) (hi : i ∈ c.ids)
    (hj : j ∈ c.ids) (hri : (v.nodes i).role = .leader) (hrj : (w.nodes j).role = .leader)
    (ht : (v.nodes i).term = (w.nodes j).term) : i = j := by
  obtain ⟨⟨B, hB, -⟩, -⟩ := h.leader_trunk hv hi hri
  obtain ⟨⟨C, hC, -⟩, -⟩ := h.leader_trunk hw hj hrj
  rw [ht] at hB
  exact (h.inv.elected_once _ _ _ _ _ hB hC).1

theorem committed_settled (h : Explains c a ws) (hv : v ∈ ws) (hi : i ∈ c.ids) :
    a.Settled (v.nodes i).term ((v.nodes i).logical.take (v.nodes i).commitIndex) := by
  obtain ⟨b, hI, hx, hrel⟩ := h.past v hv
  exact hx.settled ((hrel.nodes i hi).committed_settled hI) le_rfl

theorem covered_chosen (h : Explains c a ws) (hv : v ∈ ws) (hi : i ∈ c.ids) {k : ℕ} {e : Entry}
    (hk : k < (v.nodes i).commitIndex) (he : (v.nodes i).logical[k]? = some e) :
    ∃ t m n, t ≤ (v.nodes i).term ∧ a.chosen t m n ∧ k < m ∧ (a.trunk t)[k]? = some e := by
  have htake : ((v.nodes i).logical.take (v.nodes i).commitIndex)[k]? = some e := by
    rw [List.getElem?_take_of_lt hk, he]
  rcases h.committed_settled hv hi with hnil | ⟨t, m, n, ht, hc, hp⟩
  · rw [hnil] at htake
    cases htake
  · have hp := prefix_getElem? hp htake
    have hkm : k < m := by
      have hl := length_lt_of_getElem? hp
      rw [List.length_take] at hl
      omega
    rw [List.getElem?_take_of_lt hkm] at hp
    exact ⟨t, m, n, ht, hc, hkm, hp⟩

/-- The present leader of a term has what was committed in terms up to its own. -/
theorem leader_has (h : Explains c a (w :: past)) (hv : v ∈ w :: past) (hi : i ∈ c.ids)
    (hj : j ∈ c.ids) {k : ℕ} {e : Entry} (hk : k < (v.nodes i).commitIndex)
    (he : (v.nodes i).logical[k]? = some e) (hr : (w.nodes j).role = .leader)
    (ht : (v.nodes i).term ≤ (w.nodes j).term) : (w.nodes j).logical[k]? = some e := by
  obtain ⟨t, m, n, htv, hc, hkm, hek⟩ := h.covered_chosen hv hi hk he
  obtain ⟨hl, htr⟩ := ((h.now w rfl).nodes j hj).leader h.inv hr
  have hp := h.inv.leader_complete hc hl (by omega)
  rw [htr] at hp
  refine prefix_getElem? hp ?_
  rw [List.getElem?_take_of_lt hkm, hek]

/-- State machine safety: what two nodes ever covered at one position is the same. -/
theorem covered_agree (h : Explains c a ws) (hv : v ∈ ws) (hw : w ∈ ws) (hi : i ∈ c.ids)
    (hj : j ∈ c.ids) {k : ℕ} {e f : Entry} (hk : k < (v.nodes i).commitIndex)
    (he : (v.nodes i).logical[k]? = some e) (hk' : k < (w.nodes j).commitIndex)
    (hf : (w.nodes j).logical[k]? = some f) : e = f := by
  obtain ⟨t, m, n, -, hc, hkm, hek⟩ := h.covered_chosen hv hi hk he
  obtain ⟨t', m', n', -, hc', hkm', hfk⟩ := h.covered_chosen hw hj hk' hf
  have hte : ((a.trunk t).take m)[k]? = some e := by rw [List.getElem?_take_of_lt hkm, hek]
  have htf : ((a.trunk t').take m')[k]? = some f := by rw [List.getElem?_take_of_lt hkm', hfk]
  rcases h.inv.chosen_comparable hc hc' with hp | hp
  · exact Option.some.inj ((prefix_getElem? hp hte).symm.trans htf)
  · exact Option.some.inj (hte.symm.trans (prefix_getElem? hp htf))

end Explains
end RaftVerified
