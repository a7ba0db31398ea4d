import RaftVerified.ConsensusInvariant

/-! Why a later leader has every committed entry: quorums of configurations that one
change separates still meet, and the election restriction does the rest. -/
namespace Consensus

variable {ι ε κ : Type*} {R : Reading ε κ} {Q : QuorumSystem ι κ} {s : State ι ε}

/-- `Y` starts with everything that was committed, when `X` was at that length, in the
terms of the entries of `X`. -/
def Covers (R : Reading ε κ) (s : State ι ε) (X Y : List ε) : Prop :=
  ∀ a e, X[a]? = some e → ∀ k j, s.chosen (R.term e) k j → j ≤ a →
    (s.trunk (R.term e)).take k <+: Y

/-- `B` starts with everything a leader of a term before `u` committed. -/
def Complete (s : State ι ε) (u : ℕ) (B : List ε) : Prop :=
  ∀ t k j, t < u → s.chosen t k j → (s.trunk t).take k <+: B

theorem Complete.covers {u : ℕ} {X Y : List ε} (hY : Complete s u Y)
    (hX : ∀ e ∈ X, R.term e < u) : Covers R s X Y :=
  fun _ e he k j hk _ => hY (R.term e) k j (hX e (List.mem_of_getElem? he)) hk

namespace Inv
variable (h : Inv R Q s)
include h

/-- The committed part of a term ends with an entry of that term. -/
theorem chosen_last {t k j : ℕ} (hc : s.chosen t k j) :
    R.lastTerm ((s.trunk t).take k) = t ∧ ((s.trunk t).take k).length = k ∧ 0 < k := by
  obtain ⟨n, e, rfl, he, ht⟩ := h.chosen_own t k j hc
  have hn := length_lt_of_getElem? he
  have hl : ((s.trunk t).take (n+1)).length = n+1 := by
    rw [List.length_take]
    omega
  refine ⟨?_, hl, n.succ_pos⟩
  rw [R.lastTerm_of_getElem? (n := n) (e := e) ?_ hl, ht]
  rw [List.getElem?_take_of_lt n.lt_succ_self, he]

theorem base_lt_chosen {t k j : ℕ} {i : ι} {B : List ε} (hc : s.chosen t k j)
    (hB : s.elected t i B) : B.length < k := by
  obtain ⟨n, e, rfl, he, ht⟩ := h.chosen_own t k j hc
  obtain ⟨hb, hlt, _⟩ := h.elected_base t i B hB
  by_contra hn
  rw [← prefix_getElem?_eq hb (by omega)] at he
  exact absurd (hlt e (List.mem_of_getElem? he)) (by omega)

/-- The configuration of `X` is the later one: `Y` then has what was committed before `X`
changed it, and no configuration after that. -/
theorem near_of_later {X Y : List ε} (hX : s.Rooted R X) (hY : s.Rooted R Y) {a : ℕ} {e : ε}
    {c : κ} (ha : X[a]? = some e) (hc : R.config e = some c) (hq : R.Quiet X (a+1) X.length)
    (hXY : Covers R s X Y)
    (hlast : ∀ b f, Y[b]? = some f → R.config f ≠ none →
      R.term f < R.term e ∨ (R.term f = R.term e ∧ b < a)) :
    Q.near (R.conf X) (R.conf Y) := by
  have hXc : R.conf X = c := by
    have hx := R.conf_take_of_last (length_lt_of_getElem? ha) ha hc hq
    rwa [List.take_length] at hx
  have hta := rooted_getElem? hX ha
  obtain ⟨hn, k, j, hk, hj, hquiet⟩ := h.reconfigured _ a e c hta hc rfl
  have hal : ((s.trunk (R.term e)).take a).length = a := by
    rw [List.length_take]
    have := length_lt_of_getElem? hta
    omega
  rw [hal] at hj hquiet
  obtain ⟨-, hkj, -⟩ := h.chosen_led _ k j hk
  obtain ⟨-, hkl, hk0⟩ := h.chosen_last hk
  have hZ := hXY a e ha k j hk hj
  -- beyond the committed part `Y` holds no configuration
  have hYq : R.Quiet Y k Y.length := by
    intro b f hkb hb hf
    by_contra hcf
    obtain ⟨n, g, rfl, hg, hgt⟩ := h.chosen_own _ k j hk
    have hgY : Y[n]? = some g := by
      refine prefix_getElem? hZ ?_
      rw [List.getElem?_take_of_lt n.lt_succ_self, hg]
    have hle := h.sorted hY (by omega) hgY hf
    rcases hlast b f hf hcf with hlt | ⟨heq, hba⟩
    · omega
    · have hfb := rooted_getElem? hY hf
      rw [heq] at hfb
      refine hcf (hquiet b f hkb hba ?_)
      rw [List.getElem?_take_of_lt hba, hfb]
  have hYc : R.conf Y = R.conf ((s.trunk (R.term e)).take k) := by
    have hy := R.conf_take_of_quiet hYq (by rw [← hkl]; exact hZ.length_le)
    rw [List.take_length] at hy
    rw [hy, prefix_take_eq hZ (by omega), List.take_take, min_self]
  have hac : R.conf ((s.trunk (R.term e)).take a) = R.conf ((s.trunk (R.term e)).take k) := by
    have hy := R.conf_take_of_quiet hquiet (by omega : k ≤ a)
    rw [List.take_take, List.take_take, min_self] at hy
    rw [hy, Nat.min_eq_left (by omega)]
  rw [hXc, hYc, ← hac]
  exact Q.near_symm (Q.change_near hn)

/-- Two logs that share what was committed have configurations whose quorums meet. -/
theorem near_conf {X Y : List ε} (hX : s.Rooted R X) (hY : s.Rooted R Y)
    (hXY : Covers R s X Y) (hYX : Covers R s Y X) : Q.near (R.conf X) (R.conf Y) := by
  have hquiet {Z : List ε} (hq : R.Quiet Z 0 Z.length) : R.conf Z = R.initial := by
    have hz := R.conf_take_of_quiet hq (Nat.zero_le _)
    rwa [List.take_length] at hz
  rcases R.last_config X X.length with hqX | ⟨a, e, c, haX, ha, hc, hqX⟩
  · rcases R.last_config Y Y.length with hqY | ⟨b, f, d, hbY, hb, hd, hqY⟩
    · rw [hquiet hqX, hquiet hqY]
      exact Q.near_refl _
    · refine Q.near_symm (h.near_of_later hY hX hb hd hqY hYX fun n g hg hcg => ?_)
      exact absurd (hqX n g (Nat.zero_le _) (length_lt_of_getElem? hg) hg) hcg
  · rcases R.last_config Y Y.length with hqY | ⟨b, f, d, hbY, hb, hd, hqY⟩
    · refine h.near_of_later hX hY ha hc hqX hXY fun n g hg hcg => ?_
      exact absurd (hqY n g (Nat.zero_le _) (length_lt_of_getElem? hg) hg) hcg
    · have hlast {Z : List ε} (hZ : s.Rooted R Z) {p : ℕ} {g : ε} (hg : Z[p]? = some g)
          (hq : R.Quiet Z (p+1) Z.length) {n : ℕ} {g' : ε} (hg' : Z[n]? = some g')
          (hcg : R.config g' ≠ none) : n ≤ p ∧ R.term g' ≤ R.term g := by
        have hn : n ≤ p := by
          by_contra hn
          exact hcg (hq n g' (by omega) (length_lt_of_getElem? hg') hg')
        exact ⟨hn, h.sorted hZ hn hg' hg⟩
      -- the later of the two last configurations has the other log's behind it
      rcases lt_trichotomy (R.term e) (R.term f) with ht | ht | ht
      · refine Q.near_symm (h.near_of_later hY hX hb hd hqY hYX fun n g hg hcg => ?_)
        exact Or.inl ((hlast hX ha hqX hg hcg).2.trans_lt ht)
      · rcases lt_trichotomy a b with hab | rfl | hab
        · refine Q.near_symm (h.near_of_later hY hX hb hd hqY hYX fun n g hg hcg => ?_)
          have hl := hlast hX ha hqX hg hcg
          omega
        · -- the same entry at the same place
          have heX := rooted_getElem? hX ha
          have heY := rooted_getElem? hY hb
          rw [← ht, heX] at heY
          obtain rfl := Option.some.inj heY
          have hcX := R.conf_take_of_last haX ha hc hqX
          have hcY := R.conf_take_of_last hbY hb hc hqY
          rw [List.take_length] at hcX hcY
          rw [hcX, hcY]
          exact Q.near_refl _
        · refine h.near_of_later hX hY ha hc hqX hXY fun n g hg hcg => ?_
          have hl := hlast hY hb hqY hg hcg
          omega
      · refine h.near_of_later hX hY ha hc hqX hXY fun n g hg hcg => ?_
        exact Or.inl ((hlast hY hb hqY hg hcg).2.trans_lt ht)

/-- The election restriction: a candidate whose voter held a committed part has it, when
its own entries are no later. -/
theorem complete_of_upToDate {B V : List ε} {t k j : ℕ} (hc : s.chosen t k j)
    (hB : s.Rooted R B) (hV : s.Rooted R V) (hup : R.UpToDate B V)
    (hlast : ∀ e ∈ B, R.term e ≤ t) (hZ : (s.trunk t).take k <+: V) :
    (s.trunk t).take k <+: B := by
  obtain ⟨hkt, hkl, hk0⟩ := h.chosen_last hc
  have hZ0 : (s.trunk t).take k ≠ [] := List.ne_nil_of_length_pos (by omega)
  have hVt := h.lastTerm_le hV hZ hZ0
  have hVl := hZ.length_le
  have hne : B ≠ [] := by
    rintro rfl
    rcases hup with hlt | ⟨-, hle⟩
    · simp [Reading.lastTerm] at hlt
    · simp only [List.length_nil] at hle
      omega
  obtain ⟨n, e, hn, he, hte⟩ := R.exists_last hne
  have hBt := hlast e (List.mem_of_getElem? he)
  obtain ⟨heq, hlen⟩ : R.lastTerm B = t ∧ V.length ≤ B.length := by
    rcases hup with hlt | ⟨heq, hle⟩
    · omega
    · exact ⟨by omega, hle⟩
  have hBp := (rooted_trunk hB hne).2
  rw [heq] at hBp
  exact List.prefix_of_prefix_length_le ( List.take_prefix _ _) hBp (by omega)

/-- A log that a quorum voted for has everything committed in earlier terms, provided the
leaders that may have displaced acknowledged entries have. -/
theorem complete_of_supported {u hi : ℕ} {i : ι} {B : List ε} (hs : Supported R Q s u i B hi)
    (hB : s.Rooted R B) (hlt : ∀ e ∈ B, R.term e < u) (hu : u ≤ hi)
    (hprev : ∀ w j C, w < hi → s.elected w j C → Complete s w C) : Complete s u B := by
  obtain ⟨P, hP, hvotes⟩ := hs
  intro t
  induction t using Nat.strong_induction_on with
  | _ t iht =>
    intro k j
    induction j using Nat.strong_induction_on generalizing k with
    | _ j ihj =>
      intro htu hc
      by_contra hn
      -- `B` holds no entry of a later leader: that leader had the committed part
      have hlast : ∀ e ∈ B, R.term e ≤ t := by
        intro e he
        by_contra hte
        obtain ⟨a, ha⟩ := List.mem_iff_getElem?.mp he
        obtain ⟨w, C, hC⟩ := (hB a e ha).1
        have hCB := h.base_of_rooted hB ha hC
        have hcomp := hprev _ _ _ ((hlt e he).trans_le hu) hC t k j (by omega) hc
        exact hn (hcomp.trans (hCB.trans ( List.take_prefix _ _)))
      obtain ⟨⟨w, D, hD⟩, hkj, hjl⟩ := h.chosen_led t k j hc
      have hYr : s.Rooted R ((s.trunk t).take j) :=
        rooted_mono (h.trunk_rooted t) ( List.take_prefix _ _)
      have hXY : Covers R s B ((s.trunk t).take j) := by
        intro a e ha k' j' hc' hj'
        have hte := hlast e (List.mem_of_getElem? ha)
        rcases Nat.lt_or_ge (R.term e) t with hlt' | hge
        · have hDp := hprev t w D (by omega) hD _ k' j' hlt' hc'
          have hDl := h.base_lt_chosen hc hD
          exact prefix_take_iff.mpr ⟨hDp.trans (h.elected_base t w D hD).1,
            hDp.length_le.trans (by omega)⟩
        · obtain rfl : R.term e = t := by omega
          have hBt := (hB a e ha).2
          have hal := length_lt_of_getElem? ha
          have hkj' := (h.chosen_led _ k' j' hc').2.1
          rcases Nat.lt_or_ge j k' with hjk | hjk
          · exfalso
            refine hn ((List.prefix_of_prefix_length_le ( List.take_prefix _ _) hBt ?_).trans
              ( List.take_prefix _ _))
            rw [List.length_take, List.length_take]
            omega
          · exact take_prefix_take _ hjk
      have hYX : Covers R s ((s.trunk t).take j) B := by
        intro b f hb k' j' hc' hj'
        have hbj : b < j := by
          have hbl := length_lt_of_getElem? hb
          rw [List.length_take] at hbl
          omega
        have htf := h.trunk_below (List.mem_of_mem_take (List.mem_of_getElem? hb))
        rcases Nat.lt_or_ge (R.term f) t with hlt' | hge
        · exact iht _ hlt' k' j' (by omega) hc'
        · obtain rfl : R.term f = t := by omega
          exact ihj j' (by omega) k' htu hc'
      have hnear := h.near_conf hB hYr hXY hYX
      obtain ⟨A, hA, hacks⟩ := h.chosen_quorum t k j hc
      obtain ⟨q, hqP, hqA⟩ := Q.commits_meet hnear hP hA
      obtain ⟨V, hV, hup, hkept⟩ := hvotes q hqP
      obtain ⟨m, hkm, hm⟩ := hacks q hqA
      rcases hkept t m hm htu k hkm with hZ | ⟨w', j', C, h1, h2, hC, hnC⟩
      · exact hn (h.complete_of_upToDate hc hB (h.voted_rooted q u i V hV) hup hlast hZ)
      · exact hnC (hprev w' j' C h2 hC t k j h1 hc)

/-- Leader completeness, for the log a leader starts with. -/
theorem elected_complete {u : ℕ} {i : ι} {B : List ε} (hB : s.elected u i B) :
    Complete s u B := by
  induction u using Nat.strong_induction_on generalizing i B with
  | _ u ih =>
    obtain ⟨V, hV⟩ := h.elected_support u i B hB
    have hr := rooted_mono (h.trunk_rooted u) (h.elected_base u i B hB).1
    exact h.complete_of_supported ⟨V, hV⟩ hr (h.elected_base u i B hB).2.1 le_rfl
      fun w j C hw hC => ih w hw hC

/-- What a leader committed is in the log of every leader of the same or a later term. -/
theorem leader_complete {t k j u : ℕ} (hc : s.chosen t k j) (hu : s.Led u) (htu : t ≤ u) :
    (s.trunk t).take k <+: s.trunk u := by
  obtain ⟨i, B, hB⟩ := hu
  rcases Nat.lt_or_ge t u with hlt | hge
  · exact (h.elected_complete hB t k j hlt hc).trans (h.elected_base u i B hB).1
  · obtain rfl : t = u := by omega
    exact List.take_prefix _ _

/-- Any two committed parts agree as far as both reach. -/
theorem chosen_comparable {t k j t' k' j' : ℕ} (hc : s.chosen t k j)
    (hc' : s.chosen t' k' j') :
    (s.trunk t).take k <+: (s.trunk t').take k' ∨ (s.trunk t').take k' <+: (s.trunk t).take k := by
  obtain ⟨hl, -⟩ := h.chosen_led t k j hc
  obtain ⟨hl', -⟩ := h.chosen_led t' k' j' hc'
  rcases Nat.le_total t t' with ht | ht
  · exact List.prefix_or_prefix_of_prefix (h.leader_complete hc hl' ht) ( List.take_prefix _ _)
  · exact List.prefix_or_prefix_of_prefix ( List.take_prefix _ _) (h.leader_complete hc' hl ht)

/-- A commit stands on a quorum that holds it now: whoever acknowledged it could only have
lost it to a later leader, and later leaders have it. -/
theorem chosen_held {t k j : ℕ} (hc : s.chosen t k j) :
    ∃ P, Q.commits (R.conf ((s.trunk t).take j)) P ∧
      ∀ q ∈ P, (s.trunk t).take k <+: (s.server q).log := by
  obtain ⟨P, hP, hacked⟩ := h.chosen_quorum t k j hc
  refine ⟨P, hP, ?_⟩
  intro q hq
  obtain ⟨m, hkm, hm⟩ := hacked q hq
  rcases h.acked_kept q t m hm k hkm with hkept | ⟨w, i, C, htw, -, hC, hlost⟩
  · exact hkept
  · exact absurd (h.elected_complete hC t k j htw hc) hlost

/-- What the first configuration has and every allowed change keeps, every governing
configuration has. -/
theorem conf_of_change {p : κ → Prop} (h0 : p R.initial)
    (hchange : ∀ {c d}, Q.change c d → p c → p d) {xs : List ε} (hx : s.Rooted R xs) :
    p (R.conf xs) := by
  induction hl : xs.length using Nat.strong_induction_on generalizing xs with
  | _ len ih =>
    rcases R.last_config xs xs.length with hq | ⟨n, e, c, hn, he, hc, hq⟩
    · have hx := R.conf_take_of_quiet hq (Nat.zero_le _)
      rw [List.take_length] at hx
      rw [hx]
      exact h0
    · have hxc := R.conf_take_of_last hn he hc hq
      rw [List.take_length] at hxc
      rw [hxc]
      have ht := rooted_getElem? hx he
      obtain ⟨hnr, -⟩ := h.reconfigured _ n e c ht hc rfl
      refine hchange hnr (ih n (by omega) ?_ ?_)
      · exact rooted_mono (h.trunk_rooted _) ( List.take_prefix _ _)
      · have := length_lt_of_getElem? ht
        rw [List.length_take]
        omega

theorem settled_trunk {u w : ℕ} {xs : List ε} (hs : s.Settled u xs) (hw : s.Led w)
    (huw : u ≤ w) : xs <+: s.trunk w := by
  rcases hs with rfl | ⟨t, k, j, ht, hc, hp⟩
  · exact List.nil_prefix
  · exact hp.trans (h.leader_complete hc hw (ht.trans huw))

/-- A candidate that a quorum voted for is the first leader of its term. -/
theorem unled_of_votes {i : ι} {P : Finset ι} (hr : (s.server i).role = .candidate)
    (hP : Q.elects (R.conf (s.server i).log) P)
    (hv : ∀ q ∈ P, ∃ V, s.voted q (s.server i).term i V) : ¬ s.Led (s.server i).term := by
  rintro ⟨j, C, hC⟩
  obtain ⟨hask, hnone⟩ := h.candidate i hr
  have hBr := h.asked_rooted _ _ _ hask
  have hBlt := h.asked_below _ _ _ hask
  have hprev : ∀ w j C, w < (s.server i).term+1 → s.elected w j C → Complete s w C :=
    fun w j C _ hC => h.elected_complete hC
  have hsup : Supported R Q s (s.server i).term i (s.server i).log ((s.server i).term+1) := by
    refine ⟨P, hP, fun q hq => ?_⟩
    obtain ⟨V, hV⟩ := hv q hq
    obtain ⟨B, hB, hup⟩ := h.voted_asked _ _ _ _ hV
    obtain rfl := h.asked_once _ _ _ _ hB hask
    exact ⟨V, hV, hup, fun t m hm ht k hk => h.voted_kept _ _ _ _ t m hV hm ht k hk⟩
  have hB := h.complete_of_supported hsup hBr hBlt (Nat.le_succ _) hprev
  have hCc := h.elected_complete hC
  have hCr := rooted_mono (h.trunk_rooted _) (h.elected_base _ _ _ hC).1
  have hnear := h.near_conf hBr hCr (hCc.covers hBlt) (hB.covers (h.elected_base _ _ _ hC).2.1)
  obtain ⟨A, hA, hvA⟩ := h.elected_support _ _ _ hC
  obtain ⟨q, hqP, hqA⟩ := Q.elects_meet hnear hP hA
  obtain ⟨V, hV⟩ := hv q hqP
  obtain ⟨W, hW, -⟩ := hvA q hqA
  obtain rfl := h.voted_once _ _ _ _ _ _ hV hW
  exact hnone C hC

end Inv
end Consensus
