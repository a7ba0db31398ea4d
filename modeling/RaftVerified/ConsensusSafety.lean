import RaftVerified.ConsensusSteps

/-! Every step keeps the invariant, so it holds along every run of the protocol. -/
namespace Consensus
open State

variable {ι ε κ : Type*} [DecidableEq ι] [DecidableEq ε] {R : Reading ε κ}
variable {Q : QuorumSystem ι κ} {s s' : State ι ε} {i : ι}

/-! ### Votes -/

theorem ballots_step (h : Inv R Q s) (st : Step R Q i s s') : Ballots R s' where
  voted_term q u c V hv := by
    rcases step_voted h st hv with hv | ⟨rfl, rfl, -⟩
    · exact (h.voted_term q u c V hv).trans (step_term st q)
    · exact le_rfl
  voted_now q c V hv := by
    rcases step_voted h st hv with hv | ⟨rfl, -, hvote, -⟩
    -- a vote cast before the step binds only while the term stands
    · have ht : (s'.server q).term = (s.server q).term :=
        le_antisymm (h.voted_term q _ c V hv) (step_term st q)
      rw [ht] at hv
      exact step_vote st ht (h.voted_now q c V hv)
    · exact hvote
  voted_once q u c d V W hv hw := by
    rcases step_voted h st hv with hv | ⟨rfl, -, hvote, -, -, honce⟩
    · rcases step_voted h st hw with hw | ⟨rfl, -, -, -, -, honce⟩
      · exact h.voted_once q u c d V W hv hw
      · exact honce c V hv
    · rcases step_voted h st hw with hw | ⟨-, -, hvote', -⟩
      · exact (honce d W hw).symm
      · rw [hvote] at hvote'
        exact Option.some.inj hvote'
  voted_asked q u c V hv := by
    rcases step_voted h st hv with hv | ⟨rfl, -, -, -, hask, -⟩
    · obtain ⟨B, hB, hup⟩ := h.voted_asked q u c V hv
      exact ⟨B, (step_ext h st).asked c u B hB, hup⟩
    · exact hask
  asked_term c u B ha := by
    rcases step_asked st ha with ha | ⟨rfl, -, rfl, -⟩
    · exact (h.asked_term c u B ha).trans (step_term st c)
    · exact le_rfl
  asked_once c u B C hb hc := by
    rcases step_asked st hb with hb | ⟨rfl, hlt, -, rfl⟩
    · rcases step_asked st hc with hc | ⟨rfl, hlt, -, rfl⟩
      · exact h.asked_once c u B C hb hc
      -- a new term was never asked for before
      · exact absurd (h.asked_term c u B hb) (by omega)
    · rcases step_asked st hc with hc | ⟨-, -, -, rfl⟩
      · exact absurd (h.asked_term c u C hc) (by omega)
      · rfl
  elected_term u j B he := by
    rcases step_elected h st he with he | ⟨rfl, rfl, -⟩
    · exact (h.elected_term u j B he).trans (step_term st j)
    · exact step_term st j
  candidate j hr := by
    by_cases hj : j = i
    · subst hj
      obtain ⟨hlog, hold, hcase⟩ := step_role_candidate st hr
      -- a candidate either was one in this term already or has just called the election
      rcases hcase with ⟨hr, ht⟩ | ⟨hlt, hask⟩
      · obtain ⟨hask, hnone⟩ := h.candidate j hr
        rw [ht, hlog]
        exact ⟨(step_ext h st).asked _ _ _ hask, fun C hC => hnone C (hold _ C hC)⟩
      · refine ⟨hask, fun C hC => ?_⟩
        exact absurd (h.elected_term _ j C (hold _ C hC)) (by omega)
    · rw [step_server st hj] at hr ⊢
      obtain ⟨hask, hnone⟩ := h.candidate j hr
      refine ⟨(step_ext h st).asked _ _ _ hask, fun C hC => ?_⟩
      rcases step_elected h st hC with hC | ⟨hj', -⟩
      · exact hnone C hC
      · exact hj hj'

/-! ### Logs -/

theorem trunk_rooted_step (h : Inv R Q s) (st : Step R Q i s s') (u : ℕ) :
    s'.Rooted R (s'.trunk u) := by
  have hx := step_ext h st
  rcases step_trunk h st u with ht | ⟨-, -, ht, -⟩ | ⟨hu, hr, e, hte, ht, -⟩
  · rw [ht]
    exact hx.rooted (h.trunk_rooted u)
  · rw [ht]
    exact hx.rooted (h.log_rooted i)
  · have hl : s'.Led (R.term e) := by
      rw [hte, hu]
      exact hx.led ⟨i, (h.leader i hr).1⟩
    have hp : s.trunk u ++ [e] <+: s'.trunk (R.term e) := by
      rw [hte, ht]
    rw [ht]
    exact rooted_append (hx.rooted (h.trunk_rooted u)) hl hp

theorem elected_base_step (h : Inv R Q s) (st : Step R Q i s s') {u : ℕ} {j : ι} {B : List ε}
    (he : s'.elected u j B) : B <+: s'.trunk u ∧ (∀ e ∈ B, R.term e < u) ∧
      ∀ n e, B.length ≤ n → (s'.trunk u)[n]? = some e → R.term e = u := by
  rcases step_elected h st he with he | ⟨rfl, rfl, rfl, ht, -, hask, -⟩
  · obtain ⟨hb, hlt, hown⟩ := h.elected_base u j B he
    rcases step_trunk h st u with ht | ⟨-, hn, -⟩ | ⟨-, -, f, hf, ht, -⟩
    · rw [ht]
      exact ⟨hb, hlt, hown⟩
    · exact absurd ⟨j, B, he⟩ hn
    · rw [ht]
      refine ⟨hb.trans (List.prefix_append _ _), hlt, fun n e hn he => ?_⟩
      rcases Nat.lt_or_ge n (s.trunk u).length with hlen | hlen
      · rw [List.getElem?_append_left hlen] at he
        exact hown n e hn he
      · have hl := length_lt_of_getElem? he
        rw [List.length_append, List.length_singleton] at hl
        obtain rfl : n = (s.trunk u).length := by omega
        rw [List.getElem?_concat_length] at he
        obtain rfl := Option.some.inj he
        exact hf
  · rw [ht]
    refine ⟨List.prefix_rfl, h.asked_below _ _ _ hask, fun n e hn he => ?_⟩
    exact absurd (length_lt_of_getElem? he) (by omega)

theorem logs_step (h : Inv R Q s) (st : Step R Q i s s') : Logs R s' where
  elected_once u j k B C hb hc := by
    rcases step_elected h st hb with hb | ⟨rfl, -, rfl, -, hn, -⟩
    · rcases step_elected h st hc with hc | ⟨rfl, -, rfl, -, hn, -⟩
      · exact h.elected_once u j k B C hb hc
      · exact absurd ⟨j, B, hb⟩ hn
    · rcases step_elected h st hc with hc | ⟨rfl, -, rfl, -⟩
      · exact absurd ⟨k, C, hc⟩ hn
      · exact ⟨rfl, rfl⟩
  elected_base _ _ _ he := elected_base_step h st he
  leader j hr := by
    by_cases hj : j = i
    · subst hj
      exact step_leader h st hr
    · rw [step_server st hj] at hr ⊢
      obtain ⟨⟨B, hB⟩, ht⟩ := h.leader j hr
      refine ⟨⟨B, (step_ext h st).elected _ _ _ hB⟩, ?_⟩
      rcases step_trunk h st (s.server j).term with hs | ⟨-, hn, -⟩ | ⟨hu, hri, -⟩
      -- the trunk of a term grows by its own leader only, and the term has just one
      · rw [hs, ht]
      · exact absurd ⟨j, B, hB⟩ hn
      · obtain ⟨⟨C, hC⟩, -⟩ := h.leader i hri
        rw [← hu] at hC
        exact absurd (h.elected_once _ _ _ _ _ hB hC).1 hj
  unled u hn := by
    have hx := step_ext h st
    rcases step_trunk h st u with ht | ⟨-, -, -, -, -, he⟩ | ⟨hu, hr, -⟩
    · rw [ht]
      exact h.unled u fun hl => hn (hx.led hl)
    · exact absurd ⟨i, _, he⟩ hn
    · rw [hu] at hn
      exact absurd (hx.led ⟨i, (h.leader i hr).1⟩) hn
  trunk_rooted := trunk_rooted_step h st
  log_rooted j := by
    have hx := step_ext h st
    by_cases hj : j = i
    · subst hj
      -- a log is kept, extended to the trunk of its term, or merged with a part of that trunk
      rcases step_log h st with hl | ⟨e, -, -, hl, -⟩ | ⟨p, hl, -⟩
      · rw [hl]
        exact hx.rooted (h.log_rooted j)
      · rw [hl]
        exact trunk_rooted_step h st _
      · rw [hl]
        rcases merge_cases (s.server j).log ((s.trunk (s.server j).term).take p) with hm | hm
        · rw [hm]
          exact hx.rooted (h.log_rooted j)
        · rw [hm]
          exact hx.rooted (rooted_mono (h.trunk_rooted _) ( List.take_prefix _ _))
    · rw [step_server st hj]
      exact hx.rooted (h.log_rooted j)
  log_below j e he := by
    by_cases hj : j = i
    · subst hj
      have hold (he : e ∈ (s.server j).log) : R.term e ≤ (s'.server j).term :=
        (h.log_below j e he).trans (step_term st j)
      rcases step_log h st with hl | ⟨f, hl, hf, -⟩ | ⟨p, hl, -⟩
      · rw [hl] at he
        exact hold he
      · rw [hl, List.mem_append, List.mem_singleton] at he
        rcases he with he | rfl
        · exact hold he
        · exact hf.le
      · rw [hl] at he
        rcases merge_cases (s.server j).log ((s.trunk (s.server j).term).take p) with hm | hm
        · rw [hm] at he
          exact hold he
        · rw [hm] at he
          exact (h.trunk_below (List.mem_of_mem_take he)).trans (step_term st j)
    · rw [step_server st hj] at he ⊢
      exact h.log_below j e he
  asked_rooted c u B ha := by
    have hx := step_ext h st
    rcases step_asked st ha with ha | ⟨rfl, -, -, rfl⟩
    · exact hx.rooted (h.asked_rooted c u B ha)
    · exact hx.rooted (h.log_rooted c)
  asked_below c u B ha e he := by
    rcases step_asked st ha with ha | ⟨rfl, hlt, -, rfl⟩
    · exact h.asked_below c u B ha e he
    · exact (h.log_below c e he).trans_lt hlt
  voted_rooted q u c V hv := by
    have hx := step_ext h st
    rcases step_voted h st hv with hv | ⟨rfl, -, -, rfl, -⟩
    · exact hx.rooted (h.voted_rooted q u c V hv)
    · exact hx.rooted (h.log_rooted q)

/-! ### Commits -/

/-- No step removes what a server has committed from its log. -/
theorem committed_kept (h : Inv R Q s) (st : Step R Q i s s') (j : ι) :
    (s.server j).log.take (s.server j).commit <+: (s'.server j).log := by
  by_cases hj : j = i
  · subst hj
    rcases step_log h st with hl | ⟨e, hl, -⟩ | ⟨p, hl, hled⟩
    · rw [hl]
      exact List.take_prefix _ _
    · rw [hl]
      exact ( List.take_prefix _ _).trans (List.prefix_append _ _)
    · rw [hl]
      exact prefix_merge_of_isPrefix ( List.take_prefix _ _)
        (h.settled_trunk (h.commit_settled j) hled le_rfl) ( List.take_prefix _ _)
  · rw [step_server st hj]
    exact List.take_prefix _ _

theorem take_trunk_step (h : Inv R Q s) (st : Step R Q i s s') {t k : ℕ}
    (hk : k ≤ (s.trunk t).length) : (s'.trunk t).take k = (s.trunk t).take k :=
  prefix_take_eq ((step_ext h st).trunk t) hk

theorem acked_kept_step (h : Inv R Q s) (st : Step R Q i s s') {q : ι} {t m k : ℕ}
    (ha : s'.acked q t m) (hk : k ≤ m) : (s'.trunk t).take k <+: (s'.server q).log ∨
      s'.Displaced ((s'.trunk t).take k) t ((s'.server q).term+1) := by
  have hx := step_ext h st
  rcases step_acked h st ha with ha | ⟨rfl, -, -, -, hp⟩
  · rw [take_trunk_step h st (hk.trans (h.acked_led q t m ha).2)]
    rcases h.acked_kept q t m ha k hk with hz | hd
    · by_cases hq : q = i
      · subst hq
        rcases step_log h st with hl | ⟨e, hl, -⟩ | ⟨p, hl, w, C, hC⟩
        · rw [hl]
          exact Or.inl hz
        · rw [hl]
          exact Or.inl (hz.trans (List.prefix_append _ _))
        · -- copying from the leader of the own term: it has the part, or displaces it
          rw [hl]
          have hkeep (hzT : (s.trunk t).take k <+: s.trunk (s.server q).term) :=
            prefix_merge_of_isPrefix hz hzT ( List.take_prefix p _)
          rcases Nat.lt_or_ge t (s.server q).term with hlt | hge
          · by_cases hzC : (s.trunk t).take k <+: C
            · exact Or.inl (hkeep (hzC.trans (h.elected_base _ _ _ hC).1))
            · refine Or.inr ⟨_, w, C, hlt, ?_, hx.elected _ _ _ hC, hzC⟩
              exact Nat.lt_succ_of_le (step_term st q)
          · obtain rfl : t = (s.server q).term := le_antisymm (h.acked_term q t m ha) hge
            exact Or.inl (hkeep ( List.take_prefix _ _))
      · rw [step_server st hq]
        exact Or.inl hz
    · exact Or.inr (hx.displaced hd (Nat.succ_le_succ (step_term st q)))
  · exact Or.inl ((take_prefix_take _ hk).trans hp)

theorem voted_kept_step (h : Inv R Q s) (st : Step R Q i s s') {q c : ι} {u t m k : ℕ}
    {V : List ε} (hv : s'.voted q u c V) (ha : s'.acked q t m) (htu : t < u) (hk : k ≤ m) :
    (s'.trunk t).take k <+: V ∨ s'.Displaced ((s'.trunk t).take k) t (u+1) := by
  have hx := step_ext h st
  have hu := (ballots_step h st).voted_term q u c V hv
  rcases step_acked h st ha with ha | ⟨rfl, rfl, -⟩
  · rw [take_trunk_step h st (hk.trans (h.acked_led q t m ha).2)]
    rcases step_voted h st hv with hv | ⟨rfl, rfl, -, rfl, -⟩
    · rcases h.voted_kept q u c V t m hv ha htu k hk with hz | hd
      · exact Or.inl hz
      · exact Or.inr (hx.displaced hd le_rfl)
    · rcases h.acked_kept q t m ha k hk with hz | hd
      · exact Or.inl hz
      · exact Or.inr (hx.displaced hd (Nat.succ_le_succ (step_term st q)))
  · omega

theorem supported_step (h : Inv R Q s) (st : Step R Q i s s') {u hi : ℕ} {j : ι}
    {B : List ε} (hs : Supported R Q s u j B hi) : Supported R Q s' u j B hi := by
  have hx := step_ext h st
  obtain ⟨P, hP, hvotes⟩ := hs
  refine ⟨P, hP, fun q hq => ?_⟩
  obtain ⟨V, hV, hup, hkept⟩ := hvotes q hq
  refine ⟨V, hx.voted _ _ _ _ hV, hup, fun t m ha htu k hk => ?_⟩
  rcases step_acked h st ha with ha | ⟨rfl, rfl, -⟩
  · rw [take_trunk_step h st (hk.trans (h.acked_led q t m ha).2)]
    rcases hkept t m ha htu k hk with hz | hd
    · exact Or.inl hz
    · exact Or.inr (hx.displaced hd le_rfl)
  · have hle := (h.voted_term _ _ _ _ hV).trans (step_term st q)
    omega

theorem reconfigured_step (h : Inv R Q s) (st : Step R Q i s s') {t n : ℕ} {e : ε} {c : κ}
    (he : (s'.trunk t)[n]? = some e) (hc : R.config e = some c) (ht : R.term e = t) :
    s'.Reconfigures R Q t ((s'.trunk t).take n) c := by
  have hx := step_ext h st
  have hold (he : (s.trunk t)[n]? = some e) :
      s'.Reconfigures R Q t ((s'.trunk t).take n) c := by
    rw [take_trunk_step h st (length_lt_of_getElem? he).le]
    exact hx.reconfigures (h.reconfigured t n e c he hc ht)
  rcases step_trunk h st t with hs | ⟨-, -, hs, -, hask, -⟩ | ⟨-, -, f, -, hs, -, hf⟩
  · rw [hs] at he
    exact hold he
  · rw [hs] at he
    -- a fresh trunk is the log of the elected server, all of it from earlier terms
    have := h.asked_below _ _ _ hask e (List.mem_of_getElem? he)
    omega
  · rcases Nat.lt_or_ge n (s.trunk t).length with hn | hn
    · rw [hs, List.getElem?_append_left hn] at he
      exact hold he
    -- the appended entry itself: its guard is the claim
    · have hl := length_lt_of_getElem? he
      rw [hs, List.length_append, List.length_singleton] at hl
      obtain rfl : n = (s.trunk t).length := by omega
      rw [hs, List.getElem?_concat_length] at he
      obtain rfl := Option.some.inj he
      rw [take_trunk_step h st le_rfl, List.take_length]
      exact hx.reconfigures (hf c hc)

theorem commits_step (h : Inv R Q s) (st : Step R Q i s s') : Commits R Q s' where
  acked_term q t m ha := by
    rcases step_acked h st ha with ha | ⟨rfl, rfl, -⟩
    · exact (h.acked_term q t m ha).trans (step_term st q)
    · exact le_rfl
  acked_led q t m ha := by
    have hx := step_ext h st
    rcases step_acked h st ha with ha | ⟨rfl, rfl, hl, hm, -⟩
    · obtain ⟨hl, hm⟩ := h.acked_led q t m ha
      exact ⟨hx.led hl, hm.trans (hx.trunk t).length_le⟩
    · exact ⟨hl, hm⟩
  acked_kept _ _ _ ha _ hk := acked_kept_step h st ha hk
  voted_kept _ _ _ _ _ _ hv ha htu _ hk := voted_kept_step h st hv ha htu hk
  elected_support u j B he := by
    rcases step_elected h st he with he | ⟨rfl, -, -, -, -, -, hs⟩
    · exact supported_step h st (h.elected_support u j B he)
    · exact supported_step h st hs
  chosen_led t k j hc := by
    have hx := step_ext h st
    rcases step_chosen h st hc with hc | ⟨hl, -, rfl, ⟨n, e, rfl, he, -⟩, -⟩
    · obtain ⟨hl, hkj, hj⟩ := h.chosen_led t k j hc
      exact ⟨hx.led hl, hkj, hj.trans (hx.trunk t).length_le⟩
    · exact ⟨hx.led hl, length_lt_of_getElem? he, (hx.trunk t).length_le⟩
  chosen_own t k j hc := by
    have hx := step_ext h st
    rcases step_chosen h st hc with hc | ⟨-, -, -, ⟨n, e, hn, he, ht⟩, -⟩
    · obtain ⟨n, e, hn, he, ht⟩ := h.chosen_own t k j hc
      exact ⟨n, e, hn, prefix_getElem? (hx.trunk t) he, ht⟩
    · exact ⟨n, e, hn, prefix_getElem? (hx.trunk t) he, ht⟩
  chosen_quorum t k j hc := by
    have hx := step_ext h st
    rcases step_chosen h st hc with hc | ⟨-, ht, rfl, -, P, hP, hack⟩
    · obtain ⟨P, hP, hack⟩ := h.chosen_quorum t k j hc
      refine ⟨P, ?_, fun q hq => ?_⟩
      · rwa [take_trunk_step h st (h.chosen_led t k j hc).2.2]
      · obtain ⟨m, hm, ha⟩ := hack q hq
        exact ⟨m, hm, hx.acked q t m ha⟩
    · refine ⟨P, ?_, fun q hq => ?_⟩
      · rwa [ht, List.take_length]
      · obtain ⟨m, hm, ha⟩ := hack q hq
        exact ⟨m, hm, hx.acked q t m ha⟩
  reconfigured _ _ _ _ he hc ht := reconfigured_step h st he hc ht
  commit_le j := by
    by_cases hj : j = i
    · subst hj
      rcases step_commit h st with hc | ⟨hle, -⟩
      -- the committed part survives the step, so the same index settles it
      · have hl := (committed_kept h st j).length_le
        rw [List.length_take] at hl
        have := h.commit_le j
        omega
      · exact hle
    · rw [step_server st hj]
      exact h.commit_le j
  commit_settled j := by
    have hx := step_ext h st
    by_cases hj : j = i
    · subst hj
      rcases step_commit h st with hc | ⟨-, hs⟩
      · refine settled_mono (hx.settled (h.commit_settled j) (step_term st j)) ?_
        rw [prefix_take_eq (committed_kept h st j)]
        · exact List.take_prefix _ _
        · rw [List.length_take]
          have := h.commit_le j
          omega
      · exact hs
    · rw [step_server st hj]
      exact hx.settled (h.commit_settled j) le_rfl

theorem inv_step (h : Inv R Q s) (st : Step R Q i s s') : Inv R Q s' where
  toBallots := ballots_step h st
  toLogs := logs_step h st
  toCommits := commits_step h st

/-! ### Runs -/

/-- Any number of steps of one server. -/
abbrev Steps (R : Reading ε κ) (Q : QuorumSystem ι κ) (i : ι) : State ι ε → State ι ε → Prop :=
  Relation.ReflTransGen (Step R Q i)

theorem steps_inv (h : Inv R Q s) (st : Steps R Q i s s') : Inv R Q s' ∧ Ext s s' := by
  induction st with
  | refl => exact ⟨h, Ext.refl s⟩
  | tail _ st ih => exact ⟨inv_step ih.1 st, ih.2.trans (step_ext ih.1 st)⟩

theorem steps_server (st : Steps R Q i s s') {q : ι} (hq : q ≠ i) :
    s'.server q = s.server q := by
  induction st with
  | refl => rfl
  | tail _ st ih => rw [step_server st hq, ih]

/-- Steps that elect, append and commit nothing. -/
structure Still (R : Reading ε κ) (Q : QuorumSystem ι κ) (i : ι) (s s' : State ι ε) : Prop where
  steps : Steps R Q i s s'
  elected : s'.elected = s.elected
  trunk : s'.trunk = s.trunk
  chosen : s'.chosen = s.chosen

/-- Steps after which whatever was elected, appended or committed in them shows in the
state of the server. -/
structure Moves (R : Reading ε κ) (Q : QuorumSystem ι κ) (i : ι) (s s' : State ι ε) : Prop where
  steps : Steps R Q i s s'
  elected : ∀ u j B, s'.elected u j B → s.elected u j B ∨
    ((s'.server i).role = .leader ∧ (s'.server i).term = u)
  trunk : ∀ u, s'.trunk u = s.trunk u ∨
    ((s'.server i).role = .leader ∧ (s'.server i).term = u)
  chosen : ∀ t k j, s'.chosen t k j → s.chosen t k j ∨
    ((s'.server i).role = .leader ∧ (s'.server i).term = t ∧ (s'.server i).commit = k)

theorem Still.refl (s : State ι ε) : Still R Q i s s := ⟨.refl, rfl, rfl, rfl⟩

theorem Still.trans {s'' : State ι ε} (h : Still R Q i s s') (h' : Still R Q i s' s'') :
    Still R Q i s s'' :=
  ⟨h.steps.trans h'.steps, h'.elected.trans h.elected, h'.trunk.trans h.trunk,
    h'.chosen.trans h.chosen⟩

theorem Still.andThen {s'' : State ι ε} (h : Still R Q i s s') (h' : Moves R Q i s' s'') :
    Moves R Q i s s'' where
  steps := h.steps.trans h'.steps
  elected := by rw [← h.elected]; exact h'.elected
  trunk := by rw [← h.trunk]; exact h'.trunk
  chosen := by rw [← h.chosen]; exact h'.chosen

theorem Still.moves (h : Still R Q i s s') : Moves R Q i s s' :=
  h.andThen ⟨.refl, fun _ _ _ he => Or.inl he, fun _ => Or.inl rfl, fun _ _ _ hc => Or.inl hc⟩

theorem moves_of_step (st : Step R Q i s s') : Moves R Q i s s' := by
  have hs : Steps R Q i s s' := .single st
  cases st with
  | elect P hr hP hv =>
    have hl : ((s.lead i).server i).role = .leader := by rw [lead_server]
    have ht : ((s.lead i).server i).term = (s.server i).term := by rw [lead_server]
    refine ⟨hs, fun u j B he => ?_, fun u => ?_, fun _ _ _ hc => Or.inl hc⟩
    · rcases he with he | ⟨rfl, -⟩
      · exact Or.inl he
      · exact Or.inr ⟨hl, ht⟩
    · by_cases hu : u = (s.server i).term
      · exact Or.inr ⟨hl, ht.trans hu.symm⟩
      · exact Or.inl (Function.update_of_ne hu _ _)
  | append e hr _ hc =>
    have hl : ((s.append i e).server i).role = .leader := by rw [append_server, hr]
    have ht : ((s.append i e).server i).term = (s.server i).term := by rw [append_server]
    refine ⟨hs, fun _ _ _ he => Or.inl he, fun u => ?_, fun _ _ _ hc => Or.inl hc⟩
    by_cases hu : u = (s.server i).term
    · exact Or.inr ⟨hl, ht.trans hu.symm⟩
    · exact Or.inl (Function.update_of_ne hu _ _)
  | choose n e P hr hP ha he =>
    refine ⟨hs, fun _ _ _ he => Or.inl he, fun _ => Or.inl rfl, fun t k j hc => ?_⟩
    rcases hc with hc | ⟨rfl, rfl, -⟩
    · exact Or.inl hc
    · exact Or.inr (by rw [choose_server]; exact ⟨hr, rfl, rfl⟩)
  | _ => exact Still.moves ⟨hs, rfl, rfl, rfl⟩

end Consensus
