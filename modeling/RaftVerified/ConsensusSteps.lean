import RaftVerified.ConsensusCompleteness

/-! What one step changes, part by part, and that it keeps the invariant. -/
namespace Consensus
open State

variable {ι ε κ : Type*} [DecidableEq ι] [DecidableEq ε] {R : Reading ε κ}
variable {Q : QuorumSystem ι κ} {s s' : State ι ε} {i : ι}

/-! ### The effect of a step -/

theorem step_server (st : Step R Q i s s') {q : ι} (hq : q ≠ i) :
    s'.server q = s.server q := by
  cases st <;> exact State.set_server_ne s _ hq

theorem step_term (st : Step R Q i s s') (q : ι) :
    (s.server q).term ≤ (s'.server q).term := by
  by_cases hq : q = i
  · subst hq
    cases st <;> simp
    case raise t ht => exact ht.le
  · rw [step_server st hq]

theorem step_vote (st : Step R Q i s s') {q c : ι}
    (ht : (s'.server q).term = (s.server q).term) (hv : (s.server q).vote = some c) :
    (s'.server q).vote = some c := by
  by_cases hq : q = i
  · subst hq
    cases st <;> simp_all
  · rwa [step_server st hq]

theorem step_asked (st : Step R Q i s s') {c : ι} {u : ℕ} {B : List ε}
    (ha : s'.asked c u B) : s.asked c u B ∨
      (c = i ∧ (s.server i).term < u ∧ u = (s'.server i).term ∧ B = (s.server i).log) := by
  cases st <;> try exact Or.inl ha
  case campaign =>
    rcases ha with ha | ⟨rfl, rfl, rfl⟩
    · exact Or.inl ha
    · exact Or.inr ⟨rfl, Nat.lt_succ_self _, by simp, rfl⟩

theorem step_voted (h : Inv R Q s) (st : Step R Q i s s') {q c : ι} {u : ℕ} {V : List ε}
    (hv : s'.voted q u c V) : s.voted q u c V ∨
      (q = i ∧ u = (s'.server i).term ∧ (s'.server i).vote = some c ∧ V = (s.server i).log ∧
        (∃ B, s'.asked c u B ∧ R.UpToDate B V) ∧ ∀ d W, s.voted i u d W → d = c) := by
  cases st <;> try exact Or.inl hv
  case campaign =>
    rcases hv with hv | ⟨rfl, rfl, rfl, rfl⟩
    · exact Or.inl hv
    · refine Or.inr ⟨rfl, by simp, by simp, rfl, ?_, ?_⟩
      · exact ⟨_, Or.inr ⟨rfl, rfl, rfl⟩, R.upToDate_refl _⟩
      · intro d W hW
        have := h.voted_term _ _ _ _ hW
        omega
  case grant d B ha hvote hup =>
    rcases hv with hv | ⟨rfl, rfl, rfl, rfl⟩
    · exact Or.inl hv
    · refine Or.inr ⟨rfl, by simp, by simp, rfl, ⟨B, ha, hup⟩, ?_⟩
      intro d W hW
      have hd := h.voted_now _ _ _ hW
      rcases hvote with hn | hn
      · rw [hn] at hd
        cases hd
      · rw [hn] at hd
        exact (Option.some.inj hd).symm

theorem step_elected (h : Inv R Q s) (st : Step R Q i s s') {u : ℕ} {j : ι} {B : List ε}
    (he : s'.elected u j B) : s.elected u j B ∨
      (j = i ∧ u = (s.server i).term ∧ B = (s.server i).log ∧ s'.trunk u = B ∧ ¬ s.Led u ∧
        s.asked i u B ∧ Supported R Q s u i B u) := by
  cases st <;> try exact Or.inl he
  case elect P hr hP hv =>
    rcases he with he | ⟨rfl, rfl, rfl⟩
    · exact Or.inl he
    · have hask := (h.candidate _ hr).1
      have hunled := h.unled_of_votes hr hP hv
      refine Or.inr ⟨rfl, rfl, rfl, Function.update_self _ _ _, hunled, hask, P, hP, ?_⟩
      intro q hq
      obtain ⟨V, hV⟩ := hv q hq
      obtain ⟨B, hB, hup⟩ := h.voted_asked _ _ _ _ hV
      obtain rfl := h.asked_once _ _ _ _ hB hask
      refine ⟨V, hV, hup, fun t m hm ht k hk => ?_⟩
      -- what a voter acknowledged is in its vote or displaced by a term below this one
      rcases h.voted_kept _ _ _ _ t m hV hm ht k hk with hp | ⟨w, j, C, h1, h2, hC, hn⟩
      · exact Or.inl hp
      · refine Or.inr ⟨w, j, C, h1, ?_, hC, hn⟩
        rcases Nat.lt_succ_iff_lt_or_eq.mp h2 with hlt | rfl
        · exact hlt
        · exact absurd ⟨j, C, hC⟩ hunled

/-- The trunk of a term changes when its leader is elected and when that leader appends. -/
theorem step_trunk (h : Inv R Q s) (st : Step R Q i s s') (u : ℕ) :
    s'.trunk u = s.trunk u ∨
      (u = (s.server i).term ∧ ¬ s.Led u ∧ s'.trunk u = (s.server i).log ∧
        (s'.server i).log = (s.server i).log ∧ s.asked i u (s.server i).log ∧
        s'.elected u i (s.server i).log) ∨
      (u = (s.server i).term ∧ (s.server i).role = .leader ∧ ∃ e, R.term e = u ∧
        s'.trunk u = s.trunk u ++ [e] ∧ (s'.server i).log = s'.trunk u ∧
        ∀ c, R.config e = some c → s.Reconfigures R Q u (s.trunk u) c) := by
  cases st <;> try exact Or.inl rfl
  case elect P hr hP hv =>
    by_cases hu : u = (s.server i).term
    · subst hu
      exact Or.inr (Or.inl ⟨rfl, h.unled_of_votes hr hP hv, Function.update_self _ _ _, by simp,
        (h.candidate i hr).1, Or.inr ⟨rfl, rfl, rfl⟩⟩)
    · exact Or.inl (Function.update_of_ne hu _ _)
  case append e hr ht hc =>
    by_cases hu : u = (s.server i).term
    · subst hu
      have htl := (h.leader i hr).2
      have htr : (s.append i e).trunk (s.server i).term = (s.server i).log ++ [e] :=
        Function.update_self _ _ _
      rw [← htl] at htr hc
      refine Or.inr (Or.inr ⟨rfl, hr, e, ht, htr, ?_, hc⟩)
      rw [htr, htl]
      simp
    · exact Or.inl (Function.update_of_ne hu _ _)

theorem step_ext (h : Inv R Q s) (st : Step R Q i s s') : Ext s s' where
  term := step_term st
  asked c u B ha := by cases st <;> first | exact ha | exact Or.inl ha
  voted q u c V hv := by cases st <;> first | exact hv | exact Or.inl hv
  elected u j B he := by cases st <;> first | exact he | exact Or.inl he
  trunk u := by
    rcases step_trunk h st u with ht | ⟨_, hn, -⟩ | ⟨_, _, e, _, ht, -⟩
    · rw [ht]
    · rw [h.unled u hn]
      exact List.nil_prefix
    · rw [ht]
      exact List.prefix_append _ _
  acked q t m ha := by cases st <;> first | exact ha | exact Or.inl ha
  chosen t k j hc := by cases st <;> first | exact hc | exact Or.inl hc

theorem step_leader (h : Inv R Q s) (st : Step R Q i s s')
    (hr : (s'.server i).role = .leader) :
    (∃ B, s'.elected (s'.server i).term i B) ∧
      s'.trunk (s'.server i).term = (s'.server i).log := by
  cases st <;> simp at hr
  case grant =>
    rw [grant_server]
    exact h.leader i hr
  case elect =>
    rw [lead_server]
    exact ⟨⟨_, Or.inr ⟨rfl, rfl, rfl⟩⟩, Function.update_self _ _ _⟩
  case append e hr' ht hc =>
    rw [append_server]
    exact ⟨(h.leader i hr).1, Function.update_self _ _ _⟩
  case accept p hr' hl hp =>
    rw [hr] at hr'
    cases hr'
  case choose =>
    rw [choose_server]
    exact h.leader i hr
  case learn =>
    rw [learn_server]
    exact h.leader i hr

theorem step_role_candidate (st : Step R Q i s s') (hr : (s'.server i).role = .candidate) :
    (s'.server i).log = (s.server i).log ∧ (∀ u B, s'.elected u i B → s.elected u i B) ∧
      (((s.server i).role = .candidate ∧ (s'.server i).term = (s.server i).term) ∨
        ((s.server i).term < (s'.server i).term ∧
          s'.asked i (s'.server i).term (s'.server i).log)) := by
  cases st <;> simp_all
  case campaign => exact ⟨fun u B he => he, Or.inr ⟨rfl, rfl, rfl⟩⟩
  all_goals exact fun u B he => he

/-! ### Merging -/

theorem merge_of_isPrefix {xs ys : List ε} (h : ys <+: xs) : merge xs ys = xs := if_pos h

theorem merge_of_not {xs ys : List ε} (h : ¬ ys <+: xs) : merge xs ys = ys := if_neg h

theorem prefix_merge (xs ys : List ε) : ys <+: merge xs ys := by
  by_cases h : ys <+: xs
  · rw [merge_of_isPrefix h]
    exact h
  · rw [merge_of_not h]

theorem merge_cases (xs ys : List ε) : merge xs ys = xs ∨ merge xs ys = ys := by
  by_cases h : ys <+: xs
  · exact Or.inl (merge_of_isPrefix h)
  · exact Or.inr (merge_of_not h)

theorem merge_take (T : List ε) {k p : ℕ} (hk : k ≤ p) :
    merge (T.take k) (T.take p) = T.take p := by
  by_cases h : T.take p <+: T.take k
  · rw [merge_of_isPrefix h]
    exact (take_prefix_take T hk).eq_of_length_le h.length_le
  · exact merge_of_not h

/-- Copying part of `T` keeps a prefix that is itself part of `T`. -/
theorem prefix_merge_of_isPrefix {xs ys zs T : List ε} (hz : zs <+: xs) (hzT : zs <+: T)
    (hyT : ys <+: T) : zs <+: merge xs ys := by
  by_cases h : ys <+: xs
  · rw [merge_of_isPrefix h]
    exact hz
  · rw [merge_of_not h]
    rcases List.prefix_or_prefix_of_prefix hzT hyT with hp | hp
    · exact hp
    · exact absurd (hp.trans hz) h

/-! ### What a step does to the log, the acknowledgements and the commits -/

/-- A log changes by an entry of the own term, or by copying from the leader's trunk. -/
theorem step_log (h : Inv R Q s) (st : Step R Q i s s') :
    (s'.server i).log = (s.server i).log ∨
      (∃ e, (s'.server i).log = (s.server i).log ++ [e] ∧ R.term e = (s'.server i).term ∧
        (s'.server i).log = s'.trunk (s'.server i).term ∧ s.Led (s.server i).term) ∨
      ∃ p, (s'.server i).log =
          merge (s.server i).log ((s.trunk (s.server i).term).take p) ∧
        s.Led (s.server i).term := by
  cases st <;> try (left; simp; done)
  case append e hr ht hc =>
    obtain ⟨B, hB⟩ := (h.leader i hr).1
    have htr : (s.append i e).trunk (s.server i).term = (s.server i).log ++ [e] :=
      Function.update_self _ _ _
    refine Or.inr (Or.inl ⟨e, by simp, by simpa using ht, ?_, i, B, hB⟩)
    rw [append_server, htr]
  case accept p hr hl hp => exact Or.inr (Or.inr ⟨p, by simp, hl⟩)

theorem step_acked (h : Inv R Q s) (st : Step R Q i s s') {q : ι} {t m : ℕ}
    (ha : s'.acked q t m) : s.acked q t m ∨
      (q = i ∧ t = (s'.server i).term ∧ s'.Led t ∧ m ≤ (s'.trunk t).length ∧
        (s'.trunk t).take m <+: (s'.server i).log) := by
  cases st <;> try exact Or.inl ha
  case elect P hr hP hv =>
    rcases ha with ha | ⟨rfl, rfl, rfl⟩
    · exact Or.inl ha
    · have htr : (s.lead q).trunk (s.server q).term = (s.server q).log :=
        Function.update_self _ _ _
      -- an elected server acknowledges its own log, which is now the trunk
      refine Or.inr ⟨rfl, by simp, ⟨q, _, Or.inr ⟨rfl, rfl, rfl⟩⟩, ?_, ?_⟩
      · rw [htr]
      · rw [htr, lead_server]
        exact List.take_prefix _ _
  case append e hr ht hc =>
    rcases ha with ha | ⟨rfl, rfl, rfl⟩
    · exact Or.inl ha
    · have htr : (s.append q e).trunk (s.server q).term = (s.server q).log ++ [e] :=
        Function.update_self _ _ _
      obtain ⟨B, hB⟩ := (h.leader q hr).1
      refine Or.inr ⟨rfl, by simp, ⟨q, B, hB⟩, ?_, ?_⟩
      · rw [htr, List.length_append, List.length_singleton]
      · rw [htr, append_server]
        exact List.take_prefix _ _
  case accept p hr hl hp =>
    rcases ha with ha | ⟨rfl, rfl, rfl⟩
    · exact Or.inl ha
    · refine Or.inr ⟨rfl, by simp, hl, hp, ?_⟩
      rw [accept_server]
      exact prefix_merge _ _

theorem step_chosen (h : Inv R Q s) (st : Step R Q i s s') {t k j : ℕ}
    (hc : s'.chosen t k j) : s.chosen t k j ∨
      (s.Led t ∧ s'.trunk t = s.trunk t ∧ j = (s.trunk t).length ∧
        (∃ n e, k = n+1 ∧ (s.trunk t)[n]? = some e ∧ R.term e = t) ∧
        ∃ P, Q.commits (R.conf (s.trunk t)) P ∧ ∀ q ∈ P, ∃ m, k ≤ m ∧ s.acked q t m) := by
  cases st <;> try exact Or.inl hc
  case choose n e P hr hP ha he ht =>
    rcases hc with hc | ⟨rfl, rfl, rfl⟩
    · exact Or.inl hc
    · obtain ⟨⟨B, hB⟩, htl⟩ := h.leader i hr
      rw [← htl] at he hP
      exact Or.inr ⟨⟨i, B, hB⟩, rfl, by rw [htl], ⟨n, e, rfl, he, ht⟩, P, hP, ha⟩

/-- A commit index moves down, or to what a leader of a term up to the own one committed. -/
theorem step_commit (h : Inv R Q s) (st : Step R Q i s s') :
    (s'.server i).commit ≤ (s.server i).commit ∨
      ((s'.server i).commit ≤ (s'.server i).log.length ∧
        s'.Settled (s'.server i).term ((s'.server i).log.take (s'.server i).commit)) := by
  cases st <;> try (left; simp; done)
  case rest k hk => exact Or.inl (by simpa using hk)
  case choose n e P hr hP ha he ht =>
    refine Or.inr ⟨?_, Or.inr ⟨(s.server i).term, n+1, (s.server i).log.length, ?_⟩⟩
    · rw [choose_server]
      exact length_lt_of_getElem? he
    · refine ⟨by simp, Or.inr ⟨rfl, rfl, rfl⟩, ?_⟩
      rw [choose_server]
      exact prefix_take_mono (by rw [← (h.leader i hr).2]; exact List.prefix_rfl) _
  case learn k hk hs =>
    refine Or.inr ⟨by simpa using hk, ?_⟩
    rw [learn_server]
    exact hs

end Consensus
