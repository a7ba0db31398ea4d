import RaftVerified.Messages

/-! Conservation of messages: whatever is sent or duplicated is delivered, dropped or still in the
queue, and every delivery is one of at most two of a message that was sent. -/
namespace RaftVerified

/-- The two ends of a delivery could reach each other when it was made. -/
structure Delivered.Open {μ : Type} (d : Delivered μ) : Prop where
  alive : d.letter.dst ∉ d.faults.crashed
  linked : d.faults.linkIsDown d.letter.src d.letter.dst = false
  together : ¬ d.faults.Separated d.letter.src d.letter.dst

/-- `randint` draws from any range that is not empty. -/
def Rng.Fair {σ : Type} (D : Rng σ) : Prop :=
  ∀ a b rng, a ≤ b → ∃ r, D.randint a b rng = .ok r ∧ a ≤ r.1

/-- A profile with a range of delays that lie in the future. -/
structure FaultProfile.Sane (P : FaultProfile) : Prop where
  future : 0 ≤ P.minDelay
  range : P.minDelay ≤ P.maxDelay

namespace MessageNetwork
variable {σ μ κ : Type} {D : Rng σ} {P : FaultProfile} {s s' : MessageNetwork σ μ κ}
  {l : Letter μ} {n : ℕ}

/-- The number and the message of a delivery. -/
def letter? : NetEvent μ κ → Option (ℕ × Letter μ)
  | .delivery n l => some (n, l)
  | .other _ => none

/-- The deliveries in the queue. -/
def inFlight (s : MessageNetwork σ μ κ) : List (ℕ × Letter μ) :=
  (s.sim.heap.map (·.event)).filterMap letter?

/-- How often the message of the given number has been delivered. -/
def made (s : MessageNetwork σ μ κ) (n : ℕ) : ℕ := s.deliveries.countP (·.number = n)

/-- How often it has been or is to be delivered. -/
def copies (s : MessageNetwork σ μ κ) (n : ℕ) : ℕ := s.made n+s.inFlight.countP (·.1 = n)

structure Balanced (s : MessageNetwork σ μ κ) : Prop where
  numbered : s.letters.length = s.sent
  books : s.sent+s.duplicated = s.delivered+s.dropped+s.inFlight.length
  counted : s.deliveries.length = s.delivered
  queued : ∀ e ∈ s.inFlight, s.letters[e.1]? = some e.2
  logged : ∀ d ∈ s.deliveries, s.letters[d.number]? = some d.letter ∧ d.Open
  twice : ∀ n, s.copies n ≤ 2

theorem balanced_init (nodeIds : List NodeId) (rng : σ) :
    (init nodeIds rng : MessageNetwork σ μ κ).Balanced where
  numbered := rfl
  books := rfl
  counted := rfl
  queued := nofun
  logged := nofun
  twice _ := Nat.zero_le 2

/-! ### What each call does -/

/-- A network that differs in its queue, its random numbers, its trace and its count of
duplicates at most. -/
structure Underway (s s' : MessageNetwork σ μ κ) : Prop where
  sent : s'.sent = s.sent
  delivered : s'.delivered = s.delivered
  dropped : s'.dropped = s.dropped
  letters : s'.letters = s.letters
  deliveries : s'.deliveries = s.deliveries

theorem Underway.trans {s'' : MessageNetwork σ μ κ} (h : s.Underway s') (h' : s'.Underway s'') :
    s.Underway s'' where
  sent := h'.sent.trans h.sent
  delivered := h'.delivered.trans h.delivered
  dropped := h'.dropped.trans h.dropped
  letters := h'.letters.trans h.letters
  deliveries := h'.deliveries.trans h.deliveries

/-- A network that differs in its random numbers at most. -/
structure Drawn (s s' : MessageNetwork σ μ κ) : Prop extends s.Underway s' where
  sim : s'.sim = s.sim
  duplicated : s'.duplicated = s.duplicated

theorem Drawn.rfl : s.Drawn s :=
  ⟨⟨Eq.refl _, Eq.refl _, Eq.refl _, Eq.refl _, Eq.refl _⟩, Eq.refl _, Eq.refl _⟩

theorem Drawn.trans {s'' : MessageNetwork σ μ κ} (h : s.Drawn s') (h' : s'.Drawn s'') :
    s.Drawn s'' where
  toUnderway := h.toUnderway.trans h'.toUnderway
  sim := h'.sim.trans h.sim
  duplicated := h'.duplicated.trans h.duplicated

theorem Drawn.inFlight (h : s.Drawn s') : s'.inFlight = s.inFlight := by
  unfold MessageNetwork.inFlight
  rw [h.sim]

theorem draw_drawn (p : ℚ) : s.Drawn (s.draw D p).2 := ⟨⟨rfl, rfl, rfl, rfl, rfl⟩, rfl, rfl⟩

theorem chance_drawn (p : ℚ) : s.Drawn (s.chance D p).2 := by
  unfold chance
  split
  · exact draw_drawn p
  · exact .rfl

theorem lossy_drawn (l : Letter μ) : s.Drawn (s.lossy D l).2 := by
  unfold lossy
  split
  · exact draw_drawn _
  · exact .rfl

theorem delay_drawn {d : ℤ × MessageNetwork σ μ κ} (h : s.delay D P = .ok d) : s.Drawn d.2 := by
  unfold delay at h
  split at h
  · cases h
    exact ⟨⟨rfl, rfl, rfl, rfl, rfl⟩, rfl, rfl⟩
  · cases h

theorem schedule_ok {delay : ℤ} {event : NetEvent μ κ} (h : s.schedule delay event = .ok s') :
    s.Underway s' ∧ s'.duplicated = s.duplicated ∧
      s'.inFlight.Perm ((letter? event).toList ++ s.inFlight) := by
  unfold schedule at h
  split at h
  · rename_i hsim
    cases h
    have hqueue := (Simulator.schedule_perm hsim).filterMap letter?
    refine ⟨⟨rfl, rfl, rfl, rfl, rfl⟩, rfl, hqueue.trans (List.Perm.of_eq ?_)⟩
    cases event with
    | delivery n l => rfl
    | other event => rfl
  · cases h

/-- A message that gets on its way is in the queue once, or twice as a duplicate. -/
theorem post_ok (h : s.post D P n l = .ok s') : s.Underway s' ∧
    ∃ k ≤ 2, s'.inFlight.Perm (List.replicate k (n, l) ++ s.inFlight) ∧
      s'.duplicated+1 = s.duplicated+k := by
  obtain ⟨d, hd, h⟩ := bind_ok.mp h
  obtain ⟨s₁, hs₁, h⟩ := bind_ok.mp h
  have hdelay := delay_drawn hd
  obtain ⟨hunder, hdup, hqueue⟩ := schedule_ok hs₁
  have hchance := chance_drawn (D := D) (s := s₁) P.dupP
  have hunder := (hdelay.toUnderway.trans hunder).trans hchance.toUnderway
  rw [hdelay.inFlight] at hqueue
  dsimp only at h
  split at h
  · obtain ⟨d', hd', h⟩ := bind_ok.mp h
    have hdelay' := delay_drawn hd'
    obtain ⟨hunder', hdup', hqueue'⟩ := schedule_ok h
    have hsame : d'.2.Underway (d'.2.duplicate l) := ⟨rfl, rfl, rfl, rfl, rfl⟩
    have hcount : (d'.2.duplicate l).duplicated = d'.2.duplicated+1 := rfl
    have hstill : (d'.2.duplicate l).inFlight = s₁.inFlight :=
      hdelay'.inFlight.trans hchance.inFlight
    rw [hstill] at hqueue'
    refine ⟨((hunder.trans hdelay'.toUnderway).trans hsame).trans hunder', 2, le_rfl,
      hqueue'.trans (hqueue.cons _), ?_⟩
    rw [hdup', hcount, hdelay'.duplicated, hchance.duplicated, hdup, hdelay.duplicated]
  · cases h
    refine ⟨hunder, 1, by omega, ?_, ?_⟩
    · rw [hchance.inFlight]
      exact hqueue
    · rw [hchance.duplicated, hdup, hdelay.duplicated]

/-- What a `send` that returns has done: it has counted the message and put some copies of it into
the queue, or dropped it. -/
structure Sends (s : MessageNetwork σ μ κ) (l : Letter μ) (s' : MessageNetwork σ μ κ) : Prop where
  sent : s'.sent = s.sent+1
  delivered : s'.delivered = s.delivered
  letters : s'.letters = s.letters ++ [l]
  deliveries : s'.deliveries = s.deliveries
  posted : ∃ k ≤ 2, s'.inFlight.Perm (List.replicate k (s.sent, l) ++ s.inFlight) ∧
    s'.duplicated+(s.dropped+1) = s.duplicated+(s'.dropped+k)

theorem Sends.drop {loss : Loss} (h : (s.count l).Drawn s') : s.Sends l (s'.drop l loss) where
  sent := h.sent
  delivered := h.delivered
  letters := h.letters
  deliveries := h.deliveries
  posted := by
    refine ⟨0, by omega, List.Perm.of_eq h.inFlight, ?_⟩
    have hdropped : (s'.drop l loss).dropped = s.dropped+1 := congrArg (·+1) h.dropped
    have hdup : (s'.drop l loss).duplicated = s.duplicated := h.duplicated
    omega

theorem Sends.post {s₁ : MessageNetwork σ μ κ} (h : (s.count l).Drawn s₁)
    (hpost : s₁.post D P s.sent l = .ok s') : s.Sends l s' := by
  obtain ⟨hunder, k, hk, hqueue, hdup⟩ := post_ok hpost
  rw [h.inFlight] at hqueue
  have hall := h.toUnderway.trans hunder
  refine ⟨hall.sent, hall.delivered, hall.letters, hall.deliveries, k, hk, hqueue, ?_⟩
  have hdropped : s'.dropped = s.dropped := hall.dropped
  have hdup' : s₁.duplicated = s.duplicated := h.duplicated
  omega

theorem send_ok (h : s.send D P l = .ok s') : s.Sends l s' := by
  unfold send at h
  dsimp only at h
  have hlossy := lossy_drawn (D := D) (s := s.count l) l
  have hchance := chance_drawn (D := D) (s := ((s.count l).lossy D l).2) P.dropP
  split at h
  · cases h
    exact Sends.drop .rfl
  split at h
  · cases h
    exact Sends.drop hlossy
  split at h
  · cases h
    exact Sends.drop (hlossy.trans hchance)
  · exact Sends.post (hlossy.trans hchance) h

/-- A popped event is no longer in the queue. -/
theorem pop_some {e : NetEvent μ κ} (h : s.pop = some (e, s')) :
    s.inFlight = (letter? e).toList ++ s'.inFlight ∧ ∃ sim, s' = { s with sim := sim } := by
  obtain ⟨⟨e', sim⟩, hpop, heq⟩ := Option.map_eq_some_iff.mp h
  cases heq
  obtain ⟨p, rfl, hheap, -⟩ := Simulator.pop_some hpop
  refine ⟨?_, sim, rfl⟩
  unfold inFlight
  rw [hheap, List.map_cons, List.filterMap_cons]
  cases p.event with
  | delivery n l => rfl
  | other event => rfl

/-- What a delivery has done before its handler runs: the message is delivered to an addressee
that can be reached, or dropped. -/
inductive Delivers (s : MessageNetwork σ μ κ) (n : ℕ) (l : Letter μ) :
    Bool → MessageNetwork σ μ κ → Prop
  | delivered (h : Delivered.Open ⟨n, l, s.faults⟩) : Delivers s n l true { s with
      delivered := s.delivered+1
      trace := s.trace ++ [.deliver l]
      deliveries := s.deliveries ++ [⟨n, l, s.faults⟩] }
  | dropped (loss : Loss) : Delivers s n l false (s.drop l loss)

theorem not_separated_of_reachable {a b : NodeId} (h : s.reachable a b = .ok true) :
    ¬ s.faults.Separated a b := by
  intro hsep
  unfold reachable at h
  rw [hsep.not_reachable] at h
  split at h
  · cases h
  split at h
  · cases h
  · cases h

theorem delivery_ok {b : Bool} (h : s.delivery n l = .ok (b, s')) : Delivers s n l b s' := by
  unfold delivery at h
  split at h
  · cases h
    exact .dropped _
  rename_i halive
  split at h
  · cases h
    exact .dropped _
  rename_i hlink
  obtain ⟨r, hr, h⟩ := bind_ok.mp h
  cases r with
  | true =>
    cases h
    exact .delivered ⟨halive, decide_eq_false hlink, not_separated_of_reachable hr⟩
  | false =>
    cases h
    exact .dropped _

/-! ### What each call keeps -/

namespace Balanced

theorem getElem?_append {xs : List (Letter μ)} (h : xs[n]? = some l) (y : Letter μ) :
    (xs ++ [y])[n]? = some l := by
  rw [List.getElem?_append_left (List.getElem?_eq_some_iff.mp h).1, h]

/-- No message has the number of one that is still to be sent. -/
theorem copies_fresh (h : s.Balanced) : s.copies s.sent = 0 := by
  have hnone : s.letters[s.sent]? = none := by
    rw [List.getElem?_eq_none_iff, h.numbered]
  have hmade : s.made s.sent = 0 := by
    refine List.countP_eq_zero.mpr fun d hd hn => ?_
    rw [← of_decide_eq_true hn, (h.logged d hd).1] at hnone
    cases hnone
  have hqueued : s.inFlight.countP (·.1 = s.sent) = 0 := by
    refine List.countP_eq_zero.mpr fun e he hn => ?_
    rw [← of_decide_eq_true hn, h.queued e he] at hnone
    cases hnone
  unfold copies
  omega

theorem sends (h : s.Balanced) (hs : s.Sends l s') : s'.Balanced := by
  obtain ⟨k, hk, hqueue, hbooks⟩ := hs.posted
  refine ⟨?_, ?_, ?_, ?_, ?_, ?_⟩
  · rw [hs.letters, hs.sent, List.length_append, h.numbered]
    rfl
  · have hlength := hqueue.length_eq
    rw [List.length_append, List.length_replicate] at hlength
    have hold := h.books
    have hsent := hs.sent
    have hdelivered := hs.delivered
    omega
  · rw [hs.deliveries, hs.delivered, h.counted]
  · intro e he
    rw [hs.letters]
    rcases List.mem_append.mp (hqueue.mem_iff.mp he) with he | he
    · rw [List.eq_of_mem_replicate he, ← h.numbered, List.getElem?_concat_length]
    · exact getElem?_append (h.queued e he) l
  · intro d hd
    rw [hs.deliveries] at hd
    rw [hs.letters]
    exact ⟨getElem?_append (h.logged d hd).1 l, (h.logged d hd).2⟩
  · intro n
    have hcopies : s'.copies n = s.copies n+if s.sent = n then k else 0 := by
      unfold copies made
      rw [hs.deliveries, hqueue.countP_eq, List.countP_append, List.countP_replicate]
      simp only [decide_eq_true_eq]
      omega
    rw [hcopies]
    by_cases hn : s.sent = n
    · subst hn
      rw [if_pos rfl, h.copies_fresh]
      omega
    · rw [if_neg hn]
      exact h.twice n

/-- Neither the faults nor the events that are no deliveries matter. -/
theorem aside {faults : Network} {sim : Simulator (NetEvent μ κ)} (h : s.Balanced)
    (hqueue : ((sim.heap.map (·.event)).filterMap letter?).Perm s.inFlight) :
    ({ s with faults := faults, sim := sim } : MessageNetwork σ μ κ).Balanced where
  numbered := h.numbered
  books := by
    have hlength := hqueue.length_eq
    have hold := h.books
    unfold inFlight
    dsimp only
    omega
  counted := h.counted
  queued e he := h.queued e (hqueue.mem_iff.mp he)
  logged := h.logged
  twice n := by
    have hold := h.twice n
    unfold copies at hold ⊢
    rw [← hqueue.countP_eq] at hold
    exact hold

/-- A delivery that comes out of the queue is made or dropped. -/
theorem delivers {s₁ : MessageNetwork σ μ κ} {b : Bool} (h : s.Balanced)
    (hpop : s.pop = some (.delivery n l, s₁)) (hs : Delivers s₁ n l b s') : s'.Balanced := by
  obtain ⟨hqueue, sim, rfl⟩ := pop_some hpop
  have hqueue : s.inFlight = (n, l) :: inFlight { s with sim := sim } := hqueue
  have hletter := h.queued (n, l) (hqueue ▸ List.mem_cons_self)
  have hqueued : ∀ e ∈ inFlight { s with sim := sim }, s.letters[e.1]? = some e.2 :=
    fun e he => h.queued e (hqueue ▸ List.mem_cons_of_mem _ he)
  have hbooks := h.books
  have hlength := congrArg List.length hqueue
  rw [List.length_cons] at hlength
  -- one copy has left the queue
  have hcopies : ∀ m, s.made m+(if n = m then 1 else 0)+
      (inFlight { s with sim := sim }).countP (·.1 = m) ≤ 2 := by
    intro m
    have htwice := h.twice m
    unfold copies at htwice
    rw [hqueue, List.countP_cons] at htwice
    simp only [decide_eq_true_eq] at htwice
    omega
  cases hs with
  | delivered hopen =>
    refine ⟨h.numbered, ?_, ?_, hqueued, ?_, ?_⟩
    · show s.sent+s.duplicated = s.delivered+1+s.dropped+(inFlight { s with sim := sim }).length
      omega
    · rw [← h.counted]
      exact List.length_append
    · intro d hd
      rcases List.mem_append.mp hd with hd | hd
      · exact h.logged d hd
      · rw [List.mem_singleton.mp hd]
        exact ⟨hletter, hopen⟩
    · intro m
      refine le_trans (le_of_eq ?_) (hcopies m)
      unfold copies made
      dsimp only
      rw [List.countP_append, List.countP_singleton]
      simp only [decide_eq_true_eq]
      rfl
  | dropped loss =>
    refine ⟨h.numbered, ?_, h.counted, hqueued, h.logged, ?_⟩
    · show s.sent+s.duplicated = s.delivered+(s.dropped+1)+(inFlight { s with sim := sim }).length
      omega
    · intro m
      refine le_trans ?_ (hcopies m)
      show s.made m+(inFlight { s with sim := sim }).countP (·.1 = m) ≤ _
      omega

theorem call {c : NetCall μ κ} (h : s.Balanced) (hc : s.call D P c = .ok s') : s'.Balanced := by
  cases c with
  | send l => exact h.sends (send_ok hc)
  | schedule delay event =>
    unfold MessageNetwork.call schedule at hc
    dsimp only at hc
    split at hc
    · rename_i hsim
      cases hc
      exact h.aside ((Simulator.schedule_perm hsim).filterMap letter?)
    · cases hc
  | fault call =>
    cases hc
    exact h.aside (List.Perm.refl _)

theorem calls (h : s.Balanced) (hc : Calls D P s s') : s'.Balanced := by
  induction hc with
  | refl => exact h
  | tail _ hcall ih =>
    obtain ⟨c, hc⟩ := hcall
    exact ih.call hc

theorem step (h : s.Balanced) (hs : Step D P s s') : s'.Balanced := by
  cases hs with
  | handled hpop hdelivery hcalls => exact (h.delivers hpop (delivery_ok hdelivery)).calls hcalls
  | dropped hpop hdelivery => exact h.delivers hpop (delivery_ok hdelivery)
  | other hpop hcalls =>
    obtain ⟨hqueue, sim, rfl⟩ := pop_some hpop
    exact (h.aside (List.Perm.of_eq hqueue.symm)).calls hcalls

end Balanced

theorem Run.balanced {nodeIds : List NodeId} (h : Run D P nodeIds s) : s.Balanced := by
  induction h with
  | init rng => exact balanced_init nodeIds rng
  | calls _ hc ih => exact ih.calls hc
  | step _ hs ih => exact ih.step hs

/-- Between simulator steps every message that was sent or duplicated is delivered, dropped or
still in the queue. A message is delivered twice at most, as it was sent, and to an addressee that
is up, and not cut off by a link or a partition, at that moment. -/
theorem messages_conserved {nodeIds : List NodeId} (h : Run D P nodeIds s) :
    s.sent+s.duplicated = s.delivered+s.dropped+s.inFlight.length ∧
      s.letters.length = s.sent ∧ s.deliveries.length = s.delivered ∧ (∀ n, s.made n ≤ 2) ∧
        ∀ d ∈ s.deliveries, s.letters[d.number]? = some d.letter ∧ d.Open := by
  have hbalanced := h.balanced
  refine ⟨hbalanced.books, hbalanced.numbered, hbalanced.counted, fun n => ?_, hbalanced.logged⟩
  exact (Nat.le_add_right _ _).trans (hbalanced.twice n)

/-! ### Calls that return -/

theorem delay_returns (hD : D.Fair) (hP : P.Sane) (s : MessageNetwork σ μ κ) :
    ∃ d, s.delay D P = .ok d ∧ 0 ≤ d.1 := by
  obtain ⟨r, hr, hle⟩ := hD P.minDelay P.maxDelay s.rng hP.range
  unfold delay
  rw [hr]
  exact ⟨_, rfl, hP.future.trans hle⟩

theorem schedule_returns {delay : ℤ} (h : 0 ≤ delay) (s : MessageNetwork σ μ κ)
    (event : NetEvent μ κ) : ∃ s', s.schedule delay event = .ok s' := by
  unfold schedule Simulator.schedule
  rw [dif_neg (not_lt.mpr h)]
  exact ⟨_, rfl⟩

theorem post_returns (hD : D.Fair) (hP : P.Sane) (s : MessageNetwork σ μ κ) (n : ℕ)
    (l : Letter μ) : ∃ s', s.post D P n l = .ok s' := by
  obtain ⟨d, hd, hnonneg⟩ := delay_returns hD hP s
  obtain ⟨s₁, hs₁⟩ := schedule_returns hnonneg d.2 (.delivery n l)
  obtain ⟨d', hd', hnonneg'⟩ := delay_returns hD hP (s₁.chance D P.dupP).2
  obtain ⟨s₂, hs₂⟩ := schedule_returns hnonneg' (d'.2.duplicate l) (.delivery n l)
  by_cases hdup : (s₁.chance D P.dupP).1
  · refine ⟨s₂, bind_ok.mpr ⟨d, hd, bind_ok.mpr ⟨s₁, hs₁, ?_⟩⟩⟩
    dsimp only
    rw [if_pos hdup]
    exact bind_ok.mpr ⟨d', hd', hs₂⟩
  · refine ⟨(s₁.chance D P.dupP).2, bind_ok.mpr ⟨d, hd, bind_ok.mpr ⟨s₁, hs₁, ?_⟩⟩⟩
    dsimp only
    rw [if_neg hdup]

/-- Under a sane profile `send` never raises. -/
theorem send_returns (hD : D.Fair) (hP : P.Sane) (s : MessageNetwork σ μ κ)
    (l : Letter μ) : ∃ s', s.send D P l = .ok s' := by
  unfold send
  dsimp only
  split
  · exact ⟨_, rfl⟩
  split
  · exact ⟨_, rfl⟩
  split
  · exact ⟨_, rfl⟩
  · exact post_returns hD hP _ _ _

/-- The delivery of a message between two nodes of the network never raises. -/
theorem delivery_returns (hsrc : l.src ∈ s.faults.group) (hdst : l.dst ∈ s.faults.group) :
    ∃ r, s.delivery n l = .ok r := by
  have hreachable : s.reachable l.src l.dst = .ok (s.faults.reachable l.src l.dst) := by
    unfold reachable
    rw [if_neg (not_not.mpr hsrc), if_neg (not_not.mpr hdst)]
  unfold delivery
  rw [hreachable]
  split
  · exact ⟨_, rfl⟩
  split
  · exact ⟨_, rfl⟩
  cases s.faults.reachable l.src l.dst with
  | true => exact ⟨_, rfl⟩
  | false => exact ⟨_, rfl⟩

/-! ### A run -/

/-- `Simulator.step` with handlers that do nothing. -/
def tick (s : MessageNetwork σ μ κ) : Except NetError (MessageNetwork σ μ κ) :=
  match s.pop with
  | none => .ok s
  | some (.other _, s₁) => .ok s₁
  | some (.delivery n l, s₁) => (s₁.delivery n l).map (·.2)

theorem Run.tick {nodeIds : List NodeId} (h : Run D P nodeIds s) (hs : s.tick = .ok s') :
    Run D P nodeIds s' := by
  unfold MessageNetwork.tick at hs
  split at hs
  · cases hs
    exact h
  · rename_i hpop
    cases hs
    exact h.step (.other hpop .refl)
  · rename_i hpop
    obtain ⟨⟨b, s₂⟩, hdelivery, rfl⟩ := map_ok.mp hs
    cases b with
    | true => exact h.step (.handled hpop hdelivery .refl)
    | false => exact h.step (.dropped hpop hdelivery)

theorem Run.call {nodeIds : List NodeId} {c : NetCall μ κ} (h : Run D P nodeIds s)
    (hs : s.call D P c = .ok s') : Run D P nodeIds s' := h.calls (.single ⟨c, hs⟩)

/-- A source of zeros and of the shortest delays. -/
def zeros : Rng Unit where
  random _ := (0, ())
  randint a _ _ := .ok (a, ())

def doubling : FaultProfile where
  dropP := 0
  dupP := 1/2
  minDelay := 1
  maxDelay := 5

/-- A message is duplicated, and delivered once before its addressee crashes. -/
def doubledRun : Except NetError (MessageNetwork Unit Str Empty) := do
  let s ← (init [0, 1, 2] ()).call zeros doubling (.send ⟨0, 1, "ping".toList⟩)
  let s ← s.tick
  let s ← s.call zeros doubling (.fault (.crash 1))
  s.tick

theorem doubledRun_conserved : ∃ s, doubledRun = .ok s ∧ s.delivered = 1 ∧ s.dropped = 1 ∧
    s.sent+s.duplicated = s.delivered+s.dropped+s.inFlight.length := by
  have hcounts : doubledRun.toOption.map (fun s => (s.delivered, s.dropped)) = some (1, 1) := by
    decide +kernel
  obtain ⟨s, hs, hcounts⟩ := Option.map_eq_some_iff.mp hcounts
  have hrun : doubledRun = .ok s := by
    cases hr : doubledRun with
    | error e =>
      rw [hr] at hs
      cases hs
    | ok s' =>
      rw [hr] at hs
      cases hs
      rfl
  have hreached : Run zeros doubling [0, 1, 2] s := by
    obtain ⟨s₁, hs₁, h⟩ := bind_ok.mp hrun
    obtain ⟨s₂, hs₂, h⟩ := bind_ok.mp h
    obtain ⟨s₃, hs₃, h⟩ := bind_ok.mp h
    exact ((((Run.init ()).call hs₁).tick hs₂).call hs₃).tick h
  exact ⟨s, hrun, congrArg Prod.fst hcounts, congrArg Prod.snd hcounts,
    (messages_conserved hreached).1⟩

end MessageNetwork
end RaftVerified
