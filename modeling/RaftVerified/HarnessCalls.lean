import RaftVerified.HarnessDrivers
import RaftVerified.MessageConservation
import RaftVerified.RaftAnswers
import RaftVerified.RaftTimers

/-! What the calls of a node do to its cluster: messages enter the network, timers the queue,
records the books. Nothing else of the cluster moves. -/
namespace RaftVerified

namespace Simulator
variable {ε : Type} {s s' : Simulator ε} {event : ε}

theorem schedule_heap {delay : ℤ} (h : s.schedule delay event = .ok s') :
    0 ≤ delay ∧ s'.now = s.now ∧ s'.steps = s.steps ∧
      s'.heap.Perm (⟨s.now+delay, s.seq, event⟩ :: s.heap) := by
  unfold schedule at h
  split at h
  · cases h
  · cases h
    exact ⟨by omega, rfl, rfl, List.perm_orderedInsert _ _ _⟩

theorem schedule_returns {delay : ℤ} (h : 0 ≤ delay) (s : Simulator ε) (event : ε) :
    ∃ s', s.schedule delay event = .ok s' := by
  unfold schedule
  rw [dif_neg (not_lt.mpr h)]
  exact ⟨_, rfl⟩

theorem pop_heap (h : s.pop = some (event, s')) :
    s'.steps = s.steps+1 ∧ ∃ p, p.event = event ∧ s.heap = p :: s'.heap ∧ s'.now = p.time := by
  obtain ⟨p, he, hheap, hnow, -⟩ := pop_some h
  refine ⟨?_, p, he, hheap, hnow⟩
  unfold pop at h
  split at h
  · cases h
  · cases h
    rfl

theorem pop_none : s.pop = none ↔ s.heap = [] := by
  unfold pop
  split
  next hs => exact ⟨fun _ => hs, fun _ => rfl⟩
  next p rest hs =>
    refine ⟨fun h => (by cases h), fun h => ?_⟩
    rw [hs] at h
    cases h

end Simulator

namespace MessageNetwork
variable {σ μ κ : Type} {D : Rng σ} {P : FaultProfile} {s s' s'' : MessageNetwork σ μ κ}
  {l : Letter μ} {n : ℕ}

/-- When an event that is no delivery is due. -/
def due? (p : Due (NetEvent μ κ)) : Option (ℤ × κ) :=
  match p.event with
  | .delivery _ _ => none
  | .other event => some (p.time, event)

/-- All that is due beside the deliveries. -/
def agenda (s : MessageNetwork σ μ κ) : List (ℤ × κ) := s.sim.heap.filterMap due?

/-- Each counter is the number of records of its kind. -/
structure Tallied (s : MessageNetwork σ μ κ) : Prop where
  sent : s.sent = s.trace.countP fun t => t.kind = "send".toList
  delivered : s.delivered = s.trace.countP fun t => t.kind = "deliver".toList
  dropped : s.dropped = s.trace.countP fun t => t.kind = "drop".toList
  duplicated : s.duplicated = s.trace.countP fun t => t.kind = "dup".toList

/-- A record and what it does to the counters. -/
theorem Tallied.book (h : s.Tallied) {t : Traffic μ} (htrace : s'.trace = s.trace ++ [t])
    (hsent : s'.sent = s.sent+if t.kind = "send".toList then 1 else 0)
    (hdelivered : s'.delivered = s.delivered+if t.kind = "deliver".toList then 1 else 0)
    (hdropped : s'.dropped = s.dropped+if t.kind = "drop".toList then 1 else 0)
    (hdup : s'.duplicated = s.duplicated+if t.kind = "dup".toList then 1 else 0) :
    s'.Tallied := by
  have hone : ∀ kind : Str, s'.trace.countP (fun t => t.kind = kind) =
      s.trace.countP (fun t => t.kind = kind)+if t.kind = kind then 1 else 0 := by
    intro kind
    rw [htrace, List.countP_append, List.countP_singleton]
    simp only [decide_eq_true_eq]
  refine ⟨?_, ?_, ?_, ?_⟩
  · rw [hone, hsent, h.sent]
  · rw [hone, hdelivered, h.delivered]
  · rw [hone, hdropped, h.dropped]
  · rw [hone, hdup, h.duplicated]

/-- A network in which only messages have moved. -/
structure Onward (s s' : MessageNetwork σ μ κ) : Prop where
  faults : s'.faults = s.faults
  now : s'.sim.now = s.sim.now
  steps : s'.sim.steps = s.sim.steps
  agenda : s'.agenda.Perm s.agenda
  trace : ∃ new, s'.trace = s.trace ++ new
  tally : s.Tallied → s'.Tallied

theorem onward_rng (rng : σ) : s.Onward { s with rng } :=
  ⟨rfl, rfl, rfl, .refl _, ⟨[], (List.append_nil _).symm⟩,
    fun h => ⟨h.sent, h.delivered, h.dropped, h.duplicated⟩⟩

theorem Onward.trans (h : s.Onward s') (h' : s'.Onward s'') : s.Onward s'' where
  faults := h'.faults.trans h.faults
  now := h'.now.trans h.now
  steps := h'.steps.trans h.steps
  agenda := h'.agenda.trans h.agenda
  trace := by
    obtain ⟨new, hnew⟩ := h.trace
    obtain ⟨more, hmore⟩ := h'.trace
    exact ⟨new ++ more, by rw [hmore, hnew, List.append_assoc]⟩
  tally := h'.tally ∘ h.tally

theorem chance_onward (p : ℚ) : s.Onward (s.chance D p).2 := by
  unfold chance
  split
  · exact onward_rng _
  · exact onward_rng s.rng

theorem lossy_onward (l : Letter μ) : s.Onward (s.lossy D l).2 := by
  unfold lossy
  split
  · exact onward_rng _
  · exact onward_rng s.rng

theorem delay_onward {d : ℤ × MessageNetwork σ μ κ} (h : s.delay D P = .ok d) :
    s.Onward d.2 := by
  unfold delay at h
  split at h
  · cases h
    exact onward_rng _
  · cases h

theorem drop_onward (l : Letter μ) (loss : Loss) : s.Onward (s.drop l loss) :=
  ⟨rfl, rfl, rfl, .refl _, ⟨_, rfl⟩, fun h => h.book (t := .drop l loss) rfl rfl rfl rfl rfl⟩

/-- What a call of `schedule` that returns has done. -/
theorem schedule_agenda {delay : ℤ} {event : NetEvent μ κ} (h : s.schedule delay event = .ok s') :
    0 ≤ delay ∧ ∃ sim, s' = { s with sim } ∧ sim.now = s.sim.now ∧ sim.steps = s.sim.steps ∧
      sim.heap.Perm (⟨s.sim.now+delay, s.sim.seq, event⟩ :: s.sim.heap) := by
  unfold schedule at h
  split at h
  next sim hsim =>
    cases h
    obtain ⟨hdelay, hnow, hsteps, hheap⟩ := Simulator.schedule_heap hsim
    exact ⟨hdelay, sim, rfl, hnow, hsteps, hheap⟩
  next => cases h

theorem delivery_onward {delay : ℤ} (h : s.schedule delay (.delivery n l) = .ok s') :
    s.Onward s' := by
  obtain ⟨-, sim, rfl, hnow, hsteps, hheap⟩ := schedule_agenda h
  exact ⟨rfl, hnow, hsteps, hheap.filterMap due?, ⟨[], (List.append_nil _).symm⟩,
    fun h => ⟨h.sent, h.delivered, h.dropped, h.duplicated⟩⟩

theorem post_onward (h : s.post D P n l = .ok s') : s.Onward s' := by
  obtain ⟨d, hd, h⟩ := bind_ok.mp h
  obtain ⟨s₁, hs₁, h⟩ := bind_ok.mp h
  have h₁ := (delay_onward hd).trans (delivery_onward hs₁)
  have h₂ := h₁.trans (chance_onward (D := D) P.dupP)
  dsimp only at h
  split at h
  -- a second copy has a delay of its own
  · obtain ⟨d', hd', h⟩ := bind_ok.mp h
    have h₃ : d'.2.Onward (d'.2.duplicate l) :=
      ⟨rfl, rfl, rfl, .refl _, ⟨_, rfl⟩, fun h => h.book (t := .dup l) rfl rfl rfl rfl rfl⟩
    exact ((h₂.trans (delay_onward hd')).trans h₃).trans (delivery_onward h)
  · cases h
    exact h₂

theorem send_onward (h : s.send D P l = .ok s') : s.Onward s' := by
  have hcount : s.Onward (s.count l) :=
    ⟨rfl, rfl, rfl, .refl _, ⟨_, rfl⟩, fun h => h.book (t := .send l) rfl rfl rfl rfl rfl⟩
  have hlossy := hcount.trans (lossy_onward (D := D) l)
  have hchance := hlossy.trans (chance_onward (D := D) P.dropP)
  unfold send at h
  dsimp only at h
  split at h
  · cases h
    exact hcount.trans (drop_onward l _)
  split at h
  · cases h
    exact hlossy.trans (drop_onward l _)
  split at h
  · cases h
    exact hchance.trans (drop_onward l _)
  · exact hchance.trans (post_onward h)

theorem delivery_onward_ok {b : Bool} (h : s.delivery n l = .ok (b, s')) :
    s.Onward s' ∧ s'.letters = s.letters := by
  cases delivery_ok h with
  | delivered => exact ⟨⟨rfl, rfl, rfl, .refl _, ⟨_, rfl⟩,
      fun h => h.book (t := .deliver l) rfl rfl rfl rfl rfl⟩, rfl⟩
  | dropped loss => exact ⟨drop_onward l loss, rfl⟩

end MessageNetwork

/-! ### What is recorded -/

/-- What a record is to the statistics. -/
def Stats.add (s : Stats) : Record → Stats
  | .trace (.election _ _) => { s with elections := s.elections+1 }
  | .trace (.role _ .leader _) => { s with leadersElected := s.leadersElected+1 }
  | .trace (.cfgchange _ _ _ _) => { s with configChanges := s.configChanges+1 }
  | .driver (.partition _) => { s with partitions := s.partitions+1 }
  | .driver .heal => { s with heals := s.heals+1 }
  | .driver (.client _ _ _) => { s with commandsSubmitted := s.commandsSubmitted+1 }
  | .driver (.retry _ _ _) => { s with retries := s.retries+1 }
  | .crash _ => { s with crashes := s.crashes+1 }
  | .resume _ => { s with resumes := s.resumes+1 }
  | _ => s

theorem bar_notMem_role (r : Role) : '|' ∉ r.text := by cases r <;> decide

/-- The text before the first bar, and the text after it. -/
theorem first_bar {a : Char} {xs ys ss ts : Str} (hx : a ∉ xs) (hy : a ∉ ys)
    (h : xs ++ a :: ss = ys ++ a :: ts) : xs = ys ∧ ss = ts := by
  induction xs generalizing ys with
  | nil =>
    cases ys with
    | nil => exact ⟨rfl, (List.cons.inj h).2⟩
    | cons y ys => exact absurd ((List.cons.inj h).1 ▸ List.mem_cons_self) hy
  | cons x xs ih =>
    cases ys with
    | nil => exact absurd ((List.cons.inj h).1 ▸ List.mem_cons_self) hx
    | cons y ys =>
      obtain ⟨rfl, htail⟩ := List.cons.inj h
      obtain ⟨rfl, hrest⟩ :=
        ih (fun hm => hx (List.mem_cons_of_mem _ hm))
          (fun hm => hy (List.mem_cons_of_mem _ hm)) htail
      exact ⟨rfl, hrest⟩

/-- Only the text of a record that names a leader has the word between two bars. -/
theorem leader_infix_iff (i : NodeId) (r : Role) (term : ℕ) :
    "|leader|".toList <:+: (TraceEvent.role i r term).detail ↔ r = .leader := by
  have hnode : '|' ∉ nodeText i := by
    rw [nodeText, List.mem_cons, not_or]
    exact ⟨by decide, intStr_free i '|' (by decide) (by decide)⟩
  have hterm : '|' ∉ "term".toList ++ '=' :: natStr term := by
    rw [List.mem_append, List.mem_cons, not_or, not_or]
    exact ⟨by decide, by decide, natStr_free term '|' (by decide)⟩
  have hdetail : (TraceEvent.role i r term).detail =
      nodeText i ++ '|' :: (r.text ++ '|' :: ("term".toList ++ '=' :: natStr term)) := rfl
  have hword : "|leader|".toList = '|' :: (Role.leader.text ++ ['|']) := by decide
  rw [hdetail, hword]
  generalize "term".toList ++ '=' :: natStr term = field at hterm
  constructor
  · rintro ⟨before, after, h⟩
    have h : before ++ '|' :: (Role.leader.text ++ '|' :: after) =
        nodeText i ++ '|' :: (r.text ++ '|' :: field) := by
      rw [← h]
      simp only [List.append_assoc, List.cons_append, List.nil_append]
    -- both sides have two bars, so there is none before the word
    have hbars := congrArg (List.count '|') h
    rw [List.count_append, List.count_cons_self, List.count_append, List.count_cons_self,
      List.count_append, List.count_cons_self, List.count_append, List.count_cons_self,
      List.count_eq_zero.mpr hnode, List.count_eq_zero.mpr (bar_notMem_role r),
      List.count_eq_zero.mpr hterm] at hbars
    have hbefore : '|' ∉ before := List.count_eq_zero.mp (by omega)
    obtain ⟨-, hrest⟩ := first_bar hbefore hnode h
    exact Role.text_injective (first_bar (bar_notMem_role _) (bar_notMem_role r) hrest).1.symm
  · rintro rfl
    refine ⟨nodeText i, field, ?_⟩
    simp only [List.append_assoc, List.cons_append, List.nil_append]

/-- `record` counts the records of the nodes. -/
theorem Stats.count_trace (s : Stats) (e : TraceEvent) :
    s.count (Record.trace e).kind (Record.trace e).detail = s.add (.trace e) := by
  cases e with
  | role i r term =>
    have hr := leader_infix_iff i r term
    show (if "role".toList = "election".toList then _ else if "role".toList = "role".toList ∧
      "|leader|".toList <:+: (TraceEvent.role i r term).detail then _ else
        if "role".toList = "cfgchange".toList then _ else _) = _
    rw [if_neg (by decide)]
    cases r with
    | leader => rw [if_pos ⟨rfl, hr.mpr rfl⟩]; rfl
    | follower =>
      rw [if_neg (fun h => by cases hr.mp h.2), if_neg (by decide)]
      rfl
    | candidate =>
      rw [if_neg (fun h => by cases hr.mp h.2), if_neg (by decide)]
      rfl
  | _ => rfl

/-- The packet that a letter is to the nodes. -/
def Letter.packet (l : Letter Message) : Packet := ⟨l.src, l.dst, l.msg⟩

/-- The records among the calls of a callback. -/
def recorded : List Call → List Record
  | [] => []
  | .record event :: rest => .trace event :: recorded rest
  | _ :: rest => recorded rest

theorem recorded_append (xs ys : List Call) :
    recorded (xs ++ ys) = recorded xs ++ recorded ys := by
  induction xs with
  | nil => rfl
  | cons x xs ih => cases x <;> simp [recorded, ih]

def Note.event? : ℤ × Note → Option (ℤ × Record)
  | (t, .record r) => some (t, r)
  | (_, .traffic _) => none

def Note.traffic? : ℤ × Note → Option (Traffic Message)
  | (_, .record _) => none
  | (_, .traffic t) => some t

namespace Harness
variable {σ : Type} {D : Platform σ} {c : HarnessSetup} {h h' h'' : Harness σ} {i : NodeId}

/-- What the nodes and the messages are to the other models. -/
def world (h : Harness σ) : World := ⟨h.nodes, h.net.letters.map Letter.packet⟩

/-- The jobs in the queue, each with the time when it is due. -/
def agenda (h : Harness σ) : List (ℤ × Job) := h.net.agenda

/-- What the callbacks of nodes leave alone. -/
def drivers (h : Harness σ) := (h.faults, h.now, h.steps, h.memberTurn, h.faultSeq, h.checker)

/-- The events and the traffic are the two parts of the trace, the statistics count the events,
and the counters of the network the traffic. -/
structure Logged (h : Harness σ) : Prop where
  events : h.events = h.trace.filterMap Note.event?
  traffic : h.net.trace = h.trace.filterMap Note.traffic?
  stats : h.stats = (h.events.map Prod.snd).foldl Stats.add {}
  tally : h.net.Tallied

def books (h : Harness σ) :=
  ((h.trace, h.events, h.stats), h.net.trace, h.net.sent, h.net.delivered, h.net.dropped,
    h.net.duplicated)

theorem Logged.congr (hl : h.Logged) (hb : h'.books = h.books) : h'.Logged := by
  simp only [books, Prod.mk.injEq] at hb
  obtain ⟨⟨htrace, hevents, hstats⟩, hnet, hsent, hdelivered, hdropped, hdup⟩ := hb
  refine ⟨?_, ?_, ?_, ⟨?_, ?_, ?_, ?_⟩⟩
  · rw [hevents, htrace, hl.events]
  · rw [hnet, htrace, hl.traffic]
  · rw [hstats, hevents, hl.stats]
  · rw [hsent, hnet, hl.tally.sent]
  · rw [hdelivered, hnet, hl.tally.delivered]
  · rw [hdropped, hnet, hl.tally.dropped]
  · rw [hdup, hnet, hl.tally.duplicated]

/-- A record, before which the statistics may have been raised. -/
theorem Logged.book (hl : h.Logged) {r : Record} {stats : Stats}
    (hs : stats.count r.kind r.detail = h.stats.add r) :
    ({ h with stats }.record r).Logged where
  events := by
    show h.events ++ [(h.now, r)] = (h.trace ++ [(h.now, Note.record r)]).filterMap Note.event?
    rw [hl.events, List.filterMap_append]
    rfl
  traffic := by
    show h.net.trace = (h.trace ++ [(h.now, Note.record r)]).filterMap Note.traffic?
    rw [hl.traffic, List.filterMap_append]
    exact (List.append_nil _).symm
  stats := by
    show stats.count r.kind r.detail = ((h.events ++ [(h.now, r)]).map Prod.snd).foldl Stats.add {}
    rw [List.map_append, List.foldl_append, ← hl.stats]
    exact hs
  tally := hl.tally

theorem Logged.absorb {net : MessageNetwork σ Message Job} (hl : h.Logged)
    (hnet : ∃ new, net.trace = h.net.trace ++ new) (htally : net.Tallied) :
    (h.absorb net).Logged := by
  -- what the network has recorded since is what is logged
  obtain ⟨new, hnew⟩ := hnet
  have hdrop : net.trace.drop h.net.trace.length = new := by rw [hnew, List.drop_left]
  have htrace : (h.absorb net).trace = h.trace ++ new.map fun t => (h.now, .traffic t) := by
    rw [← hdrop]
    rfl
  refine ⟨?_, ?_, hl.stats, htally⟩
  · rw [htrace, List.filterMap_append, ← hl.events, List.filterMap_map]
    have hnone : new.filterMap (Note.event? ∘ fun t => (h.now, Note.traffic t)) = [] :=
      List.filterMap_eq_nil_iff.mpr fun t _ => rfl
    rw [hnone, List.append_nil]
    rfl
  · rw [htrace, List.filterMap_append, ← hl.traffic, List.filterMap_map]
    have hsome : new.filterMap (Note.traffic? ∘ fun t => (h.now, Note.traffic t)) = new := by
      rw [show (Note.traffic? ∘ fun t => (h.now, Note.traffic t)) = some from rfl]
      exact List.filterMap_some
    rw [hsome]
    exact hnew

/-- What the calls of node `i` have done. -/
structure Called (c : HarnessSetup) (i : NodeId) (calls : List Call) (h h' : Harness σ) :
    Prop where
  nodes : h'.nodes = h.nodes
  drivers : h'.drivers = h.drivers
  sent : h'.world.sent = h.world.sent ++ sends i calls
  agenda : ∃ new, h'.agenda.Perm (new ++ h.agenda) ∧
    new.map Prod.snd = (armed calls).reverse.map (Job.timer i)
  clients : h'.clients = (onApplies calls).foldl
    (fun d r => d.onApply c.toServiceSetup h.steps r.1 r.2) h.clients
  events : h'.events = h.events ++ (recorded calls).map fun r => (h.now, r)
  stats : h'.stats = (recorded calls).foldl (fun s r => s.count r.kind r.detail) h.stats
  logged : h.Logged → h'.Logged
  balanced : h.net.Balanced → h'.net.Balanced

theorem Called.rfl : Called c i [] h h where
  nodes := .refl _
  drivers := .refl _
  sent := (List.append_nil _).symm
  agenda := ⟨[], .refl _, .refl _⟩
  clients := .refl _
  events := (List.append_nil _).symm
  stats := .refl _
  logged := id
  balanced := id

theorem drivers_now (hd : h'.drivers = h.drivers) : h'.now = h.now := by
  simp only [drivers, Prod.mk.injEq] at hd
  exact hd.2.1

theorem drivers_steps (hd : h'.drivers = h.drivers) : h'.steps = h.steps := by
  simp only [drivers, Prod.mk.injEq] at hd
  exact hd.2.2.1

theorem Called.trans {xs ys : List Call} (hx : Called c i xs h h') (hy : Called c i ys h' h'') :
    Called c i (xs ++ ys) h h'' where
  nodes := hy.nodes.trans hx.nodes
  drivers := hy.drivers.trans hx.drivers
  sent := by rw [hy.sent, hx.sent, sends_append, List.append_assoc]
  agenda := by
    obtain ⟨new, hnew, hjobs⟩ := hx.agenda
    obtain ⟨more, hmore, hjobs'⟩ := hy.agenda
    -- the newest timers come first
    refine ⟨more ++ new, ?_, ?_⟩
    · rw [List.append_assoc]
      exact hmore.trans (hnew.append_left more)
    · rw [List.map_append, hjobs, hjobs', armed_append, List.reverse_append, List.map_append]
  clients := by
    rw [hy.clients, hx.clients, drivers_steps hx.drivers, onApplies_append, List.foldl_append]
  events := by
    rw [hy.events, hx.events, drivers_now hx.drivers, recorded_append, List.map_append,
      List.append_assoc]
  stats := by rw [hy.stats, hx.stats, recorded_append, List.foldl_append]
  logged := hy.logged ∘ hx.logged
  balanced := hy.balanced ∘ hx.balanced

/-! ### One call -/

theorem schedule_ok {delay : ℤ} {job : Job} (hs : h.schedule delay job = .ok h') :
    0 ≤ delay ∧ ∃ sim, h' = { h with net := { h.net with sim } } ∧ sim.now = h.now ∧
      sim.steps = h.steps ∧
      sim.heap.Perm (⟨h.now+delay, h.net.sim.seq, .other job⟩ :: h.net.sim.heap) := by
  unfold schedule at hs
  split at hs
  next net hnet =>
    cases hs
    obtain ⟨hdelay, sim, rfl, hnow, hsteps, hheap⟩ := MessageNetwork.schedule_agenda hnet
    exact ⟨hdelay, sim, rfl, hnow, hsteps, hheap⟩
  next => cases hs

theorem schedule_balanced {delay : ℤ} {job : Job} (hs : h.schedule delay job = .ok h')
    (hb : h.net.Balanced) : h'.net.Balanced := by
  obtain ⟨-, sim, rfl, -, -, hheap⟩ := schedule_ok hs
  exact hb.aside ((hheap.map (·.event)).filterMap MessageNetwork.letter?)

theorem randint_ok {a b : ℤ} {r : ℤ × Harness σ} (hr : h.randint D a b = .ok r) :
    ∃ rng, r.2 = { h with net := { h.net with rng } } := by
  unfold randint at hr
  split at hr
  · cases hr
    exact ⟨_, rfl⟩
  · cases hr

theorem balanced_rng {net : MessageNetwork σ Message Job} (hb : net.Balanced) (rng : σ) :
    ({ net with rng } : MessageNetwork σ Message Job).Balanced :=
  ⟨hb.numbered, hb.books, hb.counted, hb.queued, hb.logged, hb.twice⟩

theorem called_schedule {delay : ℤ} {t : Timer}
    (hs : h.schedule delay (.timer i t) = .ok h') : Called c i [.schedule t] h h' := by
  have hb := schedule_balanced hs
  obtain ⟨-, sim, rfl, hnow, hsteps, hheap⟩ := schedule_ok hs
  refine ⟨rfl, ?_, (List.append_nil _).symm, ⟨[(h.now+delay, .timer i t)], ?_, rfl⟩, rfl,
    (List.append_nil _).symm, rfl, fun hl => hl.congr rfl, hb⟩
  · simp only [drivers, now, steps] at hnow hsteps ⊢
    rw [hnow, hsteps]
    rfl
  · exact hheap.filterMap MessageNetwork.due?

theorem Called.ofRng {calls : List Call} {rng : σ}
    (hc : Called c i calls { h with net := { h.net with rng } } h') : Called c i calls h h' :=
  ⟨hc.nodes, hc.drivers, hc.sent, hc.agenda, hc.clients, hc.events, hc.stats,
    fun hl => hc.logged (hl.congr (Eq.refl _)),
    fun hb => hc.balanced (balanced_rng hb rng)⟩

theorem called_send {dst : NodeId} {msg : Message} (hs : h.send D c i dst msg = .ok h') :
    Called c i [.send dst msg] h h' := by
  unfold send at hs
  split at hs
  next net hnet =>
    cases hs
    have hsend := MessageNetwork.send_ok hnet
    have hon := MessageNetwork.send_onward hnet
    refine ⟨rfl, ?_, ?_, ⟨[], hon.agenda, rfl⟩, rfl, (List.append_nil _).symm, rfl,
      fun hl => hl.absorb hon.trace (hon.tally hl.tally), fun hb => hb.sends hsend⟩
    · simp only [drivers, faults, now, steps, absorb]
      rw [hon.faults, hon.now, hon.steps]
    · show net.letters.map Letter.packet = _
      rw [hsend.letters, List.map_append]
      rfl
  next => cases hs

theorem call_ok {call : Call} (hs : h.call D c i call = .ok h') : Called c i [call] h h' := by
  cases call with
  | send dst msg => exact called_send hs
  | record event =>
    obtain rfl := Except.ok.inj hs
    exact ⟨rfl, rfl, (List.append_nil _).symm, ⟨[], .refl _, rfl⟩, rfl, rfl, rfl,
      fun hl => hl.book (Stats.count_trace _ _), id⟩
  | schedule t =>
    cases t with
    | electionTimeout seq =>
      -- the delay of an election timer is drawn first
      obtain ⟨r, hr, hs⟩ := bind_ok.mp hs
      obtain ⟨rng, hrng⟩ := randint_ok hr
      rw [hrng] at hs
      exact (called_schedule hs).ofRng
    | heartbeat seq => exact called_schedule hs
  | onApply command result =>
    obtain rfl := Except.ok.inj hs
    exact ⟨rfl, rfl, (List.append_nil _).symm, ⟨[], .refl _, rfl⟩, rfl, (List.append_nil _).symm,
      rfl, fun hl => hl.congr rfl, id⟩

theorem calls_ok (calls : List Call) (hs : calls.foldlM (call D c i) h = .ok h') :
    Called c i calls h h' := by
  induction calls generalizing h with
  | nil =>
    obtain rfl := Except.ok.inj hs
    exact Called.rfl
  | cons x calls ih =>
    rw [List.foldlM_cons] at hs
    obtain ⟨h₁, h₁ok, hs⟩ := bind_ok.mp hs
    exact (call_ok h₁ok).trans (ih hs)

/-! ### One callback -/

/-- What a callback of node `i` has done that has come to `y`. -/
structure Performed (c : HarnessSetup) (i : NodeId) (y : Exec) (h h' : Harness σ) : Prop where
  world : h'.world = h.world.put i y
  drivers : h'.drivers = h.drivers
  agenda : ∃ new, h'.agenda.Perm (new ++ h.agenda) ∧
    new.map Prod.snd = (armed y.calls).reverse.map (Job.timer i)
  clients : h'.clients = (onApplies y.calls).foldl
    (fun d r => d.onApply c.toServiceSetup h.steps r.1 r.2) h.clients
  events : h'.events = h.events ++ (recorded y.calls).map fun r => (h.now, r)
  stats : h'.stats = (recorded y.calls).foldl (fun s r => s.count r.kind r.detail) h.stats
  logged : h.Logged → h'.Logged
  balanced : h.net.Balanced → h'.net.Balanced

theorem perform_ok {x : Except PyError Exec} (hs : h.perform D c i x = .ok h') :
    ∃ y, x = .ok y ∧ Performed c i y h h' := by
  cases x with
  | error e => cases hs
  | ok y =>
    have hc := calls_ok y.calls hs
    refine ⟨y, rfl, ?_, hc.drivers, hc.agenda, hc.clients, hc.events, hc.stats,
      fun hl => hc.logged (hl.congr rfl), hc.balanced⟩
    show World.mk h'.nodes h'.world.sent = _
    rw [hc.nodes, hc.sent]
    rfl

end Harness
end RaftVerified
