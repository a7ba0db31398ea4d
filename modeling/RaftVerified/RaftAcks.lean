import RaftVerified.RaftElections

/-! What a success acknowledgement promises, with compaction: the sender holds what the
leader of the term holds, as far as the acknowledgement reaches. -/
namespace RaftVerified
open Consensus

variable {c : Setup} {a : Protocol} {w w' : World} {ws past : List World} {i : NodeId}
  {n : RaftNode} {e : Event}

/-! ### Deliveries that keep the logs together -/

instance (n : RaftNode) (msg : AppendEntries) : Decidable (KeepsBase n msg) :=
  decidable_of_iff (∀ p ∈ msg.entries.zipIdx, msg.prevIndex+p.2 < n.baseIndex →
    p.1.term = n.baseTerm) <| by
    constructor
    · intro h k e he
      exact h (e, k) (List.mem_zipIdx_iff_getElem?.mpr he)
    · intro h p hp
      exact h p.2 p.1 (List.mem_zipIdx_iff_getElem?.mp hp)

/-- Some leader of term `t` had, in some state of the run, an entry of the term of the
last entry of `n` at that entry's index. -/
def LastEntryLed (c : Setup) (ws : List World) (t : ℕ) (n : RaftNode) : Prop :=
  ∃ v ∈ ws, ∃ j ∈ c.ids, (v.nodes j).role = .leader ∧ (v.nodes j).term = t ∧
    (v.nodes j).logical[n.lastLogIndex-1]?.map Entry.term = n.log.getLast?.map Entry.term

/-- A live node that takes the message of a leader: no entry conflicts below its base, and
an image it has already covered finds no entries that are not the leader's. -/
def SoundDelivery (c : Setup) (ws : List World) (n : RaftNode) : Message → Prop
  | .appendEntries m => n.alive = true → n.term ≤ m.term →
      Exec.inconsistent n m = .ok false → KeepsBase n m
  | .installSnapshot m => n.alive = true → n.term ≤ m.term → m.lastIndex ≤ n.baseIndex →
      n.log = [] ∨ LastEntryLed c ws m.term n
  | _ => True

/-- A fixed voting set, and every delivery is sound. -/
def SoundDeliveries (c : Setup) (ws : List World) (e : Event) : Prop :=
  FixedVoters ws e ∧ match e with
    | .deliver k => ∀ w ∈ ws.head?, ∀ p ∈ w.sent[k]?, p.dst ∈ c.ids →
        SoundDelivery c ws (w.nodes p.dst) p.msg
    | _ => True

instance (c : Setup) (ws : List World) (t : ℕ) (n : RaftNode) :
    Decidable (LastEntryLed c ws t n) := by
  unfold LastEntryLed
  infer_instance

instance (c : Setup) (ws : List World) (n : RaftNode) (msg : Message) :
    Decidable (SoundDelivery c ws n msg) := by
  cases msg <;> unfold SoundDelivery <;> infer_instance

instance (c : Setup) (ws : List World) (e : Event) : Decidable (SoundDeliveries c ws e) :=
  match e with
  | .deliver k => inferInstanceAs (Decidable (_ ∧ ∀ w ∈ ws.head?, ∀ p ∈ w.sent[k]?,
      p.dst ∈ c.ids → SoundDelivery c ws (w.nodes p.dst) p.msg))
  | .electionTimeout _ _ | .heartbeat _ _ | .clientCommand _ _ | .changeConfig _ _
  | .requestRead _ _ | .pause _ | .resume _ => inferInstanceAs (Decidable (_ ∧ True))

/-- A log whose last entry the leader of term `t` had is part of that leader's log. -/
theorem Explains.log_of_last (h : Explains c a ws) (hw : WorldRel c a w) (hi : i ∈ c.ids)
    {t : ℕ} (hne : (w.nodes i).log ≠ []) (hled : LastEntryLed c ws t (w.nodes i)) :
    (w.nodes i).logical <+: a.trunk t := by
  obtain ⟨v, hv, j, hj, hr, rfl, hlast⟩ := hled
  have hbase := (hw.nodes i hi).ok.base
  have hpos := List.length_pos_iff.mpr hne
  have hlen : (w.nodes i).lastLogIndex = (w.nodes i).baseIndex+(w.nodes i).log.length := rfl
  have he := List.getElem?_eq_getElem (show (w.nodes i).log.length-1 < (w.nodes i).log.length by
    omega)
  rw [List.getLast?_eq_getElem?, he, Option.map_some, Option.map_eq_some_iff] at hlast
  obtain ⟨f, hf, hft⟩ := hlast
  have hidx : (w.nodes i).lastLogIndex-1 = (w.nodes i).baseIndex+((w.nodes i).log.length-1) := by
    omega
  have hmine := (RaftNode.logical_getElem? hbase ((w.nodes i).log.length-1)).trans he
  rw [← hidx] at hmine
  have htr := prefix_getElem? (h.leader_trunk hv hj hr).2 hf
  have htake := (hw.nodes i hi).take_eq h.inv hmine htr hft.symm
  have hall : (w.nodes i).logical.take ((w.nodes i).lastLogIndex-1+1) = (w.nodes i).logical := by
    rw [List.take_of_length_le]
    rw [RaftNode.length_logical hbase]
    omega
  rw [← hall, htake]
  exact List.take_prefix _ _

/-- A log with nothing above its base is committed, so every later leader has it. -/
theorem Explains.log_of_empty (h : Explains c a ws) (hw : WorldRel c a w) (hi : i ∈ c.ids)
    {t : ℕ} (hnil : (w.nodes i).log = []) (hl : a.Led t) (hle : (w.nodes i).term ≤ t) :
    (w.nodes i).logical <+: a.trunk t := by
  have hlog : (w.nodes i).logical = (w.nodes i).folded := by
    rw [RaftNode.logical, hnil, List.append_nil]
  rw [hlog]
  exact h.inv.settled_trunk ((hw.nodes i hi).folded_settled h.inv) hl hle

theorem sound_explained (hb : c.bugs = NO_BUGS) (hr : Run c (SoundDeliveries c) ws) :
    ∃ a, Explains c a ws := by
  refine run_explained hb (fun w past e a _ hall ha => ?_) hr
  have hw := ha.now w rfl
  obtain ⟨hfix, hsound⟩ := hall
  cases e with
  | clientCommand j command => exact decodeConfig_of_plain command hfix
  | changeConfig j new => exact hfix.elim
  | deliver k =>
    intro p hp hd
    have hmsg := hw.sent p (List.mem_of_getElem? hp)
    have hs := hsound w rfl p hp hd
    obtain ⟨src, dst, msg⟩ := p
    cases msg with
    | appendEntries m => exact hs
    | installSnapshot m =>
      intro halive hle hcov
      -- a covered image: the follower's whole log lies on the trunk of the term
      by_cases hnil : (w.nodes dst).log = []
      · exact ha.log_of_empty hw hd hnil hmsg.1 hle
      · exact ha.log_of_last hw hd hnil ((hs halive hle hcov).resolve_left hnil)
    | _ => trivial
  | _ => trivial

/-- What an acknowledgement counts, its sender holds while it is in the same term. -/
theorem NodeRel.acked_take (h : NodeRel c a i n) (hI : Inv c.reading quorums a) {m : ℕ}
    (hack : a.acked i n.term m) : a.Led n.term ∧ m ≤ (a.trunk n.term).length ∧
      n.logical.take m = (a.trunk n.term).take m := by
  obtain ⟨hl, hlen⟩ := hI.acked_led _ _ _ hack
  refine ⟨hl, hlen, ?_⟩
  rcases hI.acked_kept _ _ _ hack m le_rfl with hp | ⟨u, j, C, h1, h2, -⟩
  · rw [h.view] at hp
    have htake := prefix_take_eq (k := m) hp (by rw [List.length_take]; omega)
    rw [List.take_take, min_self] at htake
    exact htake
  · -- no term lies between the term and itself
    rw [h.view] at h2
    change u < n.term+1 at h2
    omega

/-- A success acknowledgement is truthful when it is sent. -/
theorem acknowledgement_truthful (hb : c.bugs = NO_BUGS)
    (hr : Run c (SoundDeliveries c) (w' :: w :: past)) :
    ∀ p ∈ w'.sent.drop w.sent.length, ∀ m, p.msg = .appendReply m → m.success = true →
      (∃ v ∈ w' :: w :: past, ∃ j ∈ c.ids, (v.nodes j).role = .leader ∧
        (v.nodes j).term = m.term ∧ m.matchIndex ≤ (v.nodes j).lastLogIndex ∧
        (w'.nodes p.src).logical.take m.matchIndex = (v.nodes j).logical.take m.matchIndex) ∧
      ∀ j ∈ c.ids, (w'.nodes j).role = .leader → (w'.nodes j).term = m.term →
        m.matchIndex ≤ (w'.nodes j).lastLogIndex ∧
        (w'.nodes p.src).logical.take m.matchIndex = (w'.nodes j).logical.take m.matchIndex := by
  obtain ⟨a, ha⟩ := sound_explained hb hr
  intro p hp m hm hs
  have hfixed : p.src ∈ c.ids ∧ p.msg.SentBy (w'.nodes p.src) := by
    cases hr with
    | step hrun hall hstep =>
      exact new_replies (hrun.mono fun _ _ _ h => h.1) hall.1 hstep p hp
  obtain ⟨hi, hsent⟩ := hfixed
  have hw := ha.now w' rfl
  obtain ⟨hterm, hid⟩ := hsent m hm
  have hack := hw.sent p (List.mem_of_mem_drop hp)
  rw [MsgRel, hm] at hack
  have hack := hack hs
  rw [hid, (hw.nodes _ hi).id, hterm] at hack
  -- the acknowledged prefix is the trunk of the term, which its leader writes
  obtain ⟨hl, hlen, htake⟩ := (hw.nodes _ hi).acked_take ha.inv hack
  refine ⟨?_, ?_⟩
  · obtain ⟨v, hv, j, hj, hrole, ht, hlog⟩ := ha.leaders _ hl
    obtain ⟨b, -, -, hrel⟩ := ha.past v hv
    refine ⟨v, hv, j, hj, hrole, ht.trans hterm.symm, ?_, ?_⟩
    · rw [← RaftNode.length_logical (hrel.nodes j hj).ok.base, hlog]
      exact hlen
    · rw [htake, hlog]
  · intro j hj hrole ht
    have hlog := ((hw.nodes j hj).leader ha.inv hrole).2
    rw [ht, hterm] at hlog
    refine ⟨?_, ?_⟩
    · rw [← RaftNode.length_logical (hw.nodes j hj).ok.base, ← hlog]
      exact hlen
    · rw [htake, hlog]

def Message.reply : Message → Option AppendReply
  | .appendReply m => some m
  | _ => none

theorem reply_eq {msg : Message} {m : AppendReply} (h : msg.reply = some m) :
    msg = .appendReply m := by
  cases msg <;> cases h
  rfl

/-- The last event of a run has sent the reply `m`. -/
theorem exists_new_reply {k : ℕ} {m : AppendReply}
    (h : (ws.take 2).map (fun w => (w.sent.length, w.sent[k]?.map fun p => (p.src, p.msg.reply))) =
      [(k+1, some (i, some m)), (k, none)]) :
    ∃ w' w past, ws = w' :: w :: past ∧
      ∃ p ∈ w'.sent.drop w.sent.length, p.src = i ∧ p.msg = .appendReply m := by
  rcases ws with - | ⟨w', - | ⟨w, past⟩⟩
  · simp at h
  · simp at h
  simp only [List.take, List.map, List.cons.injEq, Prod.mk.injEq, and_true,
    Option.map_eq_some_iff] at h
  obtain ⟨⟨-, p, hp, hsrc, hm⟩, hlen, -⟩ := h
  refine ⟨w', w, past, rfl, p, ?_, hsrc, reply_eq hm⟩
  apply List.mem_of_getElem? (i := 0)
  rw [List.getElem?_drop, hlen]
  exact hp

def eager : Setup := { numNodes := 3, config := { snapshotThreshold := 2 } }

/-- Nodes 0 and 1 compact "a" and "b" in term 1, and node 0 alone has "c" after them. Node 1
leads term 2 with "d" there and, after a crash, term 3. Node 0 misses "d" twice over: the
second failure backs node 1 off below its base, so that it sends its image. -/
def tailKept : List Event :=
  [.electionTimeout 0 1, .deliver 0, .deliver 1, .deliver 2, .clientCommand 0 "a".toList,
    .clientCommand 0 "b".toList, .deliver 8, .deliver 9, .deliver 10, .heartbeat 0 3, .deliver 12,
    .deliver 13, .clientCommand 0 "c".toList, .electionTimeout 1 5, .deliver 19, .deliver 20,
    .clientCommand 1 "d".toList, .pause 1, .resume 1, .electionTimeout 1 9, .deliver 26,
    .deliver 27, .deliver 28, .deliver 30, .deliver 30, .deliver 32]

theorem covered_image_acknowledged_falsely : ¬ ∀ w' w past,
    Run eager FixedVoters (w' :: w :: past) →
    ∀ p ∈ w'.sent.drop w.sent.length, ∀ m, p.msg = .appendReply m → m.success = true →
      ∀ j ∈ eager.ids, (w'.nodes j).role = .leader → (w'.nodes j).term = m.term →
        (w'.nodes p.src).logical.take m.matchIndex = (w'.nodes j).logical.take m.matchIndex := by
  intro hall
  have hr : Run eager FixedVoters (Run.follow eager FixedVoters [World.init eager] tailKept) :=
    Run.follow_run .init _
  have hl : (Run.follow eager FixedVoters [World.init eager] tailKept).head?.map (fun w =>
      ((w.nodes 1).role, (w.nodes 1).term, (w.nodes 0).logical.take 3,
        (w.nodes 1).logical.take 3)) =
      some (.leader, 3, [⟨1, "a".toList⟩, ⟨1, "b".toList⟩, ⟨1, "c".toList⟩],
        [⟨1, "a".toList⟩, ⟨1, "b".toList⟩, ⟨2, "d".toList⟩]) := by decide +kernel
  have hsent : ((Run.follow eager FixedVoters [World.init eager] tailKept).take 2).map (fun w =>
      (w.sent.length, w.sent[33]?.map fun p => (p.src, p.msg.reply))) =
      [(34, some (0, some ⟨3, 0, true, 3⟩)), (33, none)] := by decide +kernel
  obtain ⟨w', w, past, hws, p, hp, hsrc, hm⟩ := exists_new_reply hsent
  rw [hws] at hr hl
  have hl := Option.some.inj hl
  simp only [Prod.mk.injEq] at hl
  obtain ⟨hrole, hterm, h0, h1⟩ := hl
  have htake := hall w' w past hr p hp _ hm rfl 1 (by decide) hrole hterm
  rw [hsrc, h0, h1] at htake
  exact absurd htake (by decide)

/-- Node 0 leads term 1, compacts "a" and "b" and sends its image to node 2 twice over. By the
second delivery node 2 has compacted both entries too and appended "c" after them. -/
def tailLed : List Event :=
  tailKept.take 9 ++ [.heartbeat 0 3, .deliver 13, .heartbeat 0 4, .deliver 14,
    .clientCommand 0 "c".toList, .deliver 18, .deliver 16]

theorem covered_image_acknowledged_truthfully : ∃ w' w past,
    Run eager (SoundDeliveries eager) (w' :: w :: past) ∧ (w.nodes 2).baseIndex = 2 ∧
    (w.nodes 2).log = [⟨1, "c".toList⟩] ∧
    (w'.nodes 2).logical.take 3 = (w'.nodes 0).logical.take 3 := by
  have hr : Run eager (SoundDeliveries eager) (Run.follow eager (SoundDeliveries eager)
    [World.init eager] tailLed) := Run.follow_run .init _
  have hl : (Run.follow eager (SoundDeliveries eager) [World.init eager] tailLed).head?.map
      (fun w => ((w.nodes 0).role, (w.nodes 0).term)) = some (.leader, 1) := by decide +kernel
  have hcovered : (Run.follow eager (SoundDeliveries eager) [World.init eager] tailLed)[1]?.map
      (fun w => ((w.nodes 2).baseIndex, (w.nodes 2).log)) = some (2, [⟨1, "c".toList⟩]) := by
    decide +kernel
  have hsent : ((Run.follow eager (SoundDeliveries eager) [World.init eager] tailLed).take 2).map
      (fun w => (w.sent.length, w.sent[20]?.map fun p => (p.src, p.msg.reply))) =
      [(21, some (2, some ⟨1, 2, true, 3⟩)), (20, none)] := by decide +kernel
  obtain ⟨w', w, past, hws, p, hp, hsrc, hm⟩ := exists_new_reply hsent
  rw [hws] at hr hl hcovered
  have hl := Option.some.inj hl
  have hcovered := Option.some.inj hcovered
  simp only [Prod.mk.injEq] at hl hcovered
  obtain ⟨hrole, hterm⟩ := hl
  have hack := (acknowledgement_truthful rfl hr p hp _ hm rfl).2 0 (by decide) hrole hterm
  rw [hsrc] at hack
  exact ⟨w', w, past, hr, hcovered.1, hcovered.2, hack.2⟩

end RaftVerified
