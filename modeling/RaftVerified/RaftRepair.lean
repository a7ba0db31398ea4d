import RaftVerified.RaftShaped

/-! Log repair of a leader and one follower in lock step: the leader backs off until the logs
meet, or sends its image, and in the end the follower has all of its log. -/
namespace RaftVerified
open Consensus

variable {A : List Entry} {peer : NodeId} {n m l f : RaftNode} {p k : ℕ} {x y z : Exec}
  {s t : Repair}

/-! ### Rounds -/

/-- The message that a callback has sent to a peer. -/
def messageTo (src dst : NodeId) (calls : List Call) : Option Message :=
  ((sends src calls).find? fun q => decide (q.dst = dst)).map Packet.msg

/-- A leader, one follower, and what is on its way to it already. -/
structure Repair where
  leader : RaftNode
  follower : RaftNode
  retry : Option Message := none

/-- The callback of a message, if there is one. -/
def receive (handle : Exec → Message → Except PyError Exec) (n : RaftNode) :
    Option Message → Except PyError Exec
  | some msg => handle { node := n } msg
  | none => .ok { node := n }

/-- The leader sends, unless its last callback has done so. -/
def sendWith (send : Exec → NodeId → Except PyError Exec) (s : Repair) : Except PyError Exec :=
  match s.retry with
  | some msg => .ok (Exec.send { node := s.leader } s.follower.id msg)
  | none => send { node := s.leader } s.follower.id

/-- The leader's message is handled by the follower, and the reply by the leader. -/
def roundWith (send : Exec → NodeId → Except PyError Exec)
    (handle : Exec → Message → Except PyError Exec) (s : Repair) : Except PyError Repair := do
  let leader := s.leader.id
  let follower := s.follower.id
  let x ← sendWith send s
  let y ← receive handle s.follower (messageTo leader follower x.calls)
  let z ← receive handle x.node (messageTo follower leader y.calls)
  .ok { leader := z.node, follower := y.node, retry := messageTo leader follower z.calls }

def roundsWith (send : Exec → NodeId → Except PyError Exec)
    (handle : Exec → Message → Except PyError Exec) : ℕ → Repair → Except PyError Repair
  | 0, s => .ok s
  | k+1, s => do
    let s ← roundWith send handle s
    roundsWith send handle k s

def Repair.round (s : Repair) : Except PyError Repair :=
  roundWith Exec.sendAppendEntries Exec.handle s

def Repair.rounds (k : ℕ) (s : Repair) : Except PyError Repair :=
  roundsWith Exec.sendAppendEntries Exec.handle k s

def Strict.round (s : Repair) : Except PyError Repair :=
  roundWith Strict.sendAppendEntries Strict.handle s

def Strict.rounds (k : ℕ) (s : Repair) : Except PyError Repair :=
  roundsWith Strict.sendAppendEntries Strict.handle k s

theorem messageTo_send (hx : ∀ i, sends i x.calls = []) (src dst : NodeId) (msg : Message) :
    messageTo src dst (x.send dst msg).calls = some msg := by
  have hsends : sends src (x.send dst msg).calls = [⟨src, dst, msg⟩] := by
    change sends src (x.calls ++ [_]) = _
    rw [sends_append, hx]
    rfl
  unfold messageTo
  rw [hsends, List.find?_singleton, if_pos (decide_eq_true rfl)]
  rfl

theorem messageTo_quiet (hx : ∀ i, sends i x.calls = []) (src dst : NodeId) :
    messageTo src dst x.calls = none := by
  unfold messageTo
  rw [hx]
  rfl

/-! ### What the leader sends -/

/-- A leader with the log `A` that knows nothing of its peer beyond `p`. No match index lies
between its commit index and the end of the log. -/
structure Leading (A : List Entry) (peer : NodeId) (p : ℕ) (n : RaftNode) : Prop where
  shaped : Shaped n
  alive : n.alive = true
  role : n.role = .leader
  logical : n.logical = A
  le : p ≤ A.length
  next : n.nextIndex.lookup peer = some (p+1)
  counted : ∀ v, (n.matchIndex.lookup v).getD 0 ≤ n.commitIndex ∨
    (n.matchIndex.lookup v).getD 0 = A.length

theorem Leading.last (h : Leading A peer p n) : n.lastLogIndex = A.length := by
  rw [← h.shaped.length, h.logical]

/-- What such a leader sends: the log from `p` on, or what it has in place of it. -/
inductive Offered (A : List Entry) (n : RaftNode) (p : ℕ) : Message → Prop
  | entries (msg : AppendEntries) : n.baseIndex ≤ p → Slice A n.term msg → msg.leader = n.id →
      msg.prevIndex = p → msg.entries = A.drop p → Offered A n p (.appendEntries msg)
  | image (msg : InstallSnapshot) : p < n.baseIndex → msg.term = n.term → msg.leader = n.id →
      msg.lastIndex = n.baseIndex → msg.folded = A.take n.baseIndex →
      (∀ k e, n.baseIndex = k+1 → A[k]? = some e → msg.lastTerm = e.term) →
      Offered A n p (.installSnapshot msg)

theorem sendAppendEntries_offers (h : Leading A peer p x.node) :
    Returns (Strict.sendAppendEntries x peer) (x.sendAppendEntries peer)
      fun y => ∃ msg, Offered A x.node p msg ∧ y = x.send peer msg := by
  have hcast : ((p+1 : ℕ) : ℤ)-1 = p := by omega
  unfold Strict.sendAppendEntries Exec.sendAppendEntries
  rw [h.next]
  dsimp only
  rw [hcast, Nat.add_sub_cancel]
  rcases Nat.lt_or_ge p x.node.baseIndex with hlt | hge
  · obtain ⟨s, hs, hindex, hterm, hfold⟩ := h.shaped.snapshot (by omega)
    have hsend : x.sendInstallSnapshot peer = x.send peer (.installSnapshot {
        term := x.node.term
        leader := x.node.id
        lastIndex := s.lastIndex
        lastTerm := s.lastTerm
        store := s.store
        sessions := s.sessions
        voters := s.voters
        folded := s.folded }) := by
      unfold Exec.sendInstallSnapshot
      rw [hs]
    rw [if_pos (by omega), if_pos hlt, hsend]
    refine Returns.ok ⟨_, .image _ hlt rfl rfl hindex ?_ fun k e hk he => ?_, rfl⟩
    · rw [← h.logical, h.shaped.take_base]
      exact hfold
    · exact hterm.trans (h.shaped.baseTerm k e hk (h.logical ▸ he))
  · obtain ⟨t, hs, ht, -⟩ := termAt_returns hge (h.last ▸ h.le)
    rw [if_neg (by omega), if_neg (by omega), hs, ht]
    have hsuffix : x.node.logSuffix (p+1) = A.drop p := by
      rw [RaftNode.logSuffix_eq h.shaped.base hge, h.logical]
    refine Returns.ok ⟨_, .entries _ hge ⟨rfl, h.le, fun k e hk he => ?_, ?_⟩ rfl rfl hsuffix, rfl⟩
    · change p = k+1 at hk
      rw [hk] at ht hge
      rw [h.shaped.termAt hge (h.logical ▸ he)] at ht
      exact (Except.ok.inj ht).symm
    · exact hsuffix ▸ List.prefix_rfl

/-! ### What the follower makes of it -/

/-- A follower whose log matches `A`, and is `A` as far as it is committed. -/
structure Following (A : List Entry) (n : RaftNode) : Prop where
  shaped : Shaped n
  alive : n.alive = true
  skip : n.bugs.skipLogConsistency = false
  matching : Matches n.logical A
  committed : AgreeTo n.logical A n.commitIndex

/-- The fields that a message of the own term leaves alone until it is looked at. -/
def RaftNode.stance (n : RaftNode) := (n.shape, n.id, n.alive, n.term, n.bugs)

theorem Following.congr (h : Following A n) (hm : m.stance = n.stance) : Following A m := by
  simp only [RaftNode.stance, Prod.mk.injEq] at hm
  obtain ⟨hshape, -, halive, -, hbugs⟩ := hm
  have hlog : m.logical = n.logical ∧ m.commitIndex = n.commitIndex := by
    simp only [RaftNode.shape, Prod.mk.injEq] at hshape
    obtain ⟨hfold, hlog, -, -, -, -, hcom⟩ := hshape
    exact ⟨by rw [RaftNode.logical, hfold, hlog, RaftNode.logical], hcom⟩
  refine ⟨h.shaped.congr hshape, halive.trans h.alive, hbugs ▸ h.skip, ?_, ?_⟩
  · rw [hlog.1]
    exact h.matching
  · rw [hlog.1, hlog.2]
    exact h.committed

/-- The callback at `n` has left the identity alone and sent this one answer. -/
structure Answers (n : RaftNode) (leader : NodeId) (success : Bool) (k : ℕ) (y : Exec) : Prop where
  id : y.node.id = n.id
  term : y.node.term = n.term
  reply : messageTo n.id leader y.calls =
    some (.appendReply { term := n.term, follower := n.id, success, matchIndex := k })

theorem replyAppend_answers {leader : NodeId} {success : Bool} (hid : x.node.id = n.id)
    (hterm : x.node.term = n.term) (hx : ∀ i, sends i x.calls = []) :
    Answers n leader success k (x.replyAppend leader success k) := by
  refine ⟨hid, hterm, (messageTo_send hx _ _ _).trans ?_⟩
  rw [hid, hterm]

theorem heed_stance {term : ℕ} (ht : term = x.node.term) (leader : NodeId) (b : Prop)
    [Decidable b] :
    ((if b then x.becomeFollower term else x).heed leader).node.stance = x.node.stance ∧
    ∀ i, sends i ((if b then x.becomeFollower term else x).heed leader).calls =
      sends i x.calls := by
  split
  · refine ⟨?_, fun i => ?_⟩
    · subst ht
      unfold Exec.becomeFollower
      dsimp only
      split <;> rfl
    · exact ((Exec.heed_alike _ _).sends i).trans ((Exec.becomeFollower_alike x term).sends i)
  · exact ⟨rfl, fun i => (Exec.heed_alike _ _).sends i⟩

/-- The check lets a message through exactly when the logs agree before it, and it never
refuses one that starts at the base. -/
theorem Following.passes {T : ℕ} {msg : AppendEntries} (h : Following A n) (hs : Slice A T msg)
    (hb : n.baseIndex ≤ msg.prevIndex) :
    Passes n msg ∧ AgreeTo n.logical A msg.prevIndex ∨
      ¬ Passes n msg ∧ n.baseIndex < msg.prevIndex := by
  have hcommit := h.shaped.base_le.trans h.shaped.applied_le
  by_cases hp : Passes n msg
  · refine Or.inl ⟨hp, ?_⟩
    rcases hp with h0 | ⟨hle, hterm⟩
    · rw [h0]
      exact ⟨Nat.zero_le _, Nat.zero_le _, rfl⟩
    · cases hk : msg.prevIndex with
      | zero => exact ⟨Nat.zero_le _, Nat.zero_le _, rfl⟩
      | succ k =>
        have hprev := hs.prev_le
        rw [← h.shaped.length] at hle
        have he := List.getElem?_eq_getElem (show k < n.logical.length by omega)
        have hf := List.getElem?_eq_getElem (show k < A.length by omega)
        rw [hk] at hterm hb
        rw [h.shaped.termAt hb he] at hterm
        exact h.matching k _ _ he hf ((Except.ok.inj hterm).trans (hs.prevTerm k _ hk hf))
  · refine Or.inr ⟨hp, lt_of_le_of_ne hb fun heq => hp ?_⟩
    cases hk : msg.prevIndex with
    | zero => exact Or.inl hk
    | succ k =>
      -- below the base the logs agree, so the term at the base is the one sent
      have hagree := h.committed.mono hcommit
      rw [heq, hk] at hagree
      have hf := List.getElem?_eq_getElem (show k < A.length from hagree.le')
      have he := (hagree.get (Nat.lt_succ_self k)).trans hf
      refine Or.inr ⟨?_, ?_⟩
      · rw [hk, ← h.shaped.length]
        exact hagree.le
      · rw [hk, h.shaped.termAt (by omega) he, hs.prevTerm k _ hk hf]

/-- The log starts with `A`. -/
structure Repaired (A : List Entry) (n : RaftNode) : Prop where
  base : n.folded.length = n.baseIndex
  agrees : AgreeTo n.logical A A.length

/-- All of `A` from an index on that the logs agree up to makes the log start with `A`. -/
theorem appendLoop_repairs {entries : List Entry} (h : Following A n) (hb : n.baseIndex ≤ p)
    (ha : AgreeTo n.logical A p) (he : entries = A.drop p) :
    ∃ m, n.appendLoop p entries = .ok m ∧ n.Edited m ∧ AgreeTo m.logical A A.length := by
  obtain ⟨m, hm, hed, hlog⟩ := RaftNode.appendLoop_overlay entries h.shaped.base hb ha.le
  have hmatch : Matched Entry.term (n.logical.drop p) entries := by
    intro k e f hk hf hterm
    rw [he] at hf
    rw [List.getElem?_drop] at hk hf
    have hsame := (h.matching _ e f hk hf hterm).get (Nat.lt_succ_self _)
    rw [hk, hf] at hsame
    exact Option.some.inj hsame
  have hlen : entries.length = A.length-p := by rw [he, List.length_drop]
  have htake : (n.logical.take p).length = p := by rw [List.length_take, min_eq_left ha.le]
  have hle := ha.le'
  refine ⟨m, hm, hed, ?_, le_rfl, ?_⟩
  · have hover : entries.length ≤ (overlay Entry.term (n.logical.drop p) entries).length :=
      length_le_overlay _ _
    rw [hlog, List.length_append, htake]
    omega
  · calc m.logical.take A.length
      _ = (n.logical.take p).take A.length ++
          (overlay Entry.term (n.logical.drop p) entries).take (A.length-p) := by
        rw [hlog, List.take_append, htake]
      -- the part before `p` is the leader's already, and all of the entries are there after it
      _ = A.take p ++ A.drop p := by
        rw [List.take_of_length_le (htake.trans_le hle), ha.take, ← hlen, overlay_take hmatch, he]
      _ = A.take A.length := by rw [List.take_append_drop, List.take_length]

/-- A message of the own term is looked at without having changed anything of the log. -/
theorem handle_looks (halive : n.alive = true) (msg : AppendEntries) (ht : msg.term = n.term) :
    ∃ z : Exec, Strict.handle ⟨n, []⟩ (.appendEntries msg) = Strict.appendFromLeader z msg ∧
      Exec.handle ⟨n, []⟩ (.appendEntries msg) = z.appendFromLeader msg ∧
      z.node.stance = n.stance ∧ ∀ i, sends i z.calls = [] := by
  have hlive : ¬ n.alive = false := by rw [halive]; decide
  have hcatch : Exec.catchUp ⟨n, []⟩ msg.term = ⟨n, []⟩ := if_neg (ht ▸ lt_irrefl _)
  have hstep := heed_stance (x := ⟨n, []⟩) ht msg.leader (n.role ≠ .follower)
  refine ⟨_, ?_, ?_, hstep.1, hstep.2⟩
  · unfold Strict.handle
    rw [if_neg hlive]
    dsimp only
    unfold Strict.onAppendEntries
    rw [hcatch]
    exact if_neg (ht ▸ lt_irrefl _)
  · unfold Exec.handle
    rw [if_neg hlive]
    dsimp only
    unfold Exec.onAppendEntries
    rw [hcatch]
    exact if_neg (ht ▸ lt_irrefl _)

/-- The follower refuses the leader's entries and stays as it is, or its log starts with the
leader's afterwards. -/
theorem appendFromLeader_repairs {msg : AppendEntries} (h : Following A x.node)
    (hid : x.node.id = n.id) (hterm : x.node.term = n.term) (hx : ∀ i, sends i x.calls = [])
    (hs : Slice A n.term msg) (hb : x.node.baseIndex ≤ msg.prevIndex)
    (he : msg.entries = A.drop msg.prevIndex) :
    Returns (Strict.appendFromLeader x msg) (x.appendFromLeader msg) fun y =>
      Answers n msg.leader false 0 y ∧ Following A y.node ∧
          y.node.baseIndex = x.node.baseIndex ∧ x.node.baseIndex < msg.prevIndex ∨
        Answers n msg.leader true A.length y ∧ Repaired A y.node := by
  unfold Strict.appendFromLeader Exec.appendFromLeader
  rw [Strict.inconsistent_eq hb]
  rcases h.passes hs hb with ⟨hp, ha⟩ | ⟨hp, hlt⟩
  · have hmatch : msg.prevIndex+msg.entries.length = A.length := by
      have hle := hs.prev_le
      rw [he, List.length_drop]
      omega
    obtain ⟨m, hm, hed, hagree⟩ := appendLoop_repairs h hb ha he
    obtain ⟨hfold, hbase, -⟩ := hed.base
    have hlast : A.length ≤ m.lastLogIndex := by
      rw [← RaftNode.length_logical (by rw [hfold, hbase, h.shaped.base])]
      exact hagree.le
    have hm' : Shaped m := h.shaped.edited hed (h.committed.le'.trans hlast)
    rw [inconsistent_of_passes hp]
    dsimp only [bind, Except.bind]
    rw [if_neg Bool.false_ne_true, if_neg Bool.false_ne_true, hmatch]
    refine Returns.bind (P := (· = m)) ⟨m, (Strict.appendLoop_eq _ hb).trans hm, hm, rfl⟩ ?_
    rintro m rfl
    refine (followCommit_shaped (x := x.set m) hm' hlast).bind fun y hy => Returns.ok (Or.inr ?_)
    obtain ⟨hbase', hseat, hlog, hsends⟩ := hy
    have hkept : y.node.id = x.node.id ∧ y.node.term = x.node.term := by
      obtain ⟨_, _, _, _, rfl⟩ := hed
      simp only [RaftNode.seat, Prod.mk.injEq] at hseat
      exact ⟨hseat.1, hseat.2.2.2.1⟩
    refine ⟨?_, hbase', ?_⟩
    · exact replyAppend_answers (hkept.1.trans hid) (hkept.2.trans hterm)
        fun i => (hsends i).trans (hx i)
    · change AgreeTo y.node.logical A A.length
      rw [hlog]
      exact hagree
  · rw [inconsistent_of_not_passes h.skip h.shaped.base hp]
    exact Returns.ok (Or.inl ⟨replyAppend_answers hid hterm hx, h, rfl, hlt⟩)

theorem handle_entries {msg : AppendEntries} (h : Following A n) (hs : Slice A n.term msg)
    (hb : n.baseIndex ≤ msg.prevIndex) (he : msg.entries = A.drop msg.prevIndex) :
    Returns (Strict.handle ⟨n, []⟩ (.appendEntries msg)) (Exec.handle ⟨n, []⟩ (.appendEntries msg))
      fun y => Answers n msg.leader false 0 y ∧ Following A y.node ∧
          y.node.baseIndex = n.baseIndex ∧ n.baseIndex < msg.prevIndex ∨
        Answers n msg.leader true A.length y ∧ Repaired A y.node := by
  obtain ⟨z, hstrict, hplain, hstance, hsends⟩ := handle_looks h.alive msg hs.term
  have hz := h.congr hstance
  simp only [RaftNode.stance, RaftNode.shape, Prod.mk.injEq] at hstance
  obtain ⟨⟨-, -, hbase, -⟩, hid, -, hterm, -⟩ := hstance
  rw [hstrict, hplain, ← hbase]
  exact appendFromLeader_repairs hz hid hterm hsends hs (hbase ▸ hb) he

/-- What a follower needs of an image of the leader to install it. -/
structure ImageFits (A : List Entry) (msg : InstallSnapshot) : Prop where
  le : msg.lastIndex ≤ A.length
  folded : msg.folded = A.take msg.lastIndex
  lastTerm : ∀ k e, msg.lastIndex = k+1 → A[k]? = some e → msg.lastTerm = e.term

/-- The tail is kept only if the log agrees with the leader's up to the image. -/
theorem keepsTail_agrees {msg : InstallSnapshot} (h : Following A n) (hf : ImageFits A msg)
    (hb : n.baseIndex < msg.lastIndex) :
    ∃ keep, Exec.keepsTail n msg = .ok keep ∧
      (keep = true → AgreeTo n.logical A msg.lastIndex) := by
  unfold Exec.keepsTail
  split
  next hle =>
    obtain ⟨k, hk⟩ : ∃ k, msg.lastIndex = k+1 := ⟨msg.lastIndex-1, by omega⟩
    have hA := hf.le
    rw [← h.shaped.length] at hle
    have he := List.getElem?_eq_getElem (show k < n.logical.length by omega)
    have hf' := List.getElem?_eq_getElem (show k < A.length by omega)
    rw [hk, h.shaped.termAt (by omega) he]
    refine ⟨_, rfl, fun hkeep => h.matching k _ _ he hf' ?_⟩
    rw [of_decide_eq_true hkeep]
    exact hf.lastTerm k _ hk hf'
  next => exact ⟨false, rfl, nofun⟩

/-- After an image the follower has the base of the leader, and what it has kept above it still
matches. -/
theorem installImage_follows {msg : InstallSnapshot} {keep : Bool} (h : Following A n)
    (hf : ImageFits A msg) (hb : n.baseIndex < msg.lastIndex)
    (hkeep : keep = true → AgreeTo n.logical A msg.lastIndex) :
    Following A (n.restoreImage msg keep).rebuildConfig := by
  have hfold : msg.folded.length = msg.lastIndex := by
    rw [hf.folded, List.length_take, min_eq_left hf.le]
  have hlogical : (n.restoreImage msg keep).rebuildConfig.logical =
      if keep then n.logical else A.take msg.lastIndex := by
    change msg.folded ++ (if keep then n.log.drop (msg.lastIndex-n.baseIndex) else []) = _
    cases keep with
    | true =>
      -- the image stands for what the log starts with
      rw [if_pos rfl, if_pos rfl, hf.folded, ← (hkeep rfl).take,
        ← RaftNode.logical_drop h.shaped.base hb.le, List.take_append_drop]
    | false => rw [if_neg Bool.false_ne_true, if_neg Bool.false_ne_true, List.append_nil, hf.folded]
  have hagree : AgreeTo (n.restoreImage msg keep).rebuildConfig.logical A msg.lastIndex := by
    rw [hlogical]
    split
    next hk => exact hkeep hk
    next => exact agreeTo_take le_rfl hf.le
  refine ⟨⟨hfold, fun k e hk he => ?_, fun _ => ⟨_, rfl, rfl, rfl, rfl⟩, le_rfl, le_rfl, ?_⟩,
    h.alive, h.skip, ?_, hagree⟩
  · change msg.lastIndex = k+1 at hk
    refine hf.lastTerm k e hk ?_
    rw [← hagree.get (hk ▸ Nat.lt_succ_self k), he]
  · exact Nat.le_add_right _ _
  · rw [hlogical]
    split
    · exact h.matching
    · exact matches_take hf.le

theorem handle_image {msg : InstallSnapshot} (h : Following A n) (hf : ImageFits A msg)
    (ht : msg.term = n.term) (hb : n.baseIndex < msg.lastIndex) :
    Returns (Strict.handle ⟨n, []⟩ (.installSnapshot msg))
      (Exec.handle ⟨n, []⟩ (.installSnapshot msg)) fun y =>
        Answers n msg.leader true msg.lastIndex y ∧ Following A y.node ∧
          y.node.baseIndex = msg.lastIndex := by
  have hlive : ¬ n.alive = false := by rw [h.alive]; decide
  obtain ⟨hstance, hsends⟩ := heed_stance (x := ⟨n, []⟩) ht msg.leader
    (n.term < msg.term ∨ n.role ≠ .follower)
  unfold Strict.handle Exec.handle
  rw [if_neg hlive, if_neg hlive]
  dsimp only
  unfold Strict.onInstallSnapshot Exec.onInstallSnapshot
  dsimp only
  rw [if_neg ht.ge.not_gt, if_neg ht.ge.not_gt]
  generalize ((if n.term < msg.term ∨ n.role ≠ .follower then
    Exec.becomeFollower ⟨n, []⟩ msg.term else ⟨n, []⟩).heed msg.leader) = z at hstance hsends ⊢
  have hz := h.congr hstance
  simp only [RaftNode.stance, RaftNode.shape, Prod.mk.injEq] at hstance
  obtain ⟨⟨-, -, hbase, -⟩, hid, -, hterm, -⟩ := hstance
  rw [← hbase] at hb
  obtain ⟨keep, hkeep, hagree⟩ := keepsTail_agrees hz hf hb
  unfold Strict.installFromLeader Exec.installFromLeader
  rw [if_neg hb.not_ge, if_neg hb.not_ge, Strict.keepsTail_eq hb.le, hkeep]
  refine Returns.ok ⟨replyAppend_answers hid hterm fun i => ?_, ?_, rfl⟩
  · exact (Exec.sends_record _ i _).trans (hsends i)
  · exact installImage_follows hz hf hb hagree

/-! ### What the leader makes of the answer -/

theorem Leading.ack (h : Leading A peer p n) (hk : k ≤ n.commitIndex ∨ k = A.length) (hp : p ≤ k)
    (hle : k ≤ A.length) {reply : AppendReply} (hr : reply.follower = peer)
    (hm : reply.matchIndex = k) : Leading A peer k (n.ackAppend reply) ∧
      (k = A.length → (n.ackAppend reply).matchIndex.lookup peer = some A.length) := by
  have hcommit := h.shaped.commit_le
  rw [h.last] at hcommit
  have hold := h.counted peer
  have hmatch : (n.ackAppend reply).matchIndex.lookup peer =
      some (max ((n.matchIndex.lookup peer).getD 0) k) := by
    change (n.matchIndex.insert reply.follower _).lookup peer = _
    rw [hr, hm, Dict.lookup_insert_eq, if_pos rfl]
  refine ⟨⟨h.shaped.congr rfl, h.alive, h.role, h.logical, hle, ?_, fun v => ?_⟩, fun hend => ?_⟩
  · change (n.nextIndex.insert reply.follower _).lookup peer = _
    rw [hr, hm, Dict.lookup_insert_eq, if_pos rfl, h.next, Option.getD_some,
      max_eq_right (Nat.succ_le_succ hp)]
  · rcases eq_or_ne v peer with rfl | hne
    · rw [hmatch, Option.getD_some]
      change _ ≤ n.commitIndex ∨ _
      omega
    · have hother : (n.ackAppend reply).matchIndex.lookup v = n.matchIndex.lookup v := by
        change (n.matchIndex.insert reply.follower _).lookup v = _
        rw [hr, Dict.lookup_insert_eq, if_neg hne]
      rw [hother]
      exact h.counted v
  · rw [hmatch, hend, max_eq_right (by omega)]

theorem Leading.commits {index : ℕ} (h : Leading A peer p x.node) (hy : Commits index x y) :
    Leading A peer p y.node := by
  have hseat := hy.seat
  simp only [RaftNode.seat, Prod.mk.injEq] at hseat
  obtain ⟨-, halive, hrole, -, -, -, hnext, hmatch⟩ := hseat
  refine ⟨hy.shaped, halive.trans h.alive, hrole.trans h.role, hy.logical.trans h.logical, h.le,
    ?_, fun v => ?_⟩
  · rw [hnext, h.next]
  · rw [hmatch]
    exact (h.counted v).imp_left fun hle => hle.trans hy.commit

/-- A leader gets to the answers of its term. -/
theorem Leading.handle_reply {reply : AppendReply} (h : Leading A peer p n)
    (ht : reply.term = n.term) :
    Strict.handle ⟨n, []⟩ (.appendReply reply) =
      (if reply.success then Strict.advanceCommit ⟨n.ackAppend reply, []⟩
        else Strict.sendAppendEntries ⟨n.backOff reply, []⟩ reply.follower) ∧
    Exec.handle ⟨n, []⟩ (.appendReply reply) =
      (if reply.success then Exec.advanceCommit ⟨n.ackAppend reply, []⟩
        else Exec.sendAppendEntries ⟨n.backOff reply, []⟩ reply.follower) := by
  have hlive : ¬ n.alive = false := by rw [h.alive]; decide
  have hrole : ¬ (n.role ≠ .leader ∨ reply.term < n.term) := by
    rw [h.role, ht]
    exact fun hor => hor.elim (fun hne => hne rfl) (lt_irrefl _)
  unfold Strict.handle Exec.handle
  rw [if_neg hlive, if_neg hlive]
  dsimp only
  unfold Strict.onAppendReply Exec.onAppendReply
  dsimp only
  rw [if_neg ht.le.not_gt, if_neg ht.le.not_gt, if_neg hrole, if_neg hrole]
  exact ⟨rfl, rfl⟩

theorem handle_success {reply : AppendReply} (h : Leading A peer p n)
    (hk : k ≤ n.commitIndex ∨ k = A.length) (hp : p ≤ k) (hle : k ≤ A.length)
    (hr : reply = { term := n.term, follower := peer, success := true, matchIndex := k }) :
    Returns (Strict.handle ⟨n, []⟩ (.appendReply reply)) (Exec.handle ⟨n, []⟩ (.appendReply reply))
      fun z => Leading A peer k z.node ∧ (z.node.id = n.id ∧ z.node.term = n.term) ∧
        (z.node.baseIndex = n.baseIndex ∨ z.node.baseIndex = A.length) ∧
        (∀ i, sends i z.calls = []) ∧
        (k = A.length → z.node.matchIndex.lookup peer = some A.length) := by
  obtain ⟨hstrict, hplain⟩ := h.handle_reply (congrArg AppendReply.term hr)
  obtain ⟨hack, hend⟩ := h.ack hk hp hle (congrArg AppendReply.follower hr)
    (congrArg AppendReply.matchIndex hr)
  subst hr
  rw [hstrict, hplain, if_pos rfl, if_pos rfl]
  refine (advanceCommitFrom_shaped (x := ⟨_, []⟩) _ hack.shaped le_rfl (fun v => ?_)
    (Or.inl rfl)).mono fun z hz => ?_
  · exact (hack.counted v).imp_right fun heq => hack.last.trans_le heq.ge
  · have hseat := hz.seat
    simp only [RaftNode.seat, Prod.mk.injEq] at hseat
    obtain ⟨hid, -, -, hterm, -, -, -, hmatch⟩ := hseat
    refine ⟨hack.commits hz, ⟨hid, hterm⟩, hz.base.imp_right fun hb => hb.trans hack.last,
      hz.sends, fun heq => ?_⟩
    rw [hmatch]
    exact hend heq

theorem handle_failure {reply : AppendReply} (h : Leading A peer (p+1) n)
    (hr : reply = { term := n.term, follower := peer, success := false, matchIndex := 0 }) :
    Returns (Strict.handle ⟨n, []⟩ (.appendReply reply)) (Exec.handle ⟨n, []⟩ (.appendReply reply))
      fun z => Leading A peer p z.node ∧ (z.node.id = n.id ∧ z.node.term = n.term) ∧
        z.node.baseIndex = n.baseIndex ∧
        ∃ msg, Offered A z.node p msg ∧ messageTo n.id peer z.calls = some msg := by
  obtain ⟨hstrict, hplain⟩ := h.handle_reply (congrArg AppendReply.term hr)
  have hback : Leading A peer p (n.backOff reply) := by
    refine ⟨h.shaped.congr rfl, h.alive, h.role, h.logical, Nat.le_of_succ_le h.le, ?_, h.counted⟩
    change (n.nextIndex.insert reply.follower (max 1 ((n.nextIndex.lookup reply.follower).getD 1-1))
      ).lookup peer = _
    rw [hr, Dict.lookup_insert_eq, if_pos rfl, h.next, Option.getD_some, Nat.add_sub_cancel,
      max_eq_right (Nat.succ_le_succ (Nat.zero_le p))]
  subst hr
  rw [hstrict, hplain, if_neg Bool.false_ne_true, if_neg Bool.false_ne_true]
  refine (sendAppendEntries_offers (x := ⟨_, []⟩) hback).mono ?_
  rintro z ⟨msg, hmsg, rfl⟩
  exact ⟨hback, ⟨rfl, rfl⟩, rfl, msg, hmsg, messageTo_send (fun _ => rfl) _ _ _⟩

/-! ### One round -/

/-- A leader with the log `A` and a follower in its term, on the way to each other: the leader
knows nothing of the follower beyond `p`, and the follower's base is not above it. -/
structure Repairing (A : List Entry) (peer : NodeId) (p : ℕ) (s : Repair) : Prop where
  leader : Leading A peer p s.leader
  follower : Following A s.follower
  id : s.follower.id = peer
  term : s.follower.term = s.leader.term
  base_le : s.follower.baseIndex ≤ p
  retry : ∀ msg, s.retry = some msg → Offered A s.leader p msg

/-- The leader knows that the follower has all of `A`. -/
structure Converged (A : List Entry) (peer : NodeId) (s : Repair) : Prop where
  known : s.leader.matchIndex.lookup peer = some A.length
  leader : s.leader.logical = A
  follower : Repaired A s.follower

/-- Once the message is known a round is what both sides make of it. -/
theorem Repairing.round_of {P : Repair → Prop} (h : Repairing A peer p s)
    (hround : ∀ msg, Offered A s.leader p msg →
      Returns (Strict.handle ⟨s.follower, []⟩ msg) (Exec.handle ⟨s.follower, []⟩ msg) fun y =>
        ∃ reply, messageTo peer s.leader.id y.calls = some reply ∧
          Returns (Strict.handle ⟨s.leader, []⟩ reply) (Exec.handle ⟨s.leader, []⟩ reply)
            fun z => P ⟨z.node, y.node, messageTo s.leader.id peer z.calls⟩) :
    Returns (Strict.round s) s.round P := by
  have hsend : Returns (sendWith Strict.sendAppendEntries s) (sendWith Exec.sendAppendEntries s)
      fun x => ∃ msg, Offered A s.leader p msg ∧ x = Exec.send ⟨s.leader, []⟩ peer msg := by
    unfold sendWith
    rw [h.id]
    cases hretry : s.retry with
    | some msg => exact Returns.ok ⟨msg, h.retry msg hretry, rfl⟩
    | none => exact sendAppendEntries_offers (x := ⟨s.leader, []⟩) h.leader
  refine hsend.bind ?_
  rintro _ ⟨msg, hmsg, rfl⟩
  rw [h.id, messageTo_send (fun _ => rfl)]
  refine (hround msg hmsg).bind fun y hy => ?_
  obtain ⟨reply, hreply, hz⟩ := hy
  rw [hreply]
  exact hz.bind fun z hz => Returns.ok hz

theorem Repairing.answered {success : Bool} (h : Repairing A peer p s)
    (hy : Answers s.follower s.leader.id success k y) :
    messageTo peer s.leader.id y.calls = some (.appendReply {
      term := s.leader.term, follower := peer, success, matchIndex := k }) := by
  have hreply := hy.reply
  rwa [h.id, h.term] at hreply

/-- With entries the leader has converged at once or backs off by one; at the follower's base it
never has to. -/
theorem Repairing.round_entries (h : Repairing A peer p s) (hb : s.leader.baseIndex ≤ p) :
    Returns (Strict.round s) s.round fun t => Converged A peer t ∨
      s.follower.baseIndex < p ∧ ∃ q, p = q+1 ∧ Repairing A peer q t ∧
        t.leader.baseIndex = s.leader.baseIndex := by
  refine h.round_of fun msg hmsg => ?_
  cases hmsg with
  | image _ hlt => exact absurd hlt hb.not_gt
  | entries msg _ hs hleader hprev hentries =>
    have hslice : Slice A s.follower.term msg := h.term ▸ hs
    refine (handle_entries h.follower hslice (hprev ▸ h.base_le) (hprev ▸ hentries)).mono ?_
    rw [hleader, hprev]
    rintro y (⟨hans, hfollower, hbase, hlt⟩ | ⟨hans, hrepaired⟩)
    · obtain ⟨q, rfl⟩ : ∃ q, p = q+1 := ⟨p-1, by omega⟩
      refine ⟨_, h.answered hans, (handle_failure h.leader rfl).mono fun z hz => ?_⟩
      obtain ⟨hlead, ⟨-, hterm⟩, hzb, next, hnext, hsent⟩ := hz
      refine Or.inr ⟨hlt, q, rfl, ⟨hlead, hfollower, hans.id.trans h.id, ?_, ?_, ?_⟩, hzb⟩
      · rw [hans.term, h.term, hterm]
      · exact hbase.trans_le (Nat.le_of_lt_succ hlt)
      -- the retry is the next message
      · intro msg' hmsg'
        obtain rfl := Option.some.inj (hsent.symm.trans hmsg')
        exact hnext
    · refine ⟨_, h.answered hans, ?_⟩
      refine (handle_success h.leader (Or.inr rfl) h.leader.le le_rfl rfl).mono fun z hz => ?_
      obtain ⟨hlead, -, -, -, hend⟩ := hz
      exact Or.inl ⟨hend rfl, hlead.logical, hrepaired⟩

/-- With its image the leader brings the follower to its base, and may compact to the end of its
log at the answer. -/
theorem Repairing.round_image (h : Repairing A peer p s) (hb : p < s.leader.baseIndex) :
    Returns (Strict.round s) s.round fun t =>
      (s.leader.baseIndex = A.length → Converged A peer t) ∧
      Repairing A peer s.leader.baseIndex t ∧ t.follower.baseIndex = s.leader.baseIndex ∧
      (t.leader.baseIndex = s.leader.baseIndex ∨ t.leader.baseIndex = A.length) := by
  have hshape := h.leader.shaped
  have hcommit := hshape.base_le.trans hshape.applied_le
  have hle : s.leader.baseIndex ≤ A.length := by
    rw [← h.leader.last]
    exact hcommit.trans hshape.commit_le
  refine h.round_of fun msg hmsg => ?_
  cases hmsg with
  | entries _ hge => exact absurd hge hb.not_ge
  | image msg _ hterm hleader hindex hfold hlast =>
    have hfits : ImageFits A msg := ⟨hindex ▸ hle, hindex ▸ hfold, hindex ▸ hlast⟩
    have habove : s.follower.baseIndex < msg.lastIndex := by
      rw [hindex]
      exact h.base_le.trans_lt hb
    refine (handle_image h.follower hfits (hterm.trans h.term.symm) habove).mono ?_
    rw [hleader, hindex]
    rintro y ⟨hans, hfollower, hbase⟩
    refine ⟨_, h.answered hans, ?_⟩
    refine (handle_success h.leader (Or.inl hcommit) hb.le hle rfl).mono fun z hz => ?_
    obtain ⟨hlead, ⟨-, hzt⟩, hzb, hquiet, hend⟩ := hz
    refine ⟨fun heq => ⟨hend heq, hlead.logical, hfollower.shaped.base, ?_⟩,
      ⟨hlead, hfollower, hans.id.trans h.id, ?_, hbase.le, ?_⟩, hbase, hzb⟩
    · have hagree := hfollower.committed.mono
        (hfollower.shaped.base_le.trans hfollower.shaped.applied_le)
      rwa [hbase, heq] at hagree
    · rw [hans.term, h.term, hzt]
    · intro msg' hmsg'
      rw [messageTo_quiet hquiet] at hmsg'
      cases hmsg'

/-- Once the follower's base is what the leader knows of it, one round is left. -/
theorem Repairing.round_last (h : Repairing A peer p s) (hb : s.follower.baseIndex = p)
    (hl : s.leader.baseIndex ≤ p ∨ s.leader.baseIndex = A.length) :
    Returns (Strict.round s) s.round (Converged A peer) := by
  rcases Nat.lt_or_ge p s.leader.baseIndex with hlt | hge
  · have hend := hl.resolve_left hlt.not_ge
    exact (h.round_image hlt).mono fun t ht => ht.1 hend
  · refine (h.round_entries hge).mono fun t ht => ht.resolve_right ?_
    rintro ⟨hbelow, -⟩
    exact absurd hbelow hb.ge.not_gt

/-! ### Convergence -/

theorem rounds_step {P : Repair → Prop} {Q : Repair → Prop}
    (h : Returns (Strict.round s) s.round P)
    (hnext : ∀ t, P t → ∃ j ≤ k, Returns (Strict.rounds j t) (t.rounds j) Q) :
    ∃ j ≤ k+1, Returns (Strict.rounds j s) (s.rounds j) Q := by
  obtain ⟨t, hs, ht, hP⟩ := h
  obtain ⟨j, hj, r, hrs, hrt, hQ⟩ := hnext t hP
  refine ⟨j+1, Nat.succ_le_succ hj, r, ?_, ?_, hQ⟩
  · exact bind_ok.mpr ⟨t, hs, hrs⟩
  · exact bind_ok.mpr ⟨t, ht, hrt⟩

theorem Repairing.converges (h : Repairing A peer p s) :
    ∃ j ≤ p+1-s.leader.baseIndex+2,
      Returns (Strict.rounds j s) (s.rounds j) (Converged A peer) := by
  have hdone {t : Repair} (ht : Converged A peer t) (k : ℕ) :
      ∃ j ≤ k, Returns (Strict.rounds j t) (t.rounds j) (Converged A peer) :=
    ⟨0, Nat.zero_le k, Returns.ok ht⟩
  -- `p` goes down until the logs agree or it falls below the leader's base
  induction p using Nat.strong_induction_on generalizing s with
  | _ p ih =>
    rcases Nat.lt_or_ge p s.leader.baseIndex with hlt | hge
    -- the image, and one round more
    · obtain ⟨j, hj, hrounds⟩ := rounds_step (k := 1) (h.round_image hlt) fun t ht =>
        rounds_step (k := 0) (ht.2.1.round_last ht.2.2.1 (ht.2.2.2.imp_left Eq.le))
          fun t ht => hdone ht 0
      exact ⟨j, by omega, hrounds⟩
    -- the entries from one index further down
    · obtain ⟨j, hj, hrounds⟩ := rounds_step (k := p-s.leader.baseIndex+2)
        (h.round_entries hge) fun t ht => by
          rcases ht with ht | ⟨-, q, rfl, ht, hbase⟩
          · exact hdone ht _
          · obtain ⟨j, hj, hrounds⟩ := ih q (Nat.lt_succ_self q) ht
            rw [hbase] at hj
            exact ⟨j, hj, hrounds⟩
      exact ⟨j, by omega, hrounds⟩

/-- A leader as `become_leader` leaves it. -/
structure Fresh (n : RaftNode) : Prop where
  role : n.role = .leader
  nextIndex : n.nextIndex = .fromKeys n.peers (n.lastLogIndex+1)
  matchIndex : n.matchIndex = (Dict.fromKeys n.peers 0).insert n.id n.lastLogIndex

theorem lead_fresh (n : RaftNode) : Fresh n.lead := ⟨rfl, rfl, rfl⟩

/-- A leader that has just been elected and a follower in its term. Their logs match, and agree as
far as the follower has committed or compacted. -/
structure Diverged (l f : RaftNode) : Prop where
  fresh : Fresh l
  peer : f.id ∈ l.peers
  term : f.term = l.term
  alive : l.alive = true ∧ f.alive = true
  skip : f.bugs.skipLogConsistency = false
  leader : Shaped l
  follower : Shaped f
  matching : Matches f.logical l.logical
  agrees : AgreeTo f.logical l.logical (max f.baseIndex f.commitIndex)

theorem Diverged.leading (h : Diverged l f) : Leading l.logical f.id l.logical.length l := by
  refine ⟨h.leader, h.alive.1, h.fresh.role, rfl, le_rfl, ?_, fun v => ?_⟩
  · rw [h.fresh.nextIndex, Dict.lookup_fromKeys, if_pos h.peer, h.leader.length]
  · rw [h.fresh.matchIndex, Dict.lookup_insert_eq, h.leader.length]
    split
    · exact Or.inr rfl
    · rw [Dict.lookup_fromKeys]
      split <;> exact Or.inl (Nat.zero_le _)

theorem Diverged.repairing (h : Diverged l f) :
    Repairing l.logical f.id l.logical.length { leader := l, follower := f } where
  leader := h.leading
  follower := ⟨h.follower, h.alive.2, h.skip, h.matching, h.agrees.mono (le_max_right _ _)⟩
  id := rfl
  term := h.term
  base_le := (le_max_left _ _).trans h.agrees.le'
  retry := nofun

/-- Within as many rounds as the leader has live entries, and three more, it has recorded that the
follower has its whole log; no index on the way is out of range, and whatever the follower then
holds live up to the end of the leader's log is the leader's. -/
theorem repair_converges (h : Diverged l f) :
    ∃ k ≤ l.lastLogIndex-l.baseIndex+3, ∃ s,
      Strict.rounds k { leader := l, follower := f } = .ok s ∧
      Repair.rounds k { leader := l, follower := f } = .ok s ∧
      s.leader.matchIndex.lookup f.id = some l.lastLogIndex ∧ s.leader.logical = l.logical ∧
      ∀ j, s.follower.baseIndex < j → j ≤ l.lastLogIndex →
        ∃ e, s.follower.entryAt j = .ok e ∧ l.logical[j-1]? = some e := by
  have hlast := h.leader.length
  obtain ⟨k, hk, s, hs, ht, hknown, hleader, hfollower⟩ := h.repairing.converges
  have hbase : l.baseIndex ≤ l.lastLogIndex := Nat.le_add_right _ _
  rw [hlast] at hk hknown
  dsimp only at hk
  refine ⟨k, by omega, s, hs, ht, hknown, hleader, fun j hj hle => ?_⟩
  obtain ⟨i, rfl⟩ : ∃ i, j = i+1 := ⟨j-1, by omega⟩
  have he := List.getElem?_eq_getElem (show i < l.logical.length by omega)
  refine ⟨_, ?_, he⟩
  refine (RaftNode.entryAt_eq hfollower.base (Nat.le_of_lt_succ hj)).mpr ?_
  rw [hfollower.agrees.get (by omega), he]

/-- A leader of term 3 that has compacted two of its three entries, and a follower that still has
an entry of another leader in the place of the second. -/
def drifted : RaftNode × RaftNode :=
  (({ RaftNode.new 0 [1, 2] {} NO_BUGS none with
      term := 3
      log := [⟨2, "c".toList⟩]
      baseIndex := 2
      baseTerm := 2
      folded := [⟨1, "a".toList⟩, ⟨2, "b".toList⟩]
      snapshot := some {
        lastIndex := 2, lastTerm := 2, store := ∅, sessions := ∅, voters := [0, 1, 2]
        folded := [⟨1, "a".toList⟩, ⟨2, "b".toList⟩] }
      commitIndex := 2
      lastApplied := 2 } : RaftNode).lead,
    { RaftNode.new 1 [0, 2] {} NO_BUGS none with
      term := 3
      log := [⟨1, "a".toList⟩, ⟨1, "x".toList⟩]
      commitIndex := 1
      lastApplied := 1 })

theorem drifted_diverged : Diverged drifted.1 drifted.2 where
  fresh := lead_fresh _
  peer := by decide
  term := rfl
  alive := ⟨rfl, rfl⟩
  skip := rfl
  leader := by
    refine ⟨rfl, fun k e hk he => ?_, fun _ => ⟨_, rfl, rfl, rfl, rfl⟩, le_rfl, le_rfl, by decide⟩
    obtain rfl : 1 = k := Nat.succ.inj hk
    obtain rfl := Option.some.inj he
    rfl
  follower := ⟨rfl, nofun, fun h => absurd h (lt_irrefl 0), by decide, le_rfl, by decide⟩
  matching := by
    intro k e f hk hl hterm
    match k with
    | 0 => exact ⟨by decide, by decide, by decide +kernel⟩
    | 1 =>
      obtain rfl := Option.some.inj hk
      obtain rfl := Option.some.inj hl
      cases hterm
  agrees := ⟨by decide, by decide, by decide +kernel⟩

theorem drifted_converges : ∃ k ≤ 4, ∃ s,
    Strict.rounds k { leader := drifted.1, follower := drifted.2 } = .ok s ∧
    Repair.rounds k { leader := drifted.1, follower := drifted.2 } = .ok s ∧
    s.leader.matchIndex.lookup 1 = some 3 ∧ s.leader.logical = drifted.1.logical ∧
    ∀ j, s.follower.baseIndex < j → j ≤ 3 →
      ∃ e, s.follower.entryAt j = .ok e ∧ drifted.1.logical[j-1]? = some e :=
  repair_converges drifted_diverged

-- it takes all of the rounds: two refusals, the image, and the entry above it
example : (Repair.rounds 3 { leader := drifted.1, follower := drifted.2 }).toOption.map
    (fun s => (s.leader.matchIndex.lookup 1, s.follower.baseIndex)) = some (some 2, 2) := by
  decide +kernel

end RaftVerified
