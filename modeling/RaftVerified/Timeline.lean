import RaftVerified.RaftTypes

/-! The records of a cluster and the lanes of the timeline (`timeline.py`). Coordinates and colors
are left out: a lane is the segments that its bars are drawn from. -/
namespace RaftVerified

def Role.text : Role → Str
  | .follower => "follower".toList
  | .candidate => "candidate".toList
  | .leader => "leader".toList

theorem Role.text_injective : Function.Injective Role.text := by
  intro r r' h
  cases r <;> cases r' <;> first | rfl | exact absurd h (by decide)

/-! ### Records -/

/-- `n{i}`. -/
def nodeText (i : NodeId) : Str := 'n' :: intStr i

/-- `|{key}={value}`. -/
def fieldText (key : Str) (value : ℕ) : Str := '|' :: key ++ '=' :: natStr value

namespace TraceEvent

def kind : TraceEvent → Str
  | timer .. => "timer".toList
  | role .. => "role".toList
  | election .. => "election".toList
  | dedup .. => "dedup".toList
  | append .. => "append".toList
  | cfgchange .. => "cfgchange".toList
  | read .. => "read".toList
  | readserved .. => "readserved".toList
  | vote .. => "vote".toList
  | commit .. => "commit".toList
  | apply .. => "apply".toList
  | installsnap .. => "installsnap".toList
  | snapshot .. => "snapshot".toList

/-- What follows the name of the node in the text of an event. -/
def rest : TraceEvent → Str
  | timer _ term => "|election-timeout".toList ++ fieldText "term".toList term
  | role _ r term => '|' :: r.text ++ fieldText "term".toList term
  | election _ term => fieldText "term".toList term
  | dedup _ command => '|' :: command
  | append _ index term command =>
    fieldText "index".toList index ++ fieldText "term".toList term ++ '|' :: command
  | cfgchange _ index term voters =>
    fieldText "index".toList index ++ fieldText "term".toList term ++
      '|' :: [','].intercalate (voters.map intStr)
  | read _ readId index => fieldText "id".toList readId ++ fieldText "index".toList index
  | readserved _ readId command => fieldText "id".toList readId ++ '|' :: command
  | vote _ candidate term => "->".toList ++ nodeText candidate ++ fieldText "term".toList term
  | commit _ index => fieldText "index".toList index
  | apply _ index command => fieldText "index".toList index ++ '|' :: command
  | installsnap _ index term => fieldText "index".toList index ++ fieldText "term".toList term
  | snapshot _ index term => fieldText "index".toList index ++ fieldText "term".toList term

def detail (e : TraceEvent) : Str := nodeText e.node ++ e.rest

end TraceEvent

/-- What the drivers and the fault controls of a cluster record, less crashes. `p` is the text of
a probability. -/
inductive DriverEvent
  | client (target clientId : NodeId) (encoded : Str)
  | retry (target clientId : NodeId) (encoded : Str)
  | staleread (target : NodeId) (encoded result : Str)
  | singleNode
  | noLeader
  | alreadyDown (node : NodeId)
  | linkdown (a b : NodeId)
  | linkup (a b : NodeId)
  | lossy (a b : NodeId) (p : Str)
  | lossyheal (a b : NodeId)
  | partition (groups : List (List NodeId))
  | heal
  deriving DecidableEq, Repr

namespace DriverEvent

def kind : DriverEvent → Str
  | client .. => "client".toList
  | retry .. => "retry".toList
  | staleread .. => "staleread".toList
  | singleNode | noLeader | alreadyDown _ => "nemesis".toList
  | linkdown .. => "linkdown".toList
  | linkup .. => "linkup".toList
  | lossy .. => "lossy".toList
  | lossyheal .. => "lossyheal".toList
  | partition _ => "partition".toList
  | heal => "heal".toList

/-- `n{a}<->n{b}`. -/
def linkText (a b : NodeId) : Str := nodeText a ++ "<->".toList ++ nodeText b

def detail : DriverEvent → Str
  | client target clientId encoded | retry target clientId encoded =>
    nodeText target ++ "|c".toList ++ intStr clientId ++ '|' :: encoded
  | staleread target encoded result => nodeText target ++ '|' :: encoded ++ '|' :: result
  | singleNode => "partition_halves|single-node|skipped".toList
  | noLeader => "isolate_leader|no-leader|skipped".toList
  | alreadyDown node => "crash_node|".toList ++ nodeText node ++ "|already-down|skipped".toList
  | linkdown a b | linkup a b | lossyheal a b => linkText a b
  | lossy a b p => linkText a b ++ "|p=".toList ++ p
  | partition groups =>
    ['/'].intercalate (groups.map fun g => [','].intercalate ((sorted g).map nodeText))
  | heal => "all".toList

end DriverEvent

/-- An entry of `Cluster.events`, less its time. Traffic is only in the trace. -/
inductive Record
  | trace (event : TraceEvent)
  | driver (event : DriverEvent)
  | crash (node : NodeId)
  | resume (node : NodeId)
  deriving DecidableEq, Repr

namespace Record

/-- The node a record is about. -/
def node? : Record → Option NodeId
  | trace event => some event.node
  | driver _ => none
  | crash node | resume node => some node

def kind : Record → Str
  | trace event => event.kind
  | driver event => event.kind
  | crash _ => "crash".toList
  | resume _ => "resume".toList

def detail : Record → Str
  | trace event => event.detail
  | driver event => event.detail
  | crash node | resume node => nodeText node

end Record

/-! ### Reading a text -/

/-- What the renderer may raise. -/
inductive RenderError
  | valueError
  | indexError
  | keyError
  deriving DecidableEq, Repr

/-- `int(s)` of a text of digits. -/
def decimal (s : Str) : ℕ := s.foldl (fun n c => n*10+(digitValue c).getD 0) 0

/-- The match of `\d+` at the start of a text. -/
def matchDigits (s : Str) : Option ℕ :=
  match s.takeWhile fun c => (digitValue c).isSome with
  | [] => none
  | digits => some (decimal digits)

/-- The match of `{key}=(\d+)` at the start of a text. -/
def matchKey (key s : Str) : Option ℕ :=
  if (key ++ ['=']).isPrefixOf s then matchDigits (s.drop (key.length+1)) else none

/-- `_num`: the first match anywhere in the text, else 0. -/
def num (key : Str) : Str → ℕ
  | [] => 0
  | c :: rest => (matchKey key (c :: rest)).getD (num key rest)

/-- `_node_of`. -/
def nodeOf : Str → Except RenderError NodeId
  | 'n' :: rest =>
    match matchDigits rest with
    | some n => .ok n
    | none => .error .valueError
  | _ => .error .valueError

/-- `detail.split("|")[1]`. -/
def roleOf (detail : Str) : Except RenderError Str :=
  match (detail.splitOn '|')[1]? with
  | some role => .ok role
  | none => .error .indexError

/-! ### The renderer -/

/-- An interval in which a node is drawn with one term, role and liveness. -/
structure Segment where
  start : ℕ
  stop : ℕ
  term : ℕ
  role : Str
  alive : Bool
  deriving DecidableEq, Repr

/-- What the renderer keeps of one node. -/
structure Lane where
  curTerm : ℕ := 0
  curRole : Str := "follower".toList
  curAlive : Bool := true
  since : ℕ := 0
  segments : List Segment := []
  deriving DecidableEq, Repr

/-- The marks over the lanes, less their shapes. -/
inductive Mark
  | label (t : ℕ) (node : NodeId) (term : ℕ)
  | triangle (t : ℕ) (node : NodeId)
  | dot (t : ℕ) (node : NodeId)
  | tick (t : ℕ) (node : NodeId)
  | diamond (t : ℕ) (node : NodeId)
  deriving DecidableEq, Repr

/-- `close_segment`. -/
def Lane.closeSegment (l : Lane) (t : ℕ) : Lane where
  curTerm := l.curTerm
  curRole := l.curRole
  curAlive := l.curAlive
  since := t
  segments :=
    if l.since < t then l.segments ++ [⟨l.since, t, l.curTerm, l.curRole, l.curAlive⟩]
    else l.segments

/-- The state of `render_timeline` while it goes through the events. -/
structure Rendering where
  lanes : NodeId → Lane := fun _ => {}
  marks : List Mark := []
  partitions : List (ℕ × ℕ) := []
  partStart : Option ℕ := none

namespace Rendering

/-- Close the segment of a node and go on with a changed lane. There is a lane for each node of
`range(num_nodes)`. -/
def update (r : Rendering) (numNodes : ℕ) (node : NodeId) (t : ℕ) (f : Lane → Lane) :
    Except RenderError Rendering :=
  if 0 ≤ node ∧ node < numNodes then
    .ok { r with lanes := Function.update r.lanes node (f ((r.lanes node).closeSegment t)) }
  else .error .keyError

def mark (r : Rendering) (m : Mark) : Rendering := { r with marks := r.marks ++ [m] }

/-- One round of the loop over the events. -/
def event (r : Rendering) (numNodes t : ℕ) (kind detail : Str) : Except RenderError Rendering :=
  if kind = "role".toList then do
    let node ← nodeOf detail
    let role ← roleOf detail
    let term := num "term".toList detail
    let r ← r.update numNodes node t fun l => { l with curRole := role, curTerm := term }
    .ok (if role = "leader".toList then r.mark (.label t node term) else r)
  else if kind = "election".toList then do
    let node ← nodeOf detail
    .ok (r.mark (.triangle t node))
  else if kind = "vote".toList then do
    let voter ← nodeOf detail
    .ok (r.mark (.dot t voter))
  else if kind = "commit".toList then do
    let node ← nodeOf detail
    .ok (r.mark (.tick t node))
  else if kind = "snapshot".toList then do
    let node ← nodeOf detail
    .ok (r.mark (.diamond t node))
  else if kind = "crash".toList then do
    let node ← nodeOf detail
    r.update numNodes node t fun l => { l with curAlive := false }
  else if kind = "resume".toList then do
    let node ← nodeOf detail
    r.update numNodes node t fun l => { l with curAlive := true }
  else if kind = "partition".toList then
    .ok { r with partStart := some (r.partStart.getD t) }
  else if kind = "heal".toList then
    .ok (match r.partStart with
      | some start => { r with partitions := r.partitions ++ [(start, t)], partStart := none }
      | none => r)
  else .ok r

def events (r : Rendering) (numNodes : ℕ) : List (ℕ × Str × Str) → Except RenderError Rendering
  | [] => .ok r
  | (t, kind, detail) :: rest => do
    let r ← r.event numNodes t kind detail
    r.events numNodes rest

/-- What is left open ends with the run. -/
def finish (r : Rendering) (duration : ℕ) : Rendering :=
  { r with
    lanes := fun i => (r.lanes i).closeSegment duration
    partitions := r.partitions ++ r.partStart.toList.map fun start => (start, duration) }

end Rendering

/-- `render_timeline` up to the drawing. -/
def renderTimeline (events : List (ℕ × Str × Str)) (numNodes duration : ℕ) :
    Except RenderError Rendering := do
  let r ← ({} : Rendering).events numNodes events
  .ok (r.finish (max duration 1))

/-! ### The texts that a cluster records are read back -/

theorem digitValue_isSome {c : Char} (hc : c.isDigit = true) : (digitValue c).isSome = true := by
  rw [digitValue_ascii c hc]
  rfl

theorem decimal_natStr (n : ℕ) : decimal (natStr n) = n := by
  have hfold (ds : Str) (hd : ∀ c ∈ ds, c.isDigit = true) (acc : ℕ) :
      ds.foldl (fun n c => n*10+(digitValue c).getD 0) acc = Nat.ofDigitChars 10 ds acc := by
    induction ds generalizing acc with
    | nil => rfl
    | cons c ds ih =>
      rw [List.foldl_cons, ih (fun d hd' => hd d (List.mem_cons_of_mem c hd')),
        digitValue_ascii c (hd c List.mem_cons_self), Nat.ofDigitChars_cons]
      exact congrArg (fun k => Nat.ofDigitChars 10 ds (k+(c.toNat-48))) (Nat.mul_comm acc 10)
  rw [decimal, hfold _ (natStr_digits n)]
  exact Nat.ofDigitChars_ten_toDigits

/-- A text in which no digit comes first. -/
def Undigited (s : Str) : Prop := ∀ c ∈ s.head?, (digitValue c).isSome = false

theorem matchDigits_natStr (n : ℕ) {s : Str} (hs : Undigited s) :
    matchDigits (natStr n ++ s) = some n := by
  have htake : (natStr n ++ s).takeWhile (fun c => (digitValue c).isSome) = natStr n := by
    rw [List.takeWhile_append_of_pos fun c hc => digitValue_isSome (natStr_digits n c hc)]
    cases s with
    | nil => exact List.append_nil _
    | cons c s =>
      rw [List.takeWhile_cons_of_neg, List.append_nil]
      rw [hs c rfl]
      exact Bool.false_ne_true
  rw [matchDigits, htake]
  cases hn : natStr n with
  | nil => exact absurd hn Nat.toDigits_ne_nil
  | cons c cs =>
    dsimp only
    rw [← hn, decimal_natStr]

/-- The name of a node is read back from the start of a text. -/
theorem nodeOf_nodeText {i : NodeId} (hi : 0 ≤ i) {s : Str} (hs : Undigited s) :
    nodeOf (nodeText i ++ s) = .ok i := by
  obtain ⟨n, rfl⟩ := Int.eq_ofNat_of_zero_le hi
  change nodeOf ('n' :: (natStr n ++ s)) = _
  rw [nodeOf, matchDigits_natStr n hs]

theorem nodeOf_name {i : NodeId} (hi : 0 ≤ i) : nodeOf (nodeText i) = .ok i := by
  have h := nodeOf_nodeText hi (s := []) nofun
  rwa [List.append_nil] at h

theorem num_skip {k c : Char} (h : k ≠ c) (key s : Str) :
    num (k :: key) (c :: s) = num (k :: key) s := by
  have hkc : (k == c) = false := beq_eq_false_iff_ne.mpr h
  rw [num, matchKey, List.cons_append, List.isPrefixOf, hkc]
  rfl

/-- The search for a key passes over a text without its first letter. -/
theorem num_skip_append {k : Char} {s : Str} (hs : k ∉ s) (key t : Str) :
    num (k :: key) (s ++ t) = num (k :: key) t := by
  induction s with
  | nil => rfl
  | cons c s ih =>
    rw [List.mem_cons, not_or] at hs
    rw [List.cons_append, num_skip hs.1, ih hs.2]

theorem num_term (n : ℕ) : num "term".toList ("term=".toList ++ natStr n) = n := by
  have hm : matchDigits (natStr n) = some n := by
    have h := matchDigits_natStr n (s := []) nofun
    rwa [List.append_nil] at h
  change (matchKey "term".toList ("term=".toList ++ natStr n)).getD _ = n
  have hkey : matchKey "term".toList ("term=".toList ++ natStr n) = some n := hm
  rw [hkey]
  rfl

/-- The term is read back from the record of a role. -/
theorem num_role (i : NodeId) (r : Role) (term : ℕ) :
    num "term".toList (TraceEvent.role i r term).detail = term := by
  have hnode : 't' ∉ nodeText i := by
    intro h
    rcases List.mem_cons.mp h with h | h
    · exact absurd h (by decide)
    · exact intStr_free i 't' (by decide) (by decide) h
  have hskip (s : Str) (hs : 't' ∉ s) :
      num "term".toList (s ++ ("term=".toList ++ natStr term)) = term :=
    (num_skip_append hs "erm".toList _).trans (num_term term)
  refine (num_skip_append hnode "erm".toList _).trans ?_
  cases r with
  | follower => exact hskip "|follower|".toList (by decide)
  | leader => exact hskip "|leader|".toList (by decide)
  | candidate =>
    -- the last letters but one of the role might begin the key, and do not
    have hrest := hskip "e|".toList (by decide)
    exact (num_skip_append (k := 't') (s := "|candida".toList) (by decide) "erm".toList _).trans
      hrest

theorem join_three (a b t : Str) :
    ['|'].intercalate [a, b, t] = a ++ '|' :: (b ++ '|' :: t) := by
  simp [List.intercalate]

theorem roleOf_role (i : NodeId) (r : Role) (term : ℕ) :
    roleOf (TraceEvent.role i r term).detail = .ok r.text := by
  have hcut : (TraceEvent.role i r term).detail.splitOn '|' =
      [nodeText i, r.text, "term=".toList ++ natStr term] := by
    have hjoin : (TraceEvent.role i r term).detail =
        ['|'].intercalate [nodeText i, r.text, "term=".toList ++ natStr term] := by
      rw [join_three]
      rfl
    rw [hjoin]
    refine List.splitOn_intercalate '|' (fun l hl => ?_) nofun
    rcases List.mem_cons.mp hl with rfl | hl
    · intro h
      rcases List.mem_cons.mp h with h | h
      · exact absurd h (by decide)
      · exact intStr_free i '|' (by decide) (by decide) h
    rcases List.mem_cons.mp hl with rfl | hl
    · cases r <;> decide
    obtain rfl := List.mem_singleton.mp hl
    intro h
    rcases List.mem_append.mp h with h | h
    · exact absurd h (by decide)
    · exact natStr_free term '|' (by decide) h
  rw [roleOf, hcut]
  rfl

theorem rest_undigited (e : TraceEvent) : Undigited e.rest := by
  have hnone (c : Char) (hc : (digitValue c).isSome = false) (s : Str) : Undigited (c :: s) := by
    intro d hd
    obtain rfl := Option.some.inj hd
    exact hc
  cases e <;> exact hnone _ (by decide) _

/-- Every event of a node starts with its name. -/
theorem nodeOf_detail {e : TraceEvent} (h : 0 ≤ e.node) : nodeOf e.detail = .ok e.node :=
  nodeOf_nodeText h (rest_undigited e)

/-! ### The lane of a node -/

namespace Lane

/-- What a record changes in the lane of node `i`. -/
def tell (i : NodeId) (l : Lane) (t : ℕ) : Record → Lane
  | .trace (.role node role term) =>
    if node = i then { l.closeSegment t with curRole := role.text, curTerm := term } else l
  | .crash node => if node = i then { l.closeSegment t with curAlive := false } else l
  | .resume node => if node = i then { l.closeSegment t with curAlive := true } else l
  | _ => l

def tellAll (i : NodeId) (l : Lane) : List (ℕ × Record) → Lane
  | [] => l
  | (t, e) :: rest => (l.tell i t e).tellAll i rest

end Lane

/-- A record about a node with a lane. -/
def Record.Drawn (numNodes : ℕ) (e : Record) : Prop :=
  ∀ i ∈ e.node?, 0 ≤ i ∧ i < numNodes

namespace Rendering
variable {r : Rendering} {numNodes t : ℕ} {i : NodeId} {e : Record}

/-- The lanes after a change of one. -/
theorem update_lanes (hi : 0 ≤ i ∧ i < numNodes) (f : Lane → Lane) :
    ∃ r', r.update numNodes i t f = .ok r' ∧
      ∀ j, r'.lanes j = if i = j then f ((r.lanes j).closeSegment t) else r.lanes j := by
  refine ⟨_, if_pos hi, fun j => ?_⟩
  dsimp only
  rw [Function.update_apply]
  by_cases hj : j = i
  · subst hj
    rw [if_pos rfl]
  · rw [if_neg hj, if_neg (Ne.symm hj)]

/-- The renderer accepts every record, and each lane follows it. -/
theorem event_tells (h : e.Drawn numNodes) : ∃ r', r.event numNodes t e.kind e.detail = .ok r' ∧
    ∀ j, r'.lanes j = (r.lanes j).tell j t e := by
  have hsame {r' : Rendering} (he : r.event numNodes t e.kind e.detail = .ok r')
      (hl : r'.lanes = r.lanes) (ht : ∀ j (l : Lane), l.tell j t e = l) :
      ∃ r', r.event numNodes t e.kind e.detail = .ok r' ∧
        ∀ j, r'.lanes j = (r.lanes j).tell j t e :=
    ⟨r', he, fun j => by rw [hl, ht]⟩
  have hmark {i : NodeId} (hi : nodeOf e.detail = .ok i) (m : NodeId → Mark) :
      (do let node ← nodeOf e.detail; .ok (r.mark (m node))) = Except.ok (r.mark (m i)) := by
    rw [hi]
    rfl
  cases e with
  | driver d =>
    cases d with
    | partition groups => exact hsame rfl rfl fun _ _ => rfl
    | heal =>
      cases hp : r.partStart with
      | none => exact hsame rfl (by rw [hp]) fun _ _ => rfl
      | some start => exact hsame rfl (by rw [hp]) fun _ _ => rfl
    | _ => exact hsame rfl rfl fun _ _ => rfl
  | trace e =>
    have hi := h e.node rfl
    have hnode := nodeOf_detail hi.1
    cases e with
    -- of what a node traces, only its role and term are on its lane
    | role i role term =>
      obtain ⟨r', hr', hl⟩ := update_lanes (r := r) (t := t) hi fun l =>
        { l with curRole := role.text, curTerm := term }
      refine ⟨_, (if_pos rfl).trans (bind_ok.mpr ⟨i, hnode, bind_ok.mpr
        ⟨role.text, roleOf_role i role term, bind_ok.mpr ⟨r', ?_, rfl⟩⟩⟩), fun j => ?_⟩
      · change r.update numNodes i t (fun l => { l with
          curRole := role.text
          curTerm := num "term".toList (TraceEvent.role i role term).detail }) = _
        rw [num_role]
        exact hr'
      · split <;> exact hl j
    | election => exact hsame (hmark hnode _) rfl fun _ _ => rfl
    | vote => exact hsame (hmark hnode _) rfl fun _ _ => rfl
    | commit => exact hsame (hmark hnode _) rfl fun _ _ => rfl
    | snapshot => exact hsame (hmark hnode _) rfl fun _ _ => rfl
    | _ => exact hsame rfl rfl fun _ _ => rfl
  | crash i =>
    obtain ⟨r', hr', hl⟩ := update_lanes (r := r) (t := t) (h i rfl) fun l =>
      { l with curAlive := false }
    exact ⟨r', bind_ok.mpr ⟨i, nodeOf_name (h i rfl).1, hr'⟩, hl⟩
  | resume i =>
    obtain ⟨r', hr', hl⟩ := update_lanes (r := r) (t := t) (h i rfl) fun l =>
      { l with curAlive := true }
    exact ⟨r', bind_ok.mpr ⟨i, nodeOf_name (h i rfl).1, hr'⟩, hl⟩

end Rendering

/-- An entry of `Cluster.events`. -/
def Record.entry (p : ℕ × Record) : ℕ × Str × Str := (p.1, p.2.kind, p.2.detail)

namespace Rendering

theorem events_tell {numNodes : ℕ} (es : List (ℕ × Record)) {r : Rendering}
    (h : ∀ p ∈ es, p.2.Drawn numNodes) :
    ∃ r', r.events numNodes (es.map Record.entry) = .ok r' ∧
      ∀ i, r'.lanes i = (r.lanes i).tellAll i es := by
  induction es generalizing r with
  | nil => exact ⟨r, rfl, fun _ => rfl⟩
  | cons p es ih =>
    obtain ⟨q, hq, hlanes⟩ := event_tells (r := r) (t := p.1) (h p List.mem_cons_self)
    obtain ⟨r', hr', hrest⟩ := ih (r := q) fun p' hp' => h p' (List.mem_cons_of_mem p hp')
    refine ⟨r', bind_ok.mpr ⟨q, hq, hr'⟩, fun i => ?_⟩
    rw [hrest, hlanes]
    rfl

end Rendering

/-- The renderer accepts the records of a cluster and draws each lane from them. -/
theorem renderTimeline_tells {numNodes : ℕ} {es : List (ℕ × Record)}
    (h : ∀ p ∈ es, p.2.Drawn numNodes) (duration : ℕ) :
    ∃ r, renderTimeline (es.map Record.entry) numNodes duration = .ok r ∧
      ∀ i, r.lanes i = (({} : Lane).tellAll i es).closeSegment (max duration 1) := by
  obtain ⟨r, hr, hlanes⟩ := Rendering.events_tell es (r := {}) h
  refine ⟨r.finish (max duration 1), bind_ok.mpr ⟨r, hr, rfl⟩, fun i => ?_⟩
  exact congrArg (Lane.closeSegment · (max duration 1)) (hlanes i)

/-! ### The segment just after a moment -/

/-- The segment is what is drawn just after `t`. -/
def Segment.covers (t : ℕ) (s : Segment) : Bool := decide (s.start ≤ t ∧ t < s.stop)

namespace Lane
variable {l m : Lane} {t u : ℕ} {i : NodeId}

/-- Nothing is drawn after `t` so far. -/
structure Before (l : Lane) (t : ℕ) : Prop where
  since : l.since ≤ t
  none : l.segments.filter (Segment.covers t) = []

/-- What is drawn just after `t` is what `m` has come to. -/
structure Drawn (l : Lane) (t : ℕ) (m : Lane) : Prop where
  since : t < l.since
  one : ∃ start stop,
    l.segments.filter (Segment.covers t) = [⟨start, stop, m.curTerm, m.curRole, m.curAlive⟩]

theorem closeSegment_before (h : l.Before t) (hu : u ≤ t) : (l.closeSegment u).Before t := by
  refine ⟨hu, ?_⟩
  unfold closeSegment
  dsimp only
  split
  · have hpast : Segment.covers t ⟨l.since, u, l.curTerm, l.curRole, l.curAlive⟩ = false :=
      decide_eq_false fun hc => absurd hc.2 (Nat.not_lt.mpr hu)
    rw [List.filter_append, h.none, List.nil_append, List.filter_cons_of_neg]
    · rfl
    · rw [hpast]
      exact Bool.false_ne_true
  · exact h.none

theorem closeSegment_draws (h : l.Before t) (hu : t < u) : (l.closeSegment u).Drawn t l := by
  refine ⟨hu, l.since, u, ?_⟩
  have hsince := h.since
  have hcovers : Segment.covers t ⟨l.since, u, l.curTerm, l.curRole, l.curAlive⟩ = true :=
    decide_eq_true ⟨hsince, hu⟩
  unfold closeSegment
  dsimp only
  rw [if_pos (by omega), List.filter_append, h.none, List.nil_append,
    List.filter_cons_of_pos hcovers]
  rfl

theorem closeSegment_drawn (h : l.Drawn t m) (hu : t < u) : (l.closeSegment u).Drawn t m := by
  refine ⟨hu, ?_⟩
  obtain ⟨start, stop, hone⟩ := h.one
  refine ⟨start, stop, ?_⟩
  have hsince := h.since
  unfold closeSegment
  dsimp only
  split
  · have hlater : Segment.covers t ⟨l.since, u, l.curTerm, l.curRole, l.curAlive⟩ = false :=
      decide_eq_false fun hc => absurd hc.1 (Nat.not_le.mpr hsince)
    rw [List.filter_append, hone, List.filter_cons_of_neg]
    · rfl
    · rw [hlater]
      exact Bool.false_ne_true
  · exact hone

/-- A record about a node closes its segment, another one leaves its lane. -/
theorem tell_cases (i : NodeId) (l : Lane) (t : ℕ) (e : Record) : l.tell i t e = l ∨
    (l.tell i t e).since = (l.closeSegment t).since ∧
      (l.tell i t e).segments = (l.closeSegment t).segments := by
  unfold tell
  split
  · split
    · exact Or.inr ⟨rfl, rfl⟩
    · exact Or.inl rfl
  · split
    · exact Or.inr ⟨rfl, rfl⟩
    · exact Or.inl rfl
  · split
    · exact Or.inr ⟨rfl, rfl⟩
    · exact Or.inl rfl
  · exact Or.inl rfl

theorem tellAll_before (es : List (ℕ × Record)) (h : l.Before t) (hes : ∀ p ∈ es, p.1 ≤ t) :
    (l.tellAll i es).Before t := by
  induction es generalizing l with
  | nil => exact h
  | cons p es ih =>
    refine ih ?_ fun q hq => hes q (List.mem_cons_of_mem p hq)
    rcases tell_cases i l p.1 p.2 with heq | ⟨hsince, hseg⟩
    · rw [heq]
      exact h
    · have hclose := closeSegment_before h (hes p List.mem_cons_self)
      exact ⟨hsince ▸ hclose.since, hseg ▸ hclose.none⟩

theorem tellAll_drawn (es : List (ℕ × Record)) (h : l.Drawn t m) (hes : ∀ p ∈ es, t < p.1) :
    (l.tellAll i es).Drawn t m := by
  induction es generalizing l with
  | nil => exact h
  | cons p es ih =>
    refine ih ?_ fun q hq => hes q (List.mem_cons_of_mem p hq)
    rcases tell_cases i l p.1 p.2 with heq | ⟨hsince, hseg⟩
    · rw [heq]
      exact h
    · have hclose := closeSegment_drawn h (hes p List.mem_cons_self)
      exact ⟨hsince ▸ hclose.since, hseg ▸ hclose.one⟩

/-- The first later record about the node ends the segment, or the end of the run does. -/
theorem tellAll_draws (es : List (ℕ × Record)) (h : l.Before t) (hes : ∀ p ∈ es, t < p.1)
    {duration : ℕ} (hd : t < duration) :
    ((l.tellAll i es).closeSegment duration).Drawn t l := by
  induction es with
  | nil => exact closeSegment_draws h hd
  | cons p es ih =>
    have hrest : ∀ q ∈ es, t < q.1 := fun q hq => hes q (List.mem_cons_of_mem p hq)
    change (((l.tell i p.1 p.2).tellAll i es).closeSegment duration).Drawn t l
    rcases tell_cases i l p.1 p.2 with heq | ⟨hsince, hseg⟩
    · rw [heq]
      exact ih hrest
    · have hclose := closeSegment_draws h (hes p List.mem_cons_self)
      have hnow : (l.tell i p.1 p.2).Drawn t l := ⟨hsince ▸ hclose.since, hseg ▸ hclose.one⟩
      exact closeSegment_drawn (tellAll_drawn es hnow hrest) hd

theorem tellAll_append (es fs : List (ℕ × Record)) (l : Lane) :
    l.tellAll i (es ++ fs) = (l.tellAll i es).tellAll i fs := by
  induction es generalizing l with
  | nil => rfl
  | cons p es ih => exact ih _

end Lane

/-- Just after `t` the timeline shows what the records until `t` tell. -/
theorem renderTimeline_shows {numNodes duration t : ℕ} {es fs : List (ℕ × Record)}
    (h : ∀ p ∈ es ++ fs, p.2.Drawn numNodes) (hes : ∀ p ∈ es, p.1 ≤ t) (hfs : ∀ p ∈ fs, t < p.1)
    (hd : t < max duration 1) :
    ∃ r, renderTimeline ((es ++ fs).map Record.entry) numNodes duration = .ok r ∧
      ∀ i, (r.lanes i).Drawn t (({} : Lane).tellAll i es) := by
  obtain ⟨r, hr, hlanes⟩ := renderTimeline_tells h duration
  refine ⟨r, hr, fun i => ?_⟩
  rw [hlanes, Lane.tellAll_append]
  have hstart : ({} : Lane).Before t := ⟨Nat.zero_le t, rfl⟩
  exact Lane.tellAll_draws fs (Lane.tellAll_before es hstart hes) hfs hd

end RaftVerified
