import Mathlib.Data.Fintype.Basic
import RaftVerified.Nemesis

/-! The JSON form of a fault schedule (`nemesis.py`). The `json` module and Python's `repr` are
parameters. -/
namespace RaftVerified

/-- A `float`: a rational number, or one of the three that are none. -/
inductive PyFloat
  | finite (q : ℚ)
  | infinity
  | minusInfinity
  | nan
  deriving DecidableEq

/-- What `json.loads` can return; a `dict` is the list of its items. -/
inductive Value
  | null
  | bool (b : Bool)
  | int (z : ℤ)
  | float (x : PyFloat)
  | str (s : Str)
  | list (xs : List Value)
  | dict (items : List (Str × Value))

/-- The texts of values. `dumps` is called with the separators `,` and `:`, and no text from
`loads` stands for a `JSONDecodeError`. -/
structure Json where
  dumps : Value → Str
  loads : Str → Option Value
  repr : Value → Str

/-- What JSON promises of the text of a list without single quotes in its strings. -/
structure Json.Faithful (json : Json) (xs : List Value) : Prop where
  loads_dumps : json.loads (json.dumps (.list xs)) = some (.list xs)
  bracket : (json.dumps (.list xs)).head? = some '['
  unquoted : '\'' ∉ json.dumps (.list xs)

def Number.toValue : Number → Value
  | int z => .int z
  | float q => .float (.finite q)

namespace NemesisOp

/-- `_NAMES`. -/
def name : NemesisOp → Str
  | partitionHalves _ _ => "partition_halves".toList
  | isolateLeader _ _ => "isolate_leader".toList
  | flappingLink _ _ _ _ _ => "flapping_link".toList
  | lossyLink _ _ _ _ _ => "lossy_link".toList
  | crashNode _ _ _ => "crash_node".toList

/-- The fields of a pattern, in the order of its class. -/
def fields : NemesisOp → List (Str × Value)
  | partitionHalves atTime duration =>
    [("at".toList, .int atTime), ("duration".toList, .int duration)]
  | isolateLeader atTime duration =>
    [("at".toList, .int atTime), ("duration".toList, .int duration)]
  | flappingLink a b atTime period cycles =>
    [("a".toList, .int a), ("b".toList, .int b), ("at".toList, .int atTime),
      ("period".toList, .int period), ("cycles".toList, .int cycles)]
  | lossyLink a b atTime duration dropP =>
    [("a".toList, .int a), ("b".toList, .int b), ("at".toList, .int atTime),
      ("duration".toList, .int duration), ("drop_p".toList, dropP.toValue)]
  | crashNode node atTime duration =>
    [("node".toList, .int node), ("at".toList, .int atTime), ("duration".toList, .int duration)]

/-- `_encode`. -/
def encode (op : NemesisOp) : Value :=
  .dict (("pattern".toList, .str op.name) :: op.fields)

/-! ### The checks of the constructors -/

/-- `_require`. -/
def require (condition : Prop) [Decidable condition] (message : Str) :
    Except Str (PLift condition) :=
  if h : condition then .ok ⟨h⟩ else .error message

theorem require_of {condition : Prop} [Decidable condition] (h : condition) (message : Str) :
    require condition message = .ok ⟨h⟩ := dif_pos h

/-- `_check_int`. A `bool` is not an integer here. -/
def checkInt (json : Json) (value : Value) (name : Str) : Except Str ℤ :=
  match value with
  | .int z => .ok z
  | v => .error (name ++ " must be an integer, got ".toList ++ json.repr v)

/-- `_check_window`. -/
def checkWindow (json : Json) (atTime duration : Value) :
    Except Str { w : ℤ × ℤ // Window w.1 w.2 } := do
  let atTime ← checkInt json atTime "at".toList
  let duration ← checkInt json duration "duration".toList
  let hat ← require (0 ≤ atTime) ("at must be >= 0 ms, got ".toList ++ intStr atTime)
  let hduration ← require (1 ≤ duration)
    ("duration must be >= 1 ms, got ".toList ++ intStr duration)
  .ok ⟨(atTime, duration), hat.down, hduration.down⟩

/-- `_check_link`. -/
def checkLink (json : Json) (a b : Value) :
    Except Str { l : NodeId × NodeId // Link l.1 l.2 } := do
  let a ← checkInt json a "a".toList
  let b ← checkInt json b "b".toList
  let pair := "(".toList ++ intStr a ++ ", ".toList ++ intStr b ++ ")".toList
  let hids ← require (0 ≤ a ∧ 0 ≤ b) ("link node ids must be >= 0, got ".toList ++ pair)
  let hne ← require (a ≠ b) ("link endpoints must be distinct, got ".toList ++ pair)
  .ok ⟨(a, b), hids.down, hne.down⟩

/-- The checks of `drop_p`. The values that are no number pass no comparison. -/
def checkDropP (json : Json) (value : Value) :
    Except Str { p : Number // 0 < p.value ∧ p.value ≤ 1 } :=
  let outside := "drop_p must be in (0.0, 1.0], got ".toList ++ json.repr value
  match value with
  | .int z => do
    let h ← require (0 < (Number.int z).value ∧ (Number.int z).value ≤ 1) outside
    .ok ⟨.int z, h.down⟩
  | .float (.finite q) => do
    let h ← require (0 < (Number.float q).value ∧ (Number.float q).value ≤ 1) outside
    .ok ⟨.float q, h.down⟩
  | .float _ => .error outside
  | v => .error ("drop_p must be a number, got ".toList ++ json.repr v)

/-- A pattern that has passed its checks. -/
abbrev Checked := { op : NemesisOp // op.Valid }

/-- The values of the named fields, in this order; `none` when one is missing or there is
another one. -/
def arguments (names : List Str) (params : List (Str × Value)) : Option (List Value) :=
  if params.all fun p => p.1 ∈ names then names.mapM fun name => params.lookup name else none

/-- The patterns by name, called with keyword arguments; `none` for a `TypeError`. -/
def construct (json : Json) (name : Str) (params : List (Str × Value)) :
    Option (Except Str Checked) :=
  if name = "partition_halves".toList then
    match arguments ["at".toList, "duration".toList] params with
    | some [atTime, duration] => some do
      let w ← checkWindow json atTime duration
      .ok ⟨.partitionHalves w.1.1 w.1.2, w.2⟩
    | _ => none
  else if name = "isolate_leader".toList then
    match arguments ["at".toList, "duration".toList] params with
    | some [atTime, duration] => some do
      let w ← checkWindow json atTime duration
      .ok ⟨.isolateLeader w.1.1 w.1.2, w.2⟩
    | _ => none
  else if name = "flapping_link".toList then
    match arguments ["a".toList, "b".toList, "at".toList, "period".toList, "cycles".toList]
      params with
    | some [a, b, atTime, period, cycles] => some do
      let l ← checkLink json a b
      let atTime ← checkInt json atTime "at".toList
      let period ← checkInt json period "period".toList
      let cycles ← checkInt json cycles "cycles".toList
      let hat ← require (0 ≤ atTime) ("at must be >= 0 ms, got ".toList ++ intStr atTime)
      let hperiod ← require (1 ≤ period) ("period must be >= 1 ms, got ".toList ++ intStr period)
      let hcycles ← require (1 ≤ cycles ∧ cycles ≤ MAX_FLAP_CYCLES)
        ("cycles must be in 1..".toList ++ intStr MAX_FLAP_CYCLES ++ ", got ".toList ++
          intStr cycles)
      .ok ⟨.flappingLink l.1.1 l.1.2 atTime period cycles,
        l.2, hat.down, hperiod.down, hcycles.down⟩
    | _ => none
  else if name = "lossy_link".toList then
    match arguments ["a".toList, "b".toList, "at".toList, "duration".toList, "drop_p".toList]
      params with
    | some [a, b, atTime, duration, dropP] => some do
      let l ← checkLink json a b
      let w ← checkWindow json atTime duration
      let p ← checkDropP json dropP
      .ok ⟨.lossyLink l.1.1 l.1.2 w.1.1 w.1.2 p.1, l.2, w.2, p.2⟩
    | _ => none
  else if name = "crash_node".toList then
    match arguments ["node".toList, "at".toList, "duration".toList] params with
    | some [node, atTime, duration] => some do
      let node ← checkInt json node "node".toList
      let hnode ← require (0 ≤ node) ("node must be >= 0, got ".toList ++ intStr node)
      let w ← checkWindow json atTime duration
      .ok ⟨.crashNode node w.1.1 w.1.2, hnode.down, w.2⟩
    | _ => none
  else none

/-- `_PATTERNS`. -/
def PATTERNS : List Str :=
  ["partition_halves".toList, "isolate_leader".toList, "flapping_link".toList,
    "lossy_link".toList, "crash_node".toList]

/-- `_decode`. What Python says of the fields it misses or does not expect is left out. -/
def decode (json : Json) : Value → Except Str Checked
  | .dict items =>
    let params := items.filter fun p => p.1 ≠ "pattern".toList
    let unknown := "unknown pattern ".toList ++
      json.repr ((items.lookup "pattern".toList).getD .null) ++ ("; expected one of " ++
        "['crash_node', 'flapping_link', 'isolate_leader', 'lossy_link', " ++
        "'partition_halves']").toList
    match items.lookup "pattern".toList with
    | some (.str name) =>
      if name ∈ PATTERNS then
        match construct json name params with
        | some op => op
        | none => .error ("bad fields for pattern ".toList ++ json.repr (.str name))
      else .error unknown
    | _ => .error unknown
  | item => .error ("each nemesis pattern must be a JSON object, got ".toList ++ json.repr item)

/-! ### What a pattern is written as, it is read from -/

section
variable {json : Json}

theorem checkWindow_of {atTime duration : ℤ} (h : Window atTime duration) :
    checkWindow json (.int atTime) (.int duration) = .ok ⟨(atTime, duration), h⟩ := by
  simp only [checkWindow, checkInt, bind, Except.bind, require_of h.1, require_of h.2]

theorem checkLink_of {a b : NodeId} (h : Link a b) :
    checkLink json (.int a) (.int b) = .ok ⟨(a, b), h⟩ := by
  simp only [checkLink, checkInt, bind, Except.bind, require_of h.1, require_of h.2]

theorem checkDropP_of {p : Number} (h : 0 < p.value ∧ p.value ≤ 1) :
    checkDropP json p.toValue = .ok ⟨p, h⟩ := by
  cases p with
  | int z => simp only [checkDropP, Number.toValue, bind, Except.bind, require_of h]
  | float q => simp only [checkDropP, Number.toValue, bind, Except.bind, require_of h]

theorem construct_fields (op : NemesisOp) (h : op.Valid) :
    construct json op.name op.fields = some (.ok ⟨op, h⟩) := by
  cases op with
  | partitionHalves atTime duration =>
    have hname : (partitionHalves atTime duration).name = "partition_halves".toList := rfl
    have hargs : arguments ["at".toList, "duration".toList]
        (partitionHalves atTime duration).fields = some [.int atTime, .int duration] := rfl
    unfold construct
    rw [hargs, hname, if_pos rfl]
    simp only [bind, Except.bind, checkWindow_of h]
  | isolateLeader atTime duration =>
    have hname : (isolateLeader atTime duration).name = "isolate_leader".toList := rfl
    have hargs : arguments ["at".toList, "duration".toList]
        (isolateLeader atTime duration).fields = some [.int atTime, .int duration] := rfl
    unfold construct
    rw [hargs, hname, if_neg (by decide), if_pos rfl]
    simp only [bind, Except.bind, checkWindow_of h]
  | flappingLink a b atTime period cycles =>
    have hname : (flappingLink a b atTime period cycles).name = "flapping_link".toList := rfl
    have hargs : arguments ["a".toList, "b".toList, "at".toList, "period".toList, "cycles".toList]
        (flappingLink a b atTime period cycles).fields =
          some [.int a, .int b, .int atTime, .int period, .int cycles] := rfl
    obtain ⟨hlink, hat, hperiod, hcycles⟩ := h
    unfold construct
    rw [hargs, hname, if_neg (by decide), if_neg (by decide), if_pos rfl]
    simp only [bind, Except.bind, checkLink_of hlink, checkInt, require_of hat, require_of hperiod,
      require_of hcycles]
  | lossyLink a b atTime duration dropP =>
    have hname : (lossyLink a b atTime duration dropP).name = "lossy_link".toList := rfl
    have hargs : arguments
        ["a".toList, "b".toList, "at".toList, "duration".toList, "drop_p".toList]
        (lossyLink a b atTime duration dropP).fields =
          some [.int a, .int b, .int atTime, .int duration, dropP.toValue] := rfl
    obtain ⟨hlink, hwindow, hdrop⟩ := h
    unfold construct
    rw [hargs, hname, if_neg (by decide), if_neg (by decide), if_neg (by decide), if_pos rfl]
    simp only [bind, Except.bind, checkLink_of hlink, checkWindow_of hwindow, checkDropP_of hdrop]
  | crashNode node atTime duration =>
    have hname : (crashNode node atTime duration).name = "crash_node".toList := rfl
    have hargs : arguments ["node".toList, "at".toList, "duration".toList]
        (crashNode node atTime duration).fields =
          some [.int node, .int atTime, .int duration] := rfl
    obtain ⟨hnode, hwindow⟩ := h
    unfold construct
    rw [hargs, hname, if_neg (by decide), if_neg (by decide), if_neg (by decide),
      if_neg (by decide), if_pos rfl]
    simp only [bind, Except.bind, checkInt, require_of hnode, checkWindow_of hwindow]

theorem name_mem (op : NemesisOp) : op.name ∈ PATTERNS := by
  apply List.mem_iff_getElem?.mpr
  cases op with
  | partitionHalves _ _ => exact ⟨0, rfl⟩
  | isolateLeader _ _ => exact ⟨1, rfl⟩
  | flappingLink _ _ _ _ _ => exact ⟨2, rfl⟩
  | lossyLink _ _ _ _ _ => exact ⟨3, rfl⟩
  | crashNode _ _ _ => exact ⟨4, rfl⟩

theorem pattern_not_field (op : NemesisOp) : ∀ p ∈ op.fields, p.1 ≠ "pattern".toList := by
  cases op <;> simp [fields]

theorem decode_encode (op : NemesisOp) (h : op.Valid) : decode json op.encode = .ok ⟨op, h⟩ := by
  -- popping the name leaves the fields
  have hparams : (("pattern".toList, Value.str op.name) :: op.fields).filter
      (fun p => p.1 ≠ "pattern".toList) = op.fields := by
    rw [List.filter_cons_of_neg (by simp), List.filter_eq_self]
    intro p hp
    exact decide_eq_true (op.pattern_not_field p hp)
  unfold decode encode
  dsimp only
  rw [List.lookup_cons_self, hparams]
  dsimp only
  rw [if_pos op.name_mem, construct_fields op h]

end
end NemesisOp

namespace NemesisSchedule

/-- `to_json`. -/
def toJson (json : Json) (s : NemesisSchedule) : Str := json.dumps (.list (s.ops.map (·.encode)))

/-- `from_json`. -/
def fromJson (json : Json) (text : Str) : Except Str NemesisSchedule :=
  match json.loads text with
  | none => .error "nemesis schedule is not valid JSON".toList
  | some (.list data) => do
    let ops ← data.mapM (NemesisOp.decode json)
    .ok ⟨ops.map (·.1), fun _ h => by
      obtain ⟨op, -, rfl⟩ := List.mem_map.mp h
      exact op.2⟩
  | some _ => .error "nemesis schedule must be a JSON list of patterns".toList

theorem mapM_decode {json : Json} {ops : List NemesisOp} (h : ∀ op ∈ ops, op.Valid) :
    ∃ checked, (ops.map (·.encode)).mapM (NemesisOp.decode json) = .ok checked ∧
      checked.map (·.1) = ops := by
  induction ops with
  | nil => exact ⟨[], rfl, rfl⟩
  | cons op rest ih =>
    obtain ⟨checked, hchecked, hops⟩ := ih fun op' hop => h op' (List.mem_cons_of_mem _ hop)
    have hop := h op List.mem_cons_self
    refine ⟨⟨op, hop⟩ :: checked, ?_, by rw [List.map_cons, hops]⟩
    rw [List.map_cons, List.mapM_cons, NemesisOp.decode_encode op hop, hchecked]
    rfl

/-- The JSON form of a schedule reads back as the schedule. -/
theorem fromJson_toJson {json : Json} {s : NemesisSchedule}
    (h : json.Faithful (s.ops.map (·.encode))) : fromJson json (s.toJson json) = .ok s := by
  obtain ⟨checked, hchecked, hops⟩ : ∃ checked : List NemesisOp.Checked,
      (s.ops.map (·.encode)).mapM (NemesisOp.decode json) = .ok checked ∧
        checked.map (·.1) = s.ops := mapM_decode s.valid
  unfold fromJson toJson
  rw [h.loads_dumps]
  dsimp only
  rw [hchecked]
  cases s
  cases hops
  rfl

end NemesisSchedule
end RaftVerified
