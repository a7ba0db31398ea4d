import RaftVerified.NemesisJson

/-! The checks of the fault patterns (`nemesis.py`) on values of any type, as Python runs them:
comparing, reading an attribute, a subscript or a call may raise something else than a
`ValueError`. -/
namespace RaftVerified

/-- The exceptions that decoding could raise. -/
inductive Exn
  | valueError (message : Str)
  | typeError
  | keyError
  | attributeError

namespace PyFloat

/-- `x <= y`. -/
def le : PyFloat → PyFloat → Bool
  | nan, _ => false
  | _, nan => false
  | minusInfinity, _ => true
  | _, infinity => true
  | finite p, finite q => p ≤ q
  | _, _ => false

/-- `x < y`. -/
def lt (x y : PyFloat) : Bool := x.le y && !y.le x

/-- `x == y`. -/
def eq (x y : PyFloat) : Bool := x.le y && y.le x

end PyFloat

namespace Value

/-- The number that a value counts as: a `bool` is an `int`. -/
def number : Value → Option PyFloat
  | .bool b => some (.finite (if b then 1 else 0))
  | .int z => some (.finite z)
  | .float x => some x
  | _ => none

/-- A comparison one side of which is a number. -/
def compare (order : PyFloat → PyFloat → Bool) (v w : Value) : Except Exn Bool :=
  match v.number, w.number with
  | some x, some y => .ok (order x y)
  | _, _ => .error .typeError

mutual

/-- `v == w`. -/
def eq : Value → Value → Bool
  | .null, .null => true
  | .str s, .str t => s = t
  | .list xs, .list ys => eqList xs ys
  | .dict xs, .dict ys => xs.length = ys.length && eqItems xs ys
  | v, w => match v.number, w.number with
    | some x, some y => x.eq y
    | _, _ => false

def eqList : List Value → List Value → Bool
  | [], [] => true
  | v :: xs, w :: ys => v.eq w && eqList xs ys
  | _, _ => false

def eqItems : List (Str × Value) → List (Str × Value) → Bool
  | [], _ => true
  | (key, v) :: xs, ys => match ys.lookup key with
    | some w => v.eq w && eqItems xs ys
    | none => false

end

/-- `isinstance(value, int)`. -/
def isInt : Value → Bool
  | .int _ => true
  | .bool _ => true
  | _ => false

/-- `isinstance(value, float)`. -/
def isFloat : Value → Bool
  | .float _ => true
  | _ => false

/-- `isinstance(value, bool)`. -/
def isBool : Value → Bool
  | .bool _ => true
  | _ => false

/-- `str(value)`. -/
def toStr (json : Json) : Value → Str
  | .int z => intStr z
  | .str s => s
  | v => json.repr v

end Value

/-- An instance of one of the classes of patterns. -/
structure Instance where
  cls : Str
  attributes : List (Str × Value)

namespace Instance

/-- `self.name`. -/
def get (self : Instance) (name : String) : Except Exn Value :=
  match self.attributes.lookup name.toList with
  | some v => .ok v
  | none => .error .attributeError

/-- `_encode`. -/
def encode (op : Instance) : Value :=
  .dict (("pattern".toList, .str op.cls) :: op.attributes)

end Instance

namespace Validation

/-- `_require`. -/
def require (condition : Bool) (message : Str) : Except Exn Unit :=
  if condition then .ok () else .error (.valueError message)

/-- `x and y`: the second is looked at only when the first is true. -/
def both (x y : Except Exn Bool) : Except Exn Bool := do
  if ← x then y else .ok false

/-- `_check_int`. -/
def checkInt (json : Json) (value : Value) (name : Str) : Except Exn Unit :=
  require (value.isInt && !value.isBool) (name ++ " must be an integer, got ".toList ++
    json.repr value)

/-- `low <= value`, or the error that says `name must be >= low`. -/
def atLeast (json : Json) (low : ℤ) (value : Value) (message : Str) : Except Exn Unit := do
  require (← Value.compare PyFloat.le (.int low) value) (message ++ value.toStr json)

/-- `_check_window`. -/
def checkWindow (json : Json) (atTime duration : Value) : Except Exn Unit := do
  checkInt json atTime "at".toList
  checkInt json duration "duration".toList
  atLeast json 0 atTime "at must be >= 0 ms, got ".toList
  atLeast json 1 duration "duration must be >= 1 ms, got ".toList

/-- `_check_link`. -/
def checkLink (json : Json) (a b : Value) : Except Exn Unit := do
  checkInt json a "a".toList
  checkInt json b "b".toList
  let pair := "(".toList ++ a.toStr json ++ ", ".toList ++ b.toStr json ++ ")".toList
  let ids ← both (Value.compare PyFloat.le (.int 0) a) (Value.compare PyFloat.le (.int 0) b)
  require ids ("link node ids must be >= 0, got ".toList ++ pair)
  require (!a.eq b) ("link endpoints must be distinct, got ".toList ++ pair)

/-- The checks of `drop_p`. -/
def checkDropP (json : Json) (dropP : Value) : Except Exn Unit := do
  require ((dropP.isInt || dropP.isFloat) && !dropP.isBool)
    ("drop_p must be a number, got ".toList ++ json.repr dropP)
  let within ← both (Value.compare PyFloat.lt (.float (.finite 0)) dropP)
    (Value.compare PyFloat.le dropP (.float (.finite 1)))
  -- the text of a number is its `repr`
  require within ("drop_p must be in (0.0, 1.0], got ".toList ++ json.repr dropP)

/-! ### The classes -/

/-- The fields of a class of patterns, and its `__post_init__`. -/
structure PatternClass where
  fields : List Str
  postInit : Json → Instance → Except Exn Unit

/-- `PartitionHalves` and `IsolateLeader`. -/
def windowClass : PatternClass where
  fields := ["at".toList, "duration".toList]
  postInit json self := do checkWindow json (← self.get "at") (← self.get "duration")

def FlappingLink : PatternClass where
  fields := ["a".toList, "b".toList, "at".toList, "period".toList, "cycles".toList]
  postInit json self := do
    checkLink json (← self.get "a") (← self.get "b")
    checkInt json (← self.get "at") "at".toList
    checkInt json (← self.get "period") "period".toList
    checkInt json (← self.get "cycles") "cycles".toList
    atLeast json 0 (← self.get "at") "at must be >= 0 ms, got ".toList
    atLeast json 1 (← self.get "period") "period must be >= 1 ms, got ".toList
    let cycles ← self.get "cycles"
    let bounded ← both (Value.compare PyFloat.le (.int 1) cycles)
      (Value.compare PyFloat.le cycles (.int MAX_FLAP_CYCLES))
    require bounded ("cycles must be in 1..".toList ++ intStr MAX_FLAP_CYCLES ++
      ", got ".toList ++ cycles.toStr json)

def LossyLink : PatternClass where
  fields := ["a".toList, "b".toList, "at".toList, "duration".toList, "drop_p".toList]
  postInit json self := do
    checkLink json (← self.get "a") (← self.get "b")
    checkWindow json (← self.get "at") (← self.get "duration")
    checkDropP json (← self.get "drop_p")

def CrashNode : PatternClass where
  fields := ["node".toList, "at".toList, "duration".toList]
  postInit json self := do
    checkInt json (← self.get "node") "node".toList
    atLeast json 0 (← self.get "node") "node must be >= 0, got ".toList
    checkWindow json (← self.get "at") (← self.get "duration")

/-- `_PATTERNS`. -/
def PATTERNS : List (Str × PatternClass) :=
  [("partition_halves".toList, windowClass), ("isolate_leader".toList, windowClass),
    ("flapping_link".toList, FlappingLink), ("lossy_link".toList, LossyLink),
    ("crash_node".toList, CrashNode)]

/-- `_PATTERNS[name]`. -/
def getItem (name : Str) : Except Exn PatternClass :=
  match PATTERNS.lookup name with
  | some cls => .ok cls
  | none => .error .keyError

/-- A class called with keyword arguments: what it makes has passed its `__post_init__`. -/
def PatternClass.call (cls : PatternClass) (json : Json) (name : Str)
    (params : List (Str × Value)) : Except Exn Instance :=
  match NemesisOp.arguments cls.fields params with
  | none => .error .typeError
  | some values => do
    let self : Instance := ⟨name, cls.fields.zip values⟩
    cls.postInit json self
    .ok self

/-- `except TypeError`, which raises a `ValueError` in its place. -/
def catchTypeError {α : Type} (message : Str) : Except Exn α → Except Exn α
  | .error .typeError => .error (.valueError message)
  | result => result

/-- `_decode`. What Python says of the fields it misses or does not expect is left out. -/
def decode (json : Json) : Value → Except Exn Instance
  | .dict items =>
    let params := items.filter fun p => p.1 ≠ "pattern".toList
    let name := (items.lookup "pattern".toList).getD .null
    let unknown := "unknown pattern ".toList ++ json.repr name ++ ("; expected one of " ++
      "['crash_node', 'flapping_link', 'isolate_leader', 'lossy_link', " ++
      "'partition_halves']").toList
    match name with
    | .str s =>
      if (PATTERNS.lookup s).isSome then
        catchTypeError ("bad fields for pattern ".toList ++ json.repr name) do
          (← getItem s).call json s params
      else .error (.valueError unknown)
    | _ => .error (.valueError unknown)
  | item => .error (.valueError ("each nemesis pattern must be a JSON object, got ".toList ++
      json.repr item))

/-- `to_json`. -/
def toJson (json : Json) (ops : List Instance) : Str := json.dumps (.list (ops.map (·.encode)))

/-- `from_json`. -/
def fromJson (json : Json) (text : Str) : Except Exn (List Instance) :=
  match json.loads text with
  | none => .error (.valueError "nemesis schedule is not valid JSON".toList)
  | some (.list data) => data.mapM (decode json)
  | some _ => .error (.valueError "nemesis schedule must be a JSON list of patterns".toList)


/-! ### The same results as on numbers of the right kind -/

/-- Both return, and what they return is related, or both raise the same `ValueError`. -/
def Agrees {α β : Type} (R : α → β → Prop) (x : Except Exn α) (y : Except Str β) : Prop :=
  (∃ a b, x = .ok a ∧ y = .ok b ∧ R a b) ∨ ∃ message,
    x = .error (.valueError message) ∧ y = .error message

theorem Agrees.bind {α β α' β' : Type} {R : α → β → Prop} {S : α' → β' → Prop}
    {x : Except Exn α} {y : Except Str β} {f : α → Except Exn α'} {g : β → Except Str β'}
    (h : Agrees R x y) (hf : ∀ a b, R a b → Agrees S (f a) (g b)) :
    Agrees S (x >>= f) (y >>= g) := by
  rcases h with ⟨a, b, rfl, rfl, hab⟩ | ⟨message, rfl, rfl⟩
  · exact hf a b hab
  · exact Or.inr ⟨message, rfl, rfl⟩

theorem Agrees.map {α β β' : Type} {R : α → β → Prop} {S : α → β' → Prop}
    {x : Except Exn α} {y : Except Str β} {g : β → β'} (h : Agrees R x y)
    (hg : ∀ a b, R a b → S a (g b)) : Agrees S x (y >>= fun b => .ok (g b)) := by
  rcases h with ⟨a, b, hx, rfl, hab⟩ | ⟨message, hx, rfl⟩
  · exact Or.inl ⟨a, g b, hx, rfl, hg a b hab⟩
  · exact Or.inr ⟨message, hx, rfl⟩

section
variable {json : Json}

theorem require_agrees {condition : Bool} {P : Prop} [Decidable P]
    (h : condition = decide P) (message : Str) :
    Agrees (fun _ _ => P) (require condition message) (NemesisOp.require P message) := by
  subst h
  unfold require
  by_cases hp : P
  · rw [NemesisOp.require_of hp, if_pos (decide_eq_true hp)]
    exact Or.inl ⟨(), ⟨hp⟩, rfl, rfl, hp⟩
  · rw [NemesisOp.require, dif_neg hp, if_neg (by rwa [decide_eq_true_eq])]
    exact Or.inr ⟨message, rfl, rfl⟩

theorem both_decide (P Q : Prop) [Decidable P] [Decidable Q] :
    both (.ok (decide P)) (.ok (decide Q)) = .ok (decide (P ∧ Q)) := by
  rw [Bool.decide_and]
  cases decide P <;> rfl

theorem compare_le_int (a b : ℤ) :
    Value.compare PyFloat.le (.int a) (.int b) = .ok (decide (a ≤ b)) := by
  show Except.ok (decide ((a : ℚ) ≤ b)) = _
  simp only [Rat.intCast_le_intCast]

theorem eq_int (a b : ℤ) : (Value.int a).eq (.int b) = decide (a = b) := by
  rw [Value.eq.eq_def]
  show (decide ((a : ℚ) ≤ b) && decide ((b : ℚ) ≤ a)) = _
  rw [Bool.eq_iff_iff]
  simp only [Rat.intCast_le_intCast, Bool.and_eq_true, decide_eq_true_eq]
  exact ⟨fun h => Int.le_antisymm h.1 h.2, fun h => ⟨h.le, h.ge⟩⟩

theorem checkInt_agrees (value : Value) (name : Str) :
    Agrees (fun _ z => value = .int z) (checkInt json value name)
      (NemesisOp.checkInt json value name) := by
  cases value with
  | int z => exact Or.inl ⟨(), z, rfl, rfl, rfl⟩
  | _ => exact Or.inr ⟨_, rfl, rfl⟩

theorem atLeast_agrees (low z : ℤ) (message : Str) :
    Agrees (fun _ _ => low ≤ z) (atLeast json low (.int z) message)
      (NemesisOp.require (low ≤ z) (message ++ intStr z)) := by
  unfold atLeast
  rw [compare_le_int]
  exact require_agrees rfl _

theorem checkWindow_agrees (atTime duration : Value) :
    Agrees (fun _ w => atTime = .int w.1.1 ∧ duration = .int w.1.2)
      (checkWindow json atTime duration) (NemesisOp.checkWindow json atTime duration) := by
  unfold checkWindow NemesisOp.checkWindow
  refine (checkInt_agrees _ _).bind fun _ z hz => ?_
  refine (checkInt_agrees _ _).bind fun _ w hw => ?_
  subst hz hw
  refine (atLeast_agrees 0 z _).bind fun _ _ _ => ?_
  exact (atLeast_agrees 1 w _).map fun _ _ _ => ⟨rfl, rfl⟩

theorem checkLink_agrees (a b : Value) :
    Agrees (fun _ l => a = .int l.1.1 ∧ b = .int l.1.2) (checkLink json a b)
      (NemesisOp.checkLink json a b) := by
  unfold checkLink NemesisOp.checkLink
  refine (checkInt_agrees _ _).bind fun _ z hz => ?_
  refine (checkInt_agrees _ _).bind fun _ w hw => ?_
  subst hz hw
  dsimp only
  rw [compare_le_int, compare_le_int, both_decide]
  refine (require_agrees rfl _).bind fun _ _ _ => ?_
  refine (require_agrees ?_ _).map fun _ _ _ => ⟨rfl, rfl⟩
  rw [eq_int, ← decide_not]

end

end Validation
end RaftVerified
