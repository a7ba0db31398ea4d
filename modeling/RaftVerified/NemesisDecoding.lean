import RaftVerified.NemesisValidation

/-! Decoding a fault schedule raises nothing but a `ValueError`, and accepts what was encoded. -/
namespace RaftVerified
/-- `json.loads` gives the value back that `json.dumps` has written. -/
def Json.RoundTrips (json : Json) (v : Value) : Prop := json.loads (json.dumps v) = some v

namespace NemesisOp

/-- The instance that a pattern is in Python. -/
def toInstance (op : NemesisOp) : Instance := ⟨op.name, op.fields⟩

end NemesisOp

namespace Validation

section
variable {json : Json}

theorem arguments_length {names : List Str} {params : List (Str × Value)} {values : List Value}
    (h : NemesisOp.arguments names params = some values) : values.length = names.length := by
  unfold NemesisOp.arguments at h
  split at h
  · clear * - h
    induction names generalizing values with
    | nil => cases h; rfl
    | cons name rest ih =>
      simp only [List.mapM_cons, Option.pure_def, Option.bind_eq_bind,
        Option.bind_eq_some_iff, Option.some.injEq] at h
      obtain ⟨v, -, vs, hvs, rfl⟩ := h
      rw [List.length_cons, List.length_cons, ih hvs]
  · cases h

theorem PyFloat.lt_finite (p q : ℚ) : PyFloat.lt (.finite p) (.finite q) = decide (p < q) := by
  show (decide (p ≤ q) && !decide (q ≤ p)) = _
  rw [← decide_not, ← Bool.decide_and]
  exact decide_eq_decide.mpr lt_iff_le_not_ge.symm

theorem checkDropP_agrees (value : Value) : Agrees (fun _ p => value = p.1.toValue)
    (checkDropP json value) (NemesisOp.checkDropP json value) := by
  have hnumber (p : Number) : Agrees (fun _ q => p.toValue = q.1.toValue)
      (checkDropP json p.toValue) (NemesisOp.checkDropP json p.toValue) := by
    have hlt : Value.compare PyFloat.lt (.float (.finite 0)) p.toValue =
        .ok (decide (0 < p.value)) := by
      rw [← PyFloat.lt_finite]
      cases p <;> rfl
    have hle : Value.compare PyFloat.le p.toValue (.float (.finite 1)) =
        .ok (decide (p.value ≤ 1)) := by
      cases p <;> rfl
    have hcheck : checkDropP json p.toValue =
        require (decide (0 < p.value ∧ p.value ≤ 1))
          ("drop_p must be in (0.0, 1.0], got ".toList ++ json.repr p.toValue) := by
      unfold checkDropP
      rw [hlt, hle, both_decide]
      cases p <;> rfl
    rw [hcheck]
    cases p <;> exact (require_agrees rfl _).map fun _ _ _ => rfl
  cases value with
  | int z => exact hnumber (.int z)
  | float x =>
    cases x with
    | finite q => exact hnumber (.float q)
    | _ => exact Or.inr ⟨_, rfl, rfl⟩
  | _ => exact Or.inr ⟨_, rfl, rfl⟩

/-- What calling a class with keyword arguments comes to, in Python and on numbers of the right
kind. -/
def CallAgrees (json : Json) (name : Str) (cls : PatternClass) (params : List (Str × Value)) :
    Prop :=
  (cls.call json name params = .error .typeError ∧ NemesisOp.construct json name params = none) ∨
    ∃ y, NemesisOp.construct json name params = some y ∧
      Agrees (fun self op => self = op.1.toInstance) (cls.call json name params) y

/-- A class whose `__post_init__` agrees with the checks of a pattern. -/
theorem callAgrees_of {name : Str} {cls : PatternClass} {params : List (Str × Value)}
    (h : ∀ args, NemesisOp.arguments cls.fields params = args →
      (args = none → NemesisOp.construct json name params = none) ∧
      ∀ values, args = some values → values.length = cls.fields.length →
        ∃ y, NemesisOp.construct json name params = some y ∧
          Agrees (fun _ op => (⟨name, cls.fields.zip values⟩ : Instance) = op.1.toInstance)
            (cls.postInit json ⟨name, cls.fields.zip values⟩) y) :
    CallAgrees json name cls params := by
  unfold CallAgrees PatternClass.call
  obtain ⟨hnone, hsome⟩ := h _ rfl
  cases hargs : NemesisOp.arguments cls.fields params with
  | none => exact Or.inl ⟨rfl, hnone hargs⟩
  | some values =>
    obtain ⟨y, hy, hpost⟩ := hsome values hargs (arguments_length hargs)
    refine Or.inr ⟨y, hy, ?_⟩
    dsimp only
    rcases hpost with ⟨_, op, hx, rfl, hop⟩ | ⟨message, hx, rfl⟩
    · rw [hx]
      exact Or.inl ⟨_, op, rfl, rfl, hop⟩
    · rw [hx]
      exact Or.inr ⟨message, rfl, rfl⟩

/-- The classes that have nothing but a window. -/
theorem window_agrees {name : Str} {params : List (Str × Value)} (make : ℤ → ℤ → NemesisOp)
    (valid : ∀ atTime duration, NemesisOp.Window atTime duration → (make atTime duration).Valid)
    (hmake : ∀ atTime duration, (make atTime duration).toInstance =
      ⟨name, windowClass.fields.zip [.int atTime, .int duration]⟩)
    (hnone : NemesisOp.arguments ["at".toList, "duration".toList] params = none →
      NemesisOp.construct json name params = none)
    (hsome : ∀ atTime duration,
      NemesisOp.arguments ["at".toList, "duration".toList] params = some [atTime, duration] →
      NemesisOp.construct json name params = some do
        let w ← NemesisOp.checkWindow json atTime duration
        .ok ⟨make w.1.1 w.1.2, valid _ _ w.2⟩) :
    CallAgrees json name windowClass params := by
  refine callAgrees_of fun args hargs => ?_
  subst hargs
  refine ⟨hnone, fun values hvalues hlength => ?_⟩
  obtain ⟨atTime, duration, rfl⟩ := List.length_eq_two.mp hlength
  rw [hsome atTime duration hvalues]
  refine ⟨_, rfl, ?_⟩
  show Agrees _ (checkWindow json atTime duration) _
  refine (checkWindow_agrees _ _).map fun _ w hw => ?_
  obtain ⟨rfl, rfl⟩ := hw
  exact (hmake _ _).symm

theorem partition_halves_agrees (params : List (Str × Value)) :
    CallAgrees json "partition_halves".toList windowClass params := by
  refine window_agrees .partitionHalves (fun _ _ hw => hw) (fun _ _ => rfl) ?_ ?_
  all_goals
    intros
    unfold NemesisOp.construct
    rw [if_pos rfl]
    simp only [*]

theorem isolate_leader_agrees (params : List (Str × Value)) :
    CallAgrees json "isolate_leader".toList windowClass params := by
  refine window_agrees .isolateLeader (fun _ _ hw => hw) (fun _ _ => rfl) ?_ ?_
  all_goals
    intros
    unfold NemesisOp.construct
    rw [if_neg (by decide), if_pos rfl]
    simp only [*]

theorem flapping_link_agrees (params : List (Str × Value)) :
    CallAgrees json "flapping_link".toList FlappingLink params := by
  refine callAgrees_of fun args hargs => ?_
  have hargs : NemesisOp.arguments
      ["a".toList, "b".toList, "at".toList, "period".toList, "cycles".toList] params = args :=
    hargs
  unfold NemesisOp.construct
  rw [if_neg (by decide), if_neg (by decide), if_pos rfl, hargs]
  refine ⟨by rintro rfl; rfl, fun values hvalues hlength => ?_⟩
  subst hvalues
  match values, hlength with
  | [a, b, atTime, period, cycles], _ =>
    refine ⟨_, rfl, ?_⟩
    show Agrees _ (do
      checkLink json a b
      checkInt json atTime "at".toList
      checkInt json period "period".toList
      checkInt json cycles "cycles".toList
      atLeast json 0 atTime "at must be >= 0 ms, got ".toList
      atLeast json 1 period "period must be >= 1 ms, got ".toList
      let bounded ← both (Value.compare PyFloat.le (.int 1) cycles)
        (Value.compare PyFloat.le cycles (.int MAX_FLAP_CYCLES))
      require bounded ("cycles must be in 1..".toList ++ intStr MAX_FLAP_CYCLES ++
        ", got ".toList ++ cycles.toStr json)) _
    refine (checkLink_agrees a b).bind fun _ l hl => ?_
    refine (checkInt_agrees atTime _).bind fun _ t ht => ?_
    refine (checkInt_agrees period _).bind fun _ p hp => ?_
    refine (checkInt_agrees cycles _).bind fun _ n hn => ?_
    obtain ⟨rfl, rfl⟩ := hl
    subst ht hp hn
    refine (atLeast_agrees 0 t _).bind fun _ _ _ => ?_
    refine (atLeast_agrees 1 p _).bind fun _ _ _ => ?_
    rw [compare_le_int, compare_le_int, both_decide]
    exact (require_agrees rfl _).map fun _ _ _ => rfl

theorem lossy_link_agrees (params : List (Str × Value)) :
    CallAgrees json "lossy_link".toList LossyLink params := by
  refine callAgrees_of fun args hargs => ?_
  have hargs : NemesisOp.arguments
      ["a".toList, "b".toList, "at".toList, "duration".toList, "drop_p".toList] params = args :=
    hargs
  unfold NemesisOp.construct
  rw [if_neg (by decide), if_neg (by decide), if_neg (by decide), if_pos rfl, hargs]
  refine ⟨by rintro rfl; rfl, fun values hvalues hlength => ?_⟩
  subst hvalues
  match values, hlength with
  | [a, b, atTime, duration, dropP], _ =>
    refine ⟨_, rfl, ?_⟩
    show Agrees _ (do
      checkLink json a b
      checkWindow json atTime duration
      checkDropP json dropP) _
    refine (checkLink_agrees a b).bind fun _ l hl => ?_
    refine (checkWindow_agrees atTime duration).bind fun _ w hw => ?_
    obtain ⟨rfl, rfl⟩ := hl
    obtain ⟨rfl, rfl⟩ := hw
    refine (checkDropP_agrees dropP).map fun _ p hp => ?_
    subst hp
    rfl

theorem crash_node_agrees (params : List (Str × Value)) :
    CallAgrees json "crash_node".toList CrashNode params := by
  refine callAgrees_of fun args hargs => ?_
  have hargs : NemesisOp.arguments ["node".toList, "at".toList, "duration".toList] params = args :=
    hargs
  unfold NemesisOp.construct
  rw [if_neg (by decide), if_neg (by decide), if_neg (by decide), if_neg (by decide), if_pos rfl,
    hargs]
  refine ⟨by rintro rfl; rfl, fun values hvalues hlength => ?_⟩
  subst hvalues
  match values, hlength with
  | [node, atTime, duration], _ =>
    refine ⟨_, rfl, ?_⟩
    show Agrees _ (do
      checkInt json node "node".toList
      atLeast json 0 node "node must be >= 0, got ".toList
      checkWindow json atTime duration) _
    refine (checkInt_agrees node _).bind fun _ n hn => ?_
    subst hn
    refine (atLeast_agrees 0 n _).bind fun _ _ _ => ?_
    refine (checkWindow_agrees atTime duration).map fun _ w hw => ?_
    obtain ⟨rfl, rfl⟩ := hw
    rfl

theorem call_agrees (json : Json) {name : Str} {cls : PatternClass} (params : List (Str × Value))
    (h : PATTERNS.lookup name = some cls) : CallAgrees json name cls params := by
  obtain ⟨before, after, hsplit, -⟩ := List.lookup_eq_some_iff.mp h
  have hmem : (name, cls) ∈ PATTERNS := by
    rw [hsplit]
    exact List.mem_append_right _ List.mem_cons_self
  simp only [PATTERNS, List.mem_cons, Prod.mk.injEq, List.not_mem_nil, or_false] at hmem
  rcases hmem with ⟨rfl, rfl⟩ | ⟨rfl, rfl⟩ | ⟨rfl, rfl⟩ | ⟨rfl, rfl⟩ | ⟨rfl, rfl⟩
  · exact partition_halves_agrees params
  · exact isolate_leader_agrees params
  · exact flapping_link_agrees params
  · exact lossy_link_agrees params
  · exact crash_node_agrees params

/-- The names of the classes. -/
theorem lookup_isSome_iff (name : Str) :
    (PATTERNS.lookup name).isSome ↔ name ∈ NemesisOp.PATTERNS := by
  have hnames : PATTERNS.map (·.1) = NemesisOp.PATTERNS := rfl
  rw [List.lookup_isSome_iff, ← hnames, List.mem_map]
  constructor
  · rintro ⟨p, hp, hname⟩
    exact ⟨p, hp, (beq_iff_eq.mp hname).symm⟩
  · rintro ⟨p, hp, rfl⟩
    exact ⟨p, hp, beq_self_eq_true _⟩

theorem decode_agrees (json : Json) (item : Value) : Agrees (fun self op => self = op.1.toInstance)
    (decode json item) (NemesisOp.decode json item) := by
  cases item with
  | dict items =>
    unfold decode NemesisOp.decode
    dsimp only
    cases hname : items.lookup "pattern".toList with
    | none => exact Or.inr ⟨_, rfl, rfl⟩
    | some v =>
      cases v with
      | str name =>
        dsimp only [Option.getD_some]
        by_cases hp : name ∈ NemesisOp.PATTERNS
        · rw [if_pos hp, if_pos ((lookup_isSome_iff name).mpr hp)]
          obtain ⟨cls, hcls⟩ := Option.isSome_iff_exists.mp ((lookup_isSome_iff name).mpr hp)
          have hitem : getItem name = .ok cls := by
            unfold getItem
            rw [hcls]
          rw [hitem]
          rcases call_agrees json (items.filter fun p => p.1 ≠ "pattern".toList) hcls with
            ⟨hcall, hconstruct⟩ | ⟨y, hconstruct, hcall⟩
          · rw [hconstruct]
            refine Or.inr ⟨_, ?_, rfl⟩
            show catchTypeError _ (cls.call json name _) = _
            rw [hcall]
            rfl
          · rw [hconstruct]
            show Agrees _ (catchTypeError _ (cls.call json name _)) _
            rcases hcall with ⟨self, op, hx, rfl, hself⟩ | ⟨message, hx, rfl⟩
            · rw [hx]
              exact Or.inl ⟨self, op, rfl, rfl, hself⟩
            · rw [hx]
              exact Or.inr ⟨message, rfl, rfl⟩
        · rw [if_neg hp, if_neg (fun h => hp ((lookup_isSome_iff name).mp h))]
          exact Or.inr ⟨_, rfl, rfl⟩
      | _ => exact Or.inr ⟨_, rfl, rfl⟩
  | _ => exact Or.inr ⟨_, rfl, rfl⟩

theorem mapM_agrees (data : List Value) :
    Agrees (fun ops (checked : List NemesisOp.Checked) => ops = checked.map (·.1.toInstance))
      (data.mapM (decode json)) (data.mapM (NemesisOp.decode json)) := by
  induction data with
  | nil => exact Or.inl ⟨[], [], rfl, rfl, rfl⟩
  | cons item rest ih =>
    rw [List.mapM_cons, List.mapM_cons]
    refine (decode_agrees json item).bind fun self op hop => ?_
    refine ih.bind fun ops checked hops => ?_
    subst hop hops
    exact Or.inl ⟨_, _, rfl, rfl, rfl⟩

/-- Reading a schedule in Python comes to reading one whose fields have the right type. -/
theorem fromJson_agrees (json : Json) (text : Str) :
    Agrees (fun ops (s : NemesisSchedule) => ops = s.ops.map (·.toInstance))
      (fromJson json text) (NemesisSchedule.fromJson json text) := by
  unfold fromJson NemesisSchedule.fromJson
  cases json.loads text with
  | none => exact Or.inr ⟨_, rfl, rfl⟩
  | some v =>
    cases v with
    | list data =>
      refine (mapM_agrees data).map fun ops checked hops => ?_
      rw [hops, List.map_map]
      rfl
    | _ => exact Or.inr ⟨_, rfl, rfl⟩

/-! ### Round trip and totality -/

/-- An instance that a class of patterns makes from some keyword arguments. -/
def Constructible (json : Json) (op : Instance) : Prop :=
  ∃ cls params, PATTERNS.lookup op.cls = some cls ∧ cls.call json op.cls params = .ok op

theorem Constructible.valid {op : Instance} (h : Constructible json op) :
    ∃ checked : NemesisOp.Checked, op = checked.1.toInstance := by
  obtain ⟨cls, params, hcls, hcall⟩ := h
  rcases call_agrees json params hcls with ⟨herror, -⟩ | ⟨y, -, hagrees⟩
  · rw [hcall] at herror
    cases herror
  · rcases hagrees with ⟨self, checked, hself, -, h⟩ | ⟨message, herror, -⟩
    · rw [hcall] at hself
      cases hself
      exact ⟨checked, h⟩
    · rw [hcall] at herror
      cases herror

theorem decode_encode {op : Instance} (h : Constructible json op) :
    decode json op.encode = .ok op := by
  obtain ⟨⟨op', hvalid⟩, rfl⟩ := h.valid
  have htyped : NemesisOp.decode json op'.toInstance.encode = .ok ⟨op', hvalid⟩ :=
    NemesisOp.decode_encode op' hvalid
  rcases decode_agrees json op'.toInstance.encode with
    ⟨self, checked, hx, hy, hself⟩ | ⟨message, -, hy⟩
  · rw [htyped] at hy
    cases hy
    rw [hx, hself]
  · rw [htyped] at hy
    cases hy

theorem mapM_decode {ops : List Instance} (h : ∀ op ∈ ops, Constructible json op) :
    (ops.map (·.encode)).mapM (decode json) = .ok ops := by
  induction ops with
  | nil => rfl
  | cons op rest ih =>
    rw [List.map_cons, List.mapM_cons, decode_encode (h op List.mem_cons_self),
      ih fun op' hop => h op' (List.mem_cons_of_mem _ hop)]
    rfl

theorem mapM_lookup {names : List Str} {params : List (Str × Value)} {values : List Value}
    (h : (names.mapM fun name => params.lookup name) = some values) (key : Str) :
    (names.zip values).lookup key = if key ∈ names then params.lookup key else none := by
  induction names generalizing values with
  | nil => rfl
  | cons name rest ih =>
    simp only [List.mapM_cons, Option.pure_def, Option.bind_eq_bind,
      Option.bind_eq_some_iff, Option.some.injEq] at h
    obtain ⟨v, hv, vs, hvs, rfl⟩ := h
    rw [List.zip_cons_cons, List.lookup_cons, ih hvs]
    by_cases hkey : key = name
    · subst hkey
      rw [if_pos List.mem_cons_self, beq_self_eq_true, hv]
    · rw [beq_eq_false_iff_ne.mpr hkey]
      simp only [List.mem_cons, hkey, false_or]

theorem lookup_arguments {names : List Str} {params : List (Str × Value)} {values : List Value}
    (h : NemesisOp.arguments names params = some values) (key : Str) :
    (names.zip values).lookup key = params.lookup key := by
  unfold NemesisOp.arguments at h
  split at h
  · rename_i hknown
    rw [mapM_lookup h]
    by_cases hkey : key ∈ names
    · rw [if_pos hkey]
    · rw [if_neg hkey, eq_comm, List.lookup_eq_none_iff]
      intro p hp
      have hname := of_decide_eq_true (List.all_eq_true.mp hknown p hp)
      exact bne_iff_ne.mpr fun he => hkey (he ▸ hname)
  · cases h

/-- Two objects with the same items, in any order. -/
def SameDict (v w : Value) : Prop :=
  ∃ items items', v = .dict items ∧ w = .dict items' ∧ ∀ key, items.lookup key = items'.lookup key

theorem lookup_filter {items : List (Str × Value)} {key name : Str} (h : key ≠ name) :
    (items.filter fun p => p.1 ≠ name).lookup key = items.lookup key := by
  induction items with
  | nil => rfl
  | cons p rest ih =>
    by_cases hp : p.1 = name
    · have hkey : (key == p.1) = false := beq_eq_false_iff_ne.mpr (hp ▸ h)
      rw [List.filter_cons_of_neg (by simpa using hp), ih]
      obtain ⟨k, v⟩ := p
      rw [List.lookup_cons, hkey]
    · rw [List.filter_cons_of_pos (by simpa using hp)]
      obtain ⟨k, v⟩ := p
      rw [List.lookup_cons, List.lookup_cons, ih]

theorem call_ok {cls : PatternClass} {name : Str} {params : List (Str × Value)} {op : Instance}
    (h : cls.call json name params = .ok op) :
    op.cls = name ∧ ∀ key, op.attributes.lookup key = params.lookup key := by
  unfold PatternClass.call at h
  split at h
  · cases h
  · rename_i values hargs
    obtain ⟨_, -, h⟩ := bind_ok.mp h
    cases h
    exact ⟨rfl, lookup_arguments hargs⟩

theorem catchTypeError_ok {α : Type} {message : Str} {x : Except Exn α} {a : α}
    (h : catchTypeError message x = .ok a) : x = .ok a := by
  unfold catchTypeError at h
  split at h
  · cases h
  · exact h

/-- What an accepted object is decoded to is encoded as that object. -/
theorem encode_decode {item : Value} {op : Instance} (h : decode json item = .ok op) :
    SameDict item op.encode := by
  cases item with
  | dict items =>
    unfold decode at h
    dsimp only at h
    split at h
    · rename_i name hname
      split at h
      · obtain ⟨cls, -, hcall⟩ := bind_ok.mp (catchTypeError_ok h)
        obtain ⟨hcls, hattributes⟩ := call_ok hcall
        have hpattern : items.lookup "pattern".toList = some (.str name) := by
          cases hlookup : items.lookup "pattern".toList with
          | none => rw [hlookup] at hname; cases hname
          | some v => rw [hlookup] at hname; exact congrArg some hname
        refine ⟨items, _, rfl, rfl, fun key => ?_⟩
        by_cases hkey : key = "pattern".toList
        · rw [hkey, hpattern, List.lookup_cons_self, hcls]
        · rw [List.lookup_cons, beq_eq_false_iff_ne.mpr hkey, hattributes, lookup_filter hkey]
      · cases h
    · cases h
  | _ => cases h

theorem mapM_sameDict {data : List Value} {ops : List Instance}
    (h : data.mapM (decode json) = .ok ops) :
    List.Forall₂ (fun item op => SameDict item op.encode) data ops := by
  induction data generalizing ops with
  | nil => cases h; exact .nil
  | cons item rest ih =>
    rw [List.mapM_cons] at h
    obtain ⟨op, hop, h⟩ := bind_ok.mp h
    obtain ⟨rest', hrest, h⟩ := bind_ok.mp h
    cases h
    exact .cons (encode_decode hop) (ih hrest)

theorem fromJson_ok {text : Str} {ops : List Instance} (h : fromJson json text = .ok ops) :
    ∃ data, json.loads text = some (.list data) ∧
      List.Forall₂ (fun item op => SameDict item op.encode) data ops := by
  unfold fromJson at h
  split at h
  · cases h
  · rename_i data hloads
    exact ⟨data, hloads, mapM_sameDict h⟩
  · cases h

end

/-- Schedules read back as they were written, and every text is a `ValueError` or a schedule that
has passed the checks and is written as what was read. -/
theorem from_json_total (json : Json) :
    (∀ ops : List Instance, (∀ op ∈ ops, Constructible json op) →
      json.RoundTrips (.list (ops.map (·.encode))) →
        fromJson json (toJson json ops) = .ok ops) ∧
    ∀ text, (∃ message, fromJson json text = .error (.valueError message)) ∨
      ∃ s : NemesisSchedule, fromJson json text = .ok (s.ops.map (·.toInstance)) ∧
        (∀ op ∈ s.ops, op.Valid) ∧
        ∃ data, json.loads text = some (.list data) ∧
          List.Forall₂ (fun item (op : NemesisOp) => SameDict item op.encode) data s.ops := by
  constructor
  · intro ops hops hloads
    unfold fromJson toJson
    rw [hloads]
    exact mapM_decode hops
  · intro text
    rcases fromJson_agrees json text with ⟨ops, s, hok, -, rfl⟩ | ⟨message, herror, -⟩
    · obtain ⟨data, hdata, hsame⟩ := fromJson_ok hok
      have hitems := List.forall₂_map_right_iff.mp hsame
      exact Or.inr ⟨s, hok, s.valid, data, hdata, hitems⟩
    · exact Or.inl ⟨message, herror⟩

def lossyText : Str := ("[\x7b\"pattern\":\"lossy_link\",\"a\":0,\"b\":1,\"at\":5," ++
  "\"duration\":10,\"drop_p\":1.0\x7d]").toList

def lossy : Instance where
  cls := "lossy_link".toList
  attributes := [("a".toList, .int 0), ("b".toList, .int 1), ("at".toList, .int 5),
    ("duration".toList, .int 10), ("drop_p".toList, .float (.finite 1))]

/-- The `json` module, as far as one schedule goes. -/
def lossyJson : Json where
  dumps _ := lossyText
  loads text := if text = lossyText then some (.list [lossy.encode]) else none
  repr _ := []

theorem lossy_round_trip :
    fromJson lossyJson (toJson lossyJson [lossy]) = .ok [lossy] ∧
      ¬ ∃ ops, fromJson lossyJson "[".toList = .ok ops := by
  have hloads : lossyJson.RoundTrips (.list [lossy.encode]) := by
    show (if lossyText = lossyText then some (Value.list [lossy.encode]) else none) = _
    rw [if_pos rfl]
  refine ⟨(from_json_total lossyJson).1 [lossy] ?_ hloads, ?_⟩
  · intro op hop
    rw [List.mem_singleton.mp hop]
    exact ⟨LossyLink, lossy.attributes, rfl, rfl⟩
  · rintro ⟨ops, hops⟩
    obtain ⟨data, hdata, -⟩ := fromJson_ok hops
    have hnone : lossyJson.loads "[".toList = none := by
      show (if "[".toList = lossyText then some (Value.list [lossy.encode]) else none) = _
      rw [if_neg (by decide +kernel)]
    rw [hnone] at hdata
    cases hdata

end Validation
end RaftVerified
