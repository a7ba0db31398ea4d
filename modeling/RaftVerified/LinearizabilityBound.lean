import RaftVerified.LinearizabilityVerdict

/-! What `max_ops` does to the verdict: a row behind the cut may be what a row before it has
seen. -/
namespace RaftVerified
namespace Linearizability
open Linearization

variable {history : List HistoryEntry} {maxOps : Option ℤ}

def reads (op : Op) : Prop := op = .get ∨ op = .cas

def writes (op : Op) : Prop := op = .put ∨ op = .cas

instance (op : Op) : Decidable (reads op) := inferInstanceAs (Decidable (_ ∨ _))

instance (op : Op) : Decidable (writes op) := inferInstanceAs (Decidable (_ ∨ _))

/-- The rows behind the cut. -/
def dropped (history : List HistoryEntry) (maxOps : Option ℤ) : List HistoryEntry :=
  (arrange history none).drop (arrange history maxOps).length

/-- No row behind the cut that may write was invoked before a row in front of it that reads
the same key had returned. -/
def CutApart (history : List HistoryEntry) (maxOps : Option ℤ) : Prop :=
  ∀ k ∈ arrange history maxOps, ∀ d ∈ dropped history maxOps,
    reads k.op → writes d.op → d.key = k.key → precedes k d

/-- Where the cut is depends on the number of completed rows only. -/
theorem arrange_take (maxOps : Option ℤ) :
    ∃ cut : ℕ → ℕ, ∀ history, arrange history maxOps =
      (arrange history none).take (cut (arrange history none).length) := by
  cases maxOps with
  | none => exact ⟨id, fun history => List.take_length.symm⟩
  | some m => exact ⟨fun n => (if m < 0 then m+n else m).toNat, fun history => rfl⟩

theorem arrange_append (history : List HistoryEntry) (maxOps : Option ℤ) :
    arrange history maxOps ++ dropped history maxOps = arrange history none := by
  obtain ⟨cut, hcut⟩ := arrange_take maxOps
  unfold dropped
  rw [hcut history, List.length_take]
  generalize cut (arrange history none).length = c
  conv_rhs => rw [← List.take_append_drop (min c (arrange history none).length)
    (arrange history none)]
  rw [List.take_eq_take_min]

/-! ### Leaving rows out of a linearization -/

variable {s t u : Dict Str Str} {op : HistoryEntry}

theorem apply_result (h : reads op.op → s.lookup op.key = t.lookup op.key) :
    (apply s op).2 = (apply t op).2 := by
  unfold apply
  cases hop : op.op with
  | put => rfl
  | noop => rfl
  | get =>
    dsimp only
    rw [h (Or.inl hop)]
  | cas =>
    dsimp only
    rw [h (Or.inr hop)]
    split <;> rfl

theorem apply_lookup {key : Str} (h : reads op.op → s.lookup op.key = t.lookup op.key)
    (hkey : s.lookup key = t.lookup key) :
    (apply s op).1.lookup key = (apply t op).1.lookup key := by
  unfold apply
  cases hop : op.op with
  | put =>
    dsimp only
    rw [Dict.lookup_insert_eq, Dict.lookup_insert_eq, hkey]
  | noop => exact hkey
  | get => exact hkey
  | cas =>
    dsimp only
    rw [h (Or.inr hop)]
    split
    · dsimp only
      rw [Dict.lookup_insert_eq, Dict.lookup_insert_eq, hkey]
    · exact hkey

theorem apply_frame {key : Str} (h : writes op.op → op.key ≠ key) :
    (apply s op).1.lookup key = s.lookup key := by
  unfold apply
  cases hop : op.op with
  | put => exact Finmap.lookup_insert_of_ne _ (h (Or.inl hop)).symm
  | noop => rfl
  | get => rfl
  | cas =>
    dsimp only
    split
    · exact Finmap.lookup_insert_of_ne _ (h (Or.inr hop)).symm
    · rfl

theorem place_eq_some : place s op = some t ↔
    op.observed = some (apply s op).2 ∧ (apply s op).1 = t := by
  unfold place
  dsimp only
  split
  next h => exact ⟨fun heq => ⟨h, Option.some.inj heq⟩, fun heq => congrArg some heq.2⟩
  next h => exact ⟨nofun, fun heq => absurd heq.1 h⟩

/-- A replay of marked and unmarked rows is, without the unmarked ones, a replay of the
marked ones, when no unmarked row writes what a later marked one reads. -/
theorem replay_marked (xs : List (HistoryEntry × Bool))
    (hagree : ∀ x ∈ xs, x.2 = true → reads x.1.op → s.lookup x.1.key = t.lookup x.1.key)
    (hapart : xs.Pairwise fun d k => d.2 = false → k.2 = true → reads k.1.op → writes d.1.op →
      d.1.key ≠ k.1.key)
    (h : replay place s (xs.map Prod.fst) = some u) :
    ∃ v, replay place t ((xs.filter Prod.snd).map Prod.fst) = some v := by
  induction xs generalizing s t with
  | nil => exact ⟨t, rfl⟩
  | cons x xs ih =>
    obtain ⟨row, mark⟩ := x
    obtain ⟨s', hs', h⟩ := Option.bind_eq_some_iff.mp h
    obtain ⟨hobs, rfl⟩ := place_eq_some.mp hs'
    obtain ⟨hfirst, hrest⟩ := List.pairwise_cons.mp hapart
    cases mark with
    -- a kept row sees what it saw, since its key reads alike in both stores
    | true =>
      have hread := hagree (row, true) List.mem_cons_self rfl
      obtain ⟨v, hv⟩ := ih (t := (apply t row).1) (fun y hy hmark hr =>
        apply_lookup hread (hagree y (List.mem_cons_of_mem _ hy) hmark hr)) hrest h
      refine ⟨v, ?_⟩
      change (place t row).bind _ = _
      rw [place_eq_some.mpr ⟨hobs.trans (congrArg some (apply_result hread)), rfl⟩]
      exact hv
    -- a row left out writes no key that a kept row behind it reads
    | false =>
      refine ih (fun y hy hmark hr => ?_) hrest h
      rw [apply_frame (hfirst y hy rfl hmark hr)]
      exact hagree y (List.mem_cons_of_mem _ hy) hmark hr

/-- Behind such a cut no verdict changes: without the rows behind it, a linearization of all
rows is one of those in front. -/
theorem linearizable_of_cutApart (hcut : CutApart history maxOps)
    (h : Linearizable (history.filter HistoryEntry.completed)) :
    Linearizable (arrange history maxOps) := by
  obtain ⟨order, hperm, hord, u, hrep⟩ := h.perm (arrange_perm history).symm
  have hmarked : arrange history none = ((arrange history maxOps).map (·, true) ++
      (dropped history maxOps).map (·, false)).map Prod.fst := by
    rw [List.map_append, List.map_map, List.map_map]
    change _ = (arrange history maxOps).map id ++ (dropped history maxOps).map id
    rw [List.map_id, List.map_id, arrange_append]
  obtain ⟨xs, hxs, rfl⟩ := exists_map_of_perm hperm _ hmarked
  have hmem : ∀ x ∈ xs, x.2 = true ∧ x.1 ∈ arrange history maxOps ∨
      x.2 = false ∧ x.1 ∈ dropped history maxOps := by
    intro x hx
    rcases List.mem_append.mp (hxs.subset hx) with hx | hx
    · obtain ⟨o, ho, rfl⟩ := List.mem_map.mp hx
      exact Or.inl ⟨rfl, ho⟩
    · obtain ⟨o, ho, rfl⟩ := List.mem_map.mp hx
      exact Or.inr ⟨rfl, ho⟩
  -- a row behind the cut that stands before a row in front of it is not preceded by that row
  have hapart : xs.Pairwise fun d k => d.2 = false → k.2 = true → reads k.1.op →
      writes d.1.op → d.1.key ≠ k.1.key := by
    refine (List.pairwise_map.mp hord).imp_of_mem fun {d k} hd hk hbefore hdm hkm hr hw hkey => ?_
    rcases hmem d hd with ⟨hm, -⟩ | ⟨-, hd⟩
    · rw [hm] at hdm
      cases hdm
    · rcases hmem k hk with ⟨-, hk⟩ | ⟨hm, -⟩
      · exact hbefore (hcut k.1 hk d.1 hd hr hw hkey)
      · rw [hm] at hkm
        cases hkm
  obtain ⟨v, hv⟩ := replay_marked (t := ∅) xs (fun _ _ _ _ => rfl) hapart hrep
  refine ⟨_, ?_, hord.sublist (List.filter_sublist.map Prod.fst), v, hv⟩
  have hfilter := (hxs.filter Prod.snd).map Prod.fst
  rw [List.filter_append, List.map_append] at hfilter
  have hkept : ((arrange history maxOps).map (·, true)).filter Prod.snd =
      (arrange history maxOps).map (·, true) :=
    List.filter_eq_self.mpr fun x hx => by
      obtain ⟨o, -, rfl⟩ := List.mem_map.mp hx
      rfl
  have hgone : ((dropped history maxOps).map (·, false)).filter Prod.snd = [] :=
    List.filter_eq_nil_iff.mpr fun x hx => by
      obtain ⟨o, -, rfl⟩ := List.mem_map.mp hx
      exact nofun
  rw [hkept, hgone, List.map_nil, List.append_nil, List.map_map] at hfilter
  refine hfilter.trans (List.Perm.of_eq ?_)
  exact List.map_id _

/-! ### Histories of one shape -/

section
variable {α β : Type} {f : α → β} {r : α → α → Prop} [DecidableRel r]

/-- An insertion depends on what the relation looks at only, so its result can be relabelled
as far as the relation does not look. -/
theorem exists_orderedInsert_eq (hr : ∀ a a' b b', f a = f a' → f b = f b' → (r a b ↔ r a' b'))
    (a : α) (xs ys : List α) (h : ys.map f = (xs.orderedInsert r a).map f) :
    ∃ (a' : α) (xs' : List α), f a' = f a ∧ xs'.map f = xs.map f ∧ xs'.orderedInsert r a' = ys := by
  induction xs generalizing ys with
  | nil =>
    obtain ⟨a', ys, rfl, ha, hys⟩ := List.map_eq_cons_iff.mp h
    obtain rfl := List.map_eq_nil_iff.mp hys
    exact ⟨a', [], ha, rfl, rfl⟩
  | cons b xs ih =>
    rw [List.orderedInsert_cons] at h
    split at h
    next hab =>
      obtain ⟨a', ys, rfl, ha, hys⟩ := List.map_eq_cons_iff.mp h
      obtain ⟨b', xs', rfl, hb, hxs⟩ := List.map_eq_cons_iff.mp hys
      refine ⟨a', b' :: xs', ha, by rw [List.map_cons, List.map_cons, hb, hxs], ?_⟩
      rw [List.orderedInsert_cons, if_pos ((hr a' a b' b ha hb).mpr hab)]
    next hab =>
      obtain ⟨b', ys, rfl, hb, hys⟩ := List.map_eq_cons_iff.mp h
      obtain ⟨a', xs', ha, hxs, rfl⟩ := ih ys hys
      refine ⟨a', b' :: xs', ha, by rw [List.map_cons, List.map_cons, hb, hxs], ?_⟩
      rw [List.orderedInsert_cons, if_neg (mt (hr a' a b' b ha hb).mp hab)]

theorem exists_insertionSort_eq (hr : ∀ a a' b b', f a = f a' → f b = f b' → (r a b ↔ r a' b'))
    (xs ys : List α) (h : ys.map f = (xs.insertionSort r).map f) :
    ∃ xs' : List α, xs'.map f = xs.map f ∧ xs'.insertionSort r = ys := by
  induction xs generalizing ys with
  | nil =>
    obtain rfl := List.map_eq_nil_iff.mp h
    exact ⟨[], rfl, rfl⟩
  | cons a xs ih =>
    obtain ⟨a', zs, ha, hzs, rfl⟩ := exists_orderedInsert_eq hr a (xs.insertionSort r) ys h
    obtain ⟨xs', hxs, rfl⟩ := ih zs hzs
    exact ⟨a' :: xs', by rw [List.map_cons, List.map_cons, ha, hxs], rfl⟩

theorem exists_filter_eq {p : α → Bool} (hp : ∀ a a', f a = f a' → p a = p a') (xs ys : List α)
    (h : ys.map f = (xs.filter p).map f) :
    ∃ xs' : List α, xs'.map f = xs.map f ∧ xs'.filter p = ys := by
  induction xs generalizing ys with
  | nil =>
    obtain rfl := List.map_eq_nil_iff.mp h
    exact ⟨[], rfl, rfl⟩
  | cons a xs ih =>
    rw [List.filter_cons] at h
    split at h
    next ha =>
      obtain ⟨a', ys, rfl, haa, hys⟩ := List.map_eq_cons_iff.mp h
      obtain ⟨xs', hxs, rfl⟩ := ih ys hys
      refine ⟨a' :: xs', by rw [List.map_cons, List.map_cons, haa, hxs], ?_⟩
      rw [List.filter_cons, if_pos ((hp a' a haa).trans ha)]
    next ha =>
      obtain ⟨xs', hxs, rfl⟩ := ih ys h
      refine ⟨a :: xs', by rw [List.map_cons, List.map_cons, hxs], ?_⟩
      rw [List.filter_cons, if_neg ha]

end

/-- All of a row but its value, what it expects and what it has observed. -/
structure Shape where
  clientId : ℤ
  reqId : ℤ
  op : Op
  key : Str
  invokeStep : ℤ
  returnStep : Option ℤ

def shape (o : HistoryEntry) : Shape where
  clientId := o.clientId
  reqId := o.reqId
  op := o.op
  key := o.key
  invokeStep := o.invokeStep
  returnStep := o.returnStep

/-- `sortKey` and `ret` see the shape only. -/
def Shape.ret (p : Shape) : ℤ := p.returnStep.getD 0

def Shape.sortKey (p : Shape) : ℤ ×ₗ ℤ ×ₗ ℤ ×ₗ ℤ :=
  toLex (p.invokeStep, toLex (p.ret, toLex (p.clientId, p.reqId)))

theorem ordered_shape {xs : List HistoryEntry} : Ordered precedes xs ↔
    Ordered (fun p q : Shape => p.ret < q.invokeStep) (xs.map shape) := by
  unfold Ordered
  rw [List.pairwise_map]
  rfl

theorem arrange_shape (history : List HistoryEntry) : (arrange history none).map shape =
    ((history.map shape).filter (·.returnStep.isSome)).insertionSort
      fun p q => p.sortKey ≤ q.sortKey := by
  rw [List.filter_map]
  exact List.map_insertionSort _ _ shape _ fun _ _ _ _ => Iff.rfl

/-- Rows of the shapes of the sorted completed rows are what some history of the same shape
is sorted to. -/
theorem exists_arrange_eq {rows : List HistoryEntry}
    (h : rows.map shape = (arrange history none).map shape) :
    ∃ history' : List HistoryEntry, history'.map shape = history.map shape ∧
      arrange history' none = rows := by
  have hkey : ∀ a a' : HistoryEntry, shape a = shape a' → sortKey a = sortKey a' :=
    fun a a' ha => congrArg Shape.sortKey ha
  obtain ⟨done, hdone, hsort⟩ := exists_insertionSort_eq (f := shape)
    (fun a a' b b' ha hb => by rw [hkey a a' ha, hkey b b' hb]) _ rows h
  obtain ⟨history', hshape, rfl⟩ := exists_filter_eq (f := shape)
    (p := HistoryEntry.completed)
    (fun a a' ha => congrArg (fun p : Shape => p.returnStep.isSome) ha) history done hdone
  exact ⟨history', hshape, hsort⟩

theorem arrange_of_length {history' : List HistoryEntry}
    (h : (arrange history' none).length = (arrange history none).length) :
    arrange history' maxOps = (arrange history' none).take (arrange history maxOps).length := by
  obtain ⟨cut, hcut⟩ := arrange_take maxOps
  rw [hcut history', hcut history, List.length_take, h]
  conv_lhs => rw [List.take_eq_take_min, h]

/-- Whether the cut separates a reader from a writer of its key is a matter of shapes. -/
theorem CutApart.shape {history' : List HistoryEntry} (h : CutApart history maxOps)
    (hshape : history'.map shape = history.map shape) : CutApart history' maxOps := by
  have hall : (arrange history' none).map Linearizability.shape =
      (arrange history none).map Linearizability.shape := by
    rw [arrange_shape, arrange_shape, hshape]
  have hlen : (arrange history' none).length = (arrange history none).length := by
    have hl := congrArg List.length hall
    rwa [List.length_map, List.length_map] at hl
  have hkept : arrange history' maxOps =
      (arrange history' none).take (arrange history maxOps).length := arrange_of_length hlen
  -- the cut falls at the same place, so both sides keep their shapes
  have hkept' : (arrange history' maxOps).map Linearizability.shape =
      (arrange history maxOps).map Linearizability.shape := by
    rw [hkept, List.map_take, hall, ← List.map_take]
    rw [← arrange_of_length rfl]
  have hgone : (dropped history' maxOps).map Linearizability.shape =
      (dropped history maxOps).map Linearizability.shape := by
    have hl := congrArg List.length hkept'
    rw [List.length_map, List.length_map] at hl
    unfold dropped
    rw [List.map_drop, List.map_drop, hall, hl]
  intro k hk d hd hr hw hkey
  -- a row of the one history stands for the row of the same shape in the other
  have hks := List.mem_map_of_mem (f := Linearizability.shape) hk
  have hds := List.mem_map_of_mem (f := Linearizability.shape) hd
  rw [hkept'] at hks
  rw [hgone] at hds
  obtain ⟨k', hk', hkeq⟩ := List.mem_map.mp hks
  obtain ⟨d', hd', hdeq⟩ := List.mem_map.mp hds
  have hop : k'.op = k.op := congrArg Shape.op hkeq
  have hop' : d'.op = d.op := congrArg Shape.op hdeq
  have hkk : k'.key = k.key := congrArg Shape.key hkeq
  have hdk : d'.key = d.key := congrArg Shape.key hdeq
  have hbefore := h k' hk' d' hd' (hop ▸ hr) (hop' ▸ hw) (by rw [hdk, hkk, hkey])
  have hret : ret k' = ret k := congrArg Shape.ret hkeq
  have hinv : d'.invokeStep = d.invokeStep := congrArg Shape.invokeStep hdeq
  unfold precedes at hbefore ⊢
  rwa [hret, hinv] at hbefore

/-! ### A row behind the cut that has been seen -/

/-- The row as it is observed on a store that reads `value` at its key and keeps doing so. -/
def fill (value : Str) (o : HistoryEntry) : HistoryEntry :=
  { o with
    value
    expected := "w".toList
    observed := match o.op with
      | .put => some "ok".toList
      | .get => some value
      | .cas => some "fail".toList
      | .noop => some [] }

/-- The row that changes its key from nothing to `v`. -/
def writer (o : HistoryEntry) : HistoryEntry :=
  { o with value := "v".toList, expected := [], observed := some "ok".toList }

/-- The row that has seen the change. -/
def reader (o : HistoryEntry) : HistoryEntry :=
  { o with
    value := "v".toList
    expected := "v".toList
    observed := if o.op = .get then some "v".toList else some "ok".toList }

/-- The store reads `f key` at every key. -/
def Holds (s : Dict Str Str) (f : Str → Str) : Prop := ∀ key, (s.lookup key).getD [] = f key

/-- Every key before the change, and after it. -/
def blank : Str → Str := fun _ => []

def changed (x : Str) : Str → Str := fun key => if key = x then "v".toList else []

variable {f g : Str → Str} {o k d : HistoryEntry}

theorem holds_insert {key value : Str} (h : Holds s f) (hkey : g key = value)
    (hne : ∀ j, j ≠ key → g j = f j) : Holds (s.insert key value) g := by
  intro j
  rw [Dict.lookup_insert_eq]
  split
  next heq => rw [heq, hkey]; rfl
  next hj => rw [h j, hne j hj]

theorem place_fill (h : Holds s f) (hw : f o.key ≠ "w".toList) :
    ∃ t, place s (fill (f o.key) o) = some t ∧ Holds t f := by
  refine ⟨_, place_eq_some.mpr ⟨?_, rfl⟩, ?_⟩ <;> unfold apply fill <;> dsimp only <;>
    cases o.op <;> dsimp only
  · rw [h o.key]
  · rw [h o.key, if_neg hw]
  · exact holds_insert h rfl fun _ _ => rfl
  · exact h
  · rw [h o.key, if_neg hw]
    exact h
  · exact h

theorem replay_fill (hw : ∀ key, f key ≠ "w".toList) (xs : List HistoryEntry) (h : Holds s f) :
    ∃ t, replay place s (xs.map fun o => fill (f o.key) o) = some t ∧ Holds t f := by
  induction xs generalizing s with
  | nil => exact ⟨s, rfl, h⟩
  | cons o xs ih =>
    obtain ⟨t, ht, hold⟩ := place_fill h (hw o.key)
    obtain ⟨u, hu, hold'⟩ := ih hold
    refine ⟨u, ?_, hold'⟩
    rw [List.map_cons, replay, ht]
    exact hu

theorem place_writer (h : Holds s blank) (hd : writes d.op) :
    ∃ t, place s (writer d) = some t ∧ Holds t (changed d.key) := by
  have hins : Holds (s.insert d.key "v".toList) (changed d.key) :=
    holds_insert h (if_pos rfl) fun j hj => if_neg hj
  have hnil : (s.lookup d.key).getD [] = [] := h d.key
  refine ⟨_, place_eq_some.mpr ⟨?_, rfl⟩, ?_⟩ <;> unfold apply writer <;> dsimp only <;>
    rcases hd with hop | hop <;> rw [hop] <;> dsimp only
  · rw [if_pos hnil]
  · exact hins
  · rw [if_pos hnil]
    exact hins

theorem place_reader (h : Holds s (changed k.key)) (hk : reads k.op) :
    ∃ t, place s (reader k) = some t ∧ Holds t (changed k.key) := by
  have hv : (s.lookup k.key).getD [] = "v".toList := (h k.key).trans (if_pos rfl)
  refine ⟨_, place_eq_some.mpr ⟨?_, rfl⟩, ?_⟩ <;> unfold apply reader <;> dsimp only <;>
    rcases hk with hop | hop <;> rw [hop] <;> dsimp only
  · rw [hv, if_pos rfl]
  · rw [if_pos hv, if_neg nofun]
  · exact h
  · rw [if_pos hv]
    exact holds_insert h (if_pos rfl) fun _ _ => rfl

/-- Before the change nothing has been seen. -/
theorem place_reader_blank (h : Holds s blank) (hk : reads k.op) : place s (reader k) = none := by
  have hv : (s.lookup k.key).getD [] = [] := h k.key
  cases hp : place s (reader k) with
  | none => rfl
  | some t =>
    obtain ⟨hobs, -⟩ := place_eq_some.mp hp
    unfold apply reader at hobs
    dsimp only at hobs
    rcases hk with hop | hop <;> rw [hop] at hobs <;> dsimp only at hobs
    · rw [hv, if_pos rfl] at hobs
      cases hobs
    · rw [hv, if_neg nofun, if_neg nofun] at hobs
      cases hobs

/-- Rows that change nothing and the reader cannot all be placed. -/
theorem not_replay_reader (hk : reads k.op) (xs : List HistoryEntry)
    (hxs : ∀ o ∈ xs, o = reader k ∨ ∃ o', o = fill [] o') (hmem : reader k ∈ xs)
    (h : Holds s blank) : replay place s xs = none := by
  induction xs generalizing s with
  | nil => cases hmem
  | cons o xs ih =>
    rcases hxs o List.mem_cons_self with rfl | ⟨o', rfl⟩
    · rw [replay, place_reader_blank h hk]
      rfl
    · obtain ⟨t, ht, hold⟩ := place_fill (f := blank) (o := o') h (List.cons_ne_nil 'w' []).symm
      have htail : reader k ∈ xs := by
        rcases List.mem_cons.mp hmem with heq | hmem
        · have hnone := place_reader_blank h hk
          rw [heq] at hnone
          exact absurd (hnone.symm.trans ht) (Option.some_ne_none t).symm
        · exact hmem
      rw [replay]
      change (place s (fill (blank o'.key) o')).bind _ = none
      rw [ht]
      exact ih (fun a ha => hxs a (List.mem_cons_of_mem _ ha)) htail hold

/-- A bounded check of the history never condemns it wrongly, whatever the budget. -/
def Sound (history : List HistoryEntry) (maxOps : Option ℤ) : Prop :=
  ∀ budget fuel r, check budget history maxOps fuel = some r → r.Refuted →
    ¬ Linearizable (history.filter HistoryEntry.completed)

theorem sound_of_cutApart (h : CutApart history maxOps) : Sound history maxOps := by
  intro budget fuel r hr href hlin
  obtain ⟨fuel', r', hrun, -, hrefuted, -⟩ := check_verdict history maxOps budget
  have hsame : r' = r := by
    have hlarge := hrun (max fuel fuel') (le_max_right _ _)
    have hmono : check budget history maxOps (max fuel fuel') = some r := by
      unfold check at hr ⊢
      dsimp only at hr ⊢
      split at hr
      next hnil => rwa [if_pos hnil]
      next hnil =>
        rw [if_neg hnil]
        obtain ⟨p, hp, rfl⟩ := Option.map_eq_some_iff.mp hr
        exact Option.map_eq_some_iff.mpr ⟨p, Loop.run_mono hp (le_max_left _ _), rfl⟩
    exact Option.some.inj (hlarge.symm.trans hmono)
  exact hrefuted (hsame ▸ href) (linearizable_of_cutApart h hlin)

/-- Rows in front of the cut that have no linearization are condemned, with a large enough
budget. -/
theorem exists_refuted (h : ¬ Linearizable (arrange history maxOps)) :
    ∃ budget fuel r, check budget history maxOps fuel = some r ∧ r.Refuted := by
  obtain ⟨fuel, r, hrun, hsound, -, htwo, hopen⟩ := check_verdict history maxOps
    (start (arrange history maxOps)).size
  refine ⟨_, fuel, r, hrun fuel le_rfl, ?_⟩
  have hfalse : r.linearizable = false := by
    cases hl : r.linearizable with
    | false => rfl
    | true =>
      obtain ⟨order, -, ho⟩ := hsound hl
      exact absurd ⟨order, ho⟩ h
  rcases htwo hfalse with href | hund
  · exact href
  · obtain ⟨s, -, hlt, hle, -⟩ := hopen hund
    exact absurd hlt (by omega)

/-- No row returned before it was invoked. -/
def Stamped (history : List HistoryEntry) : Prop :=
  ∀ o ∈ history, ∀ step, o.returnStep = some step → o.invokeStep ≤ step

theorem arrange_sorted (history : List HistoryEntry) (h : Stamped history) :
    (arrange history none).Pairwise fun a b => a.invokeStep ≤ b.invokeStep ∧ ¬ precedes b a := by
  have htotal : Std.Total fun a b : HistoryEntry => sortKey a ≤ sortKey b :=
    ⟨fun a b => le_total _ _⟩
  have htrans : IsTrans HistoryEntry fun a b => sortKey a ≤ sortKey b :=
    ⟨fun _ _ _ hab hbc => hab.trans hbc⟩
  have hsort := List.pairwise_insertionSort (fun a b : HistoryEntry => sortKey a ≤ sortKey b)
    (history.filter HistoryEntry.completed)
  refine hsort.imp_of_mem fun {a b} _ hb hab => ?_
  have hle : a.invokeStep ≤ b.invokeStep := Prod.Lex.monotone_fst _ _ hab
  refine ⟨hle, not_lt.mpr (hle.trans ?_)⟩
  obtain ⟨hmem, hdone⟩ := List.mem_filter.mp (List.mem_insertionSort _ |>.mp hb)
  obtain ⟨step, hstep⟩ := Option.isSome_iff_exists.mp hdone
  unfold ret
  rw [hstep]
  exact h b hmem step hstep

/-- A reader in front of the cut that had not returned when a writer of its key behind the
cut was invoked may have seen the writer: then only the rows in front are condemned. -/
theorem not_sound_of_overlap (hstamped : Stamped history) (h : ¬ CutApart history maxOps) :
    ∃ history' : List HistoryEntry, history'.map shape = history.map shape ∧
      ¬ Sound history' maxOps := by
  unfold CutApart at h
  push Not at h
  obtain ⟨k, hk, d, hd, hread, hwrite, hkey, hover⟩ := h
  obtain ⟨A, B, hkept⟩ := List.append_of_mem hk
  obtain ⟨C, D, hgone⟩ := List.append_of_mem hd
  have hall : arrange history none = A ++ k :: ((B ++ C ++ [d]) ++ D) := by
    rw [← arrange_append history maxOps, hkept, hgone]
    simp
  have hsorted := arrange_sorted history hstamped
  rw [hall] at hsorted
  -- the rows with their new contents, in the order of the keys
  have hfilled : ((A.map (fill []) ++ reader k :: B.map (fill [])) ++
      (C.map (fill []) ++ writer d :: D.map fun o => fill (changed k.key o.key) o)).map shape =
        (arrange history none).map shape := by
    rw [hall]
    simp only [List.map_append, List.map_cons, List.map_map, List.append_assoc, List.cons_append,
      List.nil_append]
    rfl
  obtain ⟨history', hshape, hrows⟩ := exists_arrange_eq hfilled
  refine ⟨history', hshape, fun hsound => ?_⟩
  have hfront : arrange history' maxOps = A.map (fill []) ++ reader k :: B.map (fill []) := by
    have hlen : (arrange history' none).length = (arrange history none).length := by
      rw [hrows, hall]
      simp
    rw [arrange_of_length hlen, hrows, hkept]
    exact List.take_left' (by simp)
  -- in front of the cut, the reader has seen a value that nobody wrote
  have hbad : ¬ Linearizable (arrange history' maxOps) := by
    rintro ⟨order, hperm, -, t, hrep⟩
    rw [hfront] at hperm
    have hnone := not_replay_reader (s := ∅) hread order (fun o ho => ?_)
      (hperm.symm.subset (by simp)) fun _ => rfl
    · rw [hnone] at hrep
      cases hrep
    · have hmem := hperm.subset ho
      simp only [List.mem_append, List.mem_map, List.mem_cons] at hmem
      rcases hmem with ⟨o', -, rfl⟩ | rfl | ⟨o', -, rfl⟩
      · exact Or.inr ⟨o', rfl⟩
      · exact Or.inl rfl
      · exact Or.inr ⟨o', rfl⟩
  obtain ⟨budget, fuel, r, hr, href⟩ := exists_refuted hbad
  refine hsound budget fuel r hr href (Linearizable.perm ?_ (arrange_perm history'))
  -- with the writer moved in front of it, everything has been seen as it was
  refine ⟨A.map (fill []) ++ ((B ++ C).map (fill []) ++ (writer d :: reader k ::
    D.map fun o => fill (changed k.key o.key) o)), ?_, ?_, ?_⟩
  · rw [hrows]
    have hmiddle : ((B ++ C).map (fill []) ++ [writer d] ++
        reader k :: D.map fun o => fill (changed k.key o.key) o).Perm
          (reader k :: ((B ++ C).map (fill []) ++ [writer d] ++
            D.map fun o => fill (changed k.key o.key) o)) := List.perm_middle
    have hmove := hmiddle.append_left (A.map (fill []))
    simpa only [List.map_append, List.append_assoc, List.cons_append, List.nil_append] using hmove
  · have hord : Ordered precedes (A ++ ((B ++ C ++ [d]) ++ k :: D)) := by
      refine Ordered.move (hsorted.imp And.right) fun b hb => not_lt.mpr ?_
      have hinv : b.invokeStep ≤ d.invokeStep := by
        rcases List.mem_append.mp hb with hb | hb
        · have hpair := (List.pairwise_append.mp hsorted).2.1.of_cons
          have hpair' := (List.pairwise_append.mp hpair).1
          exact ((List.pairwise_append.mp hpair').2.2 b hb d (List.mem_singleton_self d)).1
        · rw [List.mem_singleton.mp hb]
      exact hinv.trans (not_lt.mp hover)
    rw [ordered_shape] at hord ⊢
    simp only [List.map_append, List.map_cons, List.map_map, List.append_assoc, List.cons_append,
      List.nil_append] at hord ⊢
    exact hord
  · obtain ⟨s1, h1, hold1⟩ := replay_fill (s := ∅) (f := blank) (fun _ => nofun) A fun _ => rfl
    obtain ⟨s2, h2, hold2⟩ := replay_fill (f := blank) (fun _ => nofun) (B ++ C) hold1
    obtain ⟨s3, h3, hold3⟩ := place_writer hold2 hwrite
    rw [hkey] at hold3
    obtain ⟨s4, h4, hold4⟩ := place_reader hold3 hread
    have hchanged : ∀ key, changed k.key key ≠ "w".toList := by
      intro key
      unfold changed
      split <;> exact nofun
    obtain ⟨s5, h5, -⟩ := replay_fill hchanged D hold4
    refine ⟨s5, ?_⟩
    rw [replay_append]
    change (replay place ∅ (A.map fun o => fill (blank o.key) o)).bind _ = _
    rw [h1, Option.bind_some, replay_append]
    change (replay place s1 ((B ++ C).map fun o => fill (blank o.key) o)).bind _ = _
    rw [h2, Option.bind_some, replay, h3, Option.bind_some, replay, h4, Option.bind_some]
    exact h5

/-- When the cut keeps every reader apart from the writers of its key behind it, the bounded
check is a sound detector of violations; and it is one for all values and results of these
rows only then. -/
theorem bounded_check_sound (history : List HistoryEntry) (maxOps : Option ℤ) :
    (CutApart history maxOps → Sound history maxOps) ∧
    (Stamped history →
      ((∀ history' : List HistoryEntry, history'.map shape = history.map shape →
        Sound history' maxOps) ↔ CutApart history maxOps)) := by
  refine ⟨sound_of_cutApart, fun hstamped => ⟨fun hall => ?_, fun hcut history' hshape => ?_⟩⟩
  · by_contra hcut
    obtain ⟨history', hshape, hnot⟩ := not_sound_of_overlap hstamped hcut
    exact hnot (hall history' hshape)
  · exact sound_of_cutApart (hcut.shape hshape)

/-- A read that has seen a write it overlaps, with the write behind the cut. -/
def readAhead : List HistoryEntry :=
  [ { clientId := 0, reqId := 0, op := .get, key := "x".toList, value := [], expected := []
      invokeStep := 0, returnStep := some 10, observed := some "v".toList },
    { clientId := 1, reqId := 0, op := .put, key := "x".toList, value := "v".toList, expected := []
      invokeStep := 5, returnStep := some 6, observed := some "ok".toList } ]

theorem read_ahead_condemned : (∃ r, check 500000 readAhead (some 1) 10 = some r ∧ r.Refuted) ∧
    Linearizable (readAhead.filter HistoryEntry.completed) := by
  constructor
  · have hfind : (check 500000 readAhead (some 1) 10).map (·.finding) = some (.stuck 0 1) := by
      decide +kernel
    obtain ⟨r, hr, hf⟩ := Option.map_eq_some_iff.mp hfind
    exact ⟨r, hr, 0, 1, hf⟩
  · have hreplay : (replay place ∅ readAhead.reverse).isSome = true := by decide +kernel
    refine ⟨readAhead.reverse, ?_, ?_, Option.isSome_iff_exists.mp hreplay⟩
    · exact List.reverse_perm readAhead
    · unfold Ordered
      decide +kernel

end Linearizability
end RaftVerified
