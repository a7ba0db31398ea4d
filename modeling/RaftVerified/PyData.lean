import Mathlib.Data.Finmap
import RaftVerified.Raising

/-! Python's lists, dictionaries and exceptions, as far as the node uses them. -/
namespace RaftVerified

inductive PyError
  | indexError
  | keyError
  deriving DecidableEq, Repr

/-- `l[k]`: a negative `k` counts from the end. -/
def pyGet {α : Type*} (l : List α) (k : ℤ) : Except PyError α :=
  let k' := if k < 0 then k+l.length else k
  if k' < 0 then .error .indexError
  else match l[k'.toNat]? with
    | some a => .ok a
    | none => .error .indexError

/-- What `del l[k:]` leaves: a negative `k` counts from the end. -/
def delFrom {α : Type*} (l : List α) (k : ℤ) : List α :=
  l.take (if k < 0 then k+l.length else k).toNat

theorem pyGet_of_nonneg {α : Type*} (l : List α) (k : ℕ) :
    pyGet l k = match l[k]? with
      | some a => .ok a
      | none => .error .indexError := by
  have hk : ¬ (k : ℤ) < 0 := by omega
  simp only [pyGet, hk, ↓reduceIte, Int.toNat_natCast]

theorem pyGet_eq_ok {α : Type*} (l : List α) (k : ℕ) (a : α) :
    pyGet l k = .ok a ↔ l[k]? = some a := by
  rw [pyGet_of_nonneg]
  cases l[k]? <;> simp

theorem delFrom_of_nonneg {α : Type*} (l : List α) (k : ℕ) : delFrom l k = l.take k := by
  have hk : ¬ (k : ℤ) < 0 := by omega
  simp only [delFrom, hk, ↓reduceIte, Int.toNat_natCast]

/-- A Python `dict`. Two dictionaries with the same items are equal. -/
abbrev Dict (K V : Type) := Finmap fun _ : K => V

/-- `dict.fromkeys(ks, v)`. -/
def Dict.fromKeys {K V : Type} [DecidableEq K] (ks : List K) (v : V) : Dict K V :=
  ks.foldl (fun d k => d.insert k v) ∅

theorem lookup_foldl_insert {K V : Type} [DecidableEq K] (ks : List K) (v : V) (d : Dict K V)
    (k : K) : (ks.foldl (fun d k => d.insert k v) d).lookup k =
      if k ∈ ks then some v else d.lookup k := by
  induction ks generalizing d with
  | nil => simp
  | cons a ks ih =>
    rw [List.foldl_cons, ih]
    by_cases hk : k ∈ ks
    · simp [hk]
    · by_cases ha : k = a
      · subst ha
        simp
      · simp [hk, ha, Finmap.lookup_insert_of_ne]

@[simp] theorem Dict.lookup_fromKeys {K V : Type} [DecidableEq K] (ks : List K) (v : V) (k : K) :
    (Dict.fromKeys ks v).lookup k = if k ∈ ks then some v else none := by
  rw [Dict.fromKeys, lookup_foldl_insert, Finmap.lookup_empty]

theorem Dict.lookup_insert_eq {K V : Type} [DecidableEq K] (d : Dict K V) (a k : K) (v : V) :
    (d.insert a v).lookup k = if k = a then some v else d.lookup k := by
  by_cases h : k = a
  · subst h
    simp
  · simp [h, Finmap.lookup_insert_of_ne]

end RaftVerified
