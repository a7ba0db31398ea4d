import Mathlib.Algebra.GroupWithZero.Nat
import RaftVerified.Linearizability
import RaftVerified.Linearization

/-! The search of the oracle: it ends, what it finds is a linearization, and it does not give
up while there is one. -/
namespace RaftVerified
namespace Linearizability
open Linearization

/-! ### The minimal rows -/

section
variable {α : Type} {r : α → ℤ} {seen : List α} {mins : Option α × Option α} {p : α}

/-- What the two variables hold after the rows seen so far. -/
def Mins (r : α → ℤ) (seen : List α) : Option α × Option α → Prop
  | (none, _) => seen = []
  | (some a, none) => seen = [a]
  | (some a, some b) => a ∈ seen ∧ b ∈ seen ∧ a ≠ b ∧ (∀ q ∈ seen, r a ≤ r q) ∧
      ∀ q ∈ seen, q ≠ a → r b ≤ r q

theorem smaller_mins (h : Mins r seen mins) (hp : p ∉ seen) :
    Mins r (seen ++ [p]) (smaller r mins p) := by
  obtain ⟨_ | a, b⟩ := mins
  · obtain rfl : seen = [] := h
    exact rfl
  -- what is seen now was seen before, or is the new value
  · have hcons : ∀ q ∈ seen ++ [p], q ∈ seen ∨ q = p := fun q hq =>
      (List.mem_append.mp hq).imp_right List.mem_singleton.mp
    have hnew : p ∈ seen ++ [p] := List.mem_append_right seen (List.mem_singleton_self p)
    have hold : ∀ q ∈ seen, q ∈ seen ++ [p] := fun q hq => List.mem_append_left [p] hq
    have hne : ∀ q ∈ seen, q ≠ p := fun q hq heq => hp (heq ▸ hq)
    unfold smaller
    dsimp only
    cases b with
    -- one value has been seen so far, and the new one goes before or after it
    | none =>
      obtain rfl : seen = [a] := h
      have ha := List.mem_singleton_self a
      split
      next hlt =>
        refine ⟨hnew, hold a ha, (hne a ha).symm, fun q hq => ?_, fun q hq hqp => ?_⟩
        · rcases hcons q hq with hq | rfl
          · rw [List.mem_singleton.mp hq]
            exact hlt.le
          · exact le_rfl
        · rcases hcons q hq with hq | rfl
          · rw [List.mem_singleton.mp hq]
          · exact absurd rfl hqp
      next hge =>
        refine ⟨hold a ha, hnew, hne a ha, fun q hq => ?_, fun q hq hqa => ?_⟩
        · rcases hcons q hq with hq | rfl
          · rw [List.mem_singleton.mp hq]
          · exact not_lt.mp hge
        · rcases hcons q hq with hq | rfl
          · exact absurd (List.mem_singleton.mp hq) hqa
          · exact le_rfl
    -- two have been seen: the new one goes first, between them, or behind both
    | some b =>
      obtain ⟨ha, hb, hab, hmin, hsnd⟩ := h
      split
      next hlt =>
        refine ⟨hnew, hold a ha, (hne a ha).symm, fun q hq => ?_, fun q hq hqp => ?_⟩
        · rcases hcons q hq with hq | rfl
          · exact hlt.le.trans (hmin q hq)
          · exact le_rfl
        · rcases hcons q hq with hq | rfl
          · exact hmin q hq
          · exact absurd rfl hqp
      next hge =>
        have hall : ∀ q ∈ seen ++ [p], r a ≤ r q := by
          intro q hq
          rcases hcons q hq with hq | rfl
          · exact hmin q hq
          · exact not_lt.mp hge
        dsimp only
        split
        next hlt =>
          refine ⟨hold a ha, hnew, hne a ha, hall, fun q hq hqa => ?_⟩
          rcases hcons q hq with hq | rfl
          · exact hlt.le.trans (hsnd q hq hqa)
          · exact le_rfl
        next hge2 =>
          refine ⟨hold a ha, hold b hb, hab, hall, fun q hq hqa => ?_⟩
          rcases hcons q hq with hq | rfl
          · exact hsnd q hq hqa
          · exact not_lt.mp hge2

theorem foldl_smaller_mins (h : Mins r seen mins) (xs : List α)
    (hnodup : (seen ++ xs).Nodup) : Mins r (seen ++ xs) (xs.foldl (smaller r) mins) := by
  induction xs generalizing seen mins with
  | nil => rwa [List.append_nil]
  | cons p xs ih =>
    have hp : p ∉ seen := fun hmem =>
      (List.nodup_append.mp hnodup).2.2 p hmem p List.mem_cons_self rfl
    rw [List.append_cons] at hnodup ⊢
    exact ih (smaller_mins h hp) hnodup

theorem twoSmallest_mins {pending : List α} (hnodup : pending.Nodup) :
    Mins r pending (twoSmallest r pending) :=
  foldl_smaller_mins (show Mins r [] (none, none) from rfl) pending hnodup

end

variable {ops : List HistoryEntry} {budget : ℤ}

/-- `place` and `precedes` for the rows of `ops`, by index. -/
def placeAt (ops : List HistoryEntry) (store : Dict Str Str) (i : Fin ops.length) :
    Option (Dict Str Str) := place store (ops.get i)

def precedesAt (ops : List HistoryEntry) (i j : Fin ops.length) : Prop :=
  precedes (ops.get i) (ops.get j)

theorem mem_minimal {pending : List (Fin ops.length)} (hnodup : pending.Nodup)
    {p : Fin ops.length} :
    p ∈ minimal ops pending ↔ Foremost (precedesAt ops) pending p := by
  have hmins := twoSmallest_mins (r := fun p => ret (ops.get p)) hnodup
  unfold minimal Foremost precedesAt precedes
  split
  -- a single pending row waits for nobody
  next q =>
    constructor
    · intro hp
      refine ⟨hp, fun q' hq' hne => ?_⟩
      exact absurd ((List.mem_singleton.mp hq').trans (List.mem_singleton.mp hp).symm) hne
    · exact fun h => h.1
  next hlen =>
    generalize twoSmallest (fun p => ret (ops.get p)) pending = mins at hmins ⊢
    obtain ⟨_ | a, _ | b⟩ := mins
    · obtain rfl : pending = [] := hmins
      exact ⟨nofun, fun h => h.1⟩
    · obtain rfl : pending = [] := hmins
      exact ⟨nofun, fun h => h.1⟩
    · exact absurd hmins (hlen a)
    -- a row is compared with the smallest return among the others
    · obtain ⟨ha, hb, hab, hmin, hsnd⟩ := hmins
      dsimp only
      rw [List.mem_filter, decide_eq_true_iff]
      refine and_congr_right fun hp => ?_
      by_cases hpa : p = a
      · -- the smallest return is the row's own, so the second-smallest counts
        rw [if_pos hpa]
        constructor
        · exact fun hle q hq hqp => not_lt.mpr (hle.trans (hsnd q hq (hpa ▸ hqp)))
        · exact fun h => not_lt.mp (h b hb (hpa ▸ hab.symm))
      · rw [if_neg hpa]
        constructor
        · exact fun hle q hq _ => not_lt.mpr (hle.trans (hmin q hq))
        · exact fun h => not_lt.mp (h a ha (Ne.symm hpa))

theorem minimal_length (pending : List (Fin ops.length)) :
    (minimal ops pending).length ≤ pending.length := by
  unfold minimal
  split
  · exact le_rfl
  · split
    · exact List.length_filter_le _ _
    · exact Nat.zero_le _

theorem placeAt_eq {store t : Dict Str Str} {i : Fin ops.length} :
    placeAt ops store i = some t ↔ (ops.get i).observed = some (apply store (ops.get i)).2 ∧
      (apply store (ops.get i)).1 = t := by
  unfold placeAt place
  dsimp only
  split
  next h => exact ⟨fun heq => ⟨h, Option.some.inj heq⟩, fun heq => congrArg some heq.2⟩
  next h => exact ⟨nofun, fun heq => absurd heq.1 h⟩

/-! ### Paths -/

/-- The rows of `path` have been placed in this order, and all others are pending. -/
structure Placed (ops : List HistoryEntry) (path : List (Fin ops.length))
    (store : Dict Str Str) (pending : List (Fin ops.length)) : Prop where
  perm : (path ++ pending).Perm (List.finRange ops.length)
  ordered : Ordered (precedesAt ops) path
  ahead : ∀ i ∈ path, ∀ j ∈ pending, ¬ precedesAt ops j i
  replay : replay (placeAt ops) ∅ path = some store

variable {path pending : List (Fin ops.length)} {store t : Dict Str Str} {i : Fin ops.length}

theorem Placed.nodup (h : Placed ops path store pending) : pending.Nodup :=
  (List.nodup_append.mp (h.perm.nodup_iff.mpr (List.nodup_finRange _))).2.1

theorem placed_start : Placed ops [] ∅ (List.finRange ops.length) :=
  ⟨.refl _, List.Pairwise.nil, nofun, rfl⟩

theorem filter_ne_eq_erase (hnodup : pending.Nodup) :
    pending.filter (· ≠ i) = pending.erase i := by
  rw [hnodup.erase_eq_filter]
  refine List.filter_congr fun j _ => ?_
  by_cases h : j = i <;> simp [h]

theorem Placed.next (h : Placed ops path store pending) (hi : i ∈ minimal ops pending)
    (ht : placeAt ops store i = some t) :
    Placed ops (path ++ [i]) t (pending.filter (· ≠ i)) := by
  obtain ⟨hmem, hfirst⟩ := (mem_minimal h.nodup).mp hi
  refine ⟨?_, ?_, ?_, ?_⟩
  -- the row moves from the pending ones to the path
  · have hout : (i :: pending.filter (· ≠ i)).Perm pending := by
      rw [filter_ne_eq_erase h.nodup]
      exact (List.perm_cons_erase hmem).symm
    rw [List.append_assoc]
    exact (hout.append_left path).trans h.perm
  -- every row of the path could go before it
  · refine List.pairwise_append.mpr ⟨h.ordered, List.pairwise_singleton _ _, ?_⟩
    intro a ha b hb
    rw [List.mem_singleton.mp hb]
    exact h.ahead a ha i hmem
  -- and none of the rows that stay pending has to
  · intro a ha b hb
    obtain ⟨hb, hne⟩ := List.mem_filter.mp hb
    rcases List.mem_append.mp ha with ha | ha
    · exact h.ahead a ha b hb
    · rw [List.mem_singleton.mp ha]
      exact hfirst b hb (of_decide_eq_true hne)
  · rw [replay_append, h.replay]
    change (placeAt ops store i).bind _ = _
    rw [ht]
    rfl

/-! ### Dead ends -/

/-- The pending rows of a key cannot all be placed on its store. -/
def Dead (ops : List HistoryEntry) (key : Dict Str Str × List (Fin ops.length)) : Prop :=
  ¬ Completes (placeAt ops) (precedesAt ops) key.1 key.2

theorem dead_of_tried (hnodup : pending.Nodup) (hne : pending ≠ [])
    (h : ∀ i ∈ minimal ops pending, ∀ t, placeAt ops store i = some t →
      Dead ops (t, pending.filter (· ≠ i))) : Dead ops (store, pending) := by
  intro hcomp
  obtain ⟨i, hi, t, ht, hrest⟩ := (completes_cons hnodup hne).mp hcomp
  refine h i ((mem_minimal hnodup).mpr hi) t ht ?_
  rw [filter_ne_eq_erase hnodup]
  exact hrest

/-! ### The invariant of the search -/

/-- The cursor of a frame has passed only rows that do not fit or whose key is known. -/
structure FrameOk (ops : List HistoryEntry)
    (memo : Finset (Dict Str Str × List (Fin ops.length))) (f : Frame ops.length) : Prop where
  placed : Placed ops f.path f.store f.pending
  cands : f.cands = none ∧ f.ci = 0 ∨ f.cands = some (minimal ops f.pending)
  tried : ∀ k < f.ci, ∀ i, (minimal ops f.pending)[k]? = some i → ∀ t,
    placeAt ops f.store i = some t → (t, f.pending.filter (· ≠ i)) ∈ memo

/-- Every key met so far is the key of a frame on the stack or a dead end, and so is the
start. -/
structure SearchOk (ops : List HistoryEntry) (s : Search ops.length) : Prop where
  frames : ∀ f ∈ s.stack, FrameOk ops s.memo f
  nested : s.stack.Pairwise fun f g => f.pending.length < g.pending.length
  memo : ∀ key ∈ s.memo, (∃ f ∈ s.stack, (f.store, f.pending) = key) ∨ Dead ops key
  root : (∃ f ∈ s.stack, (f.store, f.pending) = (∅, List.finRange ops.length)) ∨
    Dead ops (∅, List.finRange ops.length)
  explored : s.explored = s.memo.card
  reached : ∀ key ∈ s.memo, ∃ path, Placed ops path key.1 key.2

variable {s : Search ops.length} {frame : Frame ops.length} {rest : List (Frame ops.length)}
  {memo memo' : Finset (Dict Str Str × List (Fin ops.length))}

theorem FrameOk.mono (h : FrameOk ops memo frame) (hsub : memo ⊆ memo') :
    FrameOk ops memo' frame :=
  ⟨h.placed, h.cands, fun k hk i hi t ht => hsub (h.tried k hk i hi t ht)⟩

theorem FrameOk.cands_eq (h : FrameOk ops memo frame) :
    frame.cands.getD (minimal ops frame.pending) = minimal ops frame.pending := by
  rcases h.cands with ⟨hc, -⟩ | hc <;> rw [hc] <;> rfl

theorem searchOk_start : SearchOk ops (start ops) where
  frames f hf := by
    obtain rfl := List.mem_singleton.mp hf
    exact ⟨placed_start, Or.inl ⟨rfl, rfl⟩, nofun⟩
  nested := List.pairwise_singleton _ _
  memo := nofun
  root := Or.inl ⟨_, List.mem_singleton_self _, rfl⟩
  explored := rfl
  reached := nofun

/-- A frame whose cursor has passed every candidate is a dead end: the keys of its children
are known, and none of them is still on the stack, where all frames have more rows pending. -/
theorem SearchOk.dead_top (h : SearchOk ops s) (hs : s.stack = frame :: rest)
    (hne : frame.pending ≠ []) (hdone : (minimal ops frame.pending)[frame.ci]? = none) :
    Dead ops (frame.store, frame.pending) := by
  have hf : FrameOk ops s.memo frame := h.frames frame (hs ▸ List.mem_cons_self)
  have hnest := h.nested
  rw [hs] at hnest
  refine dead_of_tried hf.placed.nodup hne fun i hi t ht => ?_
  obtain ⟨k, hk, hki⟩ := List.mem_iff_getElem.mp hi
  have hlt : k < frame.ci := hk.trans_le (List.getElem?_eq_none_iff.mp hdone)
  have hkey := hf.tried k hlt i (by rw [List.getElem?_eq_getElem hk, hki]) t ht
  rcases h.memo _ hkey with ⟨g, hg, hgk⟩ | hdead
  · have hpend : g.pending = frame.pending.filter (· ≠ i) := congrArg Prod.snd hgk
    have hmem : i ∈ frame.pending := ((mem_minimal hf.placed.nodup).mp hi).1
    have hshort : g.pending.length < frame.pending.length := by
      rw [hpend]
      exact List.length_filter_lt_length_iff_exists.mpr ⟨i, hmem, by simp⟩
    rw [hs] at hg
    rcases List.mem_cons.mp hg with rfl | hg
    · exact absurd hshort (lt_irrefl _)
    · exact absurd (List.rel_of_pairwise_cons hnest hg) (lt_asymm hshort)
  · exact hdead

/-- Popping a frame that is a dead end. -/
theorem SearchOk.pop (h : SearchOk ops s) (hs : s.stack = frame :: rest)
    (hdead : Dead ops (frame.store, frame.pending)) (deepest : List (Fin ops.length)) :
    SearchOk ops { s with deepest, stack := rest } where
  frames f hf := h.frames f (hs ▸ List.mem_cons_of_mem frame hf)
  nested := by
    have hnest := h.nested
    rw [hs] at hnest
    exact hnest.of_cons
  memo key hkey := by
    -- a key that was open at the popped frame is dead now
    rcases h.memo key hkey with ⟨f, hf, rfl⟩ | hk
    · rw [hs] at hf
      rcases List.mem_cons.mp hf with rfl | hf
      · exact Or.inr hdead
      · exact Or.inl ⟨f, hf, rfl⟩
    · exact Or.inr hk
  root := by
    rcases h.root with ⟨f, hf, hk⟩ | hk
    · rw [hs] at hf
      rcases List.mem_cons.mp hf with rfl | hf
      · exact Or.inr (hk ▸ hdead)
      · exact Or.inl ⟨f, hf, hk⟩
    · exact Or.inr hk
  explored := h.explored
  reached := h.reached

/-- A frame on the stack is still there when the top frame changes only its cursor. -/
theorem stack_replace (hs : s.stack = frame :: rest) {f : Frame ops.length}
    (hkey : (f.store, f.pending) = (frame.store, frame.pending))
    {key : Dict Str Str × List (Fin ops.length)}
    (h : ∃ g ∈ s.stack, (g.store, g.pending) = key) :
    ∃ g ∈ f :: rest, (g.store, g.pending) = key := by
  obtain ⟨g, hg, rfl⟩ := h
  rw [hs] at hg
  rcases List.mem_cons.mp hg with rfl | hg
  · exact ⟨f, List.mem_cons_self, hkey⟩
  · exact ⟨g, List.mem_cons_of_mem f hg, rfl⟩

theorem SearchOk.nested_replace (h : SearchOk ops s) (hs : s.stack = frame :: rest)
    {f : Frame ops.length} (hkey : (f.store, f.pending) = (frame.store, frame.pending)) :
    (f :: rest).Pairwise fun f g => f.pending.length < g.pending.length := by
  have hnest := h.nested
  rw [hs] at hnest
  have hlen : f.pending = frame.pending := congrArg Prod.snd hkey
  refine List.pairwise_cons.mpr ⟨fun g hg => ?_, hnest.of_cons⟩
  rw [hlen]
  exact List.rel_of_pairwise_cons hnest hg

/-- Moving the cursor of the top frame past a row that does not fit or whose key is known. -/
theorem SearchOk.move (h : SearchOk ops s) (hs : s.stack = frame :: rest) {f : Frame ops.length}
    (hf : FrameOk ops s.memo f) (hkey : (f.store, f.pending) = (frame.store, frame.pending))
    (deepest : List (Fin ops.length)) :
    SearchOk ops { s with deepest, stack := f :: rest } where
  frames g hg := by
    rcases List.mem_cons.mp hg with rfl | hg
    · exact hf
    · exact h.frames g (hs ▸ List.mem_cons_of_mem frame hg)
  nested := h.nested_replace hs hkey
  memo key hk := (h.memo key hk).imp_left (stack_replace hs hkey)
  root := h.root.imp_left (stack_replace hs hkey)
  explored := h.explored
  reached := h.reached

/-- The frame of a child that is not known yet, on top of its parent. -/
theorem SearchOk.push (h : SearchOk ops s) (hs : s.stack = frame :: rest)
    (hi : i ∈ minimal ops frame.pending) (ht : placeAt ops frame.store i = some t)
    (hnew : (t, frame.pending.filter (· ≠ i)) ∉ s.memo) {f : Frame ops.length}
    (hf : FrameOk ops (insert (t, frame.pending.filter (· ≠ i)) s.memo) f)
    (hkey : (f.store, f.pending) = (frame.store, frame.pending))
    (deepest : List (Fin ops.length)) :
    SearchOk ops {
      memo := insert (t, frame.pending.filter (· ≠ i)) s.memo
      deepest
      explored := s.explored+1
      stack := { store := t, pending := frame.pending.filter (· ≠ i), path := frame.path ++ [i] }
        :: f :: rest } := by
  have hold : FrameOk ops s.memo frame := h.frames frame (hs ▸ List.mem_cons_self)
  have hplaced := hold.placed.next hi ht
  have hmem : i ∈ frame.pending := ((mem_minimal hold.placed.nodup).mp hi).1
  have hshort : (frame.pending.filter (· ≠ i)).length < frame.pending.length :=
    List.length_filter_lt_length_iff_exists.mpr ⟨i, hmem, by simp⟩
  refine ⟨?_, ?_, ?_, ?_, ?_, ?_⟩
  -- the new frame on top, the advanced one below it, the rest as before
  · intro g hg
    rcases List.mem_cons.mp hg with rfl | hg
    · exact ⟨hplaced, Or.inl ⟨rfl, rfl⟩, nofun⟩
    · rcases List.mem_cons.mp hg with rfl | hg
      · exact hf
      · exact (h.frames g (hs ▸ List.mem_cons_of_mem frame hg)).mono (Finset.subset_insert _ _)
  -- the frames below have more rows pending than those above
  · have hnest := h.nested_replace hs hkey
    have hlen : f.pending = frame.pending := congrArg Prod.snd hkey
    refine List.pairwise_cons.mpr ⟨fun g hg => ?_, hnest⟩
    rcases List.mem_cons.mp hg with rfl | hg
    · rw [hlen]
      exact hshort
    · have hfg := List.rel_of_pairwise_cons hnest hg
      rw [hlen] at hfg
      exact hshort.trans hfg
  -- the new key is open at the new frame
  · intro key hkey'
    rcases Finset.mem_insert.mp hkey' with rfl | hkey'
    · exact Or.inl ⟨_, List.mem_cons_self, rfl⟩
    · refine (h.memo key hkey').imp_left fun hex => ?_
      obtain ⟨g, hg, hgk⟩ := stack_replace hs hkey hex
      exact ⟨g, List.mem_cons_of_mem _ hg, hgk⟩
  · refine h.root.imp_left fun hex => ?_
    obtain ⟨g, hg, hgk⟩ := stack_replace hs hkey hex
    exact ⟨g, List.mem_cons_of_mem _ hg, hgk⟩
  · change s.explored+1 = (insert _ s.memo).card
    rw [Finset.card_insert_of_notMem hnew, h.explored]
  · intro key hkey'
    rcases Finset.mem_insert.mp hkey' with rfl | hkey'
    · exact ⟨_, hplaced⟩
    · exact h.reached key hkey'

/-- The top frame, with its cursor past the candidate `i`, once the key of its child, if it
has one, is known. -/
theorem FrameOk.advance (h : FrameOk ops memo frame) (hsub : memo ⊆ memo')
    (hi : (minimal ops frame.pending)[frame.ci]? = some i)
    (hchild : ∀ t, placeAt ops frame.store i = some t →
      (t, frame.pending.filter (· ≠ i)) ∈ memo') :
    FrameOk ops memo'
      { frame with cands := some (minimal ops frame.pending), ci := frame.ci+1 } where
  placed := h.placed
  cands := Or.inr rfl
  tried k hk j hj t ht := by
    rcases Nat.lt_succ_iff_lt_or_eq.mp hk with hlt | rfl
    · exact hsub (h.tried k hlt j hj t ht)
    · obtain rfl := Option.some.inj (hi.symm.trans hj)
      exact hchild t ht

/-! ### One round -/

/-- Rounds that a fresh frame with so many pending rows can take, children included. -/
def weight : ℕ → ℕ
  | 0 => 1
  | n+1 => (n+1)*(1+weight n)+1

def Frame.left {n : ℕ} (f : Frame n) : ℕ :=
  match f.cands with
  | none => f.pending.length
  | some cands => cands.length-f.ci

def Frame.size {n : ℕ} (f : Frame n) : ℕ := f.left*(1+weight (f.pending.length-1))+1

def Search.size {n : ℕ} (s : Search n) : ℕ := (s.stack.map Frame.size).sum

theorem size_fresh {n : ℕ} (store : Dict Str Str) (pending path : List (Fin n)) :
    ({ store, pending, path } : Frame n).size = weight pending.length := by
  cases pending with
  | nil => rfl
  | cons p pending => rfl

/-- What a result says is so. -/
def Justified (ops : List HistoryEntry) (budget : ℤ)
    (r : LinearizabilityResult × Search ops.length) : Prop :=
  match r.1.finding with
  | .empty => False
  | .linearizable => ∃ path t, Placed ops path t [] ∧
      r.1.linearization = some (path.map ops.get) ∧ r.1.linearizable = true
  | .exhausted b => b = budget ∧ budget < r.2.memo.card ∧ r.1.linearizable = false ∧
      ∀ key ∈ r.2.memo, ∃ path, Placed ops path key.1 key.2
  | .stuck _ _ => r.1.linearizable = false ∧ Dead ops (∅, List.finRange ops.length)

theorem FrameOk.left_ge (h : FrameOk ops memo frame) :
    (minimal ops frame.pending).length-frame.ci ≤ frame.left := by
  unfold Frame.left
  rcases h.cands with ⟨hc, hci⟩ | hc
  · rw [hc, hci]
    exact minimal_length frame.pending
  · rw [hc]

/-- The candidate a frame moves past pays for the frame of its child. -/
theorem FrameOk.advance_size (h : FrameOk ops memo frame)
    (hi : (minimal ops frame.pending)[frame.ci]? = some i) :
    Frame.size { frame with cands := some (minimal ops frame.pending), ci := frame.ci+1 } +
      weight (frame.pending.length-1) < frame.size := by
  have hlt : frame.ci < (minimal ops frame.pending).length :=
    (List.getElem?_eq_some_iff.mp hi).1
  have hleft : (minimal ops frame.pending).length-(frame.ci+1)+1 ≤ frame.left :=
    le_trans (by omega) h.left_ge
  have hmul := Nat.mul_le_mul_right (1+weight (frame.pending.length-1)) hleft
  rw [Nat.add_mul] at hmul
  change ((minimal ops frame.pending).length-(frame.ci+1))*(1+weight (frame.pending.length-1))+1+
    weight (frame.pending.length-1) < frame.left*(1+weight (frame.pending.length-1))+1
  omega

/-- What a round makes of a state: a smaller one the invariant holds in, or a result that
is right. -/
def RoundOk (ops : List HistoryEntry) (budget : ℤ) (s : Search ops.length) :
    Search ops.length ⊕ LinearizabilityResult × Search ops.length → Prop
  | .inl s' => SearchOk ops s' ∧ s'.size < s.size ∧ s'.explored+s'.size ≤ s.explored+s.size
  | .inr r => Justified ops budget r ∧
      ∀ b, r.1.finding = .exhausted b → r.2.memo.card ≤ s.explored+s.size

theorem size_cons (hs : s.stack = frame :: rest) :
    s.size = frame.size+(rest.map Frame.size).sum := by
  unfold Search.size
  rw [hs, List.map_cons, List.sum_cons]

theorem tryRow_ok (h : SearchOk ops s) (hs : s.stack = frame :: rest)
    (hi : (minimal ops frame.pending)[frame.ci]? = some i) (deepest : List (Fin ops.length)) :
    RoundOk ops budget s (tryRow ops budget
      { s with
        deepest
        stack := { frame with cands := some (minimal ops frame.pending), ci := frame.ci+1 } ::
          rest }
      { frame with cands := some (minimal ops frame.pending), ci := frame.ci+1 } i) := by
  have hf : FrameOk ops s.memo frame := h.frames frame (hs ▸ List.mem_cons_self)
  have hmin : i ∈ minimal ops frame.pending := List.mem_of_getElem? hi
  have hsize := hf.advance_size hi
  have htotal := size_cons hs
  -- trying a row moves the frame on, so there is less left to do
  have hmove : Search.size { s with
      deepest
      stack := { frame with cands := some (minimal ops frame.pending), ci := frame.ci+1 } ::
        rest } < s.size := by
    rw [htotal]
    change Frame.size _+(rest.map Frame.size).sum < _
    omega
  unfold tryRow
  dsimp only
  split
  next hobs =>
    -- the row has seen another result than the store gives
    refine ⟨h.move hs (hf.advance subset_rfl hi fun t ht => ?_) rfl deepest, hmove, ?_⟩
    · exact absurd (placeAt_eq.mp ht).1 hobs
    · exact Nat.add_le_add_left hmove.le s.explored
  next hobs =>
    have hplace : placeAt ops frame.store i = some (apply frame.store (ops.get i)).1 :=
      placeAt_eq.mpr ⟨not_not.mp hobs, rfl⟩
    split
    next hknown =>
      -- the memo knows the position already
      refine ⟨h.move hs (hf.advance subset_rfl hi fun t ht => ?_) rfl deepest, hmove, ?_⟩
      · obtain rfl := (placeAt_eq.mp ht).2
        exact hknown
      · exact Nat.add_le_add_left hmove.le s.explored
    next hnew =>
      -- a new position: the budget is spent, or a frame is pushed
      have hpush := h.push hs hmin hplace hnew
        (hf.advance (Finset.subset_insert _ _) hi fun t ht => by
          obtain rfl := (placeAt_eq.mp ht).2
          exact Finset.mem_insert_self _ _) rfl deepest
      split
      next hover =>
        have hcard := hpush.explored
        refine ⟨⟨rfl, ?_, rfl, hpush.reached⟩, fun b _ => ?_⟩
        · change budget < ((insert _ s.memo).card : ℤ)
          rw [← hcard]
          exact hover
        · change (insert _ s.memo).card ≤ _
          rw [← hcard]
          change s.explored+1 ≤ s.explored+s.size
          omega
      next =>
        have hmem : i ∈ frame.pending := ((mem_minimal hf.placed.nodup).mp hmin).1
        have hlen : (frame.pending.filter (· ≠ i)).length = frame.pending.length-1 := by
          rw [filter_ne_eq_erase hf.placed.nodup, List.length_erase_of_mem hmem]
        have hfresh := size_fresh (apply frame.store (ops.get i)).1
          (frame.pending.filter (· ≠ i)) (frame.path ++ [i])
        rw [hlen] at hfresh
        have hgrow : Search.size {
            memo := insert ((apply frame.store (ops.get i)).1, frame.pending.filter (· ≠ i)) s.memo
            deepest
            explored := s.explored+1
            stack := { store := (apply frame.store (ops.get i)).1
                       pending := frame.pending.filter (· ≠ i), path := frame.path ++ [i] } ::
              { frame with cands := some (minimal ops frame.pending), ci := frame.ci+1 } ::
                rest } < s.size := by
          rw [htotal]
          change Frame.size _+(Frame.size _+(rest.map Frame.size).sum) < _
          rw [hfresh]
          omega
        refine ⟨hpush, hgrow, ?_⟩
        change s.explored+1+_ ≤ s.explored+s.size
        omega

theorem round_ok (h : SearchOk ops s) : RoundOk ops budget s (round ops budget s) := by
  unfold round
  cases hs : s.stack with
  | nil =>
    refine ⟨⟨rfl, h.root.elim ?_ id⟩, nofun⟩
    rintro ⟨f, hf, -⟩
    rw [hs] at hf
    cases hf
  | cons frame rest =>
    have hf : FrameOk ops s.memo frame := h.frames frame (hs ▸ List.mem_cons_self)
    dsimp only
    split
    next hnil => exact ⟨⟨frame.path, frame.store, hnil ▸ hf.placed, rfl, rfl⟩, nofun⟩
    next hne =>
      rw [hf.cands_eq]
      cases hi : (minimal ops frame.pending)[frame.ci]? with
      | none =>
        have hlt : (rest.map Frame.size).sum < s.size := by
          rw [size_cons hs]
          exact Nat.lt_add_of_pos_left (Nat.succ_pos _)
        exact ⟨h.pop hs (h.dead_top hs hne hi) _, hlt, Nat.add_le_add_left hlt.le s.explored⟩
      | some i => exact tryRow_ok h hs hi _

/-- The search ends, what it returns is so, and a budget of its size is never exceeded. -/
theorem search_total (ops : List HistoryEntry) (budget : ℤ) : ∃ fuel r,
    (∀ fuel', fuel ≤ fuel' → search ops budget fuel' = some r) ∧ Justified ops budget r ∧
      ∀ b, r.1.finding = .exhausted b → r.2.memo.card ≤ (start ops).size := by
  have hround : ∀ s next, SearchOk ops s → round ops budget s = next →
      RoundOk ops budget s next := by
    rintro s next h rfl
    exact round_ok h
  -- the invariant of the loop: what has been explored and what is left fit the first bound
  have hstep : ∀ s s', SearchOk ops s ∧ s.explored+s.size ≤ (start ops).size →
      round ops budget s = .inl s' → SearchOk ops s' ∧ s'.explored+s'.size ≤ (start ops).size := by
    rintro s s' ⟨h, hle⟩ heq
    obtain ⟨h', -, hle'⟩ := hround s (.inl s') h heq
    exact ⟨h', hle'.trans hle⟩
  have hreturn : ∀ s r, SearchOk ops s ∧ s.explored+s.size ≤ (start ops).size →
      round ops budget s = .inr r → Justified ops budget r ∧
        ∀ b, r.1.finding = .exhausted b → r.2.memo.card ≤ (start ops).size := by
    rintro s r ⟨h, hle⟩ heq
    obtain ⟨hj, hcard⟩ := hround s (.inr r) h heq
    exact ⟨hj, fun b hb => (hcard b hb).trans hle⟩
  have hstart : SearchOk ops (start ops) ∧
      (start ops).explored+(start ops).size ≤ (start ops).size :=
    ⟨searchOk_start, (Nat.zero_add _).le⟩
  obtain ⟨r, hr⟩ := Loop.run_total hstep (fun s s' h heq => (hround s (.inl s') h.1 heq).2.1) hstart
  refine ⟨_, r, fun fuel' hle => Loop.run_mono hr hle, ?_⟩
  exact Loop.run_rule (I := fun s => SearchOk ops s ∧ s.explored+s.size ≤ (start ops).size)
    (Q := fun r => Justified ops budget r ∧
      ∀ b, r.1.finding = .exhausted b → r.2.memo.card ≤ (start ops).size) hstep hreturn hstart hr

end Linearizability
end RaftVerified
