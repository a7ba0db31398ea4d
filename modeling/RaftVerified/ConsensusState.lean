import Mathlib.Logic.Function.Basic
import Mathlib.Logic.Relation
import RaftVerified.ConsensusLogs

/-! A consensus protocol over replicated logs: elected leaders of numbered terms extend
logs, servers copy them, and quorums commit. The state carries the history of the run. -/
namespace Consensus

inductive Role
  | follower
  | candidate
  | leader
  deriving DecidableEq

structure Server (ι ε : Type*) where
  term : ℕ := 0
  vote : Option ι := none
  role : Role := .follower
  log : List ε := []
  commit : ℕ := 0

/-- The servers, and what has happened so far.
`asked c u B`: `c` campaigned in term `u` with the log `B`.
`voted q u c V`: `q` voted for `c` in term `u` while its own log was `V`.
`elected u i B`: `i` won term `u` with the log `B`; `trunk u` is what its log became.
`acked q t m`: `q` held the first `m` entries of `trunk t` while it was in term `t`.
`chosen t k j`: the leader of term `t` committed its first `k` entries when it had `j`. -/
structure State (ι ε : Type*) where
  server : ι → Server ι ε
  asked : ι → ℕ → List ε → Prop
  voted : ι → ℕ → ι → List ε → Prop
  elected : ℕ → ι → List ε → Prop
  trunk : ℕ → List ε
  acked : ι → ℕ → ℕ → Prop
  chosen : ℕ → ℕ → ℕ → Prop

variable {ι ε κ : Type*}

/-- Copy `ys` over `xs`, unless `xs` already starts with it. -/
def merge [DecidableEq ε] (xs ys : List ε) : List ε := if ys <+: xs then xs else ys

namespace State

/-- Term `u` has had a leader. -/
def Led (s : State ι ε) (u : ℕ) : Prop := ∃ i B, s.elected u i B

/-- Every entry of `xs` stands where the leader of its term put it, after what that
leader had before it. -/
def Rooted (R : Reading ε κ) (s : State ι ε) (xs : List ε) : Prop :=
  ∀ n e, xs[n]? = some e → s.Led (R.term e) ∧ xs.take (n+1) <+: s.trunk (R.term e)

/-- A leader of a term strictly between `lo` and `hi` started without `xs`. -/
def Displaced (s : State ι ε) (xs : List ε) (lo hi : ℕ) : Prop :=
  ∃ w j C, lo < w ∧ w < hi ∧ s.elected w j C ∧ ¬ xs <+: C

/-- `xs` was committed by a leader of a term up to `u`. -/
def Settled (s : State ι ε) (u : ℕ) (xs : List ε) : Prop :=
  xs = [] ∨ ∃ t k j, t ≤ u ∧ s.chosen t k j ∧ xs <+: (s.trunk t).take k

/-- A leader of term `t` whose log is `xs` may append the configuration `c`: the change is
allowed, and the leader has committed past every configuration of its log. -/
def Reconfigures (R : Reading ε κ) (Q : QuorumSystem ι κ) (s : State ι ε) (t : ℕ)
    (xs : List ε) (c : κ) : Prop :=
  Q.change (R.conf xs) c ∧ ∃ k j, s.chosen t k j ∧ j ≤ xs.length ∧ R.Quiet xs k xs.length

/-- Before anything has happened. -/
def initial : State ι ε where
  server _ := {}
  asked _ _ _ := False
  voted _ _ _ _ := False
  elected _ _ _ := False
  trunk _ := []
  acked _ _ _ := False
  chosen _ _ _ := False

variable [DecidableEq ι]

def set (s : State ι ε) (i : ι) (v : Server ι ε) : State ι ε :=
  { s with server := Function.update s.server i v }

@[simp] theorem set_server_self (s : State ι ε) (i : ι) (v : Server ι ε) :
    (s.set i v).server i = v := Function.update_self _ _ _

theorem set_server_ne (s : State ι ε) {i q : ι} (v : Server ι ε) (h : q ≠ i) :
    (s.set i v).server q = s.server q := Function.update_of_ne h _ _

def raise (s : State ι ε) (i : ι) (t : ℕ) : State ι ε :=
  s.set i { s.server i with term := t, vote := none, role := .follower }

def rest (s : State ι ε) (i : ι) (k : ℕ) : State ι ε :=
  s.set i { s.server i with role := .follower, commit := k }

def learn (s : State ι ε) (i : ι) (k : ℕ) : State ι ε :=
  s.set i { s.server i with commit := k }

def campaign (s : State ι ε) (i : ι) : State ι ε :=
  let v := s.server i
  { s.set i { v with term := v.term+1, vote := some i, role := .candidate } with
    asked := fun c u B => s.asked c u B ∨ (c = i ∧ u = v.term+1 ∧ B = v.log)
    voted := fun q u c V => s.voted q u c V ∨ (q = i ∧ u = v.term+1 ∧ c = i ∧ V = v.log) }

def grant (s : State ι ε) (i c : ι) : State ι ε :=
  let v := s.server i
  { s.set i { v with vote := some c } with
    voted := fun q u d V => s.voted q u d V ∨ (q = i ∧ u = v.term ∧ d = c ∧ V = v.log) }

def lead (s : State ι ε) (i : ι) : State ι ε :=
  let v := s.server i
  { s.set i { v with role := .leader } with
    elected := fun u j B => s.elected u j B ∨ (u = v.term ∧ j = i ∧ B = v.log)
    trunk := Function.update s.trunk v.term v.log
    acked := fun q t m => s.acked q t m ∨ (q = i ∧ t = v.term ∧ m = v.log.length) }

def append (s : State ι ε) (i : ι) (e : ε) : State ι ε :=
  let v := s.server i
  { s.set i { v with log := v.log ++ [e] } with
    trunk := Function.update s.trunk v.term (v.log ++ [e])
    acked := fun q t m => s.acked q t m ∨ (q = i ∧ t = v.term ∧ m = v.log.length+1) }

def accept [DecidableEq ε] (s : State ι ε) (i : ι) (p : ℕ) : State ι ε :=
  let v := s.server i
  { s.set i { v with log := merge v.log ((s.trunk v.term).take p) } with
    acked := fun q t m => s.acked q t m ∨ (q = i ∧ t = v.term ∧ m = p) }

def choose (s : State ι ε) (i : ι) (k : ℕ) : State ι ε :=
  let v := s.server i
  { s.set i { v with commit := k } with
    chosen := fun t m j => s.chosen t m j ∨ (t = v.term ∧ m = k ∧ j = v.log.length) }

section
variable (s : State ι ε) (i : ι)

@[simp] theorem raise_server (t : ℕ) : (s.raise i t).server i =
    { s.server i with term := t, vote := none, role := .follower } := set_server_self _ _ _

@[simp] theorem rest_server (k : ℕ) : (s.rest i k).server i =
    { s.server i with role := .follower, commit := k } := set_server_self _ _ _

@[simp] theorem learn_server (k : ℕ) :
    (s.learn i k).server i = { s.server i with commit := k } := set_server_self _ _ _

@[simp] theorem campaign_server : (s.campaign i).server i =
    { s.server i with term := (s.server i).term+1, vote := some i, role := .candidate } :=
  set_server_self _ _ _

@[simp] theorem grant_server (c : ι) :
    (s.grant i c).server i = { s.server i with vote := some c } := set_server_self _ _ _

@[simp] theorem lead_server :
    (s.lead i).server i = { s.server i with role := .leader } := set_server_self _ _ _

@[simp] theorem append_server (e : ε) :
    (s.append i e).server i = { s.server i with log := (s.server i).log ++ [e] } :=
  set_server_self _ _ _

@[simp] theorem accept_server [DecidableEq ε] (p : ℕ) : (s.accept i p).server i =
    { s.server i with
      log := merge (s.server i).log ((s.trunk (s.server i).term).take p) } :=
  set_server_self _ _ _

@[simp] theorem choose_server (k : ℕ) :
    (s.choose i k).server i = { s.server i with commit := k } := set_server_self _ _ _

end
end State

open State

/-- What one server can do. `raise` and `rest` are also what is left of a server after
a crash: the term, the vote and the log survive, the role and the commit index may not. -/
inductive Step [DecidableEq ι] [DecidableEq ε] (R : Reading ε κ) (Q : QuorumSystem ι κ) (i : ι)
    (s : State ι ε) : State ι ε → Prop
  | raise (t : ℕ) (ht : (s.server i).term < t) : Step R Q i s (s.raise i t)
  | rest (k : ℕ) (hk : k ≤ (s.server i).commit) : Step R Q i s (s.rest i k)
  | campaign : Step R Q i s (s.campaign i)
  | grant (c : ι) (B : List ε) (ha : s.asked c (s.server i).term B)
      (hv : (s.server i).vote = none ∨ (s.server i).vote = some c)
      (hu : R.UpToDate B (s.server i).log) : Step R Q i s (s.grant i c)
  | elect (P : Finset ι) (hr : (s.server i).role = .candidate)
      (hP : Q.elects (R.conf (s.server i).log) P)
      (hv : ∀ q ∈ P, ∃ V, s.voted q (s.server i).term i V) : Step R Q i s (s.lead i)
  | append (e : ε) (hr : (s.server i).role = .leader) (ht : R.term e = (s.server i).term)
      (hc : ∀ c, R.config e = some c →
        Reconfigures R Q s (s.server i).term (s.server i).log c) :
      Step R Q i s (s.append i e)
  | accept (p : ℕ) (hr : (s.server i).role = .follower) (hl : s.Led (s.server i).term)
      (hp : p ≤ (s.trunk (s.server i).term).length) : Step R Q i s (s.accept i p)
  | choose (n : ℕ) (e : ε) (P : Finset ι) (hr : (s.server i).role = .leader)
      (hP : Q.commits (R.conf (s.server i).log) P)
      (ha : ∀ q ∈ P, ∃ m, n+1 ≤ m ∧ s.acked q (s.server i).term m)
      (he : (s.server i).log[n]? = some e) (ht : R.term e = (s.server i).term) :
      Step R Q i s (s.choose i (n+1))
  | learn (k : ℕ) (hk : k ≤ (s.server i).log.length)
      (hc : s.Settled (s.server i).term ((s.server i).log.take k)) :
      Step R Q i s (s.learn i k)

/-- What later states keep of the history. -/
structure Ext (s s' : State ι ε) : Prop where
  term : ∀ q, (s.server q).term ≤ (s'.server q).term
  asked : ∀ c u B, s.asked c u B → s'.asked c u B
  voted : ∀ q u c V, s.voted q u c V → s'.voted q u c V
  elected : ∀ u i B, s.elected u i B → s'.elected u i B
  trunk : ∀ u, s.trunk u <+: s'.trunk u
  acked : ∀ q t m, s.acked q t m → s'.acked q t m
  chosen : ∀ t k j, s.chosen t k j → s'.chosen t k j

namespace Ext
variable {s s' s'' : State ι ε} {R : Reading ε κ}

theorem refl (s : State ι ε) : Ext s s :=
  ⟨fun _ => le_rfl, fun _ _ _ h => h, fun _ _ _ _ h => h, fun _ _ _ h => h,
    fun _ => List.prefix_rfl, fun _ _ _ h => h, fun _ _ _ h => h⟩

theorem trans (h : Ext s s') (h' : Ext s' s'') : Ext s s'' where
  term q := (h.term q).trans (h'.term q)
  asked _ _ _ ha := h'.asked _ _ _ (h.asked _ _ _ ha)
  voted _ _ _ _ ha := h'.voted _ _ _ _ (h.voted _ _ _ _ ha)
  elected _ _ _ ha := h'.elected _ _ _ (h.elected _ _ _ ha)
  trunk u := (h.trunk u).trans (h'.trunk u)
  acked _ _ _ ha := h'.acked _ _ _ (h.acked _ _ _ ha)
  chosen _ _ _ ha := h'.chosen _ _ _ (h.chosen _ _ _ ha)

theorem led (h : Ext s s') {u : ℕ} (hl : s.Led u) : s'.Led u := by
  obtain ⟨i, B, he⟩ := hl
  exact ⟨i, B, h.elected u i B he⟩

theorem rooted (h : Ext s s') {xs : List ε} (hx : s.Rooted R xs) : s'.Rooted R xs := by
  intro n e he
  obtain ⟨hl, hp⟩ := hx n e he
  exact ⟨h.led hl, hp.trans (h.trunk _)⟩

theorem displaced (h : Ext s s') {xs : List ε} {lo hi hi' : ℕ} (hd : s.Displaced xs lo hi)
    (hh : hi ≤ hi') : s'.Displaced xs lo hi' := by
  obtain ⟨w, j, C, h1, h2, he, hn⟩ := hd
  exact ⟨w, j, C, h1, h2.trans_le hh, h.elected w j C he, hn⟩

theorem settled (h : Ext s s') {u u' : ℕ} {xs : List ε} (hs : s.Settled u xs) (hu : u ≤ u') :
    s'.Settled u' xs := by
  rcases hs with rfl | ⟨t, k, j, ht, hc, hp⟩
  · exact Or.inl rfl
  · exact Or.inr ⟨t, k, j, ht.trans hu, h.chosen t k j hc,
      hp.trans (prefix_take_mono (h.trunk t) k)⟩

theorem reconfigures (h : Ext s s') {Q : QuorumSystem ι κ} {t : ℕ} {xs : List ε} {c : κ}
    (hr : s.Reconfigures R Q t xs c) : s'.Reconfigures R Q t xs c := by
  obtain ⟨hn, k, j, hc, hj, hq⟩ := hr
  exact ⟨hn, k, j, h.chosen t k j hc, hj, hq⟩

end Ext

end Consensus
