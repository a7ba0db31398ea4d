import Mathlib.Data.List.TakeDrop
import Mathlib.Data.List.TakeWhile

/-! Command lines: how a shell cuts a line into words, and how an option parser in the manner of
`argparse` reads the words of a command that takes options only. -/
namespace CommandLine

/-! ### Words -/

/-- The words of the rest of a line: `word` is the one begun, `quoted` whether a single quote is
open. An open quote at the end is an error. -/
def wordsFrom (word : Option (List Char)) (quoted : Bool) : List Char → Option (List (List Char))
  | [] => if quoted then none else some word.toList
  | c :: cs =>
    -- a quote opens or closes a quoted stretch inside a word
    if c = '\'' then wordsFrom (some (word.getD [])) (!quoted) cs
    else if quoted = false ∧ c = ' ' then (wordsFrom none false cs).map (word.toList ++ ·)
    else wordsFrom (some (word.getD [] ++ [c])) quoted cs

/-- Blanks separate words, and between single quotes every character stands for itself. -/
def shellWords (line : List Char) : Option (List (List Char)) := wordsFrom none false line

/-- A word that the shell leaves alone. -/
def Plain (w : List Char) : Prop := '\'' ∉ w ∧ ' ' ∉ w

theorem Plain.cons {c : Char} {cs : List Char} (h : Plain (c :: cs)) :
    c ≠ '\'' ∧ c ≠ ' ' ∧ Plain cs := by
  obtain ⟨hq, hb⟩ := h
  rw [List.mem_cons, not_or] at hq hb
  exact ⟨Ne.symm hq.1, Ne.symm hb.1, hq.2, hb.2⟩

theorem wordsFrom_plain {w : List Char} (hw : Plain w) (word rest : List Char) :
    wordsFrom (some word) false (w ++ rest) = wordsFrom (some (word ++ w)) false rest := by
  induction w generalizing word with
  | nil => rw [List.nil_append, List.append_nil]
  | cons c cs ih =>
    obtain ⟨hquote, hblank, hcs⟩ := hw.cons
    rw [List.cons_append, wordsFrom, if_neg hquote, if_neg (fun h => hblank h.2), ih hcs]
    simp

theorem wordsFrom_quoted {w : List Char} (hw : '\'' ∉ w) (word rest : List Char) :
    wordsFrom (some word) true (w ++ '\'' :: rest) = wordsFrom (some (word ++ w)) false rest := by
  induction w generalizing word with
  | nil =>
    rw [List.nil_append, List.append_nil, wordsFrom, if_pos rfl]
    rfl
  | cons c cs ih =>
    rw [List.mem_cons, not_or] at hw
    rw [List.cons_append, wordsFrom, if_neg (Ne.symm hw.1), if_neg (fun h => by cases h.1),
      ih hw.2]
    simp

theorem wordsFrom_start {w : List Char} (hw : Plain w) (hne : w ≠ []) (rest : List Char) :
    wordsFrom none false (w ++ rest) = wordsFrom (some w) false rest := by
  cases w with
  | nil => exact absurd rfl hne
  | cons c cs =>
    obtain ⟨hquote, hblank, hcs⟩ := hw.cons
    rw [List.cons_append, wordsFrom, if_neg hquote, if_neg (fun h => hblank h.2),
      wordsFrom_plain hcs]
    rfl

/-- After a word, the line goes on with the words `ws`. -/
def Continues (more : List Char) (ws : List (List Char)) : Prop :=
  (more = [] ∧ ws = []) ∨ ∃ rest, more = ' ' :: rest ∧ shellWords rest = some ws

theorem Continues.nil : Continues [] [] := Or.inl ⟨rfl, rfl⟩

theorem shellWords_word {w more : List Char} {ws : List (List Char)} (hw : Plain w) (hne : w ≠ [])
    (h : Continues more ws) : shellWords (w ++ more) = some (w :: ws) := by
  rw [shellWords, wordsFrom_start hw hne]
  rcases h with ⟨rfl, rfl⟩ | ⟨rest, rfl, hrest⟩
  · rfl
  · rw [wordsFrom, if_neg (by decide), if_pos ⟨rfl, rfl⟩]
    show (shellWords rest).map ([w] ++ ·) = some (w :: ws)
    rw [hrest]
    rfl

theorem Continues.word {w more : List Char} {ws : List (List Char)} (hw : Plain w) (hne : w ≠ [])
    (h : Continues more ws) : Continues (' ' :: (w ++ more)) (w :: ws) :=
  Or.inr ⟨_, rfl, shellWords_word hw hne h⟩

/-- A word in single quotes ends the line. -/
theorem Continues.quoted {w : List Char} (hw : '\'' ∉ w) :
    Continues (' ' :: '\'' :: (w ++ ['\''])) [w] := by
  refine Or.inr ⟨_, rfl, ?_⟩
  rw [shellWords, wordsFrom, if_pos rfl]
  show wordsFrom (some []) true (w ++ ['\'']) = some [w]
  rw [wordsFrom_quoted hw]
  rfl

/-! ### Options -/

variable {α : Type}

/-- What an option does to the values parsed so far: it takes one argument, it takes none, or it
ends the program, as `--help` does. Options with a single dash are taken to do the last. -/
inductive Action (α : Type)
  | store (set : List Char → α → Option α)
  | storeTrue (set : α → α)
  | exit

/-- How a word is taken: as an argument, as an option with the argument after its `=`, if it has
one, or as neither. -/
inductive Kind (α : Type)
  | argument
  | option (action : Action α) (explicit : Option (List Char))
  | unknown

abbrev Options (α : Type) := List (List Char × Action α)

/-- Digits, or digits around a decimal point that need not have any in front of it. -/
def isNumber (t : List Char) : Bool :=
  let whole := t.takeWhile (·.isDigit)
  let more := t.dropWhile (·.isDigit)
  (more = [] ∧ whole ≠ []) ∨
    (more.head? = some '.' ∧ more.drop 1 ≠ [] ∧ (more.drop 1).all (·.isDigit))

def looksNegative (t : List Char) : Bool := t.head? = some '-' ∧ isNumber (t.drop 1)

/-- The options that a word abbreviates: a word that begins with two dashes up to its `=`, and
another one by its first two characters or as a whole. -/
def abbreviated (options : Options α) (t : List Char) : Options α :=
  if ['-', '-'].isPrefixOf t then options.filter fun o => (t.takeWhile (· ≠ '=')).isPrefixOf o.1
  else options.filter fun o => o.1 = t.take 2 ∨ t.isPrefixOf o.1

/-- What follows the first `=` of a word. -/
def explicitArg (t : List Char) : Option (List Char) :=
  if '=' ∈ t then some ((t.dropWhile (· ≠ '=')).drop 1) else none

/-- The option whose full name stands in front of an `=`. -/
def assigned (options : Options α) (t : List Char) : Option (Action α) :=
  if '=' ∈ t then options.lookup (t.takeWhile (· ≠ '=')) else none

/-- `_parse_optional`. The bare `--`, which ends the options, is not supported. -/
def classify (options : Options α) (t : List Char) : Kind α :=
  if t.head? ≠ some '-' then .argument
  else if t = ['-', '-'] then .unknown
  else match options.lookup t with
    | some action => .option action none
    | none =>
      if t = ['-'] then .argument
      else match assigned options t, abbreviated options t with
        -- its name before an equals sign, or the only one it abbreviates
        | some action, _ => .option action (explicitArg t)
        | none, [o] => .option o.2 (explicitArg t)
        | none, _ :: _ :: _ => .unknown
        | none, [] => if looksNegative t ∨ ' ' ∈ t then .argument else .unknown

/-- The words of a command, from left to right; `none` when the parser gives up. -/
def parse (options : Options α) : List (List Char) → α → Option α
  | [], a => some a
  | t :: rest, a =>
    match classify options t with
    | .option (.store set) (some v) => (set v a).bind (parse options rest)
    | .option (.store set) none =>
      match rest with
      | v :: rest' =>
        match classify options v with
        | .argument => (set v a).bind (parse options rest')
        | _ => none
      | [] => none
    | .option (.storeTrue set) none => parse options rest (set a)
    | _ => none

section
variable {options : Options α} {t v : List Char} {rest : List (List Char)} {a a' : α}

theorem classify_word (h : t.head? ≠ some '-') : classify options t = .argument := if_pos h

/-- A word that is an option, letter by letter. -/
theorem classify_option {action : Action α} (hdash : t.head? = some '-') (hbare : t ≠ ['-', '-'])
    (h : options.lookup t = some action) : classify options t = .option action none := by
  rw [classify, if_neg (not_not.mpr hdash), if_neg hbare, h]

/-- Where no option begins with a dash and a digit, a negative number is an argument. -/
theorem classify_negative {d : Char} {ds : List Char} (hd : d.isDigit = true)
    (hds : ∀ c ∈ ds, c.isDigit = true)
    (hopts : ∀ o ∈ options, ∀ c, o.1[1]? = some c → c.isDigit = false) :
    classify options ('-' :: d :: ds) = .argument := by
  -- no option is this word or is abbreviated by it
  have hnot : ∀ o ∈ options, ¬ (o.1 = '-' :: d :: ds ∨ o.1 = ['-', d] ∨
      ('-' :: d :: ds).isPrefixOf o.1) := by
    intro o ho hor
    have hsecond : o.1[1]? = some d := by
      rcases hor with heq | heq | hpre
      · rw [heq]
        rfl
      · rw [heq]
        rfl
      · obtain ⟨tail, htail⟩ := List.isPrefixOf_iff_prefix.mp hpre
        rw [← htail]
        rfl
    rw [hopts o ho d hsecond] at hd
    cases hd
  have hdash : d ≠ '-' := by
    rintro rfl
    exact absurd hd (by decide)
  have hlookup : options.lookup ('-' :: d :: ds) = none := by
    rw [List.lookup_eq_none_iff]
    intro o ho
    exact bne_iff_ne.mpr fun heq => hnot o ho (Or.inl heq.symm)
  have hequals : '=' ∉ '-' :: d :: ds := by
    rw [List.mem_cons, List.mem_cons]
    rintro (heq | rfl | hmem)
    · exact absurd heq (by decide)
    · exact absurd hd (by decide)
    · exact absurd (hds _ hmem) (by decide)
  have habbr : abbreviated options ('-' :: d :: ds) = [] := by
    have hlong : ['-', '-'].isPrefixOf ('-' :: d :: ds) = false := by
      simp [List.isPrefixOf, Ne.symm hdash]
    unfold abbreviated
    rw [hlong, if_neg (by decide), List.filter_eq_nil_iff]
    intro o ho hor
    exact hnot o ho (Or.inr (of_decide_eq_true hor))
  have hall : ∀ c ∈ d :: ds, c.isDigit = true := List.forall_mem_cons.mpr ⟨hd, hds⟩
  -- so what remains to be asked is whether it looks like a number
  have hneg : looksNegative ('-' :: d :: ds) = true := by
    unfold looksNegative isNumber
    rw [List.drop_succ_cons, List.drop_zero, List.takeWhile_eq_self_iff.mpr hall,
      List.dropWhile_eq_nil_iff.mpr hall]
    simp
  rw [classify, if_neg (by simp), if_neg (by simp [hdash]), hlookup]
  dsimp only
  rw [if_neg (by simp), assigned, if_neg hequals, habbr]
  exact if_pos (Or.inl hneg)

theorem parse_store {set : List Char → α → Option α}
    (ht : classify options t = .option (.store set) none) (hv : classify options v = .argument)
    (hset : set v a = some a') :
    parse options (t :: v :: rest) a = parse options rest a' := by
  rw [parse, ht]
  dsimp only
  rw [hv]
  dsimp only
  rw [hset, Option.bind_some]

/-- The option a word is taken for is one of the options. -/
theorem mem_of_classify {action : Action α} {explicit : Option (List Char)}
    (h : classify options t = .option action explicit) : ∃ o ∈ options, o.2 = action := by
  have hlookup : ∀ w, options.lookup w = some action → ∃ o ∈ options, o.2 = action := by
    intro w hw
    obtain ⟨l₁, l₂, rfl, -⟩ := List.lookup_eq_some_iff.mp hw
    exact ⟨(w, action), List.mem_append_right _ List.mem_cons_self, rfl⟩
  unfold classify at h
  split at h
  · cases h
  split at h
  · cases h
  split at h
  · rename_i hw
    cases h
    exact hlookup _ hw
  split at h
  · cases h
  split at h
  · rename_i hw
    cases h
    unfold assigned at hw
    split at hw
    · exact hlookup _ hw
    · cases hw
  · rename_i o _ ho
    cases h
    have hmem : o ∈ abbreviated options t := by
      rw [ho]
      exact List.mem_singleton_self o
    unfold abbreviated at hmem
    split at hmem
    · exact ⟨o, (List.mem_filter.mp hmem).1, rfl⟩
    · exact ⟨o, (List.mem_filter.mp hmem).1, rfl⟩
  · cases h
  · split at h
    · cases h
    · cases h

/-- What an option keeps true of the values. -/
def Action.Preserves (P : α → Prop) : Action α → Prop
  | .store set => ∀ v a a', set v a = some a' → P a → P a'
  | .storeTrue set => ∀ a, P a → P (set a)
  | .exit => True

theorem Action.Preserves.of_classify {P : α → Prop} {action : Action α}
    {explicit : Option (List Char)} (hopts : ∀ o ∈ options, o.2.Preserves P)
    (h : classify options t = .option action explicit) : action.Preserves P := by
  obtain ⟨o, ho, rfl⟩ := mem_of_classify h
  exact hopts o ho

/-- An option with its argument, if it takes one in the next word, leaves the rest of the words
to the parser. -/
theorem parse_cons {P : α → Prop} (hopts : ∀ o ∈ options, o.2.Preserves P)
    (h : parse options (t :: rest) a = some a') (ha : P a) :
    ∃ k b, P b ∧ parse options (rest.drop k) b = some a' := by
  unfold parse at h
  split at h
  · rename_i set v ht
    obtain ⟨b, hset, hrest⟩ := Option.bind_eq_some_iff.mp h
    have hkeeps := Action.Preserves.of_classify hopts ht
    exact ⟨0, b, hkeeps v a b hset ha, hrest⟩
  · rename_i set ht
    have hkeeps := Action.Preserves.of_classify hopts ht
    split at h
    · rename_i v rest'
      split at h
      · obtain ⟨b, hset, hrest⟩ := Option.bind_eq_some_iff.mp h
        exact ⟨1, b, hkeeps v a b hset ha, hrest⟩
      · cases h
    · cases h
  · rename_i set ht
    have hkeeps := Action.Preserves.of_classify hopts ht
    exact ⟨0, set a, hkeeps a ha, h⟩
  · cases h

/-- What every option keeps true is true of the values the parser returns. -/
theorem parse_preserves {P : α → Prop} (hopts : ∀ o ∈ options, o.2.Preserves P)
    {words : List (List Char)} (h : parse options words a = some a') (ha : P a) : P a' := by
  induction hn : words.length using Nat.strong_induction_on generalizing words a with
  | _ n ih =>
    subst hn
    cases words with
    | nil =>
      cases h
      exact ha
    | cons t rest =>
      obtain ⟨k, b, hb, hrest⟩ := parse_cons hopts h ha
      refine ih _ ?_ hrest hb rfl
      rw [List.length_drop, List.length_cons]
      omega

theorem parse_flag {set : α → α} (ht : classify options t = .option (.storeTrue set) none) :
    parse options (t :: rest) a = parse options rest (set a) := by
  rw [parse, ht]

end
end CommandLine
