import Mathlib.Data.List.DropRight

/-! The part of Python's `str` and `int` that the log codecs rest on: `str(n)`,
`int(s)`, `s.split(sep)` and `sep.join(parts)`. -/
namespace RaftVerified

/-- A Python `str`: its sequence of code points. -/
abbrev Str := List Char

instance : LawfulBEq Str := inferInstance

/-- `str(n)` for a non-negative integer. -/
def natStr (n : ℕ) : Str := Nat.toDigits 10 n

/-- `str(z)`. -/
def intStr : ℤ → Str
  | .ofNat n => natStr n
  | .negSucc n => '-' :: natStr (n+1)

/-- The code points of the digit zero in every decimal script `int` accepts. -/
def decimalZeros : List ℕ :=
  [0x30, 0x660, 0x6F0, 0x7C0, 0x966, 0x9E6, 0xA66, 0xAE6, 0xB66, 0xBE6, 0xC66, 0xCE6,
   0xD66, 0xDE6, 0xE50, 0xED0, 0xF20, 0x1040, 0x1090, 0x17E0, 0x1810, 0x1946, 0x19D0,
   0x1A80, 0x1A90, 0x1B50, 0x1BB0, 0x1C40, 0x1C50, 0xA620, 0xA8D0, 0xA900, 0xA9D0,
   0xA9F0, 0xAA50, 0xABF0, 0xFF10, 0x104A0, 0x10D30, 0x11066, 0x110F0, 0x11136, 0x111D0,
   0x112F0, 0x11450, 0x114D0, 0x11650, 0x116C0, 0x11730, 0x118E0, 0x11950, 0x11C50,
   0x11D50, 0x11DA0, 0x11F50, 0x16A60, 0x16AC0, 0x16B50, 0x1D7CE, 0x1D7D8, 0x1D7E2,
   0x1D7EC, 0x1D7F6, 0x1E140, 0x1E2F0, 0x1E4F0, 0x1E950, 0x1FBF0]

/-- The decimal value of a digit character. -/
def digitValue (c : Char) : Option ℕ :=
  (decimalZeros.find? fun z => z ≤ c.toNat ∧ c.toNat < z+10).map fun z => c.toNat-z

/-- The characters `int` strips from both ends of its argument. -/
def isSpace (c : Char) : Bool :=
  let n := c.toNat
  (0x09 ≤ n && n ≤ 0x0D) || n = 0x20 || n = 0x85 || n = 0xA0 || n = 0x1680 ||
    (0x2000 ≤ n && n ≤ 0x200A) || n = 0x2028 || n = 0x2029 || n = 0x202F || n = 0x205F ||
    n = 0x3000

def strip (s : Str) : Str := (s.dropWhile isSpace).rdropWhile isSpace

/-- The digits after the first one; a single underscore may stand between two digits. -/
def intDigits (acc : ℕ) : Str → Option ℕ
  | [] => some acc
  | '_' :: c :: rest => (digitValue c).bind fun d => intDigits (acc*10+d) rest
  | c :: rest => (digitValue c).bind fun d => intDigits (acc*10+d) rest

def intMagnitude : Str → Option ℕ
  | [] => none
  | c :: rest => (digitValue c).bind fun d => intDigits d rest

/-- `int(s)`; `none` stands for the `ValueError` it raises. The limit of 4300 digits, which an
interpreter can be told to lift, is left out. -/
def pyInt (s : Str) : Option ℤ :=
  match strip s with
  | '-' :: rest => (intMagnitude rest).map fun n => -(n : ℤ)
  | '+' :: rest => (intMagnitude rest).map fun n => (n : ℤ)
  | rest => (intMagnitude rest).map fun n => (n : ℤ)

theorem isDigit_bounds (c : Char) (hc : c.isDigit = true) : 48 ≤ c.toNat ∧ c.toNat ≤ 57 := by
  simp only [Char.isDigit, Bool.and_eq_true, decide_eq_true_eq, ge_iff_le] at hc
  exact ⟨hc.1, hc.2⟩

/-- An ASCII digit is read by the first of the decimal scripts. -/
theorem digitValue_ascii (c : Char) (hc : c.isDigit = true) :
    digitValue c = some (c.toNat-48) := by
  obtain ⟨hl, hu⟩ := isDigit_bounds c hc
  have hz : 0x30 ≤ c.toNat ∧ c.toNat < 0x30+10 := by omega
  simp [digitValue, decimalZeros, hz]

theorem isSpace_ascii_digit (c : Char) (hc : c.isDigit = true) : isSpace c = false := by
  obtain ⟨hl, hu⟩ := isDigit_bounds c hc
  simp only [isSpace, Bool.or_eq_false_iff, Bool.and_eq_false_iff, decide_eq_false_iff_not]
  omega

theorem intDigits_ascii (cs : Str) (hd : ∀ c ∈ cs, c.isDigit = true) (acc : ℕ) :
    intDigits acc cs = some (Nat.ofDigitChars 10 cs acc) := by
  induction cs generalizing acc with
  | nil => simp [intDigits]
  | cons c cs ih =>
    have hc := hd c (List.mem_cons_self ..)
    have hu : c ≠ '_' := by
      intro h
      rw [h] at hc
      exact absurd hc (by decide)
    have hstep : intDigits acc (c :: cs) =
        (digitValue c).bind fun d => intDigits (acc*10+d) cs := by
      cases cs <;> simp [intDigits, hu]
    rw [hstep, digitValue_ascii c hc, Option.bind_some,
      ih (fun x hx => hd x (List.mem_cons_of_mem c hx)), Nat.ofDigitChars_cons]
    congr 2
    exact congrArg (· + (c.toNat-48)) (Nat.mul_comm acc 10)

theorem natStr_digits (n : ℕ) : ∀ c ∈ natStr n, c.isDigit = true :=
  fun _ hc => Nat.isDigit_of_mem_toDigits (by decide) (by decide) hc

theorem intMagnitude_natStr (n : ℕ) : intMagnitude (natStr n) = some n := by
  have hd := natStr_digits n
  have hv : Nat.ofDigitChars 10 (natStr n) 0 = n := Nat.ofDigitChars_ten_toDigits
  cases hs : natStr n with
  | nil => exact absurd hs Nat.toDigits_ne_nil
  | cons c cs =>
    rw [hs] at hd hv
    rw [intMagnitude, digitValue_ascii c (hd c (List.mem_cons_self ..)), Option.bind_some,
      intDigits_ascii cs (fun x hx => hd x (List.mem_cons_of_mem c hx))]
    simpa [Nat.ofDigitChars_cons] using hv

theorem strip_of_ends (s : Str) (hs : s ≠ [])
    (hh : isSpace (s.head hs) = false) (hl : isSpace (s.getLast hs) = false) : strip s = s := by
  have hd : s.dropWhile isSpace = s := by
    cases s with
    | nil => rfl
    | cons c cs => simp only [List.head_cons] at hh; simp [hh]
  rw [strip, hd]
  exact List.rdropWhile_eq_self_iff.mpr (fun _ => by simp [hl])

/-- `int(str(z)) == z`. -/
theorem pyInt_intStr (z : ℤ) : pyInt (intStr z) = some z := by
  have hdigit (n : ℕ) (hn : natStr n ≠ []) : ((natStr n).getLast hn).isDigit = true :=
    natStr_digits n _ (List.getLast_mem hn)
  have hhead (n : ℕ) (hn : natStr n ≠ []) : ((natStr n).head hn).isDigit = true :=
    natStr_digits n _ (List.head_mem hn)
  cases z with
  | ofNat n =>
    have hn : natStr n ≠ [] := Nat.toDigits_ne_nil
    have hst : strip (intStr (.ofNat n)) = natStr n :=
      strip_of_ends _ hn (isSpace_ascii_digit _ (hhead n hn)) (isSpace_ascii_digit _ (hdigit n hn))
    have hm := intMagnitude_natStr n
    have hh := hhead n hn
    rw [pyInt, hst]
    cases hs : natStr n with
    | nil => exact absurd hs hn
    | cons c cs =>
      have hc : c.isDigit = true := by simpa [hs] using hh
      have h1 : c ≠ '-' := by rintro rfl; exact absurd hc (by decide)
      have h2 : c ≠ '+' := by rintro rfl; exact absurd hc (by decide)
      rw [hs] at hm
      simp [h1, h2, hm]
  | negSucc n =>
    have hn : natStr (n+1) ≠ [] := Nat.toDigits_ne_nil
    have hst : strip (intStr (.negSucc n)) = '-' :: natStr (n+1) := by
      refine strip_of_ends ('-' :: natStr (n+1)) (List.cons_ne_nil _ _)
        (by rw [List.head_cons]; decide) ?_
      rw [List.getLast_cons hn]
      exact isSpace_ascii_digit _ (hdigit (n+1) hn)
    rw [pyInt, hst]
    simp only [intMagnitude_natStr]
    rfl

theorem natStr_free (n : ℕ) (c : Char) (hc : c.isDigit = false) : c ∉ natStr n := by
  intro h
  rw [natStr_digits n c h] at hc
  exact absurd hc (by decide)

theorem intStr_free (z : ℤ) (c : Char) (hc : c.isDigit = false) (hm : c ≠ '-') :
    c ∉ intStr z := by
  cases z with
  | ofNat n => exact natStr_free n c hc
  | negSucc n =>
    simp only [intStr, List.mem_cons, not_or]
    exact ⟨hm, natStr_free (n+1) c hc⟩

theorem intStr_ne_nil (z : ℤ) : intStr z ≠ [] := by
  cases z with
  | ofNat n => exact Nat.toDigits_ne_nil
  | negSucc n => exact List.cons_ne_nil _ _

end RaftVerified
