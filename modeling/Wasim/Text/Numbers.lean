import Wasim.Library.Outcome
import Wasim.Library.Utf8
import Wasim.Text.Keywords

/-!
# Numbers in the text format

The classifier for number literals of `wasim_text_tokenizer.odin` and the conversion of
unsigned literals of `wasim_text_utils.odin`. The helpers of the classifier take the front
off a text and hand back the rest.
-/

namespace Wasim

/-- The byte of an ASCII character. -/
def byteOf (c : Char) : UInt8 := UInt8.ofNat c.toNat

def texTokIsDigit (ch : ℕ) (base : ℕ) : Bool :=
  if '0'.toNat ≤ ch ∧ ch ≤ '9'.toNat then true
  else if ('a'.toNat ≤ ch ∧ ch ≤ 'f'.toNat) ∨ ('A'.toNat ≤ ch ∧ ch ≤ 'F'.toNat) then base == 16
  else false

/-! ### The classifier -/

def readSign : List UInt8 → Bool × List UInt8
  | c :: s => if c = byteOf '+' ∨ c = byteOf '-' then (true, s) else (false, c :: s)
  | [] => (false, [])

/-- The loop of `read_digits`: digits, and underscores that stand before a digit. -/
def readDigitsLoop (base : ℕ) : List UInt8 → List UInt8
  | [] => []
  | c :: s =>
    if texTokIsDigit c.toNat base then readDigitsLoop base s
    else
      match s with
      | d :: s' =>
        if c = byteOf '_' ∧ texTokIsDigit d.toNat base then readDigitsLoop base s' else c :: d :: s'
      | [] => [c]

/-- The first test is `starts_with_digit`. -/
def readDigits (base : ℕ) : List UInt8 → Bool × List UInt8
  | c :: s => if texTokIsDigit c.toNat base then (true, readDigitsLoop base s) else (false, c :: s)
  | [] => (false, [])

/-- Whether there is an exponent, whether it is valid, and what follows it. -/
def readExponent (markerLower markerUpper : UInt8) : List UInt8 → Bool × Bool × List UInt8
  | c :: s =>
    if c = markerLower ∨ c = markerUpper then
      let digits := readDigits 10 (readSign s).2
      (true, digits.1, digits.2)
    else (false, false, c :: s)
  | [] => (false, false, [])

def startsWith (s pre : List UInt8) : Bool := pre.isPrefixOf s

def readRegular (s : List UInt8) (hadSign : Bool) : TexTokenKind :=
  let base := if startsWith s (ascii "0x") then 16 else 10
  let s := if startsWith s (ascii "0x") then s.drop 2 else s
  let digits := readDigits base s
  if digits.1 then
    match digits.2 with
    | [] => if hadSign then .integerSigned else .integerUnsigned
    | c :: rest =>
      let hasPoint := c = byteOf '.'
      let rest := if hasPoint then (readDigits base rest).2 else c :: rest
      let (hasExponent, exponentValid, rest) :=
        readExponent (byteOf (if base = 10 then 'e' else 'p'))
          (byteOf (if base = 10 then 'E' else 'P')) rest
      let consumedAll := rest = []
      let validExponent := !hasExponent || exponentValid
      let hexHasExponent := base = 10 ∨ hasExponent
      let isFloatNotation := hasPoint ∨ hasExponent
      if consumedAll ∧ validExponent ∧ hexHasExponent ∧ isFloatNotation then .float else .invalid
  else .invalid

def texTokReadNumberLike (s : List UInt8) : TexTokenKind :=
  let (hadSign, rest) := readSign s
  if rest = [] then .invalid
  else if rest = ascii "inf" ∨ rest = ascii "nan" then .float
  else if startsWith rest (ascii "nan:0x") then
    let digits := readDigits 16 (rest.drop (ascii "nan:0x").length)
    if digits.1 ∧ digits.2 = [] then .float else .invalid
  else readRegular rest hadSign

/-- The kinds of number literals, and the answer that there is none. -/
def TexTokenKind.IsNumberLike (kind : TexTokenKind) : Prop :=
  kind = .invalid ∨ kind = .float ∨ kind = .integerSigned ∨ kind = .integerUnsigned

theorem isNumberLike_readRegular (s : List UInt8) (hadSign : Bool) :
    (readRegular s hadSign).IsNumberLike := by
  simp only [readRegular]
  generalize (if startsWith s (ascii "0x") then 16 else 10) = base
  generalize (if startsWith s (ascii "0x") then s.drop 2 else s) = body
  split
  · split
    · rcases hadSign with _ | _
      · exact Or.inr (Or.inr (Or.inr rfl))
      · exact Or.inr (Or.inr (Or.inl rfl))
    · exact ite_eq_or_eq .. |>.elim (fun h => Or.inr (Or.inl h)) fun h => Or.inl h
  · exact Or.inl rfl

theorem isNumberLike_texTokReadNumberLike (s : List UInt8) :
    (texTokReadNumberLike s).IsNumberLike := by
  simp only [texTokReadNumberLike]
  split
  · exact Or.inl rfl
  · split
    · exact Or.inr (Or.inl rfl)
    · split
      · split
        · exact Or.inr (Or.inl rfl)
        · exact Or.inl rfl
      · exact isNumberLike_readRegular _ _

/-! ### Unsigned integers -/

inductive TexIntegerConversionError where
  | none
  | numberToLarge
  | numberToSmall
  deriving DecidableEq, Repr

/-- The value of a digit. Other runes make it panic. -/
def texIntegerRuneValue (r : ℕ) : Outcome ℕ :=
  if '0'.toNat ≤ r ∧ r ≤ '9'.toNat then .returned (r - '0'.toNat)
  else if 'a'.toNat ≤ r ∧ r ≤ 'f'.toNat then .returned (r - 'a'.toNat + 10)
  else if 'A'.toNat ≤ r ∧ r ≤ 'F'.toNat then .returned (r - 'A'.toNat + 10)
  else .crashed

/-- The runes of a text, as `for r in s` visits them. -/
def runes : List UInt8 → List ℕ
  | [] => []
  | b :: bs =>
    (Utf8.decodeRune (b :: bs)).1 :: runes ((b :: bs).drop (Utf8.decodeRune (b :: bs)).2)
termination_by s => s.length
decreasing_by
  have := Utf8.decodeRune_length_pos b bs
  simp only [List.length_drop, List.length_cons]
  omega

/-- The loop of `tex_uXX_from_string` at the unsigned type of `bits` bits: on overflow it stops
with the value that wrapped around. -/
def texUXXLoop (bits base : ℕ) : ℕ → List ℕ → Outcome (ℕ × TexIntegerConversionError)
  | value, [] => .returned (value, .none)
  | value, r :: rs =>
    if r = '_'.toNat then texUXXLoop bits base value rs
    else if 2 ^ bits ≤ value * base then .returned (value * base % 2 ^ bits, .numberToLarge)
    else do
      let digit ← texIntegerRuneValue r
      if 2 ^ bits ≤ value * base + digit then
        return ((value * base + digit) % 2 ^ bits, .numberToLarge)
      else texUXXLoop bits base (value * base + digit) rs

def texUXXFromString (bits : ℕ) (s : List UInt8) : Outcome (ℕ × TexIntegerConversionError) :=
  if s = [] then .crashed
  else if startsWith s (ascii "0x") then texUXXLoop bits 16 0 (runes (s.drop 2))
  else texUXXLoop bits 10 0 (runes s)

def texU32FromString (s : List UInt8) : Outcome (UInt32 × TexIntegerConversionError) := do
  let (value, err) ← texUXXFromString 32 s
  return (UInt32.ofNat value, err)

/-! ### Literals that were classified convert without a panic -/

/-- A byte of an unsigned literal behind its base. -/
def isDigitOrUnderscore (base : ℕ) (c : UInt8) : Bool :=
  texTokIsDigit c.toNat base || c = byteOf '_'

theorem readDigitsLoop_eq_nil {base : ℕ} {s : List UInt8} (h : readDigitsLoop base s = []) :
    s.all (isDigitOrUnderscore base) := by
  fun_induction readDigitsLoop base s with
  | case1 => rfl
  | case2 c s hdigit ih => simp [isDigitOrUnderscore, hdigit, ih h]
  | case3 c hdigit d s' hboth ih => simp [isDigitOrUnderscore, hboth, ih h]
  | case4 => cases h
  | case5 => cases h

theorem readDigits_all {base : ℕ} {s : List UInt8} (h : readDigits base s = (true, [])) :
    s.all (isDigitOrUnderscore base) ∧ s ≠ [] := by
  rcases s with _ | ⟨c, s⟩
  · cases h
  · rw [readDigits] at h
    split at h
    · rename_i hdigit
      have hs := readDigitsLoop_eq_nil (Prod.mk.inj h).2
      exact ⟨by simp [isDigitOrUnderscore, hdigit, hs], by simp⟩
    · cases (Prod.mk.inj h).1

theorem isDigitOrUnderscore_lt {base : ℕ} {c : UInt8} (h : isDigitOrUnderscore base c) :
    c.toNat < 0x80 := by
  simp only [isDigitOrUnderscore, texTokIsDigit, Bool.or_eq_true, decide_eq_true_eq] at h
  rcases h with h | rfl
  · revert h
    split
    · rename_i h
      intro _
      simp only [Char.reduceToNat] at h
      omega
    · split
      · rename_i h
        intro _
        simp only [Char.reduceToNat] at h
        omega
      · intro h
        cases h
  · decide

/-- The runes of an ASCII text are its bytes. -/
theorem runes_ascii {s : List UInt8} (h : ∀ c ∈ s, c.toNat < 0x80) :
    runes s = s.map UInt8.toNat := by
  induction s with
  | nil => rw [runes]; rfl
  | cons b bs ih =>
    rw [runes, Utf8.decodeRune_ascii (h b (by simp))]
    simp only [List.drop_succ_cons, List.drop_zero, List.map_cons]
    rw [ih fun c hc => h c (by simp [hc])]

theorem texIntegerRuneValue_returned {base r : ℕ} (h : texTokIsDigit r base) :
    ∃ digit, texIntegerRuneValue r = .returned digit := by
  rw [texTokIsDigit] at h
  rw [texIntegerRuneValue]
  split
  · exact ⟨_, rfl⟩
  · rename_i hdec
    rw [if_neg hdec] at h
    split
    · exact ⟨_, rfl⟩
    · rename_i hlower
      split
      · exact ⟨_, rfl⟩
      · rename_i hupper
        rw [if_neg (not_or.mpr ⟨hlower, hupper⟩)] at h
        cases h

theorem texUXXLoop_returned (bits base : ℕ) {s : List UInt8}
    (h : s.all (isDigitOrUnderscore base)) (value : ℕ) :
    ∃ result, texUXXLoop bits base value (s.map UInt8.toNat) = .returned result := by
  induction s generalizing value with
  | nil => exact ⟨_, rfl⟩
  | cons c s ih =>
    simp only [List.all_cons, Bool.and_eq_true] at h
    rw [List.map_cons, texUXXLoop]
    split
    · exact ih h.2 value
    · rename_i hunderscore
      split
      · exact ⟨_, rfl⟩
      · have hdigit : texTokIsDigit c.toNat base := by
          simp only [isDigitOrUnderscore, Bool.or_eq_true, decide_eq_true_eq] at h
          refine h.1.resolve_right fun hc => hunderscore ?_
          rw [hc]
          decide
        obtain ⟨digit, hvalue⟩ := texIntegerRuneValue_returned hdigit
        rw [hvalue, Outcome.returned_bind]
        split
        · exact ⟨_, rfl⟩
        · exact ih h.2 _

theorem readRegular_integerUnsigned {s : List UInt8} {hadSign : Bool}
    (h : readRegular s hadSign = .integerUnsigned) :
    readDigits (if startsWith s (ascii "0x") then 16 else 10)
      (if startsWith s (ascii "0x") then s.drop 2 else s) = (true, []) := by
  simp only [readRegular] at h
  generalize (if startsWith s (ascii "0x") then 16 else 10) = base at h ⊢
  generalize (if startsWith s (ascii "0x") then s.drop 2 else s) = body at h ⊢
  split at h
  · rename_i hdigits
    split at h
    · rename_i hrest
      exact Prod.ext hdigits hrest
    · rcases ite_eq_iff.mp h with ⟨-, hkind⟩ | ⟨-, hkind⟩
      · cases hkind
      · cases hkind
  · cases h

/-- What the classifier takes for an unsigned integer is converted without a panic. -/
theorem texUXXFromString_returned (bits : ℕ) {s : List UInt8}
    (h : readRegular s false = .integerUnsigned) :
    ∃ result, texUXXFromString bits s = .returned result := by
  have hdigits := readRegular_integerUnsigned h
  have hloop : ∀ {base : ℕ} {s : List UInt8}, s.all (isDigitOrUnderscore base) →
      ∃ result, texUXXLoop bits base 0 (runes s) = .returned result := by
    intro base s hall
    rw [runes_ascii fun c hc => isDigitOrUnderscore_lt (List.all_eq_true.mp hall c hc)]
    exact texUXXLoop_returned bits base hall 0
  rw [texUXXFromString]
  split
  · rename_i hs
    subst hs
    cases hdigits
  · split
    · rename_i hhex
      rw [if_pos hhex, if_pos hhex] at hdigits
      exact hloop (readDigits_all hdigits).1
    · rename_i hhex
      rw [if_neg hhex, if_neg hhex] at hdigits
      exact hloop (readDigits_all hdigits).1

theorem texTokReadNumberLike_integerUnsigned {s : List UInt8}
    (h : texTokReadNumberLike s = .integerUnsigned) :
    readRegular s false = .integerUnsigned := by
  have hsign : ∀ {s : List UInt8}, readRegular s true ≠ .integerUnsigned := by
    intro s hs
    have hdigits := readRegular_integerUnsigned hs
    simp only [readRegular, hdigits, if_true] at hs
    cases hs
  simp only [texTokReadNumberLike] at h
  split at h
  · cases h
  · split at h
    · cases h
    · split at h
      · split at h
        · cases h
        · cases h
      · rcases s with _ | ⟨c, s⟩
        · exact h
        · rw [readSign] at h
          split at h
          · exact absurd h hsign
          · exact h

theorem texU32FromString_returned {s : List UInt8}
    (h : texTokReadNumberLike s = .integerUnsigned) :
    ∃ result, texU32FromString s = .returned result := by
  obtain ⟨result, hresult⟩ :=
    texUXXFromString_returned 32 (texTokReadNumberLike_integerUnsigned h)
  exact ⟨_, by rw [texU32FromString, hresult]; rfl⟩

/-! ### The value of a literal -/

def digitValue (c : UInt8) : ℕ :=
  if c.toNat ≤ '9'.toNat then c.toNat - '0'.toNat
  else if 'a'.toNat ≤ c.toNat then c.toNat - 'a'.toNat + 10
  else c.toNat - 'A'.toNat + 10

/-- The value of digits and underscores behind digits of the value `value`. -/
def digitsValue (base value : ℕ) (s : List UInt8) : ℕ :=
  s.foldl (fun value c => if c = byteOf '_' then value else value * base + digitValue c) value

/-- The value of an unsigned literal. -/
def literalValue (s : List UInt8) : ℕ :=
  if startsWith s (ascii "0x") then digitsValue 16 0 (s.drop 2) else digitsValue 10 0 s

theorem le_digitsValue {base : ℕ} (hbase : 0 < base) (value : ℕ) (s : List UInt8) :
    value ≤ digitsValue base value s := by
  induction s generalizing value with
  | nil => exact le_rfl
  | cons c s ih =>
    rw [digitsValue, List.foldl_cons]
    refine le_trans ?_ (ih _)
    split
    · exact le_rfl
    · exact (Nat.le_mul_of_pos_right value hbase).trans (Nat.le_add_right _ _)

theorem texIntegerRuneValue_eq {base : ℕ} {c : UInt8} (h : texTokIsDigit c.toNat base) :
    texIntegerRuneValue c.toNat = .returned (digitValue c) := by
  obtain ⟨digit, hdigit⟩ := texIntegerRuneValue_returned h
  rw [hdigit, ← hdigit, texIntegerRuneValue, digitValue]
  rw [texIntegerRuneValue] at hdigit
  simp only [Char.reduceToNat] at hdigit ⊢
  split_ifs at hdigit ⊢ <;> first | rfl | omega

/-- The loop computes the value of the literal, and finds out when it is too large. -/
theorem texUXXLoop_eq (bits : ℕ) {base : ℕ} (hbase : 0 < base) {s : List UInt8}
    (h : s.all (isDigitOrUnderscore base)) {value : ℕ} (hvalue : value < 2 ^ bits) :
    (digitsValue base value s < 2 ^ bits →
      texUXXLoop bits base value (s.map UInt8.toNat) =
        .returned (digitsValue base value s, .none)) ∧
    (2 ^ bits ≤ digitsValue base value s →
      ∃ wrapped, texUXXLoop bits base value (s.map UInt8.toNat) =
        .returned (wrapped, .numberToLarge)) := by
  induction s generalizing value with
  | nil =>
    refine ⟨fun _ => rfl, fun hlarge => ?_⟩
    exact absurd hvalue (not_lt.mpr hlarge)
  | cons c s ih =>
    simp only [List.all_cons, Bool.and_eq_true] at h
    by_cases hc : c = byteOf '_'
    · have hstep : digitsValue base value (c :: s) = digitsValue base value s := by
        rw [digitsValue, List.foldl_cons, if_pos hc]
        rfl
      have hloop : texUXXLoop bits base value ((c :: s).map UInt8.toNat) =
          texUXXLoop bits base value (s.map UInt8.toNat) := by
        rw [List.map_cons, texUXXLoop, if_pos (by rw [hc]; decide)]
      rw [hstep, hloop]
      exact ih h.2 hvalue
    · have hdigit : texTokIsDigit c.toNat base := by
        simp only [isDigitOrUnderscore, Bool.or_eq_true, decide_eq_true_eq] at h
        exact h.1.resolve_right hc
      have hne : c.toNat ≠ '_'.toNat := by
        intro heq
        apply hc
        rw [byteOf, ← heq, UInt8.ofNat_toNat]
      have hstep : digitsValue base value (c :: s) =
          digitsValue base (value * base + digitValue c) s := by
        rw [digitsValue, List.foldl_cons, if_neg hc]
        rfl
      have hle := le_digitsValue hbase (value * base + digitValue c) s
      rw [hstep, List.map_cons, texUXXLoop, if_neg hne, texIntegerRuneValue_eq hdigit]
      by_cases hlarge : 2 ^ bits ≤ value * base
      · rw [if_pos hlarge]
        refine ⟨fun hsmall => ?_, fun _ => ⟨_, rfl⟩⟩
        omega
      · rw [if_neg hlarge, Outcome.returned_bind]
        by_cases hadd : 2 ^ bits ≤ value * base + digitValue c
        · rw [if_pos hadd]
          refine ⟨fun hsmall => ?_, fun _ => ⟨_, rfl⟩⟩
          omega
        · rw [if_neg hadd]
          exact ih h.2 (not_le.mp hadd)

theorem texUXXFromString_eq (bits : ℕ) {s : List UInt8}
    (h : readRegular s false = .integerUnsigned) :
    (literalValue s < 2 ^ bits →
      texUXXFromString bits s = .returned (literalValue s, .none)) ∧
    (2 ^ bits ≤ literalValue s →
      ∃ wrapped, texUXXFromString bits s = .returned (wrapped, .numberToLarge)) := by
  have hdigits := readRegular_integerUnsigned h
  have hne : s ≠ [] := by
    rintro rfl
    cases hdigits
  have hloop : ∀ {base : ℕ}, 0 < base → ∀ {s : List UInt8}, s.all (isDigitOrUnderscore base) →
      (digitsValue base 0 s < 2 ^ bits →
        texUXXLoop bits base 0 (runes s) = .returned (digitsValue base 0 s, .none)) ∧
      (2 ^ bits ≤ digitsValue base 0 s →
        ∃ wrapped, texUXXLoop bits base 0 (runes s) = .returned (wrapped, .numberToLarge)) := by
    intro base hbase s hall
    rw [runes_ascii fun c hc => isDigitOrUnderscore_lt (List.all_eq_true.mp hall c hc)]
    exact texUXXLoop_eq bits hbase hall (Nat.two_pow_pos bits)
  rw [texUXXFromString, if_neg hne, literalValue]
  split
  · rename_i hhex
    rw [if_pos hhex, if_pos hhex] at hdigits
    exact hloop (by decide) (readDigits_all hdigits).1
  · rename_i hhex
    rw [if_neg hhex, if_neg hhex] at hdigits
    exact hloop (by decide) (readDigits_all hdigits).1

/-- An unsigned literal fits into 32 bits, or it is too large. -/
theorem texU32FromString_eq {s : List UInt8} (h : texTokReadNumberLike s = .integerUnsigned) :
    (literalValue s < 2 ^ 32 →
      texU32FromString s = .returned (UInt32.ofNat (literalValue s), .none)) ∧
    (2 ^ 32 ≤ literalValue s →
      ∃ wrapped, texU32FromString s = .returned (wrapped, .numberToLarge)) := by
  obtain ⟨hsmall, hlarge⟩ := texUXXFromString_eq 32 (texTokReadNumberLike_integerUnsigned h)
  refine ⟨fun hlt => ?_, fun hge => ?_⟩
  · rw [texU32FromString, hsmall hlt]
    rfl
  · obtain ⟨wrapped, hwrapped⟩ := hlarge hge
    exact ⟨_, by rw [texU32FromString, hwrapped]; rfl⟩

end Wasim
