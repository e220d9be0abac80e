import Wasim.Text.Integers

/-!
# Floats in the text format

The conversion of float literals of `wasim_text_utils.odin` and `wasim_text_parse_float.odin`.
A float is the number of its bits; the two widths share one definition that takes the data of
the width. The conversion of decimals is the one of the core library: it is a parameter.
-/

namespace Wasim

/-- `strconv.Float_Info`. -/
structure FloatInfo where
  mantbits : ℕ
  expbits : ℕ
  bias : ℤ

def f32Info : FloatInfo := ⟨23, 8, -127⟩

def f64Info : FloatInfo := ⟨52, 11, -1023⟩

/-- The bit of the sign, the number of all bits below it. -/
def FloatInfo.signBit (info : FloatInfo) : ℕ := 2 ^ (info.mantbits + info.expbits)

/-! ### The components of a literal -/

def lower (ch : UInt8) : UInt8 := (byteOf 'a' - byteOf 'A') ||| ch

/-- The variables of `parse_components` that its loop over the digits changes. -/
structure DigitScan where
  mantissa : ℕ := 0
  sawDot : Bool := false
  sawDigits : Bool := false
  nd : ℕ := 0
  ndMant : ℕ := 0
  decimalPoint : ℤ := 0
  trailingZeroesNd : ℤ := -1
  trunc : Bool := false

/-- One digit of the value `digit`; `nonzero` tells whether it truncates behind the mantissa. -/
def DigitScan.push (st : DigitScan) (base maxMantDigits digit : ℕ) (nonzero : Bool) : DigitScan :=
  let st := { st with nd := st.nd + 1 }
  if st.ndMant < maxMantDigits then
    { st with mantissa := (st.mantissa * base + digit) % 2 ^ 64, ndMant := st.ndMant + 1 }
  else if nonzero then { st with trunc := true }
  else st

/-- The case of the decimal digits. -/
def DigitScan.decimalDigit (st : DigitScan) (base maxMantDigits : ℕ) (c : UInt8) : DigitScan :=
  let st := { st with sawDigits := true }
  if c = byteOf '0' ∧ st.nd = 0 then { st with decimalPoint := st.decimalPoint - 1 }
  else
    let trailing :=
      if c = byteOf '0' then
        if st.trailingZeroesNd = -1 then (st.nd : ℤ) else st.trailingZeroesNd
      else -1
    { st with trailingZeroesNd := trailing }.push base maxMantDigits (c.toNat - '0'.toNat)
      (c ≠ byteOf '0')

/-- The case of the letters of hexadecimal digits. It leaves the count of trailing zeroes. -/
def DigitScan.hexDigit (st : DigitScan) (maxMantDigits : ℕ) (c : UInt8) : DigitScan :=
  { st with sawDigits := true }.push 16 maxMantDigits ((lower c).toNat - 'a'.toNat + 10) true

/-- The loop over the digits. It hands back the text behind them. -/
def scanDigits (base maxMantDigits : ℕ) : List UInt8 → DigitScan → Outcome (DigitScan × List UInt8)
  | [], st => .returned (st, [])
  | c :: s, st =>
    if c = byteOf '_' then scanDigits base maxMantDigits s st
    else if c = byteOf '.' then
      if st.sawDot then .crashed
      else scanDigits base maxMantDigits s { st with sawDot := true, decimalPoint := st.nd }
    else if byteOf '0' ≤ c ∧ c ≤ byteOf '9' then
      scanDigits base maxMantDigits s (st.decimalDigit base maxMantDigits c)
    else if base = 16 ∧ byteOf 'a' ≤ lower c ∧ lower c ≤ byteOf 'f' then
      scanDigits base maxMantDigits s (st.hexDigit maxMantDigits c)
    else .returned (st, c :: s)

/-- The loop that takes `count` zeroes off the mantissa, which has `ndMant` digits. -/
def dropZeroes (base : ℕ) : ℕ → ℕ → ℤ → ℕ × ℤ
  | 0, mantissa, ndMant => (mantissa, ndMant)
  | count + 1, mantissa, ndMant => dropZeroes base count (mantissa / base) (ndMant - 1)

/-- The loop over the digits of an exponent, which is capped. -/
def scanExponent : List UInt8 → ℤ → ℤ × List UInt8
  | c :: s, e =>
    if byteOf '0' ≤ c ∧ c ≤ byteOf '9' then
      scanExponent s (if e < 100000 then e * 10 + (c.toNat - '0'.toNat : ℕ) else e)
    else if c = byteOf '_' then scanExponent s e
    else (e, c :: s)
  | [], e => (e, [])

/-- The exponent behind its marker, and the text behind it. -/
def parseExponent (s : List UInt8) : Option (ℤ × List UInt8) :=
  let expSign : ℤ := if s.head? = some (byteOf '-') then -1 else 1
  match (readSign s).2 with
  | c :: rest =>
    if c < byteOf '0' ∨ byteOf '9' < c then none
    else
      let (e, rest) := scanExponent (c :: rest) 0
      some (e * expSign, rest)
  | [] => none

/-- The components of a literal, and the text behind the literal. -/
structure Components where
  mantissa : ℕ
  exp : ℤ
  neg : Bool
  trunc : Bool
  hex : Bool
  rest : List UInt8
  deriving DecidableEq

/-- Whether `0x` and at least one more byte stand at the front. -/
def startsHex : List UInt8 → Bool
  | c :: x :: _ :: _ => c = byteOf '0' ∧ lower x = byteOf 'x'
  | _ => false

/-- What `parse_components` does with the digits it has scanned: it answers `none` where the
source answers that the literal is not ok. -/
def finishComponents (neg hex : Bool) (scan : DigitScan) (rest : List UInt8) : Option Components :=
  if !scan.sawDigits then none
  else
    let decimalPoint := if scan.sawDot then scan.decimalPoint else (scan.nd : ℤ)
    let zeroes :=
      if 0 < scan.trailingZeroesNd then (scan.ndMant : ℤ) - scan.trailingZeroesNd
      else scan.trailingZeroesNd
    let (mantissa, ndMant) :=
      dropZeroes (if hex then 16 else 10) zeroes.toNat scan.mantissa scan.ndMant
    let decimalPoint := if hex then decimalPoint * 4 else decimalPoint
    let ndMant := if hex then ndMant * 4 else ndMant
    let components (decimalPoint : ℤ) (rest : List UInt8) : Components :=
      { mantissa, exp := if mantissa ≠ 0 then decimalPoint - ndMant else 0, neg,
        trunc := scan.trunc, hex, rest }
    match rest with
    | c :: s =>
      if lower c = (if hex then byteOf 'p' else byteOf 'e') then
        match parseExponent s with
        | some (e, rest) => some (components (decimalPoint + e) rest)
        | none => none
      else if hex then none
      else some (components decimalPoint (c :: s))
    | [] => if hex then none else some (components decimalPoint [])

def parseComponents (s : List UInt8) : Outcome (Option Components) := do
  let neg := s.head? = some (byteOf '-')
  let body := (readSign s).2
  let hex := startsHex body
  let (scan, rest) ← scanDigits (if hex then 16 else 10) (if hex then 16 else 19)
    (if hex then body.drop 2 else body) {}
  return finishComponents neg hex scan rest

/-! ### Rounding of hexadecimal literals -/

/-- The loop that widens a mantissa up to two bits behind the ones of the float. -/
def widen (mantbits mantissa : ℕ) (exp : ℤ) : ℕ × ℤ :=
  if mantissa ≠ 0 ∧ mantissa >>> (1 + mantbits + 2) = 0 then
    widen mantbits (mantissa <<< 1) (exp - 1)
  else (mantissa, exp)
termination_by 2 ^ (1 + mantbits + 2) - mantissa
decreasing_by
  rename_i h
  rw [Nat.shiftRight_eq_div_pow, Nat.div_eq_zero_iff_lt (Nat.two_pow_pos _)] at h
  rw [Nat.shiftLeft_eq]
  omega

/-- A shift to the right that keeps in the last bit whether something was lost. -/
def shiftSticky (mantissa : ℕ) : ℕ := (mantissa >>> 1) ||| (mantissa &&& 1)

theorem shiftSticky_lt {mantissa : ℕ} (h : 1 < mantissa) : shiftSticky mantissa < mantissa := by
  rw [shiftSticky, Nat.shiftRight_eq_div_pow, Nat.and_one_is_mod, pow_one]
  rcases Nat.mod_two_eq_zero_or_one mantissa with heven | hodd
  · rw [heven, Nat.or_zero]
    omega
  · rw [hodd]
    have hhalf : (mantissa / 2 ||| 1) / 2 = mantissa / 2 / 2 := by
      rw [Nat.or_div_two]
      exact Nat.or_zero _
    omega

/-- The loop that narrows a mantissa to two bits behind the ones of the float. -/
def narrow (mantbits mantissa : ℕ) (exp : ℤ) : ℕ × ℤ :=
  if mantissa >>> (1 + mantbits + 2) ≠ 0 then narrow mantbits (shiftSticky mantissa) (exp + 1)
  else (mantissa, exp)
termination_by mantissa
decreasing_by
  rename_i h
  rw [Nat.shiftRight_eq_div_pow, Ne, Nat.div_eq_zero_iff_lt (Nat.two_pow_pos _), not_lt] at h
  have hpow : 2 ^ 2 ≤ 2 ^ (1 + mantbits + 2) := Nat.pow_le_pow_right (by decide) (by omega)
  exact shiftSticky_lt (by omega)

/-- The loop that narrows the mantissa of a subnormal. -/
def denormalize (minExp : ℤ) (mantissa : ℕ) (exp : ℤ) : ℕ × ℤ :=
  if 1 < mantissa ∧ exp < minExp - 2 then denormalize minExp (shiftSticky mantissa) (exp + 1)
  else (mantissa, exp)
termination_by mantissa
decreasing_by exact shiftSticky_lt (by omega)

/-- The mantissa without its last two bits, rounded to even, and the exponent that goes with it. -/
def roundMantissa (mantbits mantissa : ℕ) (exp : ℤ) : ℕ × ℤ :=
  let round := (mantissa &&& 3) ||| ((mantissa >>> 2) &&& 1)
  let mantissa := mantissa >>> 2
  let exp := exp + 2
  if round = 3 then
    let mantissa := mantissa + 1
    if mantissa = 1 <<< (1 + mantbits) then (mantissa >>> 1, exp + 1) else (mantissa, exp)
  else (mantissa, exp)

/-- `parse_hex`: the bits, and whether the number is too large. -/
def parseHex (info : FloatInfo) (mantissa : ℕ) (exp : ℤ) (neg trunc : Bool) : ℕ × Bool :=
  let maxExp : ℤ := 2 ^ info.expbits + info.bias - 2
  let minExp := info.bias + 1
  let (mantissa, exp) := widen info.mantbits mantissa (exp + info.mantbits)
  let mantissa := if trunc then mantissa ||| 1 else mantissa
  let (mantissa, exp) := narrow info.mantbits mantissa exp
  let (mantissa, exp) := denormalize minExp mantissa exp
  let (mantissa, exp) := roundMantissa info.mantbits mantissa exp
  let exp := if mantissa >>> info.mantbits = 0 then info.bias else exp
  let overflow : Bool := maxExp < exp
  let mantissa := if overflow then 1 <<< info.mantbits else mantissa
  let exp := if overflow then maxExp + 1 else exp
  -- the mask of the biased exponent wraps around below zero
  let biased := ((exp - info.bias) % 2 ^ info.expbits).toNat
  let bits := (mantissa &&& (1 <<< info.mantbits - 1)) ||| (biased <<< info.mantbits)
  (if neg then bits ||| info.signBit else bits, overflow)

/-! ### The conversions -/

/-- `decimal.set` and `decimal_to_float_bits` of the core library; without a result the text is
not a decimal. -/
abbrev Decimals := FloatInfo → List UInt8 → Option (ℕ × Bool)

/-- `tex_parse_float`: the bits, and whether the number is too large. -/
def texParseFloat (decimals : Decimals) (info : FloatInfo) (s : List UInt8) :
    Outcome (ℕ × Bool) := do
  match ← parseComponents s with
  | none => return (0, false)
  | some c =>
    if c.rest ≠ [] then .crashed
    else if c.hex then return parseHex info c.mantissa c.exp c.neg c.trunc
    else
      match decimals info s with
      | some result => return result
      | none => .crashed

def texParseF32 (decimals : Decimals) (s : List UInt8) : Outcome (ℕ × Bool) :=
  texParseFloat decimals f32Info s

def texParseF64 (decimals : Decimals) (s : List UInt8) : Outcome (ℕ × Bool) :=
  texParseFloat decimals f64Info s

inductive TexFloatConversionError where
  | none
  | numberToLarge
  | naNPayloadToLarge
  | naNPayloadZero
  deriving DecidableEq, Repr

/-- The bits of a NaN at a width, from the fraction and the bits of the exponent. -/
def texNan (signif nanBase payload : ℕ) : Outcome ℕ :=
  if payload = 0 then .crashed
  else if 1 <<< signif ≤ payload then .crashed
  else .returned (payload ||| nanBase)

def texF64NanSignif : ℕ := 53 - 1

def texF64Nan (payload : ℕ) : Outcome ℕ := texNan texF64NanSignif 0x7ff0000000000000 payload

def texF32NanSignif : ℕ := 24 - 1

def texF32Nan (payload : ℕ) : Outcome ℕ := texNan texF32NanSignif 0x7F800000 payload

/-- What the conversions of the two widths differ in. -/
structure FloatWidth where
  /-- The width of the float, and of the integer of a NaN's payload. -/
  bits : ℕ
  info : FloatInfo
  inf : ℕ
  nanSignif : ℕ
  nan : ℕ → Outcome ℕ

/-- The value and the error of a literal `s` without its sign. -/
def FloatWidth.magnitude (width : FloatWidth) (decimals : Decimals) (s : List UInt8) :
    Outcome (ℕ × TexFloatConversionError) :=
  if s = ascii "inf" then return (width.inf, .none)
  else if s = ascii "nan" then do
    let value ← width.nan (1 <<< (width.nanSignif - 1))
    return (value, .none)
  else if startsWith s (ascii "nan:0x") then do
    let (payload, integerErr) ← texUXXFromString width.bits (s.drop (ascii "nan:").length)
    if integerErr = .none then
      if payload = 0 then return (0, .naNPayloadZero)
      else if 1 <<< width.nanSignif ≤ payload then return (0, .naNPayloadToLarge)
      else do
        let value ← width.nan payload
        return (value, .none)
    else if integerErr = .numberToLarge then return (0, .naNPayloadToLarge)
    else return (0, .none)
  else do
    let (value, overflow) ← texParseFloat decimals width.info s
    return (value, if overflow then .numberToLarge else .none)

/-- The conversion of a literal: the magnitude, and the sign applied to its bits. -/
def FloatWidth.fromString (width : FloatWidth) (decimals : Decimals) (s : List UInt8) :
    Outcome (ℕ × TexFloatConversionError) :=
  if s = [] then .crashed
  else do
    let negative : Bool := s.head? = some (byteOf '-')
    let (value, err) ← width.magnitude decimals (readSign s).2
    return (if negative then value ^^^ width.info.signBit else value, err)

def f64Width : FloatWidth := ⟨64, f64Info, 0x7ff0000000000000, texF64NanSignif, texF64Nan⟩

def f32Width : FloatWidth := ⟨32, f32Info, 0x7F800000, texF32NanSignif, texF32Nan⟩

def texF64FromString (decimals : Decimals) (s : List UInt8) :
    Outcome (ℕ × TexFloatConversionError) :=
  f64Width.fromString decimals s

def texF32FromString (decimals : Decimals) (s : List UInt8) :
    Outcome (ℕ × TexFloatConversionError) :=
  f32Width.fromString decimals s

end Wasim
