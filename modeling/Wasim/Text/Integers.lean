import Wasim.Text.Classifier

/-!
# Integers in the text format

The conversions of integer literals of `wasim_text_utils.odin`. The unsigned conversion, which
the signed one calls, is in `Numbers`; both are generic over the width, as in the source.
Every literal is converted to its exact value, or the error tells on which side it is out of
range (`texIntegerFromString`).
-/

namespace Wasim

def texU64FromString (s : List UInt8) : Outcome (UInt64 × TexIntegerConversionError) := do
  let (value, err) ← texUXXFromString 64 s
  return (UInt64.ofNat value, err)

/-- The error of the signed conversion, from the sign and the result of the unsigned one. -/
def signedError (bits : ℕ) (sign : ℤ) (valueUnsigned : ℕ) (err : TexIntegerConversionError) :
    TexIntegerConversionError :=
  if err = .none then
    if sign = 1 then
      if 2 ^ (bits - 1) - 1 < valueUnsigned then .numberToLarge else err
    else
      if 2 ^ (bits - 1) < valueUnsigned then .numberToSmall else err
  else
    -- adjust error to sign
    if err = .numberToLarge ∧ sign = -1 then .numberToSmall else err

/-- `tex_iXX_from_string` at the signed type of `bits` bits. The product with the sign wraps
around, and so does the conversion of the unsigned value. -/
def texIXXFromString (bits : ℕ) (s : List UInt8) : Outcome (ℤ × TexIntegerConversionError) :=
  if s = [] then .crashed
  else do
    let sign : ℤ := if s.head? = some (byteOf '-') then -1 else 1
    let (valueUnsigned, err) ← texUXXFromString bits (readSign s).2
    let err := signedError bits sign valueUnsigned err
    if err = .none then
      return (((valueUnsigned : ℤ).bmod (2 ^ bits) * sign).bmod (2 ^ bits), err)
    else return (0, err)

def texI32FromString (s : List UInt8) : Outcome (Int32 × TexIntegerConversionError) := do
  let (value, err) ← texIXXFromString 32 s
  return (Int32.ofInt value, err)

def texI64FromString (s : List UInt8) : Outcome (Int64 × TexIntegerConversionError) := do
  let (value, err) ← texIXXFromString 64 s
  return (Int64.ofInt value, err)

/-! ### Unsigned literals -/

/-- What an unsigned conversion to `bits` bits has to return for a literal of the value `v`. -/
def ConvertsUnsigned (bits v value : ℕ) (err : TexIntegerConversionError) : Prop :=
  if v < 2 ^ bits then value = v ∧ err = .none else err = .numberToLarge

theorem IsUnsigned.texUXXFromString {s : List UInt8} (h : IsUnsigned s) (bits : ℕ) :
    ∃ value err, texUXXFromString bits s = .returned (value, err) ∧
      ConvertsUnsigned bits (literalValue s) value err := by
  obtain ⟨hsmall, hlarge⟩ := texUXXFromString_eq bits (h.readRegular false)
  by_cases hlt : literalValue s < 2 ^ bits
  · refine ⟨_, _, hsmall hlt, ?_⟩
    rw [ConvertsUnsigned, if_pos hlt]
    exact ⟨rfl, rfl⟩
  · obtain ⟨wrapped, hwrapped⟩ := hlarge (not_lt.mp hlt)
    refine ⟨_, _, hwrapped, ?_⟩
    rw [ConvertsUnsigned, if_neg hlt]

theorem IsUnsigned.texU32FromString {s : List UInt8} (h : IsUnsigned s) :
    ∃ value err, texU32FromString s = .returned (value, err) ∧
      ConvertsUnsigned 32 (literalValue s) value.toNat err := by
  obtain ⟨value, err, hvalue, hconverts⟩ := h.texUXXFromString 32
  refine ⟨UInt32.ofNat value, err, by rw [Wasim.texU32FromString, hvalue]; rfl, ?_⟩
  rw [ConvertsUnsigned] at hconverts ⊢
  split at hconverts
  · rename_i hlt
    rw [if_pos hlt, hconverts.1, UInt32.toNat_ofNat_of_lt' hlt]
    exact ⟨rfl, hconverts.2⟩
  · rename_i hge
    rwa [if_neg hge]

theorem IsUnsigned.texU64FromString {s : List UInt8} (h : IsUnsigned s) :
    ∃ value err, texU64FromString s = .returned (value, err) ∧
      ConvertsUnsigned 64 (literalValue s) value.toNat err := by
  obtain ⟨value, err, hvalue, hconverts⟩ := h.texUXXFromString 64
  refine ⟨UInt64.ofNat value, err, by rw [Wasim.texU64FromString, hvalue]; rfl, ?_⟩
  rw [ConvertsUnsigned] at hconverts ⊢
  split at hconverts
  · rename_i hlt
    rw [if_pos hlt, hconverts.1, UInt64.toNat_ofNat_of_lt' hlt]
    exact ⟨rfl, hconverts.2⟩
  · rename_i hge
    rwa [if_neg hge]

/-! ### Signed literals -/

/-- The value of an integer literal with or without a sign. -/
def signedLiteralValue (s : List UInt8) : ℤ :=
  if s.head? = some (byteOf '-') then -literalValue (readSign s).2 else literalValue (readSign s).2

/-- What a signed conversion to `bits` bits has to return for a literal of the value `v`. -/
def ConvertsSigned (bits : ℕ) (v value : ℤ) (err : TexIntegerConversionError) : Prop :=
  if -2 ^ (bits - 1) ≤ v ∧ v ≤ 2 ^ (bits - 1) - 1 then value = v ∧ err = .none
  else value = 0 ∧ err = if 0 ≤ v then .numberToLarge else .numberToSmall

/-- An unsigned result within the signed range does not wrap around under its sign. -/
theorem bmod_mul_sign {bits : ℕ} {sign v : ℤ} (hbits : 0 < bits)
    (hlo : -2 ^ (bits - 1) ≤ v * sign) (hhi : v * sign ≤ 2 ^ (bits - 1) - 1) :
    (v.bmod (2 ^ bits) * sign).bmod (2 ^ bits) = v * sign := by
  obtain ⟨n, rfl⟩ : ∃ n, bits = n + 1 := ⟨bits - 1, by omega⟩
  rw [Nat.add_sub_cancel] at hlo hhi
  rw [Int.bmod_mul_bmod]
  refine Int.bmod_eq_of_le_mul_two ?_ ?_
  · rw [pow_succ]
    push_cast
    omega
  · rw [pow_succ]
    push_cast
    omega

theorem signedError_none_pos (bits value : ℕ) : signedError bits 1 value .none =
    if 2 ^ (bits - 1) - 1 < value then .numberToLarge else .none := by
  rw [signedError, if_pos rfl, if_pos rfl]

theorem signedError_none_neg (bits value : ℕ) : signedError bits (-1) value .none =
    if 2 ^ (bits - 1) < value then .numberToSmall else .none := by
  rw [signedError, if_pos rfl, if_neg (by decide)]

theorem signedError_large_pos (bits value : ℕ) :
    signedError bits 1 value .numberToLarge = .numberToLarge := by
  rw [signedError, if_neg (by decide), if_neg (by decide)]

theorem signedError_large_neg (bits value : ℕ) :
    signedError bits (-1) value .numberToLarge = .numberToSmall := by
  rw [signedError, if_neg (by decide), if_pos ⟨rfl, rfl⟩]

/-- The value that goes with an error of the signed conversion. -/
def signedValue (bits value : ℕ) (sign : ℤ) (err : TexIntegerConversionError) : ℤ :=
  if err = .none then ((value : ℤ).bmod (2 ^ bits) * sign).bmod (2 ^ bits) else 0

theorem convertsSigned_inRange {n value : ℕ} {sign : ℤ} (hlo : -2 ^ n ≤ value * sign)
    (hhi : value * sign ≤ 2 ^ n - 1) :
    ConvertsSigned (n + 1) (value * sign) (signedValue (n + 1) value sign .none) .none := by
  rw [ConvertsSigned, Nat.add_sub_cancel, if_pos ⟨hlo, hhi⟩, signedValue, if_pos rfl]
  exact ⟨bmod_mul_sign n.succ_pos hlo hhi, rfl⟩

theorem convertsSigned_tooLarge {n value : ℕ} {v : ℤ} (sign : ℤ) (hv : 2 ^ n - 1 < v) :
    ConvertsSigned (n + 1) v (signedValue (n + 1) value sign .numberToLarge) .numberToLarge := by
  have hpos : (0 : ℤ) < 2 ^ n := by positivity
  rw [ConvertsSigned, Nat.add_sub_cancel, if_neg (by omega), if_pos (by omega)]
  exact ⟨rfl, rfl⟩

theorem convertsSigned_tooSmall {n value : ℕ} {v : ℤ} (sign : ℤ) (hv : v < -2 ^ n) :
    ConvertsSigned (n + 1) v (signedValue (n + 1) value sign .numberToSmall) .numberToSmall := by
  have hpos : (0 : ℤ) < 2 ^ n := by positivity
  rw [ConvertsSigned, Nat.add_sub_cancel, if_neg (by omega), if_neg (by omega)]
  exact ⟨rfl, rfl⟩

/-- The signed conversion is right when the unsigned one is. -/
theorem ConvertsUnsigned.signed {n v value : ℕ} {err : TexIntegerConversionError}
    (h : ConvertsUnsigned (n + 1) v value err) {sign : ℤ} (hsign : sign = 1 ∨ sign = -1) :
    ConvertsSigned (n + 1) (v * sign)
      (signedValue (n + 1) value sign (signedError (n + 1) sign value err))
      (signedError (n + 1) sign value err) := by
  have hpos := Nat.two_pow_pos n
  have hcast : ((2 ^ n : ℕ) : ℤ) = 2 ^ n := by push_cast; rfl
  rw [ConvertsUnsigned] at h
  by_cases hfits : v < 2 ^ (n + 1)
  · rw [if_pos hfits] at h
    obtain ⟨rfl, rfl⟩ := h
    rcases hsign with rfl | rfl
    · rw [signedError_none_pos, Nat.add_sub_cancel]
      split
      · exact convertsSigned_tooLarge 1 (by omega)
      · exact convertsSigned_inRange (by omega) (by omega)
    · rw [signedError_none_neg, Nat.add_sub_cancel]
      split
      · exact convertsSigned_tooSmall (-1) (by omega)
      · exact convertsSigned_inRange (by omega) (by omega)
  · rw [if_neg hfits] at h
    rw [pow_succ] at hfits
    subst h
    rcases hsign with rfl | rfl
    · rw [signedError_large_pos]
      exact convertsSigned_tooLarge 1 (by omega)
    · rw [signedError_large_neg]
      exact convertsSigned_tooSmall (-1) (by omega)

theorem IsUnsigned.texIXXFromString {sign n : List UInt8} (h : IsUnsigned n)
    (hsign : IsSign sign) (k : ℕ) :
    ∃ value err, texIXXFromString (k + 1) (sign ++ n) = .returned (value, err) ∧
      ConvertsSigned (k + 1) (signedLiteralValue (sign ++ n)) value err := by
  obtain ⟨d, s, hds, hd⟩ := h.exists_digit
  have hnosign : ∀ c t, n = c :: t → c ≠ byteOf '+' ∧ c ≠ byteOf '-' := by
    rintro c t rfl
    obtain ⟨rfl, -⟩ := List.cons.inj hds
    constructor <;> rintro rfl <;> revert hd <;> decide
  have hne : sign ++ n ≠ [] := by
    rw [hds]
    simp
  obtain ⟨v, err, hv, hconverts⟩ := h.texUXXFromString (k + 1)
  have hread : (readSign (sign ++ n)).2 = n := by rw [readSign_append hsign hnosign]
  generalize hfactor : (if (sign ++ n).head? = some (byteOf '-') then -1 else 1 : ℤ) = factor
  have hfactors : factor = 1 ∨ factor = -1 := by
    rw [← hfactor]
    split
    · exact Or.inr rfl
    · exact Or.inl rfl
  have hvalue : signedLiteralValue (sign ++ n) = literalValue n * factor := by
    rw [signedLiteralValue, hread, ← hfactor]
    split
    · rw [mul_neg_one]
    · rw [mul_one]
  rw [hvalue]
  refine ⟨_, _, ?_, hconverts.signed hfactors⟩
  rw [Wasim.texIXXFromString, if_neg hne, hread, hfactor, hv, Outcome.returned_bind]
  dsimp only [signedValue]
  split <;> rfl

/-- A literal of the classifier's integers is a sign or none and an unsigned literal. -/
theorem convertsSigned_of_integer {s : List UInt8}
    (h : texTokReadNumberLike s = .integerUnsigned ∨ texTokReadNumberLike s = .integerSigned)
    (k : ℕ) :
    ∃ value err, texIXXFromString (k + 1) s = .returned (value, err) ∧
      ConvertsSigned (k + 1) (signedLiteralValue s) value err := by
  obtain ⟨sign, n, hsign, hn, rfl⟩ := texTokReadNumberLike_integer h
  exact hn.texIXXFromString hsign k

theorem ConvertsSigned.bounds {k : ℕ} {v value : ℤ} {err : TexIntegerConversionError}
    (h : ConvertsSigned (k + 1) v value err) : -2 ^ k ≤ value ∧ value < 2 ^ k := by
  have hpos : (0 : ℤ) < 2 ^ k := by positivity
  rw [ConvertsSigned, Nat.add_sub_cancel] at h
  split at h <;> omega

/-! ### All conversions -/

/-- Every integer literal is converted to its exact value at each type that holds it, and no
conversion panics. -/
theorem texIntegerFromString {s : List UInt8}
    (h : texTokReadNumberLike s = .integerUnsigned ∨ texTokReadNumberLike s = .integerSigned) :
    (texTokReadNumberLike s = .integerUnsigned →
      (∃ value err, texU32FromString s = .returned (value, err) ∧
        ConvertsUnsigned 32 (literalValue s) value.toNat err) ∧
      ∃ value err, texU64FromString s = .returned (value, err) ∧
        ConvertsUnsigned 64 (literalValue s) value.toNat err) ∧
    (∃ value err, texI32FromString s = .returned (value, err) ∧
      ConvertsSigned 32 (signedLiteralValue s) value.toInt err) ∧
    ∃ value err, texI64FromString s = .returned (value, err) ∧
      ConvertsSigned 64 (signedLiteralValue s) value.toInt err := by
  refine ⟨fun hkind => ?_, ?_, ?_⟩
  · have hn := (texTokReadNumberLike_iff s).1.mp hkind
    exact ⟨hn.texU32FromString, hn.texU64FromString⟩
  · obtain ⟨value, err, hvalue, hconverts⟩ := convertsSigned_of_integer h 31
    obtain ⟨hlo, hhi⟩ := hconverts.bounds
    refine ⟨Int32.ofInt value, err, by rw [texI32FromString, hvalue]; rfl, ?_⟩
    rwa [Int32.toInt_ofInt_of_le hlo hhi]
  · obtain ⟨value, err, hvalue, hconverts⟩ := convertsSigned_of_integer h 63
    obtain ⟨hlo, hhi⟩ := hconverts.bounds
    refine ⟨Int64.ofInt value, err, by rw [texI64FromString, hvalue]; rfl, ?_⟩
    rwa [Int64.toInt_ofInt_of_le hlo hhi]

/-- The least value of 32 bits, and the value below it. -/
theorem texIntegerFromString_least :
    (∃ value err, texI32FromString (ascii "-2147483648") = .returned (value, err) ∧
      value.toInt = -2147483648 ∧ err = .none) ∧
    ∃ value err, texI32FromString (ascii "-2_147_483_649") = .returned (value, err) ∧
      value.toInt = 0 ∧ err = .numberToSmall := by
  constructor
  · obtain ⟨value, err, hvalue, hconverts⟩ :=
      (texIntegerFromString (s := ascii "-2147483648") (Or.inr (by decide +kernel))).2.1
    have hexact : signedLiteralValue (ascii "-2147483648") = -2147483648 := by decide +kernel
    rw [hexact, ConvertsSigned, if_pos (by decide)] at hconverts
    exact ⟨value, err, hvalue, hconverts⟩
  · obtain ⟨value, err, hvalue, hconverts⟩ :=
      (texIntegerFromString (s := ascii "-2_147_483_649") (Or.inr (by decide +kernel))).2.1
    have hexact : signedLiteralValue (ascii "-2_147_483_649") = -2147483649 := by decide +kernel
    rw [hexact, ConvertsSigned, if_neg (by decide)] at hconverts
    exact ⟨value, err, hvalue, hconverts⟩

end Wasim
