import Wasim.Text.Lexemes

/-!
# What the classifier of numbers accepts

Every literal of the grammar is classified as what it is (`IsUnsigned.texTokReadNumberLike`,
`IsMagnitude.texTokReadNumberLike`). Here is the converse: each helper of the classifier takes a
phrase of the grammar off the front, so that what it accepts is a literal, and the kinds are
exactly the literals (`texTokReadNumberLike_iff`).
-/

namespace Wasim

/-- An integer literal with a sign in front. -/
def IsSignedLiteral (s : List UInt8) : Prop :=
  ∃ sign n, IsSign sign ∧ sign ≠ [] ∧ IsUnsigned n ∧ s = sign ++ n

/-- A float literal, with or without a sign. -/
def IsFloatLiteral (s : List UInt8) : Prop :=
  ∃ sign n, IsSign sign ∧ IsMagnitude n ∧ s = sign ++ n

/-! ### The helpers take phrases off -/

theorem exists_num_of_readDigitsLoop {base : ℕ} {d : UInt8} (hd : texTokIsDigit d.toNat base)
    (s : List UInt8) : ∃ n, Num base n ∧ d :: s = n ++ readDigitsLoop base s := by
  induction s using readDigitsLoop.induct base generalizing d with
  | case1 => exact ⟨[d], .digit hd, rfl⟩
  | case2 c s hc ih =>
    obtain ⟨n, hn, hs⟩ := ih hc
    exact ⟨d :: n, .cons hd hn, by rw [readDigitsLoop_digit hc, hs, List.cons_append]⟩
  | case3 c hc e s he ih =>
    obtain ⟨n, hn, hs⟩ := ih he.2
    refine ⟨d :: byteOf '_' :: n, .underscore hd hn, ?_⟩
    rw [readDigitsLoop, if_neg hc, if_pos he, he.1, hs, List.cons_append, List.cons_append]
  | case4 c hc e s he =>
    exact ⟨[d], .digit hd, by rw [readDigitsLoop, if_neg hc, if_neg he, List.singleton_append]⟩
  | case5 c hc => exact ⟨[d], .digit hd, by rw [readDigitsLoop, if_neg hc, List.singleton_append]⟩

theorem exists_num_of_readDigits {base : ℕ} {s : List UInt8} (h : (readDigits base s).1) :
    ∃ n, Num base n ∧ s = n ++ (readDigits base s).2 := by
  rcases s with _ | ⟨c, s⟩
  · cases h
  · rw [readDigits] at h ⊢
    split at h
    · rename_i hc
      rw [if_pos hc]
      exact exists_num_of_readDigitsLoop hc s
    · cases h

theorem readDigits_of_not {base : ℕ} {s : List UInt8} (h : ¬(readDigits base s).1) :
    (readDigits base s).2 = s := by
  rcases s with _ | ⟨c, s⟩
  · rfl
  · rw [readDigits] at h ⊢
    split at h
    · exact absurd rfl h
    · rename_i hc
      rw [if_neg hc]

/-- Digits up to the end are a number. -/
theorem num_of_readDigits_nil {base : ℕ} {s : List UInt8} (h : (readDigits base s).1)
    (hrest : (readDigits base s).2 = []) : Num base s := by
  obtain ⟨n, hn, hs⟩ := exists_num_of_readDigits h
  rw [hrest, List.append_nil] at hs
  rwa [hs]

theorem exists_sign_of_readSign (s : List UInt8) :
    ∃ sign, IsSign sign ∧ s = sign ++ (readSign s).2 ∧ (readSign s).1 = decide (sign ≠ []) := by
  rcases s with _ | ⟨c, s⟩
  · exact ⟨[], Or.inl rfl, rfl, rfl⟩
  · rw [readSign]
    split
    · rename_i hc
      refine ⟨[c], ?_, rfl, rfl⟩
      rcases hc with rfl | rfl
      · exact Or.inr (Or.inl rfl)
      · exact Or.inr (Or.inr rfl)
    · exact ⟨[], Or.inl rfl, rfl, rfl⟩

/-- Without its marker there is no exponent, and nothing is taken off. -/
theorem readExponent_of_not {lower upper : UInt8} {s : List UInt8}
    (h : ¬(readExponent lower upper s).1) : (readExponent lower upper s).2.2 = s := by
  rcases s with _ | ⟨c, s⟩
  · rfl
  · rw [readExponent] at h ⊢
    split at h
    · exact absurd rfl h
    · rename_i hc
      rw [if_neg hc]

/-- A valid exponent up to the end is one of the grammar. -/
theorem isExponent_of_readExponent {lower upper : Char} {s : List UInt8}
    (hfound : (readExponent (byteOf lower) (byteOf upper) s).1)
    (hvalid : (readExponent (byteOf lower) (byteOf upper) s).2.1)
    (hrest : (readExponent (byteOf lower) (byteOf upper) s).2.2 = []) :
    IsExponent lower upper s := by
  rcases s with _ | ⟨c, s⟩
  · cases hfound
  · rw [readExponent] at hfound hvalid hrest
    split at hfound
    · rename_i hc
      rw [if_pos hc] at hvalid hrest
      obtain ⟨sign, hsign, hs, -⟩ := exists_sign_of_readSign s
      rw [hs]
      exact .mk hc hsign (num_of_readDigits_nil hvalid hrest)
    · cases hfound

/-! ### Regular numbers -/

theorem readRegular_eq (s : List UInt8) (hadSign : Bool) {base : ℕ} {body : List UInt8}
    (hbase : (if startsWith s (ascii "0x") then 16 else 10) = base)
    (hbody : (if startsWith s (ascii "0x") then s.drop 2 else s) = body) :
    readRegular s hadSign =
      if (readDigits base body).1 then regularTail base hadSign (readDigits base body).2
      else .invalid := by
  simp only [readRegular, hbase, hbody]
  split
  · rcases (readDigits base body).2 with _ | ⟨c, rest⟩ <;> rfl
  · rfl

/-- The text behind the first digits of an integer is empty. -/
theorem regularTail_integer {base : ℕ} {hadSign : Bool} {rest : List UInt8}
    (h : regularTail base hadSign rest = .integerUnsigned ∨
      regularTail base hadSign rest = .integerSigned) : rest = [] := by
  rcases rest with _ | ⟨c, rest⟩
  · rfl
  · rw [regularTail] at h
    rcases h with h | h
    · rcases ite_eq_iff.mp h with ⟨-, h⟩ | ⟨-, h⟩ <;> cases h
    · rcases ite_eq_iff.mp h with ⟨-, h⟩ | ⟨-, h⟩ <;> cases h

/-- An exponent with the markers of the base. -/
def IsExponentOf (base : ℕ) : List UInt8 → Prop :=
  IsExponent (if base = 10 then 'e' else 'p') (if base = 10 then 'E' else 'P')

def readExponentOf (base : ℕ) : List UInt8 → Bool × Bool × List UInt8 :=
  readExponent (byteOf (if base = 10 then 'e' else 'p')) (byteOf (if base = 10 then 'E' else 'P'))

theorem regularTail_cons (base : ℕ) (hadSign : Bool) (c : UInt8) (rest : List UInt8)
    {body : List UInt8}
    (hbody : (if c = byteOf '.' then (readDigits base rest).2 else c :: rest) = body) :
    regularTail base hadSign (c :: rest) =
      if (readExponentOf base body).2.2 = [] ∧
          (!(readExponentOf base body).1 || (readExponentOf base body).2.1) ∧
          (base = 10 ∨ (readExponentOf base body).1) ∧
          (c = byteOf '.' ∨ (readExponentOf base body).1) then .float else .invalid := by
  rw [← hbody]
  rfl

/-- A text that is consumed and has no invalid exponent is an exponent, or it is empty. -/
theorem exponentOf_or_nil {base : ℕ} {s : List UInt8} (hrest : (readExponentOf base s).2.2 = [])
    (hvalid : !(readExponentOf base s).1 || (readExponentOf base s).2.1) :
    ((readExponentOf base s).1 = false ∧ s = []) ∨ IsExponentOf base s := by
  by_cases hfound : (readExponentOf base s).1
  · rw [hfound, Bool.not_true, Bool.false_or] at hvalid
    exact Or.inr (isExponent_of_readExponent hfound hvalid hrest)
  · rw [readExponentOf, readExponent_of_not hfound] at hrest
    exact Or.inl ⟨Bool.eq_false_iff.mpr hfound, hrest⟩

/-- The point and the digits behind it are a fraction. -/
theorem exists_fraction (base : ℕ) (rest : List UInt8) :
    ∃ f, IsFraction base f ∧ byteOf '.' :: rest = f ++ (readDigits base rest).2 := by
  by_cases hdigits : (readDigits base rest).1
  · obtain ⟨n, hn, hs⟩ := exists_num_of_readDigits hdigits
    exact ⟨byteOf '.' :: n, .digits hn, by rw [List.cons_append, ← hs]⟩
  · exact ⟨[byteOf '.'], .point, by rw [readDigits_of_not hdigits]; rfl⟩

/-- The text behind the first digits of a float: a fraction, an exponent or both, and in
hexadecimal an exponent. -/
theorem exists_of_regularTail_float {base : ℕ} {hadSign : Bool} {rest : List UInt8}
    (h : regularTail base hadSign rest = .float) :
    (IsFraction base rest ∧ base = 10) ∨ IsExponentOf base rest ∨
      ∃ f e, IsFraction base f ∧ IsExponentOf base e ∧ rest = f ++ e := by
  rcases rest with _ | ⟨c, rest⟩
  · rw [regularTail] at h
    rcases ite_eq_iff.mp h with ⟨-, h⟩ | ⟨-, h⟩ <;> cases h
  · by_cases hc : c = byteOf '.'
    · rw [regularTail_cons base hadSign c rest (if_pos hc)] at h
      obtain ⟨⟨hrest, hvalid, hhex, -⟩, -⟩ :=
        (ite_eq_iff.mp h).resolve_right fun h => by cases h.2
      obtain ⟨f, hf, hs⟩ := exists_fraction base rest
      rw [hc]
      rcases exponentOf_or_nil hrest hvalid with ⟨hnot, hnil⟩ | he
      · rw [hnil, List.append_nil] at hs
        rw [hs]
        refine Or.inl ⟨hf, hhex.resolve_right fun hfound => ?_⟩
        rw [hnot] at hfound
        cases hfound
      · exact Or.inr (Or.inr ⟨f, _, hf, he, hs⟩)
    · rw [regularTail_cons base hadSign c rest (if_neg hc)] at h
      obtain ⟨⟨hrest, hvalid, -⟩, -⟩ := (ite_eq_iff.mp h).resolve_right fun h => by cases h.2
      rcases exponentOf_or_nil hrest hvalid with ⟨-, hnil⟩ | he
      · cases hnil
      · exact Or.inr (Or.inl he)

theorem isUnsigned_of_readRegular {s : List UInt8} {hadSign : Bool}
    (h : readRegular s hadSign = .integerUnsigned ∨ readRegular s hadSign = .integerSigned) :
    IsUnsigned s := by
  by_cases hhex : startsWith s (ascii "0x")
  · rw [readRegular_eq s hadSign (if_pos hhex) (if_pos hhex)] at h
    split at h
    · rename_i hdigits
      have hn := num_of_readDigits_nil hdigits (regularTail_integer h)
      obtain ⟨rest, rfl⟩ := startsWith_iff.mp hhex
      exact .hex hn
    · rcases h with h | h <;> cases h
  · rw [readRegular_eq s hadSign (if_neg hhex) (if_neg hhex)] at h
    split at h
    · rename_i hdigits
      exact .decimal (num_of_readDigits_nil hdigits (regularTail_integer h))
    · rcases h with h | h <;> cases h

theorem isMagnitude_of_readRegular {s : List UInt8} {hadSign : Bool}
    (h : readRegular s hadSign = .float) : IsMagnitude s := by
  by_cases hhex : startsWith s (ascii "0x")
  · rw [readRegular_eq s hadSign (if_pos hhex) (if_pos hhex)] at h
    split at h
    · rename_i hdigits
      obtain ⟨rest, rfl⟩ := startsWith_iff.mp hhex
      obtain ⟨n, hn, hs⟩ := exists_num_of_readDigits hdigits
      have hs : rest = n ++ _ := hs
      rcases exists_of_regularTail_float h with ⟨-, hbase⟩ | he | ⟨f, e, hf, he, hrest⟩
      · cases hbase
      · rw [hs]
        exact .hexExponent hn he
      · rw [hs, hrest]
        exact .hexPointExponent hn hf he
    · cases h
  · rw [readRegular_eq s hadSign (if_neg hhex) (if_neg hhex)] at h
    split at h
    · rename_i hdigits
      obtain ⟨n, hn, hs⟩ := exists_num_of_readDigits hdigits
      rw [hs]
      rcases exists_of_regularTail_float h with ⟨hf, -⟩ | he | ⟨f, e, hf, he, hrest⟩
      · exact .point hn hf
      · exact .exponent hn he
      · rw [hrest]
        exact .pointExponent hn hf he
    · cases h

/-! ### The classifier -/

theorem texTokReadNumberLike_integer {s : List UInt8}
    (h : texTokReadNumberLike s = .integerUnsigned ∨ texTokReadNumberLike s = .integerSigned) :
    ∃ sign n, IsSign sign ∧ IsUnsigned n ∧ s = sign ++ n := by
  obtain ⟨sign, hsign, hs, -⟩ := exists_sign_of_readSign s
  refine ⟨sign, _, hsign, ?_, hs⟩
  simp only [texTokReadNumberLike] at h
  split at h
  · rcases h with h | h <;> cases h
  · split at h
    · rcases h with h | h <;> cases h
    · split at h
      · split at h <;> rcases h with h | h <;> cases h
      · exact isUnsigned_of_readRegular h

theorem texTokReadNumberLike_float {s : List UInt8} (h : texTokReadNumberLike s = .float) :
    IsFloatLiteral s := by
  obtain ⟨sign, hsign, hs, -⟩ := exists_sign_of_readSign s
  refine ⟨sign, _, hsign, ?_, hs⟩
  simp only [texTokReadNumberLike] at h
  split at h
  · cases h
  · split at h
    · rename_i hname
      rcases hname with hname | hname
      · rw [hname]
        exact .inf
      · rw [hname]
        exact .nan
    · split at h
      · rename_i hnan
        obtain ⟨rest, hrest⟩ := startsWith_iff.mp hnan
        rw [hrest, List.drop_left] at h
        rw [hrest]
        split at h
        · rename_i hdigits
          exact .payload (num_of_readDigits_nil hdigits.1 hdigits.2)
        · cases h
      · exact isMagnitude_of_readRegular h

/-- The kinds that `tex_tok_read_number_like` tells apart are exactly those of the grammar. -/
theorem texTokReadNumberLike_iff (s : List UInt8) :
    (texTokReadNumberLike s = .integerUnsigned ↔ IsUnsigned s) ∧
      (texTokReadNumberLike s = .integerSigned ↔ IsSignedLiteral s) ∧
      (texTokReadNumberLike s = .float ↔ IsFloatLiteral s) ∧
      (texTokReadNumberLike s = .invalid ↔
        ¬IsUnsigned s ∧ ¬IsSignedLiteral s ∧ ¬IsFloatLiteral s) := by
  have hunsigned : texTokReadNumberLike s = .integerUnsigned ↔ IsUnsigned s := by
    constructor
    · intro h
      obtain ⟨sign, n, hsign, hn, rfl⟩ := texTokReadNumberLike_integer (Or.inl h)
      rw [hn.texTokReadNumberLike hsign] at h
      split at h
      · rename_i hnil
        rwa [hnil]
      · cases h
    · exact fun hn => hn.texTokReadNumberLike (Or.inl rfl)
  have hsigned : texTokReadNumberLike s = .integerSigned ↔ IsSignedLiteral s := by
    constructor
    · intro h
      obtain ⟨sign, n, hsign, hn, rfl⟩ := texTokReadNumberLike_integer (Or.inr h)
      rw [hn.texTokReadNumberLike hsign] at h
      split at h
      · cases h
      · rename_i hne
        exact ⟨sign, n, hsign, hne, hn, rfl⟩
    · rintro ⟨sign, n, hsign, hne, hn, rfl⟩
      rw [hn.texTokReadNumberLike hsign, if_neg hne]
  have hfloat : texTokReadNumberLike s = .float ↔ IsFloatLiteral s := by
    constructor
    · exact texTokReadNumberLike_float
    · rintro ⟨sign, n, hsign, hn, rfl⟩
      exact hn.texTokReadNumberLike hsign
  refine ⟨hunsigned, hsigned, hfloat, ?_⟩
  rw [← hunsigned, ← hsigned, ← hfloat]
  constructor
  · intro h
    rw [h]
    exact ⟨by simp, by simp, by simp⟩
  · rintro ⟨hu, hs, hf⟩
    rcases isNumberLike_texTokReadNumberLike s with h | h | h | h
    · exact h
    · exact absurd h hf
    · exact absurd h hs
    · exact absurd h hu

end Wasim
