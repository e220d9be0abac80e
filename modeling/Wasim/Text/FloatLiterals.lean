import Wasim.Text.Floats

/-!
# The literals that are converted to floats

The tokenizer and the parser of floats are two scanners of the same literals. The parser reads
each literal that the tokenizer accepts up to its end, except for the hexadecimal integers, which
it gives up on (`parsesWhole_iff`). The literals of NaNs do not reach it: they get the bits that
they denote (`texFloatFromString_nan`).
-/

namespace Wasim

/-! ### The scan over the digits -/

theorem scanDigits_underscore (base maxMantDigits : ℕ) (s : List UInt8) (st : DigitScan) :
    scanDigits base maxMantDigits (byteOf '_' :: s) st = scanDigits base maxMantDigits s st := by
  rw [scanDigits, if_pos rfl]

theorem scanDigits_point (base maxMantDigits : ℕ) (s : List UInt8) {st : DigitScan}
    (h : st.sawDot = false) :
    scanDigits base maxMantDigits (byteOf '.' :: s) st =
      scanDigits base maxMantDigits s { st with sawDot := true, decimalPoint := st.nd } := by
  rw [scanDigits, if_neg (by decide), if_pos rfl, if_neg (by simp [h])]

@[simp] theorem DigitScan.push_sawDigits (st : DigitScan) (base maxMantDigits digit : ℕ)
    (nonzero : Bool) : (st.push base maxMantDigits digit nonzero).sawDigits = st.sawDigits := by
  simp only [push]
  split
  · rfl
  · split <;> rfl

@[simp] theorem DigitScan.push_sawDot (st : DigitScan) (base maxMantDigits digit : ℕ)
    (nonzero : Bool) : (st.push base maxMantDigits digit nonzero).sawDot = st.sawDot := by
  simp only [push]
  split
  · rfl
  · split <;> rfl

@[simp] theorem DigitScan.decimalDigit_sawDigits (st : DigitScan) (base maxMantDigits : ℕ)
    (c : UInt8) : (st.decimalDigit base maxMantDigits c).sawDigits = true := by
  simp only [decimalDigit]
  split
  · rfl
  · rw [push_sawDigits]

@[simp] theorem DigitScan.decimalDigit_sawDot (st : DigitScan) (base maxMantDigits : ℕ)
    (c : UInt8) : (st.decimalDigit base maxMantDigits c).sawDot = st.sawDot := by
  simp only [decimalDigit]
  split
  · rfl
  · rw [push_sawDot]

/-- How the scan tells the digits of a base apart, checked for every byte. -/
theorem digit_cases {base : ℕ} (hbase : base = 10 ∨ base = 16) {d : UInt8}
    (hd : texTokIsDigit d.toNat base) :
    d ≠ byteOf '_' ∧ d ≠ byteOf '.' ∧ ((byteOf '0' ≤ d ∧ d ≤ byteOf '9') ∨
      (¬(byteOf '0' ≤ d ∧ d ≤ byteOf '9') ∧
        base = 16 ∧ byteOf 'a' ≤ lower d ∧ lower d ≤ byteOf 'f')) := by
  have hall : ∀ n : Fin 256, ∀ base ∈ [10, 16], texTokIsDigit n base →
      UInt8.ofNat n ≠ byteOf '_' ∧ UInt8.ofNat n ≠ byteOf '.' ∧
        ((byteOf '0' ≤ UInt8.ofNat n ∧ UInt8.ofNat n ≤ byteOf '9') ∨
          (¬(byteOf '0' ≤ UInt8.ofNat n ∧ UInt8.ofNat n ≤ byteOf '9') ∧ base = 16 ∧
            byteOf 'a' ≤ lower (UInt8.ofNat n) ∧ lower (UInt8.ofNat n) ≤ byteOf 'f')) := by
    decide +kernel
  have h := hall ⟨d.toNat, d.toNat_lt⟩ base (by simpa using hbase) hd
  rwa [UInt8.ofNat_toNat] at h

/-- A digit is scanned, and the scan has seen digits behind it. -/
theorem scanDigits_digit {base : ℕ} (hbase : base = 10 ∨ base = 16) (maxMantDigits : ℕ)
    {d : UInt8} (hd : texTokIsDigit d.toNat base) (s : List UInt8) (st : DigitScan) :
    ∃ st', scanDigits base maxMantDigits (d :: s) st = scanDigits base maxMantDigits s st' ∧
      st'.sawDigits = true ∧ st'.sawDot = st.sawDot := by
  obtain ⟨hunderscore, hpoint, hdec | ⟨hdec, hletter⟩⟩ := digit_cases hbase hd
  · refine ⟨st.decimalDigit base maxMantDigits d, ?_, by simp, by simp⟩
    rw [scanDigits, if_neg hunderscore, if_neg hpoint, if_pos hdec]
  · refine ⟨st.hexDigit maxMantDigits d, ?_, by simp [DigitScan.hexDigit],
      by simp [DigitScan.hexDigit]⟩
    rw [scanDigits, if_neg hunderscore, if_neg hpoint, if_neg hdec, if_pos hletter]

theorem scanDigits_num {base : ℕ} (hbase : base = 10 ∨ base = 16) (maxMantDigits : ℕ)
    {n : List UInt8} (hn : Num base n) (rest : List UInt8) (st : DigitScan) :
    ∃ st', scanDigits base maxMantDigits (n ++ rest) st =
        scanDigits base maxMantDigits rest st' ∧
      st'.sawDigits = true ∧ st'.sawDot = st.sawDot := by
  induction hn generalizing st with
  | digit hd => exact scanDigits_digit hbase maxMantDigits hd rest st
  | @cons d s hd _ ih =>
    obtain ⟨st₁, h₁, -, hdot₁⟩ := scanDigits_digit hbase maxMantDigits hd (s ++ rest) st
    obtain ⟨st₂, h₂, hdigits, hdot₂⟩ := ih st₁
    exact ⟨st₂, h₁.trans h₂, hdigits, hdot₂.trans hdot₁⟩
  | @underscore d s hd _ ih =>
    obtain ⟨st₁, h₁, -, hdot₁⟩ :=
      scanDigits_digit hbase maxMantDigits hd (byteOf '_' :: (s ++ rest)) st
    obtain ⟨st₂, h₂, hdigits, hdot₂⟩ := ih st₁
    refine ⟨st₂, ?_, hdigits, hdot₂.trans hdot₁⟩
    rw [List.cons_append, List.cons_append, h₁, scanDigits_underscore, h₂]

theorem scanDigits_fraction {base : ℕ} (hbase : base = 10 ∨ base = 16) (maxMantDigits : ℕ)
    {f : List UInt8} (hf : IsFraction base f) (rest : List UInt8) {st : DigitScan}
    (hdigits : st.sawDigits = true) (hdot : st.sawDot = false) :
    ∃ st', scanDigits base maxMantDigits (f ++ rest) st =
        scanDigits base maxMantDigits rest st' ∧ st'.sawDigits = true := by
  rcases hf with _ | hn
  · exact ⟨_, scanDigits_point base maxMantDigits rest hdot, hdigits⟩
  · obtain ⟨st', h, hdigits', -⟩ := scanDigits_num hbase maxMantDigits hn rest
      { st with sawDot := true, decimalPoint := st.nd }
    exact ⟨st', (scanDigits_point base maxMantDigits _ hdot).trans h, hdigits'⟩

/-- The marker of an exponent, seen by the scan in front of it. -/
theorem marker_cases {base : ℕ} (hbase : base = 10 ∨ base = 16) {marker : UInt8}
    (h : marker = byteOf (if base = 10 then 'e' else 'p') ∨
      marker = byteOf (if base = 10 then 'E' else 'P')) :
    lower marker = (if base = 16 then byteOf 'p' else byteOf 'e') ∧
      ∀ (maxMantDigits : ℕ) (s : List UInt8) (st : DigitScan),
        scanDigits base maxMantDigits (marker :: s) st = .returned (st, marker :: s) := by
  rcases hbase with rfl | rfl <;> rcases h with rfl | rfl
  all_goals
    refine ⟨by decide, fun maxMantDigits s st => ?_⟩
    rw [scanDigits, if_neg (by decide), if_neg (by decide), if_neg (by decide),
      if_neg (by decide)]

/-! ### The scan over an exponent -/

theorem scanExponent_nil {s : List UInt8} (h : s.all (isDigitOrUnderscore 10)) (e : ℤ) :
    (scanExponent s e).2 = [] := by
  induction s generalizing e with
  | nil => rfl
  | cons c s ih =>
    rw [List.all_cons, Bool.and_eq_true, isDigitOrUnderscore, Bool.or_eq_true,
      decide_eq_true_eq] at h
    rw [scanExponent]
    split
    · exact ih h.2 _
    · rename_i hdigit
      rw [if_pos]
      · exact ih h.2 e
      · refine h.1.resolve_left fun hd => hdigit ?_
        obtain ⟨-, -, hdec | ⟨-, hbase, -⟩⟩ := digit_cases (Or.inl rfl) hd
        · exact hdec
        · cases hbase

theorem parseExponent_num {sign n : List UInt8} (hsign : IsSign sign) (hn : Num 10 n) :
    ∃ e, parseExponent (sign ++ n) = some (e, []) := by
  have hall := (readDigits_all hn.readDigits_nil).1
  have hread : (readSign (sign ++ n)).2 = n := by rw [readSign_append hsign hn.noSign]
  obtain ⟨d, s, rfl, hd⟩ := hn.exists_cons
  obtain ⟨-, -, hdec | ⟨-, hbase, -⟩⟩ := digit_cases (Or.inl rfl) hd
  · simp only [parseExponent, hread, scanExponent_nil hall 0]
    rw [if_neg (not_or.mpr ⟨UInt8.not_lt.mpr hdec.1, UInt8.not_lt.mpr hdec.2⟩)]
    exact ⟨_, rfl⟩
  · cases hbase

/-! ### The components of a literal -/

/-- The scan that `parse_components` starts on a text behind its sign. -/
def firstScan (hex : Bool) (s : List UInt8) : Outcome (DigitScan × List UInt8) :=
  scanDigits (if hex then 16 else 10) (if hex then 16 else 19) (if hex then s.drop 2 else s) {}

theorem parseComponents_eq {s body rest : List UInt8} {hex : Bool} {st : DigitScan}
    (hsign : (readSign s).2 = body) (hhex : startsHex body = hex)
    (hscan : firstScan hex body = .returned (st, rest)) :
    parseComponents s =
      .returned (finishComponents (s.head? = some (byteOf '-')) hex st rest) := by
  subst hsign hhex
  rw [firstScan] at hscan
  simp only [parseComponents, hscan, Outcome.returned_bind]
  rfl

/-- Digits up to the end are enough for a decimal. -/
theorem finishComponents_nil (neg : Bool) {st : DigitScan} (hdigits : st.sawDigits = true) :
    ∃ c, finishComponents neg false st [] = some c ∧ c.rest = [] := by
  rw [finishComponents, if_neg (by simp [hdigits])]
  exact ⟨_, rfl, rfl⟩

/-- Digits up to the end are not enough for a hexadecimal number. -/
theorem finishComponents_hex_nil (neg : Bool) (st : DigitScan) :
    finishComponents neg true st [] = none := by
  rw [finishComponents]
  split <;> rfl

/-- An exponent up to the end is enough in both bases. -/
theorem finishComponents_exponent (neg : Bool) {hex : Bool} {st : DigitScan}
    (hdigits : st.sawDigits = true) {marker : UInt8} {t : List UInt8} {e : ℤ}
    (hmarker : lower marker = if hex then byteOf 'p' else byteOf 'e')
    (he : parseExponent t = some (e, [])) :
    ∃ c, finishComponents neg hex st (marker :: t) = some c ∧ c.rest = [] := by
  simp only [finishComponents, if_pos hmarker, he]
  rw [if_neg (by simp [hdigits])]
  exact ⟨_, rfl, rfl⟩

/-- A literal of a base: the text of its digits stands behind `0x` or at the front. -/
def literalOf (hex : Bool) (body : List UInt8) : List UInt8 :=
  if hex then ascii "0x" ++ body else body

/-- The number that starts the digits of a literal tells its base. -/
theorem startsHex_literalOf (hex : Bool) {n rest : List UInt8}
    (hn : Num (if hex then 16 else 10) n)
    (hrest : hex = false → ∀ c s, rest = c :: s → lower c ≠ byteOf 'x') :
    startsHex (literalOf hex (n ++ rest)) = hex := by
  obtain ⟨d, s, hd, hdigit⟩ := hn.exists_cons
  rcases hex with _ | _
  · have hlower : ∀ {c : UInt8}, texTokIsDigit c.toNat 10 → lower c ≠ byteOf 'x' := by
      intro c hc
      have hall : ∀ k < 256, texTokIsDigit k 10 → lower (UInt8.ofNat k) ≠ byteOf 'x' := by
        decide +kernel
      have := hall c.toNat c.toNat_lt hc
      rwa [UInt8.ofNat_toNat] at this
    have hsecond : ∀ x t, n ++ rest = d :: x :: t → lower x ≠ byteOf 'x' := by
      intro x t h
      rcases hn with _ | ⟨-, hs⟩ | ⟨-, hs⟩
      · exact hrest rfl x t (List.cons.inj h).2
      · obtain ⟨e, s', rfl, he⟩ := hs.exists_cons
        obtain ⟨rfl, -⟩ := List.cons.inj (List.cons.inj h).2
        exact hlower he
      · obtain ⟨rfl, -⟩ := List.cons.inj (List.cons.inj h).2
        decide
    have hliteral : literalOf false (n ++ rest) = d :: (s ++ rest) := by
      rw [literalOf, hd]
      rfl
    rw [hliteral]
    rw [hd, List.cons_append] at hsecond
    generalize s ++ rest = tail at hsecond
    rcases tail with _ | ⟨x, _ | ⟨y, t⟩⟩
    · rfl
    · rfl
    · simp [startsHex, hsecond x _ rfl]
  · rw [hd]
    simp [literalOf, ascii, startsHex]
    decide

/-- A literal of a base has no sign in front. -/
theorem readSign_literalOf (hex : Bool) {n rest : List UInt8}
    (hn : Num (if hex then 16 else 10) n) :
    readSign (literalOf hex (n ++ rest)) = (false, literalOf hex (n ++ rest)) := by
  rcases hex with _ | _
  · refine readSign_append (Or.inl rfl : IsSign []) ?_
    rintro c s h
    obtain ⟨d, s', rfl, hd⟩ := hn.exists_cons
    exact hn.noSign c s' (by rw [(List.cons.inj h).1])
  · rfl

theorem firstScan_literalOf (hex : Bool) (body : List UInt8) :
    firstScan hex (literalOf hex body) =
      scanDigits (if hex then 16 else 10) (if hex then 16 else 19) body {} := by
  rcases hex with _ | _ <;> rfl

/-- The base of a literal. -/
def baseOf (hex : Bool) : ℕ := if hex then 16 else 10

theorem baseOf_cases (hex : Bool) : baseOf hex = 10 ∨ baseOf hex = 16 := by
  rcases hex with _ | _
  · exact Or.inl rfl
  · exact Or.inr rfl

/-- The scan stops in front of an exponent, which is then read up to its end. -/
theorem exponent_marker (hex : Bool) {exponent : List UInt8}
    (h : IsExponentOf (baseOf hex) exponent) :
    ∃ marker t e, exponent = marker :: t ∧ parseExponent t = some (e, []) ∧
      lower marker = (if hex then byteOf 'p' else byteOf 'e') ∧
      ∀ (maxMantDigits : ℕ) (st : DigitScan),
        scanDigits (baseOf hex) maxMantDigits exponent st = .returned (st, exponent) := by
  obtain ⟨hmarker, hsign, hn⟩ := h
  obtain ⟨hlower, hscan⟩ := marker_cases (baseOf_cases hex) hmarker
  obtain ⟨e, he⟩ := parseExponent_num hsign hn
  refine ⟨_, _, e, rfl, he, ?_, fun maxMantDigits st => hscan maxMantDigits _ st⟩
  rw [hlower]
  rcases hex with _ | _ <;> rfl

section Literal

variable (hex : Bool) {n f e : List UInt8} (hn : Num (baseOf hex) n)
  (hf : f = [] ∨ IsFraction (baseOf hex) f) (he : e = [] ∨ IsExponentOf (baseOf hex) e)

include hn hf he

/-- The scan reads digits and a fraction, and stops in front of the exponent. -/
theorem scanDigits_literal (maxMantDigits : ℕ) :
    ∃ st, scanDigits (baseOf hex) maxMantDigits (n ++ (f ++ e)) {} = .returned (st, e) ∧
      st.sawDigits = true := by
  have hstop : ∀ st, scanDigits (baseOf hex) maxMantDigits e st = .returned (st, e) := by
    intro st
    rcases he with rfl | he
    · rfl
    · obtain ⟨marker, t, x, rfl, -, -, hscan⟩ := exponent_marker hex he
      exact hscan maxMantDigits st
  obtain ⟨st₁, h₁, hdigits₁, hdot⟩ :=
    scanDigits_num (baseOf_cases hex) maxMantDigits hn (f ++ e) {}
  rcases hf with rfl | hf
  · exact ⟨st₁, by rw [h₁, List.nil_append, hstop], hdigits₁⟩
  · obtain ⟨st₂, h₂, hdigits₂⟩ :=
      scanDigits_fraction (baseOf_cases hex) maxMantDigits hf e hdigits₁ hdot
    exact ⟨st₂, by rw [h₁, h₂, hstop], hdigits₂⟩

theorem startsHex_literal : startsHex (literalOf hex (n ++ (f ++ e))) = hex := by
  refine startsHex_literalOf hex hn ?_
  rintro rfl c s h
  rcases hf with rfl | hf
  · rcases he with rfl | he
    · cases h
    · obtain ⟨marker, t, x, rfl, -, hlower, -⟩ := exponent_marker false he
      obtain ⟨rfl, -⟩ := List.cons.inj h
      rw [hlower]
      decide
  · have hpoint : c = byteOf '.' := by
      rcases hf with _ | _
      · exact (List.cons.inj h).1.symm
      · exact (List.cons.inj h).1.symm
    rw [hpoint]
    decide

/-- The components of a literal reach its end, unless it is hexadecimal without an exponent. -/
theorem parseComponents_literal :
    (hex = false ∨ e ≠ [] → ∃ c, parseComponents (literalOf hex (n ++ (f ++ e))) =
        .returned (some c) ∧ c.rest = []) ∧
      (hex = true → e = [] →
        parseComponents (literalOf hex (n ++ (f ++ e))) = .returned none) := by
  obtain ⟨st, hscan, hdigits⟩ := scanDigits_literal hex hn hf he (if hex then 16 else 19)
  have hparse := parseComponents_eq (congrArg Prod.snd (readSign_literalOf hex hn))
    (startsHex_literal hex hn hf he) ((firstScan_literalOf hex _).trans hscan)
  rw [hparse]
  rcases he with rfl | he
  · constructor
    · rintro (rfl | h)
      · obtain ⟨c, hc, hrest⟩ := finishComponents_nil _ hdigits
        exact ⟨c, by rw [hc], hrest⟩
      · exact absurd rfl h
    · rintro rfl -
      rw [finishComponents_hex_nil]
  · obtain ⟨marker, t, x, rfl, hx, hlower, -⟩ := exponent_marker hex he
    constructor
    · intro _
      obtain ⟨c, hc, hrest⟩ := finishComponents_exponent _ hdigits hlower hx
      exact ⟨c, by rw [hc], hrest⟩
    · intro _ h
      cases h

end Literal

/-! ### The literals that are read up to their end -/

/-- `tex_fXX_from_string` hands this text to `tex_parse_float`. -/
def HandsOver (s m : List UInt8) : Prop :=
  m = (readSign s).2 ∧ m ≠ ascii "inf" ∧ m ≠ ascii "nan" ∧ ¬startsWith m (ascii "nan:0x")

theorem HandsOver.fromString {s m : List UInt8} (h : HandsOver s m) (hs : s ≠ [])
    (width : FloatWidth) (decimals : Decimals) :
    width.fromString decimals s = do
      let (value, overflow) ← texParseFloat decimals width.info m
      let err : TexFloatConversionError := if overflow then .numberToLarge else .none
      return (if s.head? = some (byteOf '-') then value ^^^ width.info.signBit else value,
        err) := by
  obtain ⟨rfl, hinf, hnan, hpayload⟩ := h
  rw [FloatWidth.fromString, if_neg hs, FloatWidth.magnitude, if_neg hinf, if_neg hnan,
    if_neg hpayload]
  rcases texParseFloat decimals width.info (readSign s).2 with ⟨value, overflow⟩ | _ | _
  · simp only [Outcome.returned_bind]
    simp
  · rfl
  · rfl

/-- What `tex_parse_float` gets from a literal it reads up to the end: neither its early exit nor
the failure of its assertion is reached. -/
def ParsesWhole (s : List UInt8) : Prop :=
  ∀ m, HandsOver s m → ∃ c, parseComponents m = .returned (some c) ∧ c.rest = []

/-- A hexadecimal integer literal, with or without a sign. -/
def IsHexInteger (s : List UInt8) : Prop :=
  ∃ sign n, IsSign sign ∧ Num 16 n ∧ s = sign ++ (ascii "0x" ++ n)

theorem not_sign_of_head {n : List UInt8}
    (h : (∃ d s, n = d :: s ∧ texTokIsDigit d.toNat 10) ∨
      ∃ c s, n = c :: s ∧ (c = byteOf 'i' ∨ c = byteOf 'n')) :
    ∀ c s, n = c :: s → c ≠ byteOf '+' ∧ c ≠ byteOf '-' := by
  rintro c s rfl
  rcases h with ⟨d, t, hd, hdigit⟩ | ⟨d, t, hd, hletter⟩
  · obtain ⟨rfl, -⟩ := List.cons.inj hd
    constructor <;> rintro rfl <;> revert hdigit <;> decide
  · obtain ⟨rfl, -⟩ := List.cons.inj hd
    rcases hletter with rfl | rfl <;> decide

theorem HandsOver.eq_of_sign {sign n m : List UInt8} (hsign : IsSign sign)
    (hn : ∀ c s, n = c :: s → c ≠ byteOf '+' ∧ c ≠ byteOf '-')
    (h : HandsOver (sign ++ n) m) : m = n := by
  rw [h.1, readSign_append hsign hn]

theorem handsOver_hex {sign : List UInt8} (hsign : IsSign sign) (n : List UInt8) :
    HandsOver (sign ++ (ascii "0x" ++ n)) (ascii "0x" ++ n) := by
  have hhead : ∀ {t : List UInt8}, t.head? ≠ some (byteOf '0') → ascii "0x" ++ n ≠ t := by
    rintro t ht rfl
    exact ht rfl
  refine ⟨?_, hhead (by decide), hhead (by decide), ?_⟩
  · rw [readSign_append hsign]
    rintro c s h
    obtain ⟨rfl, -⟩ := List.cons.inj h
    decide
  · rw [startsWith_iff]
    rintro ⟨rest, hrest⟩
    exact absurd (List.cons.inj hrest).1 (by decide)

theorem IsUnsigned.parsesWhole_unless_hex {sign n : List UInt8} (h : IsUnsigned n)
    (hsign : IsSign sign) : ParsesWhole (sign ++ n) ↔ ¬IsHexInteger (sign ++ n) := by
  have hnosign := not_sign_of_head (Or.inl h.exists_digit)
  rcases h with hn | hn
  · refine iff_of_true (fun m hm => ?_) ?_
    · rw [hm.eq_of_sign hsign hnosign]
      have hliteral := (parseComponents_literal false (f := []) (e := []) hn
        (Or.inl rfl) (Or.inl rfl)).1 (Or.inl rfl)
      rwa [List.append_nil, List.append_nil] at hliteral
    · rintro ⟨sign', n', hsign', -, heq⟩
      have hread := congrArg (fun t => (readSign t).2) heq
      rw [readSign_append hsign hnosign, ← (handsOver_hex hsign' n').1] at hread
      have hrest : ∀ s, ([] : List UInt8) ≠ byteOf 'x' :: s := fun s h => by cases h
      have hhex := hn.not_startsWith_hex hrest
      rw [List.append_nil, ← Bool.not_eq_true, startsWith_iff] at hhex
      exact hhex ⟨n', hread⟩
  · rename_i n
    refine iff_of_false (fun hwhole => ?_) (not_not.mpr ⟨sign, n, hsign, hn, rfl⟩)
    obtain ⟨c, hc, -⟩ := hwhole _ (handsOver_hex hsign n)
    have hnone := (parseComponents_literal true (f := []) (e := []) hn
      (Or.inl rfl) (Or.inl rfl)).2 rfl rfl
    rw [List.append_nil, List.append_nil] at hnone
    rw [show ascii "0x" ++ n = literalOf true n from rfl, hnone] at hc
    cases hc

theorem IsMagnitude.parsesWhole {sign n : List UInt8} (h : IsMagnitude n)
    (hsign : IsSign sign) : ParsesWhole (sign ++ n) := by
  intro m hm
  obtain rfl := hm.eq_of_sign hsign (not_sign_of_head h.head)
  obtain ⟨-, hinf, hnan, hpayload⟩ := hm
  rcases h with _ | _ | hn | ⟨hn, hf⟩ | ⟨hn, he⟩ | ⟨hn, hf, he⟩ | ⟨hn, he⟩ | ⟨hn, hf, he⟩
  · exact absurd rfl hinf
  · exact absurd rfl hnan
  · exact absurd (startsWith_iff.mpr ⟨_, rfl⟩) hpayload
  · have hliteral := (parseComponents_literal false (e := []) hn (Or.inr hf)
      (Or.inl rfl)).1 (Or.inl rfl)
    rwa [List.append_nil] at hliteral
  · exact (parseComponents_literal false (f := []) hn (Or.inl rfl) (Or.inr he)).1
      (Or.inl rfl)
  · exact (parseComponents_literal false hn (Or.inr hf) (Or.inr he)).1 (Or.inl rfl)
  · refine (parseComponents_literal true (f := []) hn (Or.inl rfl) (Or.inr he)).1
      (Or.inr ?_)
    obtain ⟨-, -⟩ := he
    simp
  · refine (parseComponents_literal true hn (Or.inr hf) (Or.inr he)).1 (Or.inr ?_)
    obtain ⟨-, -⟩ := he
    simp

theorem IsMagnitude.not_hexInteger {sign n : List UInt8} (h : IsMagnitude n)
    (hsign : IsSign sign) : ¬IsHexInteger (sign ++ n) := by
  rintro ⟨sign', n', hsign', hn', heq⟩
  have hfloat := h.texTokReadNumberLike hsign
  rw [heq, (IsUnsigned.hex hn').texTokReadNumberLike hsign'] at hfloat
  split at hfloat <;> cases hfloat

/-- The parser of floats reads a literal of the tokenizer up to its end exactly when it is not a
hexadecimal integer. -/
theorem parsesWhole_iff {s : List UInt8}
    (h : texTokReadNumberLike s = .integerUnsigned ∨ texTokReadNumberLike s = .integerSigned ∨
      texTokReadNumberLike s = .float) : ParsesWhole s ↔ ¬IsHexInteger s := by
  rw [← or_assoc] at h
  rcases h with h | h
  · obtain ⟨sign, n, hsign, hn, rfl⟩ := texTokReadNumberLike_integer h
    exact hn.parsesWhole_unless_hex hsign
  · obtain ⟨sign, n, hsign, hn, rfl⟩ := texTokReadNumberLike_float h
    exact iff_of_true (hn.parsesWhole hsign) (hn.not_hexInteger hsign)

/-- A decimal integer and a hexadecimal float are read up to their ends. -/
theorem parsesWhole_decimal_hexFloat :
    ParsesWhole (ascii "-10") ∧ ParsesWhole (ascii "0x1_0.8p-3") := by
  have hnot : ∀ {s : List UInt8}, (texTokReadNumberLike s = .float ∨
      ¬startsWith (readSign s).2 (ascii "0x")) → ¬IsHexInteger s := by
    rintro s h ⟨sign, n, hsign, hn, rfl⟩
    rcases h with h | h
    · rw [(IsUnsigned.hex hn).texTokReadNumberLike hsign] at h
      split at h <;> cases h
    · rw [← (handsOver_hex hsign n).1] at h
      exact h (startsWith_iff.mpr ⟨n, rfl⟩)
  constructor
  · exact (parsesWhole_iff (Or.inr (Or.inl (by decide +kernel)))).mpr
      (hnot (Or.inr (by decide +kernel)))
  · exact (parsesWhole_iff (Or.inr (Or.inr (by decide +kernel)))).mpr
      (hnot (Or.inl (by decide +kernel)))

/-- A hexadecimal integer takes the early exit, and zero comes out without an error. -/
theorem texFloatFromString_hexInteger :
    texTokReadNumberLike (ascii "0x10") = .integerUnsigned ∧
      HandsOver (ascii "0x10") (ascii "0x10") ∧
      parseComponents (ascii "0x10") = .returned none ∧ ¬ParsesWhole (ascii "0x10") ∧
      ∀ decimals, texF32FromString decimals (ascii "0x10") = .returned (0, .none) ∧
        texF64FromString decimals (ascii "0x10") = .returned (0, .none) := by
  have hover : HandsOver (ascii "0x10") (ascii "0x10") := handsOver_hex (Or.inl rfl) _
  have hnone : parseComponents (ascii "0x10") = .returned none := by decide +kernel
  refine ⟨by decide +kernel, hover, hnone, fun h => ?_, fun decimals => ⟨?_, ?_⟩⟩
  · obtain ⟨c, hc, -⟩ := h _ hover
    rw [hnone] at hc
    cases hc
  · rw [texF32FromString, hover.fromString (by decide), texParseFloat, hnone]
    rfl
  · rw [texF64FromString, hover.fromString (by decide), texParseFloat, hnone]
    rfl

/-! ### The literals of NaNs -/

/-- The literals of NaNs, with their sign and their payload in a fraction of `signif` bits. -/
inductive IsNanLiteral (signif : ℕ) : Bool → ℕ → List UInt8 → Prop
  | nan {sign : List UInt8} (hsign : IsSign sign) :
      IsNanLiteral signif (sign = [byteOf '-']) (2 ^ (signif - 1)) (sign ++ ascii "nan")
  | payload {sign n : List UInt8} (hsign : IsSign sign) (hn : Num 16 n) :
      IsNanLiteral signif (sign = [byteOf '-']) (digitsValue 16 0 n)
        (sign ++ (ascii "nan:0x" ++ n))

/-- The bits of a NaN: its sign, an exponent of ones and its payload. -/
def FloatInfo.nanBits (info : FloatInfo) (negative : Bool) (payload : ℕ) : ℕ :=
  (if negative then 2 ^ (info.mantbits + info.expbits) else 0) +
    (2 ^ info.expbits - 1) * 2 ^ info.mantbits + payload

/-- What the conversion of a NaN literal has to return. -/
def ConvertsNan (info : FloatInfo) (negative : Bool) (payload value : ℕ)
    (err : TexFloatConversionError) : Prop :=
  if payload = 0 then err = .naNPayloadZero
  else if payload < 2 ^ info.mantbits then err = .none ∧ value = info.nanBits negative payload
  else err = .naNPayloadToLarge

/-- The constants of a width fit together. -/
structure FloatWidth.Lawful (width : FloatWidth) : Prop where
  signif : width.nanSignif = width.info.mantbits
  pos : 0 < width.info.mantbits
  fits : width.info.mantbits ≤ width.bits
  nan : width.nan =
    texNan width.info.mantbits ((2 ^ width.info.expbits - 1) * 2 ^ width.info.mantbits)

theorem f32Width_lawful : f32Width.Lawful := ⟨rfl, by decide, by decide, rfl⟩

theorem f64Width_lawful : f64Width.Lawful := ⟨rfl, by decide, by decide, rfl⟩

/-- A payload in range passes the assertions, and does not overlap the exponent. -/
theorem FloatWidth.Lawful.nan_eq {width : FloatWidth} (h : width.Lawful) {payload : ℕ}
    (hzero : payload ≠ 0) (hlt : payload < 2 ^ width.info.mantbits) :
    width.nan payload = .returned (width.info.nanBits false payload) := by
  rw [h.nan, texNan, if_neg hzero, Nat.shiftLeft_eq, one_mul, if_neg (not_le.mpr hlt), Nat.or_comm,
    Nat.mul_comm, ← Nat.two_pow_add_eq_or_of_lt hlt, FloatInfo.nanBits, if_neg (by decide),
    Nat.zero_add, Nat.mul_comm]

theorem nanBits_lt {info : FloatInfo} {payload : ℕ} (hlt : payload < 2 ^ info.mantbits) :
    info.nanBits false payload < info.signBit := by
  have hexp := Nat.two_pow_pos info.expbits
  rw [FloatInfo.nanBits, FloatInfo.signBit, if_neg (by decide), Nat.zero_add, pow_add,
    Nat.mul_comm (2 ^ info.mantbits)]
  calc (2 ^ info.expbits - 1) * 2 ^ info.mantbits + payload
      < (2 ^ info.expbits - 1) * 2 ^ info.mantbits + 2 ^ info.mantbits := by omega
    _ = (2 ^ info.expbits - 1 + 1) * 2 ^ info.mantbits := by rw [Nat.add_mul, one_mul]
    _ = 2 ^ info.expbits * 2 ^ info.mantbits := by rw [Nat.sub_add_cancel hexp]

/-- The sign sets its bit, which is clear. -/
theorem xor_two_pow {n k : ℕ} (h : n < 2 ^ k) : n ^^^ 2 ^ k = 2 ^ k + n := by
  have hdiv : (n ^^^ 2 ^ k) / 2 ^ k = 1 := by
    rw [Nat.xor_div_two_pow, Nat.div_eq_of_lt h, Nat.div_self (Nat.two_pow_pos k)]
    rfl
  have hmod : (n ^^^ 2 ^ k) % 2 ^ k = n := by
    rw [Nat.xor_mod_two_pow, Nat.mod_self, Nat.mod_eq_of_lt h, Nat.xor_zero]
  have := Nat.div_add_mod (n ^^^ 2 ^ k) (2 ^ k)
  rw [hdiv, hmod, Nat.mul_one] at this
  exact this.symm

theorem nanBits_sign {info : FloatInfo} {payload : ℕ} (hlt : payload < 2 ^ info.mantbits)
    (negative : Bool) :
    (if negative then info.nanBits false payload ^^^ info.signBit
      else info.nanBits false payload) = info.nanBits negative payload := by
  rcases negative with _ | _
  · rfl
  · have hbits := nanBits_lt hlt
    rw [FloatInfo.signBit] at hbits ⊢
    rw [if_pos rfl, xor_two_pow hbits]
    simp only [FloatInfo.nanBits, if_true]
    simp only [Bool.false_eq_true, if_false]
    omega

/-- The magnitude of a NaN literal. -/
theorem FloatWidth.Lawful.magnitude_payload {width : FloatWidth} (h : width.Lawful)
    (decimals : Decimals) {n : List UInt8} (hn : Num 16 n) :
    ∃ value err, width.magnitude decimals (ascii "nan:0x" ++ n) = .returned (value, err) ∧
      ConvertsNan width.info false (digitsValue 16 0 n) value err := by
  have hinf : ascii "nan:0x" ++ n ≠ ascii "inf" := fun heq =>
    absurd (List.cons.inj heq).1 (by decide)
  have hnan : ascii "nan:0x" ++ n ≠ ascii "nan" := by
    intro heq
    have := congrArg List.length heq
    simp [ascii] at this
  have hdrop : (ascii "nan:0x" ++ n).drop (ascii "nan:").length = ascii "0x" ++ n := rfl
  obtain ⟨payload, err, hpayload, hconverts⟩ := (IsUnsigned.hex hn).texUXXFromString width.bits
  have hvalue : literalValue (ascii "0x" ++ n) = digitsValue 16 0 n := by
    rw [literalValue, if_pos (startsWith_iff.mpr ⟨n, rfl⟩)]
    rfl
  rw [hvalue] at hconverts
  have hpow : 2 ^ width.info.mantbits ≤ 2 ^ width.bits :=
    Nat.pow_le_pow_right (by decide) h.fits
  rw [FloatWidth.magnitude, if_neg hinf, if_neg hnan, if_pos (startsWith_iff.mpr ⟨n, rfl⟩), hdrop,
    hpayload, Outcome.returned_bind]
  dsimp only
  rw [ConvertsUnsigned] at hconverts
  rw [h.signif, Nat.shiftLeft_eq, one_mul]
  by_cases hfits : digitsValue 16 0 n < 2 ^ width.bits
  · rw [if_pos hfits] at hconverts
    obtain ⟨rfl, rfl⟩ := hconverts
    rw [if_pos rfl]
    by_cases hzero : digitsValue 16 0 n = 0
    · refine ⟨0, _, if_pos hzero, ?_⟩
      rw [ConvertsNan, if_pos hzero]
    · rw [if_neg hzero]
      by_cases hlt : digitsValue 16 0 n < 2 ^ width.info.mantbits
      · rw [if_neg (not_le.mpr hlt), h.nan_eq hzero hlt]
        refine ⟨_, _, rfl, ?_⟩
        rw [ConvertsNan, if_neg hzero, if_pos hlt]
        exact ⟨rfl, rfl⟩
      · refine ⟨0, _, if_pos (not_lt.mp hlt), ?_⟩
        rw [ConvertsNan, if_neg hzero, if_neg hlt]
  · rw [if_neg hfits] at hconverts
    have hpos := Nat.two_pow_pos width.info.mantbits
    subst hconverts
    refine ⟨0, _, by rw [if_neg (by decide), if_pos rfl]; rfl, ?_⟩
    rw [ConvertsNan, if_neg (by omega), if_neg (by omega)]

theorem FloatWidth.Lawful.magnitude_nan {width : FloatWidth} (h : width.Lawful)
    (decimals : Decimals) :
    ∃ value err, width.magnitude decimals (ascii "nan") = .returned (value, err) ∧
      ConvertsNan width.info false (2 ^ (width.info.mantbits - 1)) value err := by
  have hlt : 2 ^ (width.info.mantbits - 1) < 2 ^ width.info.mantbits :=
    Nat.pow_lt_pow_right (by decide) (Nat.sub_lt h.pos (by decide))
  have hzero : 2 ^ (width.info.mantbits - 1) ≠ 0 := (Nat.two_pow_pos _).ne'
  rw [FloatWidth.magnitude, if_neg (by decide), if_pos rfl, h.signif, Nat.shiftLeft_eq, one_mul,
    h.nan_eq hzero hlt]
  refine ⟨_, _, rfl, ?_⟩
  rw [ConvertsNan, if_neg hzero, if_pos hlt]
  exact ⟨rfl, rfl⟩

/-- A magnitude with a sign in front. -/
theorem FloatWidth.fromString_nan (width : FloatWidth) {decimals : Decimals}
    {sign n : List UInt8} (hsign : IsSign sign) (hn : ∃ s, n = byteOf 'n' :: s) {payload : ℕ}
    (h : ∃ value err, width.magnitude decimals n = .returned (value, err) ∧
      ConvertsNan width.info false payload value err) :
    ∃ value err, width.fromString decimals (sign ++ n) = .returned (value, err) ∧
      ConvertsNan width.info (sign = [byteOf '-']) payload value err := by
  obtain ⟨s, rfl⟩ := hn
  obtain ⟨value, err, hvalue, hconverts⟩ := h
  have hread : readSign (sign ++ byteOf 'n' :: s) = (decide (sign ≠ []), byteOf 'n' :: s) := by
    refine readSign_append hsign ?_
    rintro c t h
    obtain ⟨rfl, -⟩ := List.cons.inj h
    decide
  have hnegative : ((sign ++ byteOf 'n' :: s).head? = some (byteOf '-')) =
      (sign = [byteOf '-']) := by
    rcases hsign with rfl | rfl | rfl
    · simp
      decide
    · simp
    · simp
  refine ⟨if decide (sign = [byteOf '-']) then value ^^^ width.info.signBit else value, err, ?_, ?_⟩
  · rw [FloatWidth.fromString, if_neg (by simp), hread]
    simp only [hvalue, Outcome.returned_bind, hnegative]
    rfl
  · rw [ConvertsNan] at hconverts ⊢
    split at hconverts
    · rename_i hzero
      rwa [if_pos hzero]
    · rename_i hzero
      rw [if_neg hzero]
      split at hconverts
      · rename_i hlt
        rw [if_pos hlt, hconverts.2]
        exact ⟨hconverts.1, nanBits_sign hlt _⟩
      · rename_i hlarge
        rwa [if_neg hlarge]

theorem FloatWidth.Lawful.fromString_nan {width : FloatWidth} (h : width.Lawful)
    (decimals : Decimals) {negative : Bool} {payload : ℕ} {s : List UInt8}
    (hs : IsNanLiteral width.info.mantbits negative payload s) :
    ∃ value err, width.fromString decimals s = .returned (value, err) ∧
      ConvertsNan width.info negative payload value err := by
  rcases hs with hsign | ⟨hsign, hn⟩
  · exact width.fromString_nan hsign ⟨_, rfl⟩ (h.magnitude_nan decimals)
  · exact width.fromString_nan hsign ⟨_, rfl⟩ (h.magnitude_payload decimals hn)

/-- Every NaN literal gets its bits, or the error that tells why its payload is none. -/
theorem texFloatFromString_nan (decimals : Decimals) {negative : Bool} {payload : ℕ}
    {s : List UInt8} :
    (IsNanLiteral 23 negative payload s →
      ∃ value err, texF32FromString decimals s = .returned (value, err) ∧
        ConvertsNan f32Info negative payload value err) ∧
    (IsNanLiteral 52 negative payload s →
      ∃ value err, texF64FromString decimals s = .returned (value, err) ∧
        ConvertsNan f64Info negative payload value err) :=
  ⟨f32Width_lawful.fromString_nan decimals, f64Width_lawful.fromString_nan decimals⟩

/-- The largest payload of 32 bits with a sign, and the least one that is too large for 64 bits. -/
theorem texFloatFromString_nan_limits :
    (∃ value, texF32FromString (fun _ _ => none) (ascii "-nan:0x7f_ffff") =
      .returned (value, .none) ∧ value = 0xffffffff) ∧
    ∃ value, texF64FromString (fun _ _ => none) (ascii "nan:0x10_0000_0000_0000") =
      .returned (value, .naNPayloadToLarge) := by
  have hnum : ∀ {n : List UInt8}, readDigits 16 n = (true, []) → Num 16 n := fun h =>
    num_of_readDigits_nil (by rw [h]) (by rw [h])
  constructor
  · obtain ⟨value, err, hvalue, hconverts⟩ := (texFloatFromString_nan (fun _ _ => none)).1
      (.payload (n := ascii "7f_ffff") (Or.inr (Or.inr rfl) : IsSign [byteOf '-'])
        (hnum (by decide +kernel)))
    have hpayload : digitsValue 16 0 (ascii "7f_ffff") = 0x7fffff := by decide +kernel
    rw [hpayload, ConvertsNan, if_neg (by decide), if_pos (by decide)] at hconverts
    obtain ⟨rfl, rfl⟩ := hconverts
    exact ⟨_, hvalue, rfl⟩
  · obtain ⟨value, err, hvalue, hconverts⟩ := (texFloatFromString_nan (fun _ _ => none)).2
      (.payload (n := ascii "10_0000_0000_0000") (Or.inl rfl : IsSign [])
        (hnum (by decide +kernel)))
    have hpayload : digitsValue 16 0 (ascii "10_0000_0000_0000") = 2 ^ 52 := by decide +kernel
    rw [hpayload, ConvertsNan, if_neg (by decide), if_neg (by decide)] at hconverts
    subst hconverts
    exact ⟨_, hvalue⟩

end Wasim
