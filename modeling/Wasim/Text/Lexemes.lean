import Mathlib.Data.List.TakeWhile
import Wasim.Text.Tokens

/-!
# Lexemes

The grammar of the lexemes of the text format: numbers, identifiers, memory arguments, strings
and the keywords of the table. `IsWord` pairs the words among them with their kinds, and
`texTokWordKind` gives each word its kind (`IsWord.texTokWordKind_eq`). The order in which the
recognisers are tried does not matter for them: no word is taken by an earlier one.
-/

namespace Wasim

/-! ### Numbers -/

/-- Digits with single underscores between them. -/
inductive Num (base : ℕ) : List UInt8 → Prop
  | digit {d : UInt8} (hd : texTokIsDigit d.toNat base) : Num base [d]
  | cons {d : UInt8} {s : List UInt8} (hd : texTokIsDigit d.toNat base) : Num base s →
      Num base (d :: s)
  | underscore {d : UInt8} {s : List UInt8} (hd : texTokIsDigit d.toNat base) : Num base s →
      Num base (d :: byteOf '_' :: s)

/-- A sign, or none. -/
def IsSign (s : List UInt8) : Prop := s = [] ∨ s = [byteOf '+'] ∨ s = [byteOf '-']

/-- An integer literal without its sign. -/
inductive IsUnsigned : List UInt8 → Prop
  | decimal {n : List UInt8} (hn : Num 10 n) : IsUnsigned n
  | hex {n : List UInt8} (hn : Num 16 n) : IsUnsigned (ascii "0x" ++ n)

/-- An exponent with one of two markers. -/
inductive IsExponent (lower upper : Char) : List UInt8 → Prop
  | mk {marker : UInt8} {sign n : List UInt8}
      (hmarker : marker = byteOf lower ∨ marker = byteOf upper) (hsign : IsSign sign)
      (hn : Num 10 n) : IsExponent lower upper (marker :: (sign ++ n))

/-- A point, and digits behind it or none. -/
inductive IsFraction (base : ℕ) : List UInt8 → Prop
  | point : IsFraction base [byteOf '.']
  | digits {n : List UInt8} (hn : Num base n) : IsFraction base (byteOf '.' :: n)

/-- A float literal without its sign. A hexadecimal one has an exponent. -/
inductive IsMagnitude : List UInt8 → Prop
  | inf : IsMagnitude (ascii "inf")
  | nan : IsMagnitude (ascii "nan")
  | payload {n : List UInt8} (hn : Num 16 n) : IsMagnitude (ascii "nan:0x" ++ n)
  | point {n fraction : List UInt8} (hn : Num 10 n) (hfraction : IsFraction 10 fraction) :
      IsMagnitude (n ++ fraction)
  | exponent {n exponent : List UInt8} (hn : Num 10 n) (hexponent : IsExponent 'e' 'E' exponent) :
      IsMagnitude (n ++ exponent)
  | pointExponent {n fraction exponent : List UInt8} (hn : Num 10 n)
      (hfraction : IsFraction 10 fraction) (hexponent : IsExponent 'e' 'E' exponent) :
      IsMagnitude (n ++ (fraction ++ exponent))
  | hexExponent {n exponent : List UInt8} (hn : Num 16 n)
      (hexponent : IsExponent 'p' 'P' exponent) : IsMagnitude (ascii "0x" ++ (n ++ exponent))
  | hexPointExponent {n fraction exponent : List UInt8} (hn : Num 16 n)
      (hfraction : IsFraction 16 fraction) (hexponent : IsExponent 'p' 'P' exponent) :
      IsMagnitude (ascii "0x" ++ (n ++ (fraction ++ exponent)))

/-! ### Words -/

def isIdByte (b : UInt8) : Bool := texTokIsIdChar b.toNat

/-- The words and their kinds. -/
inductive IsWord : TexTokenKind → List UInt8 → Prop
  | keyword {index : ℕ} {name : String} (h : texTokPerfectHashKey[index]? = some name) :
      IsWord (.keyword index) (ascii name)
  | unsigned {n : List UInt8} (hn : IsUnsigned n) : IsWord .integerUnsigned n
  | signed {sign n : List UInt8} (hsign : IsSign sign) (hne : sign ≠ []) (hn : IsUnsigned n) :
      IsWord .integerSigned (sign ++ n)
  | float {sign n : List UInt8} (hsign : IsSign sign) (hn : IsMagnitude n) :
      IsWord .float (sign ++ n)
  | identifier {s : List UInt8} (hne : s ≠ []) (hs : s.all isIdByte) :
      IsWord .identifier (byteOf '$' :: s)
  | align {n : List UInt8} (hn : IsUnsigned n) : IsWord .alignEqualNatural (ascii "align=" ++ n)
  | offset {n : List UInt8} (hn : IsUnsigned n) :
      IsWord .offsetEqualNatural (ascii "offset=" ++ n)

/-! ### The classifier on numbers -/

/-- Digits end in front of this. -/
def Stops (base : ℕ) (rest : List UInt8) : Prop :=
  ∀ c s, rest = c :: s → texTokIsDigit c.toNat base = false ∧ c ≠ byteOf '_'

theorem stops_nil (base : ℕ) : Stops base [] := fun _ _ h => by cases h

theorem stops_cons {base : ℕ} {c : UInt8} (hdigit : texTokIsDigit c.toNat base = false)
    (hne : c ≠ byteOf '_') (s : List UInt8) : Stops base (c :: s) := by
  rintro _ _ h
  obtain ⟨rfl, rfl⟩ := List.cons.inj h
  exact ⟨hdigit, hne⟩

theorem readDigitsLoop_stops {base : ℕ} {rest : List UInt8} (h : Stops base rest) :
    readDigitsLoop base rest = rest := by
  fun_cases readDigitsLoop base rest with
  | case1 => rfl
  | case2 c s hdigit => simp [(h c s rfl).1] at hdigit
  | case3 c _ d s hboth => exact absurd hboth.1 (h c _ rfl).2
  | case4 => rfl
  | case5 => rfl

theorem Num.exists_cons {base : ℕ} {n : List UInt8} (h : Num base n) :
    ∃ d s, n = d :: s ∧ texTokIsDigit d.toNat base := by
  rcases h with hd | ⟨hd, -⟩ | ⟨hd, -⟩
  · exact ⟨_, _, rfl, hd⟩
  · exact ⟨_, _, rfl, hd⟩
  · exact ⟨_, _, rfl, hd⟩

theorem readDigitsLoop_digit {base : ℕ} {d : UInt8} (hd : texTokIsDigit d.toNat base)
    (s : List UInt8) : readDigitsLoop base (d :: s) = readDigitsLoop base s := by
  rcases s with _ | ⟨e, s⟩
  · simp [readDigitsLoop, hd]
  · simp [readDigitsLoop, hd]

theorem not_digit_underscore (base : ℕ) : texTokIsDigit (byteOf '_').toNat base = false := by
  rw [texTokIsDigit, if_neg (by decide), if_neg (by decide)]

theorem Num.readDigitsLoop {base : ℕ} {n rest : List UInt8} (hn : Num base n)
    (h : Stops base rest) : readDigitsLoop base (n ++ rest) = rest := by
  induction hn with
  | digit hd =>
    rw [List.singleton_append, readDigitsLoop_digit hd]
    exact readDigitsLoop_stops h
  | cons hd _ ih =>
    rw [List.cons_append, readDigitsLoop_digit hd]
    exact ih
  | underscore hd hs ih =>
    obtain ⟨e, s, rfl, he⟩ := hs.exists_cons
    rw [List.cons_append, readDigitsLoop_digit he] at ih
    rw [List.cons_append, List.cons_append, List.cons_append, readDigitsLoop_digit hd,
      Wasim.readDigitsLoop, if_neg (by simp [not_digit_underscore]), if_pos ⟨rfl, he⟩]
    exact ih

theorem Num.readDigits {base : ℕ} {n rest : List UInt8} (hn : Num base n)
    (h : Stops base rest) : readDigits base (n ++ rest) = (true, rest) := by
  have hloop := hn.readDigitsLoop h
  obtain ⟨d, s, rfl, hd⟩ := hn.exists_cons
  rw [List.cons_append, readDigitsLoop_digit hd] at hloop
  rw [List.cons_append, Wasim.readDigits, if_pos hd, hloop]

theorem Num.readDigits_nil {base : ℕ} {n : List UInt8} (hn : Num base n) :
    Wasim.readDigits base n = (true, []) := by
  have := hn.readDigits (stops_nil base)
  rwa [List.append_nil] at this

/-- What `read_regular` makes of the text behind the first digits. -/
def regularTail (base : ℕ) (hadSign : Bool) : List UInt8 → TexTokenKind
  | [] => if hadSign then .integerSigned else .integerUnsigned
  | c :: rest =>
    let hasPoint := c = byteOf '.'
    let rest := if hasPoint then (readDigits base rest).2 else c :: rest
    let (hasExponent, exponentValid, rest) :=
      readExponent (byteOf (if base = 10 then 'e' else 'p'))
        (byteOf (if base = 10 then 'E' else 'P')) rest
    if rest = [] ∧ (!hasExponent || exponentValid) ∧ (base = 10 ∨ hasExponent) ∧
        (hasPoint ∨ hasExponent) then .float
    else .invalid

theorem readRegular_of_num {base : ℕ} {s n rest : List UInt8} (hadSign : Bool)
    (hbase : (if startsWith s (ascii "0x") then 16 else 10) = base)
    (hbody : (if startsWith s (ascii "0x") then s.drop 2 else s) = n ++ rest)
    (hn : Num base n) (hrest : Stops base rest) :
    readRegular s hadSign = regularTail base hadSign rest := by
  simp only [readRegular, hbase, hbody, hn.readDigits hrest, if_true]
  rcases rest with _ | ⟨c, rest⟩ <;> rfl

theorem startsWith_iff {s pre : List UInt8} : startsWith s pre ↔ ∃ rest, s = pre ++ rest := by
  rw [startsWith, List.isPrefixOf_iff_prefix]
  exact ⟨fun ⟨rest, h⟩ => ⟨rest, h.symm⟩, fun ⟨rest, h⟩ => ⟨rest, h.symm⟩⟩

/-- A decimal number is not taken for a hexadecimal one. -/
theorem Num.not_startsWith_hex {n rest : List UInt8} (hn : Num 10 n)
    (hrest : ∀ s, rest ≠ byteOf 'x' :: s) : startsWith (n ++ rest) (ascii "0x") = false := by
  rw [← Bool.not_eq_true, startsWith_iff]
  rintro ⟨tail, htail⟩
  -- the second byte is a digit, an underscore or the front of the rest
  have hsecond : ∀ {d : UInt8} {s : List UInt8}, d :: s = ascii "0x" ++ tail →
      s = byteOf 'x' :: tail := fun h => (List.cons.inj h).2
  rcases hn with hd | ⟨hd, hs⟩ | ⟨hd, hs⟩
  · exact hrest _ (hsecond htail)
  · obtain ⟨e, s, rfl, he⟩ := hs.exists_cons
    obtain ⟨rfl, -⟩ := List.cons.inj (hsecond htail)
    revert he
    decide
  · exact absurd (List.cons.inj (hsecond htail)).1 (by decide)

theorem readRegular_decimal {n rest : List UInt8} (hadSign : Bool) (hn : Num 10 n)
    (hrest : Stops 10 rest) (hx : ∀ s, rest ≠ byteOf 'x' :: s) :
    readRegular (n ++ rest) hadSign = regularTail 10 hadSign rest := by
  have hstart := hn.not_startsWith_hex hx
  exact readRegular_of_num hadSign (by simp [hstart]) (by simp [hstart]) hn hrest

theorem readRegular_hex {n rest : List UInt8} (hadSign : Bool) (hn : Num 16 n)
    (hrest : Stops 16 rest) :
    readRegular (ascii "0x" ++ (n ++ rest)) hadSign = regularTail 16 hadSign rest := by
  have hstart : startsWith (ascii "0x" ++ (n ++ rest)) (ascii "0x") = true := by
    simp [startsWith, ascii]
  exact readRegular_of_num hadSign (by rw [if_pos hstart]) (by rw [if_pos hstart]; rfl) hn hrest

/-- A text that starts with a digit or a letter has no sign in front. -/
theorem readSign_append {sign n : List UInt8} (hsign : IsSign sign)
    (hn : ∀ c s, n = c :: s → c ≠ byteOf '+' ∧ c ≠ byteOf '-') :
    readSign (sign ++ n) = (decide (sign ≠ []), n) := by
  rcases hsign with rfl | rfl | rfl
  · rcases n with _ | ⟨c, s⟩
    · rfl
    · have hc := hn c s rfl
      rw [List.nil_append, readSign, if_neg (not_or.mpr hc)]
      rfl
  · rfl
  · rfl

theorem Num.noSign {base : ℕ} {n : List UInt8} (hn : Num base n) :
    ∀ c s, n = c :: s → c ≠ byteOf '+' ∧ c ≠ byteOf '-' := by
  rintro c s rfl
  obtain ⟨d, s', hd, hdigit⟩ := hn.exists_cons
  obtain ⟨rfl, -⟩ := List.cons.inj hd
  constructor
  · rintro rfl
    rw [texTokIsDigit, if_neg (by decide), if_neg (by decide)] at hdigit
    cases hdigit
  · rintro rfl
    rw [texTokIsDigit, if_neg (by decide), if_neg (by decide)] at hdigit
    cases hdigit

theorem IsExponent.readExponent {lower upper : Char} {e : List UInt8}
    (h : IsExponent lower upper e) :
    readExponent (byteOf lower) (byteOf upper) e = (true, true, []) := by
  obtain ⟨hmarker, hsign, hn⟩ := h
  rw [Wasim.readExponent, if_pos hmarker, readSign_append hsign hn.noSign]
  simp only [hn.readDigits_nil]

theorem regularTail_fraction {fraction : List UInt8} (hadSign : Bool)
    (h : IsFraction 10 fraction) : regularTail 10 hadSign fraction = .float := by
  rcases h with _ | hn
  · simp [regularTail, readDigits, readExponent]
  · simp [regularTail, hn.readDigits_nil, readExponent]

/-- The markers of exponents are neither points nor underscores nor digits of their base. -/
theorem IsExponent.exists_marker {base : ℕ} (hbase : base = 10 ∨ base = 16) {e : List UInt8}
    (h : IsExponent (if base = 10 then 'e' else 'p') (if base = 10 then 'E' else 'P') e) :
    ∃ marker s, e = marker :: s ∧ marker ≠ byteOf '.' ∧ marker ≠ byteOf 'x' ∧
      texTokIsDigit marker.toNat base = false ∧ marker ≠ byteOf '_' := by
  obtain ⟨hmarker, -, -⟩ := h
  refine ⟨_, _, rfl, ?_⟩
  rcases hbase with rfl | rfl
  · rcases hmarker with rfl | rfl <;> decide
  · rcases hmarker with rfl | rfl <;> decide

theorem regularTail_exponent {base : ℕ} (hbase : base = 10 ∨ base = 16) {e : List UInt8}
    (hadSign : Bool)
    (h : IsExponent (if base = 10 then 'e' else 'p') (if base = 10 then 'E' else 'P') e) :
    regularTail base hadSign e = .float := by
  obtain ⟨marker, s, rfl, hpoint, -⟩ := h.exists_marker hbase
  simp only [regularTail, hpoint, if_false, h.readExponent]
  simp

theorem regularTail_fraction_exponent {base : ℕ} (hbase : base = 10 ∨ base = 16)
    {fraction e : List UInt8} (hadSign : Bool) (hfraction : IsFraction base fraction)
    (h : IsExponent (if base = 10 then 'e' else 'p') (if base = 10 then 'E' else 'P') e) :
    regularTail base hadSign (fraction ++ e) = .float := by
  obtain ⟨marker, s, he, -, -, hdigit, hunderscore⟩ := h.exists_marker hbase
  have hrest : ∀ {fraction : List UInt8}, IsFraction base (byteOf '.' :: fraction) →
      (Wasim.readDigits base (fraction ++ e)).2 = e := by
    intro fraction hfraction
    generalize hlist : byteOf '.' :: fraction = list at hfraction
    rcases hfraction with _ | hn
    · obtain ⟨-, rfl⟩ := List.cons.inj hlist
      rw [List.nil_append, he, Wasim.readDigits, if_neg (by simp [hdigit])]
    · obtain ⟨-, rfl⟩ := List.cons.inj hlist
      rw [hn.readDigits]
      rw [he]
      exact stops_cons hdigit hunderscore s
  obtain ⟨fraction, rfl⟩ : ∃ f, fraction = byteOf '.' :: f := by
    rcases hfraction with _ | _ <;> exact ⟨_, rfl⟩
  simp only [List.cons_append, regularTail, if_true, hrest hfraction, h.readExponent]
  simp

/-- Behind its sign a text that starts with a digit is a regular number or none. -/
theorem texTokReadNumberLike_digit {sign n : List UInt8} (hsign : IsSign sign) {d : UInt8}
    {s : List UInt8} (hn : n = d :: s) (hd : texTokIsDigit d.toNat 10) :
    texTokReadNumberLike (sign ++ n) = readRegular n (decide (sign ≠ [])) := by
  subst hn
  have hletter : ∀ {c : UInt8}, texTokIsDigit c.toNat 10 = false → d ≠ c := by
    rintro c hc rfl
    simp [hc] at hd
  rw [texTokReadNumberLike, readSign_append hsign]
  · dsimp only
    rw [if_neg (List.cons_ne_nil d s), if_neg, if_neg]
    · rw [startsWith_iff]
      rintro ⟨rest, hrest⟩
      exact hletter (by decide) (List.cons.inj hrest).1
    · rintro (h | h)
      · exact hletter (by decide) (List.cons.inj h).1
      · exact hletter (by decide) (List.cons.inj h).1
  · rintro c t h
    obtain ⟨rfl, -⟩ := List.cons.inj h
    exact ⟨hletter (by decide), hletter (by decide)⟩

theorem IsUnsigned.exists_digit {n : List UInt8} (h : IsUnsigned n) :
    ∃ d s, n = d :: s ∧ texTokIsDigit d.toNat 10 := by
  rcases h with hn | hn
  · exact hn.exists_cons
  · exact ⟨_, _, rfl, by decide⟩

theorem IsUnsigned.readRegular {n : List UInt8} (h : IsUnsigned n) (hadSign : Bool) :
    readRegular n hadSign = if hadSign then .integerSigned else .integerUnsigned := by
  rcases h with @⟨n, hn⟩ | @⟨n, hn⟩
  · have := readRegular_decimal hadSign hn (stops_nil 10) (fun _ h => by cases h)
    rwa [List.append_nil] at this
  · have := readRegular_hex hadSign hn (stops_nil 16)
    rwa [List.append_nil] at this

theorem IsUnsigned.texTokReadNumberLike {sign n : List UInt8} (h : IsUnsigned n)
    (hsign : IsSign sign) :
    texTokReadNumberLike (sign ++ n) =
      if sign = [] then .integerUnsigned else .integerSigned := by
  obtain ⟨d, s, hn, hd⟩ := h.exists_digit
  rw [texTokReadNumberLike_digit hsign hn hd, h.readRegular]
  by_cases hs : sign = [] <;> simp [hs]

theorem Stops.fraction {base : ℕ} {fraction : List UInt8} (h : IsFraction base fraction)
    (rest : List UInt8) : Stops base (fraction ++ rest) := by
  have hpoint : texTokIsDigit (byteOf '.').toNat base = false := by
    rw [texTokIsDigit, if_neg (by decide), if_neg (by decide)]
  rcases h with _ | _
  · exact stops_cons hpoint (by decide) _
  · exact stops_cons hpoint (by decide) _

theorem IsFraction.ne_hex {base : ℕ} {fraction : List UInt8} (h : IsFraction base fraction)
    (rest : List UInt8) : ∀ s, fraction ++ rest ≠ byteOf 'x' :: s := by
  intro s hs
  rcases h with _ | _
  · exact absurd (List.cons.inj hs).1 (by decide)
  · exact absurd (List.cons.inj hs).1 (by decide)

/-- Every float literal is classified as one. -/
theorem IsMagnitude.texTokReadNumberLike {sign n : List UInt8} (h : IsMagnitude n)
    (hsign : IsSign sign) : texTokReadNumberLike (sign ++ n) = .float := by
  have hdecimal : ∀ {n tail : List UInt8}, Num 10 n →
      (∀ hadSign, Wasim.readRegular (n ++ tail) hadSign = .float) →
      Wasim.texTokReadNumberLike (sign ++ (n ++ tail)) = .float := by
    intro n tail hn htail
    obtain ⟨d, s, rfl, hd⟩ := hn.exists_cons
    exact (texTokReadNumberLike_digit hsign rfl hd).trans (htail _)
  have hhex : ∀ {tail : List UInt8},
      (∀ hadSign, Wasim.readRegular (ascii "0x" ++ tail) hadSign = .float) →
      Wasim.texTokReadNumberLike (sign ++ (ascii "0x" ++ tail)) = .float := by
    intro tail htail
    exact (texTokReadNumberLike_digit (d := byteOf '0') (s := byteOf 'x' :: tail) hsign rfl
      (by decide)).trans (htail _)
  rcases h with _ | _ | hn | ⟨hn, hf⟩ | ⟨hn, he⟩ | ⟨hn, hf, he⟩ | ⟨hn, he⟩ | ⟨hn, hf, he⟩
  · rcases hsign with rfl | rfl | rfl <;> decide
  · rcases hsign with rfl | rfl | rfl <;> decide
  · rename_i n
    have hname : ascii "nan:0x" ++ n ≠ [] ∧ ascii "nan:0x" ++ n ≠ ascii "inf" ∧
        ascii "nan:0x" ++ n ≠ ascii "nan" := by
      refine ⟨by simp [ascii], ?_, ?_⟩
      · intro h
        exact absurd (List.cons.inj h).1 (by decide)
      · intro h
        have := congrArg List.length h
        simp [ascii] at this
    rw [Wasim.texTokReadNumberLike, readSign_append hsign]
    · dsimp only
      rw [if_neg hname.1, if_neg (not_or.mpr hname.2), if_pos (startsWith_iff.mpr ⟨n, rfl⟩),
        List.drop_left, hn.readDigits_nil, if_pos ⟨rfl, rfl⟩]
    · rintro c s h
      obtain ⟨rfl, -⟩ := List.cons.inj h
      decide
  · refine hdecimal hn fun hadSign => ?_
    have hstops := Stops.fraction hf []
    have hx := hf.ne_hex []
    rw [List.append_nil] at hstops hx
    rw [readRegular_decimal hadSign hn hstops hx, regularTail_fraction hadSign hf]
  · refine hdecimal hn fun hadSign => ?_
    have hfloat := regularTail_exponent (Or.inl rfl) hadSign he
    obtain ⟨marker, s, rfl, -, hx, hdigit, hunderscore⟩ :=
      IsExponent.exists_marker (Or.inl rfl) he
    rw [readRegular_decimal hadSign hn (stops_cons hdigit hunderscore s), hfloat]
    intro s' h
    exact hx (List.cons.inj h).1
  · refine hdecimal hn fun hadSign => ?_
    rw [readRegular_decimal hadSign hn (Stops.fraction hf _) (hf.ne_hex _),
      regularTail_fraction_exponent (Or.inl rfl) hadSign hf he]
  · refine hhex fun hadSign => ?_
    have hfloat := regularTail_exponent (Or.inr rfl) hadSign he
    obtain ⟨marker, s, rfl, -, -, hdigit, hunderscore⟩ :=
      IsExponent.exists_marker (Or.inr rfl) he
    rw [readRegular_hex hadSign hn (stops_cons hdigit hunderscore s), hfloat]
  · refine hhex fun hadSign => ?_
    rw [readRegular_hex hadSign hn (Stops.fraction hf _),
      regularTail_fraction_exponent (Or.inr rfl) hadSign hf he]

/-! ### The kinds of words -/

theorem exists_of_texTokPerfectHashProc {data : List UInt8} {index : ℕ}
    (h : texTokPerfectHashProc data = some index) :
    ∃ name, texTokPerfectHashKey[index]? = some name ∧ data = ascii name := by
  simp only [texTokPerfectHashProc] at h
  split at h
  · split at h
    · rename_i name hname
      split at h
      · rename_i hdata
        obtain rfl := Option.some.inj h
        exact ⟨name, hname, hdata⟩
      · cases h
    · cases h
  · cases h

theorem ascii_ofList (l : List Char) :
    ascii (String.ofList l) = l.map fun c => UInt8.ofNat c.toNat := by
  rw [ascii, String.toList_ofList]

/-- What the table has to satisfy at one keyword: its hash is its index, no other recogniser
takes it, and its bytes are those of identifiers. -/
def keywordOk (index : ℕ) (key : List UInt8) : Bool :=
  (texTokPerfectHash.getD (weightedSum texTokPerfectHashS1 key % hashModulus) 0 +
      texTokPerfectHash.getD (weightedSum texTokPerfectHashS2 key % hashModulus) 0) %
        hashModulus = index &&
    key.length ≤ maxKeywordLength && texTokReadNumberLike key = .invalid &&
    texTokIsIdentifier key = false && texTokReadMemoryArgument key = .invalid &&
    key.all isIdByte && key ≠ []

theorem cons_eq_map_ofList {l : List Char} {names : List String} {keys : List (List Char)}
    (h : names = keys.map String.ofList) :
    String.ofList l :: names = (l :: keys).map String.ofList := by
  rw [h, List.map_cons]

theorem exists_keys {names : List String} {keys : List (List Char)} {p : List (List Char) → Bool}
    (h : names = keys.map String.ofList) (hp : p keys) :
    ∃ keys : List (List Char), names = keys.map String.ofList ∧ p keys :=
  ⟨keys, h, hp⟩

/-- The check runs on the characters of the keywords: deciding it on the strings themselves
would decode each of them again at every use. -/
theorem keywordOk_table : ∃ keys : List (List Char),
    texTokPerfectHashKey = keys.map String.ofList ∧
      keys.zipIdx.all fun e => keywordOk e.2 (e.1.map fun c => UInt8.ofNat c.toNat) := by
  apply exists_keys
  · simp only [texTokPerfectHashKey]
    repeat apply cons_eq_map_ofList
    exact List.map_nil.symm
  · decide +kernel

theorem keywordOk_of_getElem? {index : ℕ} {name : String}
    (h : texTokPerfectHashKey[index]? = some name) : keywordOk index (ascii name) := by
  obtain ⟨keys, hkeys, hok⟩ := keywordOk_table
  rw [hkeys, List.getElem?_map, Option.map_eq_some_iff] at h
  obtain ⟨l, hl, rfl⟩ := h
  have hmem : (l, index) ∈ keys.zipIdx := by rw [List.mem_zipIdx_iff_getElem?, hl]
  rw [ascii_ofList]
  exact List.all_eq_true.mp hok (l, index) hmem

theorem keyword_lookup {index : ℕ} {name : String}
    (h : texTokPerfectHashKey[index]? = some name) :
    texTokPerfectHashProc (ascii name) = some index := by
  have hok := keywordOk_of_getElem? h
  simp only [keywordOk, Bool.and_eq_true, decide_eq_true_eq] at hok
  obtain ⟨⟨⟨⟨⟨⟨hindex, hlength⟩, -⟩, -⟩, -⟩, -⟩, -⟩ := hok
  simp only [texTokPerfectHashProc, if_pos hlength, hindex, h, if_true]

/-- Keywords are not numbers, identifiers or memory arguments. -/
theorem keyword_distinct {index : ℕ} {name : String}
    (h : texTokPerfectHashKey[index]? = some name) :
    texTokReadNumberLike (ascii name) = .invalid ∧ texTokIsIdentifier (ascii name) = false ∧
      texTokReadMemoryArgument (ascii name) = .invalid := by
  have hok := keywordOk_of_getElem? h
  simp only [keywordOk, Bool.and_eq_true, decide_eq_true_eq] at hok
  exact ⟨hok.1.1.1.1.2, hok.1.1.1.2, hok.1.1.2⟩

theorem keyword_bytes {index : ℕ} {name : String}
    (h : texTokPerfectHashKey[index]? = some name) :
    (ascii name).all isIdByte ∧ ascii name ≠ [] := by
  have hok := keywordOk_of_getElem? h
  simp only [keywordOk, Bool.and_eq_true, decide_eq_true_eq] at hok
  exact ⟨hok.1.2, hok.2⟩

theorem texTokReadMemoryArgument_invalid {c : UInt8} {s : List UInt8} (ha : c ≠ byteOf 'a')
    (ho : c ≠ byteOf 'o') : texTokReadMemoryArgument (c :: s) = .invalid := by
  have halign : ¬startsWith (c :: s) (ascii "align=") := by
    rw [startsWith_iff]
    rintro ⟨rest, h⟩
    exact ha (List.cons.inj h).1
  have hoffset : ¬startsWith (c :: s) (ascii "offset=") := by
    rw [startsWith_iff]
    rintro ⟨rest, h⟩
    exact ho (List.cons.inj h).1
  rw [texTokReadMemoryArgument, if_neg halign, if_neg hoffset]

/-- A text that is no memory argument and has a number kind is a number. -/
theorem texTokWordKind_number {data : List UInt8} {kind : TexTokenKind}
    (hmemory : texTokReadMemoryArgument data = .invalid)
    (h : texTokReadNumberLike data = kind) (hkind : kind ≠ .invalid) :
    texTokWordKind data = kind := by
  rw [texTokWordKind, if_neg (not_not.mpr hmemory)]
  split
  · rename_i index hindex
    obtain ⟨name, hname, rfl⟩ := exists_of_texTokPerfectHashProc hindex
    rw [(keyword_distinct hname).1] at h
    exact absurd h.symm hkind
  · rw [h, if_pos hkind]

theorem number_head {sign n : List UInt8} (hsign : IsSign sign)
    (hn : (∃ d s, n = d :: s ∧ texTokIsDigit d.toNat 10) ∨
      ∃ c s, n = c :: s ∧ (c = byteOf 'i' ∨ c = byteOf 'n')) :
    ∃ c s, sign ++ n = c :: s ∧ c ≠ byteOf 'a' ∧ c ≠ byteOf 'o' := by
  rcases hsign with rfl | rfl | rfl
  · rcases hn with ⟨d, s, rfl, hd⟩ | ⟨c, s, rfl, rfl | rfl⟩
    · refine ⟨d, s, rfl, ?_, ?_⟩
      · rintro rfl
        revert hd
        decide
      · rintro rfl
        revert hd
        decide
    · exact ⟨_, s, rfl, by decide, by decide⟩
    · exact ⟨_, s, rfl, by decide, by decide⟩
  · exact ⟨_, n, rfl, by decide, by decide⟩
  · exact ⟨_, n, rfl, by decide, by decide⟩

theorem IsMagnitude.head {n : List UInt8} (h : IsMagnitude n) :
    (∃ d s, n = d :: s ∧ texTokIsDigit d.toNat 10) ∨
      ∃ c s, n = c :: s ∧ (c = byteOf 'i' ∨ c = byteOf 'n') := by
  have hdecimal : ∀ {n tail : List UInt8}, Num 10 n →
      ∃ d s, n ++ tail = d :: s ∧ texTokIsDigit d.toNat 10 := by
    intro n tail hn
    obtain ⟨d, s, rfl, hd⟩ := hn.exists_cons
    exact ⟨d, _, rfl, hd⟩
  rcases h with _ | _ | hn | ⟨hn, hf⟩ | ⟨hn, he⟩ | ⟨hn, hf, he⟩ | ⟨hn, he⟩ | ⟨hn, hf, he⟩
  · exact Or.inr ⟨_, _, rfl, Or.inl rfl⟩
  · exact Or.inr ⟨_, _, rfl, Or.inr rfl⟩
  · exact Or.inr ⟨_, _, rfl, Or.inr rfl⟩
  · exact Or.inl (hdecimal hn)
  · exact Or.inl (hdecimal hn)
  · exact Or.inl (hdecimal hn)
  · exact Or.inl ⟨_, _, rfl, by decide⟩
  · exact Or.inl ⟨_, _, rfl, by decide⟩

theorem isIdByte_lt {b : UInt8} (h : isIdByte b) : b.toNat < 0x80 := by
  have hall : ∀ n < 256, texTokIsIdChar n → n < 0x80 := by decide +kernel
  exact hall _ b.toNat_lt h

/-- The runes of a text of identifier bytes are its bytes, and all are identifier characters. -/
theorem texTokIsIdentifier_dollar {s : List UInt8} (hne : s ≠ []) (hs : s.all isIdByte) :
    texTokIsIdentifier (byteOf '$' :: s) := by
  have hall : (byteOf '$' :: s).all isIdByte := by
    rw [List.all_cons, hs, Bool.and_true]
    decide
  have hrunes := runes_ascii fun c hc => isIdByte_lt (List.all_eq_true.mp hall c hc)
  have htake : ((byteOf '$' :: s).map UInt8.toNat).takeWhile texTokIsIdChar =
      (byteOf '$' :: s).map UInt8.toNat := by
    rw [List.takeWhile_eq_self_iff]
    intro n hn
    obtain ⟨b, hb, rfl⟩ := List.mem_map.mp hn
    exact List.all_eq_true.mp hall b hb
  have hlength := List.length_pos_iff.mpr hne
  rw [texTokIsIdentifier, hrunes, htake]
  simp only [Bool.and_eq_true, decide_eq_true_eq, List.length_map, List.length_cons]
  exact ⟨⟨startsWith_iff.mpr ⟨s, rfl⟩, trivial⟩, by omega⟩

theorem texTokReadNumberLike_dollar (s : List UInt8) :
    texTokReadNumberLike (byteOf '$' :: s) = .invalid := by
  have hstart : ∀ {pre : List UInt8}, pre.head? ≠ some (byteOf '$') → pre ≠ [] →
      ¬startsWith (byteOf '$' :: s) pre := by
    intro pre hhead hne
    rw [startsWith_iff]
    rintro ⟨rest, h⟩
    obtain ⟨c, pre, rfl⟩ := List.exists_cons_of_ne_nil hne
    exact hhead (by rw [(List.cons.inj h).1, List.head?_cons])
  rw [texTokReadNumberLike, readSign, if_neg (by decide)]
  dsimp only
  have hdigits : readDigits 10 (byteOf '$' :: s) = (false, byteOf '$' :: s) := by
    rw [readDigits, if_neg (by decide)]
  rw [if_neg (List.cons_ne_nil _ s), if_neg, if_neg (hstart (by decide) (by decide)), readRegular,
    if_neg (hstart (by decide) (by decide)), if_neg (hstart (by decide) (by decide)), hdigits]
  · rfl
  · rintro (h | h)
    · exact absurd (List.cons.inj h).1 (by decide)
    · exact absurd (List.cons.inj h).1 (by decide)

/-- Each word gets its kind. -/
theorem IsWord.texTokWordKind_eq {kind : TexTokenKind} {data : List UInt8}
    (h : IsWord kind data) : texTokWordKind data = kind := by
  have hmemory : ∀ {sign n : List UInt8}, IsSign sign →
      ((∃ d s, n = d :: s ∧ texTokIsDigit d.toNat 10) ∨
        ∃ c s, n = c :: s ∧ (c = byteOf 'i' ∨ c = byteOf 'n')) →
      texTokReadMemoryArgument (sign ++ n) = .invalid := by
    intro sign n hsign hn
    obtain ⟨c, s, hcs, ha, ho⟩ := number_head hsign hn
    rw [hcs, texTokReadMemoryArgument_invalid ha ho]
  rcases h with hname | hn | ⟨hsign, hne, hn⟩ | ⟨hsign, hn⟩ | ⟨hne, hs⟩ | hn | hn
  · rw [texTokWordKind, if_neg (not_not.mpr (keyword_distinct hname).2.2), keyword_lookup hname]
  · have hsign : IsSign [] := Or.inl rfl
    exact texTokWordKind_number (hmemory hsign (Or.inl hn.exists_digit))
      (hn.texTokReadNumberLike hsign) (by simp)
  · exact texTokWordKind_number (hmemory hsign (Or.inl hn.exists_digit))
      ((hn.texTokReadNumberLike hsign).trans (if_neg hne)) (by simp)
  · exact texTokWordKind_number (hmemory hsign hn.head) (hn.texTokReadNumberLike hsign)
      (by simp)
  · rename_i s
    have hidentifier := texTokIsIdentifier_dollar hne hs
    have hnumber := texTokReadNumberLike_dollar s
    rw [texTokWordKind, if_neg (not_not.mpr (texTokReadMemoryArgument_invalid (by decide)
      (by decide)))]
    split
    · rename_i index hindex
      obtain ⟨name, hname, hdata⟩ := exists_of_texTokPerfectHashProc hindex
      rw [hdata, (keyword_distinct hname).2.1] at hidentifier
      cases hidentifier
    · rw [if_neg (not_not.mpr hnumber), if_pos hidentifier]
  · rename_i n
    have hkind : texTokReadMemoryArgument (ascii "align=" ++ n) = .alignEqualNatural := by
      rw [texTokReadMemoryArgument, if_pos (startsWith_iff.mpr ⟨n, rfl⟩), List.drop_left, if_pos]
      exact hn.texTokReadNumberLike (Or.inl rfl)
    rw [texTokWordKind, hkind, if_pos (by simp)]
  · rename_i n
    have hkind : texTokReadMemoryArgument (ascii "offset=" ++ n) = .offsetEqualNatural := by
      rw [texTokReadMemoryArgument, if_neg, if_pos (startsWith_iff.mpr ⟨n, rfl⟩), List.drop_left,
        if_pos]
      · exact hn.texTokReadNumberLike (Or.inl rfl)
      · rw [startsWith_iff]
        rintro ⟨rest, h⟩
        exact absurd (List.cons.inj h).1 (by decide)
    rw [texTokWordKind, hkind, if_pos (by simp)]

/-! ### The bytes of words -/

theorem isIdByte_of_digit {d : UInt8} {base : ℕ} (h : texTokIsDigit d.toNat base) :
    isIdByte d := by
  rw [texTokIsDigit] at h
  have hchar : ('0'.toNat ≤ d.toNat ∧ d.toNat ≤ '9'.toNat) ∨
      ('a'.toNat ≤ d.toNat ∧ d.toNat ≤ 'f'.toNat) ∨
      ('A'.toNat ≤ d.toNat ∧ d.toNat ≤ 'F'.toNat) := by
    split at h
    · exact Or.inl ‹_›
    · split at h
      · exact Or.inr ‹_›
      · cases h
  simp only [Char.reduceToNat] at hchar
  simp only [isIdByte, texTokIsIdChar, Char.reduceToNat, Bool.or_eq_true, Bool.and_eq_true,
    decide_eq_true_eq]
  omega

theorem Num.all {base : ℕ} {n : List UInt8} (h : Num base n) : n.all isIdByte := by
  have hunderscore : isIdByte (byteOf '_') := by decide
  induction h with
  | digit hd => simp [isIdByte_of_digit hd]
  | cons hd _ ih => simp [isIdByte_of_digit hd, ih]
  | underscore hd _ ih => simp [isIdByte_of_digit hd, hunderscore, ih]

theorem IsSign.all {sign : List UInt8} (h : IsSign sign) : sign.all isIdByte := by
  rcases h with rfl | rfl | rfl <;> decide

theorem IsUnsigned.all {n : List UInt8} (h : IsUnsigned n) : n.all isIdByte := by
  have hbase : (ascii "0x").all isIdByte := by decide
  rcases h with hn | hn
  · exact hn.all
  · rw [List.all_append, hbase, hn.all]
    rfl

theorem IsFraction.all {base : ℕ} {f : List UInt8} (h : IsFraction base f) :
    f.all isIdByte := by
  have hpoint : isIdByte (byteOf '.') := by decide
  rcases h with _ | hn
  · simp [hpoint]
  · simp only [List.all_cons, hpoint, hn.all, Bool.and_self]

theorem IsExponent.all {lower upper : Char} {e : List UInt8} (h : IsExponent lower upper e)
    (hlower : isIdByte (byteOf lower)) (hupper : isIdByte (byteOf upper)) : e.all isIdByte := by
  obtain ⟨hmarker, hsign, hn⟩ := h
  rw [List.all_cons, List.all_append, hsign.all, hn.all]
  rcases hmarker with rfl | rfl
  · simp [hlower]
  · simp [hupper]

theorem IsMagnitude.all {n : List UInt8} (h : IsMagnitude n) : n.all isIdByte := by
  have hbase : (ascii "0x").all isIdByte := by decide
  have hnan : (ascii "nan:0x").all isIdByte := by decide
  have he : isIdByte (byteOf 'e') ∧ isIdByte (byteOf 'E') := by decide
  have hp : isIdByte (byteOf 'p') ∧ isIdByte (byteOf 'P') := by decide
  rcases h with _ | _ | hn | ⟨hn, hf⟩ | ⟨hn, hx⟩ | ⟨hn, hf, hx⟩ | ⟨hn, hx⟩ | ⟨hn, hf, hx⟩
  · decide
  · decide
  · simp only [List.all_append, hnan, hn.all, Bool.and_self]
  · simp only [List.all_append, hn.all, hf.all, Bool.and_self]
  · simp only [List.all_append, hn.all, hx.all he.1 he.2, Bool.and_self]
  · simp only [List.all_append, hn.all, hf.all, hx.all he.1 he.2, Bool.and_self]
  · simp only [List.all_append, hbase, hn.all, hx.all hp.1 hp.2, Bool.and_self]
  · simp only [List.all_append, hbase, hn.all, hf.all, hx.all hp.1 hp.2, Bool.and_self]

theorem IsWord.all {kind : TexTokenKind} {data : List UInt8} (h : IsWord kind data) :
    data.all isIdByte := by
  have hdollar : isIdByte (byteOf '$') := by decide
  have halign : (ascii "align=").all isIdByte := by decide
  have hoffset : (ascii "offset=").all isIdByte := by decide
  rcases h with hname | hn | ⟨hsign, -, hn⟩ | ⟨hsign, hn⟩ | ⟨-, hs⟩ | hn | hn
  · exact (keyword_bytes hname).1
  · exact hn.all
  · simp only [List.all_append, hsign.all, hn.all, Bool.and_self]
  · simp only [List.all_append, hsign.all, hn.all, Bool.and_self]
  · simp only [List.all_cons, hdollar, hs, Bool.and_self]
  · simp only [List.all_append, halign, hn.all, Bool.and_self]
  · simp only [List.all_append, hoffset, hn.all, Bool.and_self]

theorem IsWord.ne_nil {kind : TexTokenKind} {data : List UInt8} (h : IsWord kind data) :
    data ≠ [] := by
  rcases h with hname | hn | ⟨-, hne, -⟩ | ⟨-, hn⟩ | _ | _ | _
  · exact (keyword_bytes hname).2
  · obtain ⟨d, s, rfl, -⟩ := hn.exists_digit
    simp
  · simp [hne]
  · rcases hn.head with ⟨d, s, rfl, -⟩ | ⟨c, s, rfl, -⟩ <;> simp
  · simp
  · simp [ascii]
  · simp [ascii]

theorem IsWord.kind_ne {kind : TexTokenKind} {data : List UInt8} (h : IsWord kind data) :
    kind ≠ .invalid ∧ kind ≠ .eof ∧ kind ≠ .parenOpen ∧ kind ≠ .parenClose := by
  rcases h with _ | _ | _ | _ | _ | _ | _ <;> simp

end Wasim
