import Wasim.Text.FloatRounding
import Wasim.Text.HexDigits

/-!
# Hexadecimal literals, converted

What is read for a hexadecimal float literal is rounded to the nearest float: the digits that are
kept, and that some are behind them, are enough (`parseHex_keptDigits`). It is what is written
unless a letter was taken off for a zero, or the exponent is a million or more
(`texFloatFromString_hex`).
-/

namespace Wasim

open BinaryFloat

/-! ### The rounding -/

/-- Widening is a shift that stops as soon as it has gone far enough. -/
theorem widen_shift (mantbits m : ℕ) (exp : ℤ) (hm : m ≠ 0) : ∃ j : ℕ,
    widen mantbits m exp = (m * 2 ^ j, exp - j) ∧ 2 ^ (mantbits + 3) ≤ m * 2 ^ j ∧
      (j = 0 ∨ m * 2 ^ j < 2 ^ (mantbits + 4)) := by
  induction m, exp using widen.induct mantbits with
  | case1 m exp h ih =>
    have hdouble : m <<< 1 = m * 2 := Nat.shiftLeft_eq m 1
    rw [hdouble] at ih
    obtain ⟨j, hwiden, hlo, hhi⟩ := ih (by omega)
    rw [mul_assoc, ← pow_succ'] at hwiden hlo hhi
    refine ⟨j + 1, ?_, hlo, Or.inr ?_⟩
    · rw [widen, if_pos h, hdouble, hwiden]
      push_cast
      congr 1
      ring
    · have hsmall := shiftRight_eq_zero_iff.mp h.2
      have hpow : 2 ^ (mantbits + 4) = 2 * 2 ^ (mantbits + 3) := by ring
      obtain rfl | hhi := hhi
      · rw [Nat.zero_add, pow_one]
        omega
      · exact hhi
  | case2 m exp h =>
    have hlarge : ¬m >>> (1 + mantbits + 2) = 0 := fun hzero => h ⟨hm, hzero⟩
    rw [shiftRight_eq_zero_iff, not_lt] at hlarge
    refine ⟨0, ?_, by rwa [pow_zero, mul_one], Or.inl rfl⟩
    rw [widen, if_neg h, pow_zero, mul_one, Nat.cast_zero, sub_zero]

/-- A significand from which something was cut off that is small beside its sixtieth bit. -/
theorem parseHex_cutOff {K : Type*} [Field K] [LinearOrder K] [IsStrictOrderedRing K] {x : K}
    {info : FloatInfo} (hmant : 1 ≤ info.mantbits) (hmant' : info.mantbits ≤ 56)
    (hexpbits : 1 ≤ info.expbits) {m k : ℕ} (hm : 2 ^ 60 ≤ m * 2 ^ k) {exp : ℤ}
    (hlo : (m : K) * 2 ^ exp < x) (hhi : x < (m : K) * 2 ^ exp + 2 ^ (exp - k)) (neg : Bool) :
    info.Converts neg x (parseHex info m exp neg true) := by
  have hne : m ≠ 0 := by
    rintro rfl
    omega
  obtain ⟨j, hwiden, hwide, hstop⟩ := widen_shift info.mantbits m (exp + info.mantbits) hne
  have hpow₃ : 2 ^ (info.mantbits + 3) = 2 * 2 ^ (info.mantbits + 2) := by ring
  have hset : m * 2 ^ j ≤ setLast (m * 2 ^ j) := by
    rw [setLast]
    split <;> omega
  have hjk : j ≤ k := by
    obtain rfl | hstop := hstop
    · exact Nat.zero_le k
    · by_contra hlt
      have hpow : 2 ^ (info.mantbits + 4) ≤ 2 ^ 60 := Nat.pow_le_pow_right (by decide) (by omega)
      have hmul := Nat.mul_le_mul_left m (Nat.pow_le_pow_right Nat.two_pos (not_le.mp hlt).le)
      omega
  have hshift : (m : K) * 2 ^ exp = (m * 2 ^ j : ℕ) * 2 ^ (exp - j) := by
    push_cast
    rw [mul_assoc, ← zpow_natCast, ← zpow_add₀ two_ne_zero, add_sub_cancel]
  have hunit : (2 : K) ^ (exp - k) ≤ 2 ^ (exp - j) :=
    zpow_le_zpow_right₀ one_le_two (by omega)
  rw [parseHex_eq, hwiden]
  simp only [if_true, or_one_eq_setLast]
  refine hexBits_converts hmant hexpbits ?_ (Or.inr (by omega)) neg
  rw [show exp + info.mantbits - j = exp - j + info.mantbits by ring, ulp_add_mantbits]
  refine sticky_setLast (hshift ▸ hlo) ?_ (zpow_pos two_pos _)
  rw [add_mul, one_mul, ← hshift]
  linarith

theorem numeral_keptDigits (ds : List ℕ) : numeral (keptDigits ds) =
    numeral (ds.take (kept ds)) * 16 ^ (ds.length - kept ds) + numeral (ds.drop 16) := by
  have hsum := kept_add_dropped ds
  rw [keptDigits, numeral_append, numeral_append, numeral_replicate, Nat.zero_mul, Nat.zero_add,
    List.length_append, List.length_replicate, List.length_drop,
    show dropped ds + (ds.length - 16) = ds.length - kept ds by omega]

/-- The digits that are kept are rounded together with the ones behind the sixteenth. -/
theorem parseHex_keptDigits {info : FloatInfo} (hmant : 1 ≤ info.mantbits)
    (hmant' : info.mantbits ≤ 56) (hexpbits : 1 ≤ info.expbits) {ds : List ℕ}
    (hds : ∀ d ∈ ds, d < 16) (hhead : ∀ d rest, ds = d :: rest → d ≠ 0) (e : ℤ) {trunc : Bool}
    (htrunc : trunc = true ↔ 0 < numeral (ds.drop 16)) (neg : Bool) :
    info.Converts neg ((numeral (keptDigits ds) : ℚ) * 2 ^ e)
      (parseHex info (numeral (ds.take (kept ds)))
        (if numeral (ds.take (kept ds)) ≠ 0 then 4 * (ds.length - kept ds : ℤ) + e else 0)
        neg trunc) := by
  have hsum := kept_add_dropped ds
  have hshift : ∀ n : ℕ, (16 : ℚ) ^ n * 2 ^ e = 2 ^ (4 * (n : ℤ) + e) := fun n => by
    rw [zpow_add₀ two_ne_zero, zpow_mul, zpow_natCast]
    norm_num
  have hlen : ((ds.length - kept ds : ℕ) : ℤ) = ds.length - kept ds := by omega
  have hvalue : (numeral (keptDigits ds) : ℚ) * 2 ^ e =
      numeral (ds.take (kept ds)) * 2 ^ (4 * (ds.length - kept ds : ℤ) + e) +
        numeral (ds.drop 16) * 2 ^ e := by
    rw [numeral_keptDigits, ← hlen, ← hshift]
    push_cast
    ring
  rw [hvalue]
  cases trunc with
  | false =>
    have hzero : numeral (ds.drop 16) = 0 := by
      by_contra h
      cases htrunc.mpr (Nat.pos_of_ne_zero h)
    rw [hzero, Nat.cast_zero, zero_mul, add_zero]
    by_cases hm : numeral (ds.take (kept ds)) = 0
    · rw [if_neg (not_not.mpr hm), hm, Nat.cast_zero, zero_mul]
      have hexact := parseHex_exact (K := ℚ) hmant hexpbits 0 0 neg
      rwa [Nat.cast_zero, zero_mul] at hexact
    · rw [if_pos hm]
      exact parseHex_exact hmant hexpbits _ _ neg
  | true =>
    have htail := htrunc.mp rfl
    have hlong : 16 < ds.length := by
      by_contra h
      rw [List.drop_eq_nil_of_le (not_lt.mp h)] at htail
      exact absurd htail (by decide)
    obtain ⟨d, rest, rfl⟩ := List.exists_cons_of_length_pos (Nat.zero_lt_of_lt hlong)
    have hd := hhead d rest rfl
    have hpos := kept_pos hd rest
    have hlead : 16 ^ (kept (d :: rest) - 1) ≤ numeral ((d :: rest).take (kept (d :: rest))) := by
      obtain ⟨k, hk⟩ := Nat.exists_eq_add_of_le' hpos
      have hle := le_numeral_cons hd (rest.take k)
      rw [List.length_take, Nat.min_eq_left (by rw [List.length_cons] at hsum; omega)] at hle
      rw [hk, List.take_succ_cons, Nat.add_sub_cancel]
      exact hle
    have hne : numeral ((d :: rest).take (kept (d :: rest))) ≠ 0 := by
      have := Nat.pow_pos (n := kept (d :: rest) - 1) (show 0 < 16 by decide)
      omega
    rw [if_pos hne]
    have hlt : numeral ((d :: rest).drop 16) < _ :=
      numeral_lt fun x hx => hds x (List.mem_of_mem_drop hx)
    rw [List.length_drop] at hlt
    generalize hkept : kept (d :: rest) = k at *
    generalize numeral ((d :: rest).take k) = m at *
    generalize numeral ((d :: rest).drop 16) = tail at *
    generalize (d :: rest).length = len at *
    have hbound : 2 ^ 60 ≤ m * 2 ^ (4 * (16 - k)) := by
      calc 2 ^ 60 = 16 ^ (k - 1) * 2 ^ (4 * (16 - k)) := by
            rw [show 16 = 2 ^ 4 from rfl, ← pow_mul, ← pow_add]
            congr 1
            omega
        _ ≤ m * 2 ^ (4 * (16 - k)) := Nat.mul_le_mul_right _ hlead
    have hpow : (0 : ℚ) < 2 ^ e := zpow_pos two_pos e
    refine parseHex_cutOff hmant hmant' hexpbits hbound ?_ ?_ neg
    · have := mul_pos (Nat.cast_pos.mpr htail) hpow
      linarith
    · have hunit : (2 : ℚ) ^ (4 * (len - k : ℤ) + e - (4 * (16 - k) : ℕ)) =
          16 ^ (len - 16) * 2 ^ e := by
        rw [hshift]
        congr 1
        omega
      rw [hunit]
      have hcast : (tail : ℚ) < 16 ^ (len - 16) := by exact_mod_cast hlt
      have := mul_lt_mul_of_pos_right hcast hpow
      linarith

/-! ### What is read against what is written -/

/-- An exponent below a million is read as it is; a larger one loses at least its last digit. -/
theorem cappedExponent_cases {ds : List ℕ} (hds : ∀ d ∈ ds, d < 10) :
    (Nat.ofDigits 10 ds.reverse < 1000000 ∧ cappedExponent ds = Nat.ofDigits 10 ds.reverse) ∨
      (100000 ≤ cappedExponent ds ∧ 10 * cappedExponent ds ≤ Nat.ofDigits 10 ds.reverse) := by
  induction ds using List.reverseRecOn with
  | nil => exact Or.inl ⟨by decide, rfl⟩
  | append_singleton ds d ih =>
    obtain ⟨hds, hd⟩ := List.forall_mem_append.mp hds
    have hd := List.forall_mem_singleton.mp hd
    have hvalue : Nat.ofDigits 10 (ds ++ [d]).reverse = 10 * Nat.ofDigits 10 ds.reverse + d := by
      rw [List.reverse_append, List.reverse_singleton, List.singleton_append, Nat.ofDigits_cons,
        Nat.add_comm]
    have hcapped : cappedExponent (ds ++ [d]) = extendExponent (cappedExponent ds) d := by
      rw [cappedExponent, List.foldl_append]
      rfl
    rw [hvalue, hcapped, extendExponent]
    obtain ⟨hlt, heq⟩ | ⟨hlo, hle⟩ := ih hds
    · split <;> omega
    · rw [if_neg (by omega)]
      omega

/-- What the digits that are taken off were worth. -/
theorem numeral_eq_keptDigits_add (ds : List ℕ) : numeral ds =
    numeral (keptDigits ds) + numeral ((ds.take 16).drop (kept ds)) * 16 ^ (ds.length - 16) := by
  have hsum := kept_add_dropped ds
  have hsplit : ds = ds.take (kept ds) ++ ((ds.take 16).drop (kept ds) ++ ds.drop 16) := by
    rw [← List.append_assoc, ← take_kept_append, List.take_append_drop]
  have hnumeral := congrArg numeral hsplit
  rw [numeral_append, numeral_append, List.length_append, length_dropped, List.length_drop,
    show dropped ds + (ds.length - 16) = ds.length - kept ds by omega] at hnumeral
  rw [numeral_keptDigits]
  omega

/-- Two numbers of as many digits are not made equal by powers of two that are far apart. -/
theorem mul_zpow_ne {len m n : ℕ} {a b : ℤ} (hm : 16 ^ len ≤ m) (hn : n < 16 ^ (len + 1))
    (hab : b + 4 ≤ a) : (n : ℚ) * 2 ^ b < m * 2 ^ a := by
  have hpow : (0 : ℚ) < 2 ^ b := zpow_pos two_pos b
  have hm' : (16 : ℚ) ^ len ≤ m := by exact_mod_cast hm
  have hn' : (n : ℚ) < 16 ^ (len + 1) := by exact_mod_cast hn
  have hstep : (2 : ℚ) ^ (b + 4) = 16 * 2 ^ b := by
    rw [zpow_add₀ two_ne_zero, mul_comm]
    norm_num
  calc (n : ℚ) * 2 ^ b < 16 ^ (len + 1) * 2 ^ b := mul_lt_mul_of_pos_right hn' hpow
    _ = 16 ^ len * 2 ^ (b + 4) := by rw [hstep]; ring
    _ ≤ m * 2 ^ (b + 4) := mul_le_mul_of_nonneg_right hm' (zpow_pos two_pos _).le
    _ ≤ m * 2 ^ a :=
      mul_le_mul_of_nonneg_left (zpow_le_zpow_right₀ one_le_two hab) (Nat.cast_nonneg m)

/-- A literal is read as it is written exactly if it is read well. -/
theorem HexFloat.readValue_eq_iff {l : HexFloat} (hdigits : ∀ d ∈ l.digits, d < 16)
    (hexponent : ∀ d ∈ l.exponent, d < 10) : l.readValue = l.value ↔ l.ReadWell := by
  rw [readValue, value, ReadWell, ← numeral_significant l.digits, ← numeral_eq_zero_iff,
    ← numeral_eq_zero_iff, ← numeral_significant l.digits]
  have hsig : ∀ d ∈ significant l.digits, d < 16 :=
    fun d hd => hdigits d (mem_of_mem_significant hd)
  have hadd := numeral_eq_keptDigits_add (significant l.digits)
  cases hds : significant l.digits with
  | nil =>
    have hzero : numeral (keptDigits []) = 0 := by decide
    refine iff_of_true ?_ (Or.inl rfl)
    rw [hzero, show numeral [] = 0 from rfl, Nat.cast_zero, zero_mul, zero_mul]
  | cons d rest =>
    rw [hds] at hsig hadd
    have hd := significant_head hds
    have hlo := le_numeral_cons hd rest
    have hhi := numeral_lt hsig
    have hkept : 16 ^ rest.length ≤ numeral (keptDigits (d :: rest)) := by
      obtain ⟨k, hk⟩ := Nat.exists_eq_add_of_le' (kept_pos hd rest)
      have hcons : keptDigits (d :: rest) = d :: (keptDigits (d :: rest)).tail := by
        rw [keptDigits, hk, List.take_succ_cons]
        rfl
      have hlen := length_keptDigits (d :: rest)
      rw [hcons, List.length_cons, List.length_cons, Nat.succ_inj] at hlen
      rw [hcons, ← hlen]
      exact le_numeral_cons hd _
    have hpos := Nat.pow_pos (n := rest.length) (show 0 < 16 by decide)
    have hpos' := Nat.pow_pos (n := (d :: rest).length - 16) (show 0 < 16 by decide)
    rw [List.length_cons] at hhi
    rw [or_iff_right (show numeral (d :: rest) ≠ 0 by omega)]
    generalize hmid : numeral (((d :: rest).take 16).drop (kept (d :: rest))) = mid at *
    generalize hread : numeral (keptDigits (d :: rest)) = read at *
    generalize numeral (d :: rest) = written at *
    have hle : read ≤ written := by omega
    have hdiff : read = written ↔ mid = 0 := by
      constructor
      · intro heq
        by_contra hmid
        have := Nat.mul_pos (Nat.pos_of_ne_zero hmid) hpos'
        omega
      · rintro rfl
        omega
    obtain ⟨hlt, heq⟩ | ⟨hcap, hlost⟩ := cappedExponent_cases hexponent
    · rw [heq, and_iff_left hlt, ← hdiff]
      constructor
      · intro h
        have := mul_right_cancel₀ (zpow_pos two_pos _).ne' h
        exact_mod_cast this
      · rintro rfl
        rfl
    · refine iff_of_false ?_ fun h => by omega
      rw [exponentOf, exponentOf]
      split
      · exact (mul_zpow_ne hkept hhi (by omega)).ne'
      · exact (mul_zpow_ne hlo (hle.trans_lt hhi) (by omega)).ne

/-! ### The conversions -/

/-- What a conversion of `x` under a sign has to return, with its error. -/
def FloatInfo.ConvertsTo (info : FloatInfo) (neg : Bool) (x : ℚ) (value : ℕ)
    (err : TexFloatConversionError) : Prop :=
  ∃ overflow : Bool, info.Converts neg x (value, overflow) ∧
    err = if overflow then .numberToLarge else .none

/-- The magnitude that is rounded to leaves the bit of the sign clear. -/
theorem roundsTo_lt {info : FloatInfo} {x : ℚ} {bits : ℕ} {overflow : Bool}
    (h : info.format.RoundsTo x bits overflow) : bits < info.signBit := by
  obtain ⟨b, -, hover, rfl⟩ := h
  have hpos := Nat.two_pow_pos info.expbits
  have hinf : (2 ^ info.expbits - 1) * 2 ^ info.mantbits + 0 < info.signBit :=
    fields_lt (by omega) (Nat.two_pow_pos _)
  change info.format.infinity < info.signBit at hinf
  cases overflow with
  | true => exact hinf
  | false =>
    have hle : ¬(info.format.value info.format.largest : ℚ) < info.format.value b :=
      fun hlt => by cases hover.mpr hlt
    rw [info.format.value_strictMono.lt_iff_lt, not_lt, Format.largest] at hle
    simp only [Bool.false_eq_true, if_false]
    omega

/-- The sign is applied to the bits of the magnitude. -/
theorem FloatInfo.Converts.withSign {info : FloatInfo} {x : ℚ} {result : ℕ × Bool}
    (h : info.Converts false x result) (neg : Bool) :
    info.Converts neg x (if neg then result.1 ^^^ info.signBit else result.1, result.2) := by
  obtain ⟨bits, hround, hbits⟩ := h
  have hlt := roundsTo_lt hround
  rw [FloatInfo.signed, if_neg Bool.false_ne_true, Nat.zero_add] at hbits
  refine ⟨bits, hround, ?_⟩
  rw [hbits]
  cases neg with
  | false =>
    rw [FloatInfo.signed, if_neg Bool.false_ne_true, if_neg Bool.false_ne_true, Nat.zero_add]
  | true =>
    rw [FloatInfo.signBit] at hlt
    rw [FloatInfo.signed, if_pos rfl, if_pos rfl, FloatInfo.signBit, xor_two_pow hlt]

theorem IsHexFloat.digits_lt {l : HexFloat} {s : List UInt8} (h : IsHexFloat l s) :
    ∀ d ∈ l.digits, d < 16 := by
  obtain ⟨-, hn, hf, -, -, -⟩ := h
  refine List.forall_mem_append.mpr ⟨digitsOf_lt hn, ?_⟩
  obtain rfl | ⟨⟩ | hn' := hf
  · exact fun d hd => (List.not_mem_nil hd).elim
  · exact fun d hd => (List.not_mem_nil hd).elim
  · exact digitsOf_lt hn'

theorem IsHexFloat.exponent_lt {l : HexFloat} {s : List UInt8} (h : IsHexFloat l s) :
    ∀ d ∈ l.exponent, d < 10 := by
  obtain ⟨-, -, -, -, -, he⟩ := h
  have hall : ∀ {d : UInt8}, texTokIsDigit d.toNat 10 → digitValue d < 10 := by
    intro d hd
    obtain ⟨-, -, hdec | ⟨-, hbase, -⟩⟩ := digit_cases (Or.inl rfl) hd
    · have hle : d.toNat ≤ '9'.toNat := hdec.2
      rw [digitValue, if_pos hle]
      simp only [Char.reduceToNat] at hle ⊢
      omega
    · cases hbase
  clear * - he hall
  induction he with
  | digit hd =>
    rw [digitsOf_digit (Or.inl rfl) hd]
    exact List.forall_mem_singleton.mpr (hall hd)
  | cons hd _ ih =>
    rw [digitsOf_digit (Or.inl rfl) hd]
    exact List.forall_mem_cons.mpr ⟨hall hd, ih⟩
  | underscore hd _ ih =>
    rw [digitsOf_digit (Or.inl rfl) hd, digitsOf_underscore]
    exact List.forall_mem_cons.mpr ⟨hall hd, ih⟩

/-- A text with a minus starts with it. -/
theorem head_minus_iff {sign : List UInt8} (hsign : IsSign sign) (n : List UInt8) :
    (sign ++ (ascii "0x" ++ n)).head? = some (byteOf '-') ↔ sign = [byteOf '-'] := by
  obtain rfl | rfl | rfl := hsign
  · exact iff_of_false (by simp [ascii]; decide) (by simp)
  · exact iff_of_false (by simp; decide) (by decide)
  · exact iff_of_true rfl rfl

/-- A literal is rounded from what is read for it, under its sign. -/
theorem IsHexFloat.texParseFloat (decimals : Decimals) {info : FloatInfo}
    (hmant : 1 ≤ info.mantbits) (hmant' : info.mantbits ≤ 56) (hexpbits : 1 ≤ info.expbits)
    {l : HexFloat} {s : List UInt8} (h : IsHexFloat l s) :
    ∃ result, texParseFloat decimals info s = .returned result ∧
      info.Converts l.neg l.readValue result := by
  have hlt := h.digits_lt
  obtain ⟨hsign, hn, hf, hmarker, hexponent, he⟩ := h
  rename_i sign n f marker exponentSign e
  obtain ⟨hlower, hstop⟩ := marker_cases (Or.inr rfl : 16 = 10 ∨ 16 = 16) hmarker
  obtain ⟨st, hscan, hsaw, hscanned, hdot⟩ :=
    scanned_literal hn hf (marker :: (exponentSign ++ e))
  rw [hstop] at hscan
  have hparse := parseComponents_eq (handsOver_hex hsign _).1.symm
    (startsHex_literalOf true hn fun h => by cases h)
    ((firstScan_literalOf true _).trans hscan)
  rw [hscanned.finishComponents hlt hsaw (fun h => by rw [hdot h]; rfl) hlower
    (parseExponent_eq hexponent he)] at hparse
  simp only [head_minus_iff hsign] at hparse
  have hround := parseHex_keptDigits hmant hmant' hexpbits
    (fun d hd => hlt d (mem_of_mem_significant hd)) (fun _ _ => significant_head)
    (HexFloat.exponentOf ⟨sign = [byteOf '-'], digitsOf n, digitsOf f.tail,
      exponentSign = [byteOf '-'], digitsOf e⟩ (cappedExponent (digitsOf e))) hscanned.trunc
    (sign = [byteOf '-'])
  refine ⟨_, ?_, hround⟩
  rw [Wasim.texParseFloat, hparse, Outcome.returned_bind]
  simp only [HexFloat.exponentOf, decide_eq_true_eq]
  rw [if_neg (not_not.mpr rfl), if_pos trivial]
  rfl

/-- A whole literal, with its sign applied behind the conversion of its magnitude. -/
theorem IsHexFloat.fromString (decimals : Decimals) {l : HexFloat} {s : List UInt8}
    (h : IsHexFloat l s) (width : FloatWidth) (hmant : 1 ≤ width.info.mantbits)
    (hmant' : width.info.mantbits ≤ 56) (hexpbits : 1 ≤ width.info.expbits) :
    ∃ value err, width.fromString decimals s = .returned (value, err) ∧
      width.info.ConvertsTo l.neg l.readValue value err := by
  obtain ⟨hsign, hn, hf, hmarker, hexponent, he⟩ := h
  rename_i sign n f marker exponentSign e
  have hmagnitude := IsHexFloat.intro (Or.inl rfl : IsSign []) hn hf hmarker hexponent he
  obtain ⟨result, hresult, hconverts⟩ :=
    hmagnitude.texParseFloat decimals hmant hmant' hexpbits
  have hover := handsOver_hex hsign (n ++ (f ++ marker :: (exponentSign ++ e)))
  rw [List.nil_append] at hresult
  refine ⟨_, _, ?_, result.2, FloatInfo.Converts.withSign hconverts _, rfl⟩
  rw [hover.fromString (by simp [ascii]), hresult, Outcome.returned_bind]
  simp only [head_minus_iff hsign, decide_eq_true_eq]
  rfl

/-- The float literals with `0x` behind their sign. -/
theorem isHexFloat_iff (s : List UInt8) :
    (texTokReadNumberLike s = .float ∧ startsWith (readSign s).2 (ascii "0x")) ↔
      ∃ l, IsHexFloat l s := by
  constructor
  · rintro ⟨hkind, hhex⟩
    obtain ⟨sign, m, hsign, hm, rfl⟩ := texTokReadNumberLike_float hkind
    rw [readSign_append hsign (not_sign_of_head hm.head)] at hhex
    dsimp only at hhex
    have hdecimal : ∀ {n rest : List UInt8}, Num 10 n → (∀ c s, rest = c :: s → c ≠ byteOf 'x') →
        ¬startsWith (n ++ rest) (ascii "0x") = true := fun hn hrest => by
      rw [hn.not_startsWith_hex fun s hs => hrest _ s hs rfl]
      exact Bool.false_ne_true
    have hexponent : ∀ {e s : List UInt8} {c : UInt8}, IsExponent 'e' 'E' e → e = c :: s →
        c ≠ byteOf 'x' := by
      rintro e s c ⟨hmarker, -, -⟩ h
      obtain ⟨rfl, -⟩ := List.cons.inj h
      obtain rfl | rfl := hmarker <;> decide
    have hfraction : ∀ {f t s : List UInt8} {c : UInt8}, IsFraction 10 f → f ++ t = c :: s →
        c ≠ byteOf 'x' := by
      rintro f t s c (_ | _) h
      all_goals
        obtain ⟨rfl, -⟩ := List.cons.inj h
        decide
    rcases hm with _ | _ | hn | ⟨hn, hf⟩ | ⟨hn, he⟩ | ⟨hn, hf, he⟩ | ⟨hn, he⟩ | ⟨hn, hf, he⟩
    · exact absurd hhex (by decide)
    · exact absurd hhex (by decide)
    · rw [startsWith_iff] at hhex
      obtain ⟨rest, hrest⟩ := hhex
      exact absurd (List.cons.inj hrest).1 (by decide)
    · exact absurd hhex (hdecimal hn fun c s h => hfraction (t := []) hf (by rwa [List.append_nil]))
    · exact absurd hhex (hdecimal hn fun c s h => hexponent he h)
    · exact absurd hhex (hdecimal hn fun c s h => hfraction hf h)
    · obtain ⟨hmarker, hexponent, he⟩ := he
      exact ⟨_, .intro hsign hn (Or.inl rfl) hmarker hexponent he⟩
    · obtain ⟨hmarker, hexponent, he⟩ := he
      exact ⟨_, .intro hsign hn (Or.inr hf) hmarker hexponent he⟩
  · rintro ⟨l, h⟩
    obtain ⟨hsign, hn, hf, hmarker, hexponent, he⟩ := h
    rename_i sign n f marker exponentSign e
    have hmagnitude : IsMagnitude (ascii "0x" ++ (n ++ (f ++ marker :: (exponentSign ++ e)))) := by
      obtain rfl | hf := hf
      · exact .hexExponent hn ⟨hmarker, hexponent, he⟩
      · exact .hexPointExponent hn hf ⟨hmarker, hexponent, he⟩
    refine ⟨hmagnitude.texTokReadNumberLike hsign, ?_⟩
    rw [readSign_append hsign (not_sign_of_head hmagnitude.head)]
    exact startsWith_iff.mpr ⟨_, rfl⟩

/-- **Hexadecimal literals.** The float literals with `0x` behind their sign are converted to the
floats that are nearest to the magnitude that is read for them, or to the error that it is too
large. What is read is what is written exactly if the literal is zero, or no letter among the
first sixteen significant digits stands behind a significant zero that no digit from 1 to 9
follows, and its exponent is below a million. -/
theorem texFloatFromString_hex (decimals : Decimals) {s : List UInt8} :
    ((texTokReadNumberLike s = .float ∧ startsWith (readSign s).2 (ascii "0x")) ↔
      ∃ l, IsHexFloat l s) ∧
    ∀ {l : HexFloat}, IsHexFloat l s →
      (∃ value err, texF32FromString decimals s = .returned (value, err) ∧
        f32Info.ConvertsTo l.neg l.readValue value err) ∧
      (∃ value err, texF64FromString decimals s = .returned (value, err) ∧
        f64Info.ConvertsTo l.neg l.readValue value err) ∧
      (l.readValue = l.value ↔ l.ReadWell) :=
  ⟨isHexFloat_iff s, fun h =>
    ⟨h.fromString decimals f32Width (by decide) (by decide) (by decide),
      h.fromString decimals f64Width (by decide) (by decide) (by decide),
      HexFloat.readValue_eq_iff h.digits_lt h.exponent_lt⟩⟩

/-- The letter of 266 is taken off with the zero in front of it: the literal is read as 256. -/
theorem texFloatFromString_hex_266 :
    ∃ value err, texF32FromString (fun _ _ => none) (ascii "0x10Ap0") = .returned (value, err) ∧
      f32Info.ConvertsTo false 256 value err := by
  have hnum : ∀ {base : ℕ} {n : List UInt8}, readDigits base n = (true, []) → Num base n :=
    fun h => num_of_readDigits_nil (by rw [h]) (by rw [h])
  have hliteral := @IsHexFloat.intro [] (ascii "10A") [] (byteOf 'p') [] (ascii "0") (Or.inl rfl)
    (hnum (by decide +kernel)) (Or.inl rfl) (Or.inl rfl) (Or.inl rfl) (hnum (by decide +kernel))
  obtain ⟨value, err, hvalue, hconverts⟩ :=
    ((texFloatFromString_hex (fun _ _ => none)).2 hliteral).1
  have hdigits : numeral (keptDigits (significant (digitsOf (ascii "10A") ++ []))) = 256 := by
    decide +kernel
  have hexponent : (if decide (([] : List UInt8) = [byteOf '-']) = true then
      -(cappedExponent (digitsOf (ascii "0")) : ℤ) else cappedExponent (digitsOf (ascii "0"))) -
        4 * (digitsOf (List.tail [])).length = 0 := by decide +kernel
  rw [HexFloat.readValue, HexFloat.digits, HexFloat.exponentOf, hexponent, zpow_zero, mul_one,
    List.tail_nil, show digitsOf [] = [] from rfl, hdigits] at hconverts
  exact ⟨value, err, hvalue, hconverts⟩

end Wasim
