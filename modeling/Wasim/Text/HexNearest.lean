import Wasim.Text.HexLiterals

/-!
# When hexadecimal literals are nearest

`tex_parse_f32` and `tex_parse_f64` round a literal of which some letters and the end of a long
exponent are lost. They return the float that is nearest to the literal exactly if that makes no
difference for the rounding (`texParseFloat_nearest_iff`).
-/

namespace Wasim

open BinaryFloat

/-! ### The literal with what is lost -/

/-- A literal with zeroes for the letters among its first sixteen significant digits that stand
behind a significant zero which no digit from 1 to 9 follows, and with the first six significant
digits of its exponent. -/
def HexFloat.curtailed (l : HexFloat) : HexFloat :=
  let digits := l.digits.takeWhile (· = 0) ++ keptDigits (significant l.digits)
  { l with
    whole := digits.take l.whole.length
    fraction := digits.drop l.whole.length
    exponent := (significant l.exponent).take 6 }

/-- It takes six significant digits to reach the cap of the exponent. -/
theorem ofDigits_take_lt_iff {head : ℕ} {rest : List ℕ} (hhead : head ≠ 0)
    (hds : ∀ d ∈ head :: rest, d < 10) :
    Nat.ofDigits 10 ((head :: rest).take 6).reverse < 100000 ↔ (head :: rest).length < 6 := by
  rw [List.length_cons]
  constructor
  · intro hlt
    by_contra hlen
    have hrest : (rest.take 5).reverse.length = 5 := by
      rw [List.length_reverse, List.length_take]
      omega
    rw [List.take_succ_cons, List.reverse_cons, Nat.ofDigits_append, hrest,
      Nat.ofDigits_singleton] at hlt
    omega
  · intro hlen
    have hbound := Nat.ofDigits_lt_base_pow_length (b := 10) (l := (head :: rest).reverse)
      (by decide) fun d hd => hds d (List.mem_reverse.mp hd)
    rw [List.length_reverse, List.length_cons] at hbound
    rw [List.take_of_length_le (by rw [List.length_cons]; omega)]
    exact hbound.trans_le (Nat.pow_le_pow_right (by decide) (by omega) : 10 ^ _ ≤ 10 ^ 5)

/-- An exponent is cut behind its sixth significant digit. -/
theorem cappedExponent_eq {ds : List ℕ} (hds : ∀ d ∈ ds, d < 10) :
    cappedExponent ds = Nat.ofDigits 10 ((significant ds).take 6).reverse := by
  induction ds using List.reverseRecOn with
  | nil => rfl
  | append_singleton ds d ih =>
    obtain ⟨hds, -⟩ := List.forall_mem_append.mp hds
    have hcapped : cappedExponent (ds ++ [d]) = extendExponent (cappedExponent ds) d := by
      rw [cappedExponent, List.foldl_append]
      rfl
    rw [hcapped, ih hds, extendExponent, significant_snoc]
    cases hcons : significant ds with
    | nil => by_cases hd : d = 0 <;> simp [hd]
    | cons head rest =>
      have hkeep : ¬(head :: rest = [] ∧ d = 0) := fun h => by cases h.1
      have hcap := ofDigits_take_lt_iff (significant_head hcons) fun d hd =>
        hds d (mem_of_mem_significant (hcons ▸ hd))
      rw [if_neg hkeep]
      by_cases hlen : (head :: rest).length < 6
      · have hlen' : (head :: rest ++ [d]).length ≤ 6 := by
          rw [List.length_append, List.length_singleton]
          omega
        rw [if_pos (hcap.mpr hlen), List.take_of_length_le hlen.le,
          List.take_of_length_le hlen', List.reverse_append, List.reverse_singleton,
          List.singleton_append, Nat.ofDigits_cons]
        omega
      · rw [if_neg (mt hcap.mp hlen), List.take_append_of_le_length (not_lt.mp hlen)]

/-- What is read for a literal is the magnitude of the curtailed one. -/
theorem HexFloat.value_curtailed {l : HexFloat} (hexponent : ∀ d ∈ l.exponent, d < 10) :
    l.curtailed.value = l.readValue := by
  have hzero : numeral (l.digits.takeWhile (· = 0)) = 0 := numeral_eq_zero_iff.mpr fun d hd => by
    simpa using List.mem_takeWhile_imp hd
  have hsplit : l.digits.takeWhile (· = 0) ++ significant l.digits = l.digits :=
    List.takeWhile_append_dropWhile
  have hlen := congrArg List.length hsplit
  rw [List.length_append, digits, List.length_append] at hlen
  have hfraction : l.curtailed.fraction.length = l.fraction.length := by
    rw [curtailed, List.length_drop, List.length_append, length_keptDigits, digits]
    omega
  have hdigits : l.curtailed.digits =
      l.digits.takeWhile (· = 0) ++ keptDigits (significant l.digits) :=
    List.take_append_drop _ _
  rw [value, readValue, exponentOf, exponentOf, hfraction, hdigits, numeral_append, hzero,
    Nat.zero_mul, Nat.zero_add, cappedExponent_eq hexponent]
  rfl

/-! ### The conversions -/

/-- Two magnitudes that are rounded to one float, or are both too large. -/
def FloatInfo.RoundAlike (info : FloatInfo) (x y : ℚ) : Prop :=
  ∃ bits overflow, info.format.RoundsTo x bits overflow ∧ info.format.RoundsTo y bits overflow

/-- What is returned for one magnitude is right for another one exactly if they round alike. -/
theorem FloatInfo.Converts.iff_roundAlike {info : FloatInfo} {neg : Bool} {x y : ℚ}
    {result : ℕ × Bool} (h : info.Converts neg y result) :
    info.Converts neg x result ↔ info.RoundAlike x y := by
  obtain ⟨bits, hround, hbits⟩ := h
  constructor
  · rintro ⟨bits', hround', hbits'⟩
    have heq : bits' = bits := Nat.add_left_cancel (hbits'.symm.trans hbits)
    exact ⟨bits, result.2, heq ▸ hround', hround⟩
  · rintro ⟨bits', overflow, hx, hy⟩
    obtain ⟨rfl, rfl⟩ := hround.unique hy
    exact ⟨bits, hx, hbits⟩

/-- Digits with the exponent zero. -/
theorem isHexFloat_whole {n : List UInt8} (hn : Num 16 n) :
    IsHexFloat ⟨false, digitsOf n, [], false, [0]⟩ (ascii "0x" ++ (n ++ ascii "p0")) :=
  .intro (f := []) (Or.inl rfl) hn (Or.inl rfl) (Or.inl rfl) (Or.inl rfl)
    (num_of_readDigits_nil (s := ascii "0") (by decide) (by decide))

theorem HexFloat.value_whole (ds : List ℕ) : value ⟨false, ds, [], false, [0]⟩ = numeral ds := by
  simp [value, exponentOf, digits]

theorem HexFloat.readValue_whole (ds : List ℕ) :
    readValue ⟨false, ds, [], false, [0]⟩ = numeral (keptDigits (significant ds)) := by
  simp [readValue, exponentOf, digits, cappedExponent, extendExponent]

/-- **Hexadecimal literals, to the nearest float.** Every float literal with `0x` behind its sign
is converted, and to the float that is nearest to it, or to the infinity that reports that it is
too large, exactly if it rounds like the literal without the letters and the end of the exponent
that are lost. Where neither is lost, it is. -/
theorem texParseFloat_nearest_iff (decimals : Decimals) {s : List UInt8} :
    ((texTokReadNumberLike s = .float ∧ startsWith (readSign s).2 (ascii "0x")) ↔
      ∃ l, IsHexFloat l s) ∧
    ∀ {l : HexFloat}, IsHexFloat l s →
      (∃ result, texParseF32 decimals s = .returned result ∧
        (f32Info.Converts l.neg l.value result ↔
          f32Info.RoundAlike l.value l.curtailed.value) ∧
        (l.ReadWell → f32Info.Converts l.neg l.value result)) ∧
      (∃ result, texParseF64 decimals s = .returned result ∧
        (f64Info.Converts l.neg l.value result ↔
          f64Info.RoundAlike l.value l.curtailed.value) ∧
        (l.ReadWell → f64Info.Converts l.neg l.value result)) := by
  have hparse : ∀ {info : FloatInfo} {l : HexFloat}, 1 ≤ info.mantbits → info.mantbits ≤ 56 →
      1 ≤ info.expbits → IsHexFloat l s →
      ∃ result, texParseFloat decimals info s = .returned result ∧
        (info.Converts l.neg l.value result ↔ info.RoundAlike l.value l.curtailed.value) ∧
        (l.ReadWell → info.Converts l.neg l.value result) := by
    intro info l hmant hmant' hexpbits h
    obtain ⟨result, hresult, hconverts⟩ := h.texParseFloat decimals hmant hmant' hexpbits
    refine ⟨result, hresult, ?_, fun hwell => ?_⟩
    · rw [HexFloat.value_curtailed h.exponent_lt]
      exact hconverts.iff_roundAlike
    · rwa [(HexFloat.readValue_eq_iff h.digits_lt h.exponent_lt).mpr hwell] at hconverts
  exact ⟨isHexFloat_iff s, fun h =>
    ⟨hparse (by decide) (by decide) (by decide) h, hparse (by decide) (by decide) (by decide) h⟩⟩

/-- A lost letter too small to matter, and a literal of which nothing is lost. -/
theorem texParseFloat_nearest_iff_alike :
    (∃ result, texParseF32 (fun _ _ => none) (ascii "0x1000000Ap0") = .returned result ∧
      f32Info.Converts false (268435466 : ℚ) result) ∧
    (∃ result, texParseF64 (fun _ _ => none) (ascii "-0x1_A.8p-1") = .returned result ∧
      f64Info.Converts true (53 / 4 : ℚ) result) := by
  constructor
  · have hnum : Num 16 (ascii "1000000A") :=
      num_of_readDigits_nil (by decide +kernel) (by decide +kernel)
    have hliteral : IsHexFloat _ (ascii "0x1000000Ap0") := isHexFloat_whole hnum
    obtain ⟨result, hresult, hiff, -⟩ :=
      ((texParseFloat_nearest_iff (fun _ _ => none)).2 hliteral).1
    rw [HexFloat.value_curtailed hliteral.exponent_lt, HexFloat.value_whole,
      HexFloat.readValue_whole] at hiff
    have hdigits : digitsOf (ascii "1000000A") = [1, 0, 0, 0, 0, 0, 0, 10] := by decide +kernel
    have hwritten : numeral [1, 0, 0, 0, 0, 0, 0, 10] = 268435466 := by
      norm_num [numeral, Nat.ofDigits_cons]
    have hread : numeral (keptDigits (significant [1, 0, 0, 0, 0, 0, 0, 10])) = 268435456 := by
      rw [show keptDigits (significant [1, 0, 0, 0, 0, 0, 0, 10]) = [1, 0, 0, 0, 0, 0, 0, 0] by
        decide]
      norm_num [numeral, Nat.ofDigits_cons]
    rw [hdigits, hwritten, hread] at hiff
    push_cast at hiff
    refine ⟨result, hresult, hiff.mpr ⟨0x4D800000, false, ?_, ?_⟩⟩
    · exact Format.roundsTo_of_between (by decide) (by decide)
        (by norm_num [Format.value, FloatInfo.format, f32Info])
        (by norm_num [Format.value, FloatInfo.format, f32Info])
    · exact Format.roundsTo_of_between (by decide) (by decide)
        (by norm_num [Format.value, FloatInfo.format, f32Info])
        (by norm_num [Format.value, FloatInfo.format, f32Info])
  · have hnum : ∀ {base : ℕ} {n : List UInt8}, readDigits base n = (true, []) → Num base n :=
      fun h => num_of_readDigits_nil (by rw [h]) (by rw [h])
    have hliteral : IsHexFloat _ (ascii "-0x1_A.8p-1") :=
      @IsHexFloat.intro [byteOf '-'] (ascii "1_A") (ascii ".8") (byteOf 'p') [byteOf '-']
        (ascii "1") (Or.inr (Or.inr rfl)) (hnum (by decide))
        (Or.inr (.digits (hnum (by decide)))) (Or.inl rfl) (Or.inr (Or.inr rfl)) (hnum (by decide))
    obtain ⟨result, hresult, -, hwell⟩ :=
      ((texParseFloat_nearest_iff (fun _ _ => none)).2 hliteral).2
    have hdigits : digitsOf (ascii "1_A") = [1, 10] := by decide
    have hfraction : digitsOf (ascii ".8").tail = [8] := by decide
    have hexponent : digitsOf (ascii "1") = [1] := by decide
    rw [hdigits, hfraction, hexponent] at hwell
    have hvalue : HexFloat.value ⟨true, [1, 10], [8], true, [1]⟩ = 53 / 4 := by
      rw [HexFloat.value, HexFloat.exponentOf, HexFloat.digits,
        show numeral ([1, 10] ++ [8]) = 424 by decide]
      norm_num
    refine ⟨result, hresult, ?_⟩
    rw [← hvalue]
    exact hwell (Or.inr (by decide))

/-- The letter of 266 is taken off with the zero in front of it: the literal is read as 256. -/
theorem texParseF32_loses_letter :
    (texTokReadNumberLike (ascii "0x10Ap0") = .float ∧
      startsWith (readSign (ascii "0x10Ap0")).2 (ascii "0x")) ∧
    (∃ l, IsHexFloat l (ascii "0x10Ap0") ∧ l.neg = false ∧ l.value = 266) ∧
    texParseF32 (fun _ _ => none) (ascii "0x10Ap0") = .returned (0x43800000, false) ∧
    f32Info.Converts false (266 : ℚ) (0x43850000, false) ∧
    ¬f32Info.Converts false (266 : ℚ) (0x43800000, false) := by
  have hnum : Num 16 (ascii "10A") := num_of_readDigits_nil (by decide) (by decide)
  have hliteral : IsHexFloat _ (ascii "0x10Ap0") := isHexFloat_whole hnum
  have hdigits : digitsOf (ascii "10A") = [1, 0, 10] := by decide
  rw [hdigits] at hliteral
  have hvalue : HexFloat.value ⟨false, [1, 0, 10], [], false, [0]⟩ = 266 := by
    rw [HexFloat.value_whole, show numeral [1, 0, 10] = 266 by decide]
    rfl
  have hread : HexFloat.readValue ⟨false, [1, 0, 10], [], false, [0]⟩ = 256 := by
    rw [HexFloat.readValue_whole,
      show numeral (keptDigits (significant [1, 0, 10])) = 256 by decide]
    rfl
  have hwrong : f32Info.Converts false (256 : ℚ) (0x43800000, false) :=
    ⟨_, Format.roundsTo_of_between (b := 0x43800000) (by decide) (by decide)
      (by norm_num [Format.value, FloatInfo.format, f32Info])
      (by norm_num [Format.value, FloatInfo.format, f32Info]), rfl⟩
  have hright : f32Info.Converts false (266 : ℚ) (0x43850000, false) :=
    ⟨_, Format.roundsTo_of_between (b := 0x43850000) (by decide) (by decide)
      (by norm_num [Format.value, FloatInfo.format, f32Info])
      (by norm_num [Format.value, FloatInfo.format, f32Info]), rfl⟩
  obtain ⟨result, hresult, hconverts⟩ : ∃ result,
      texParseF32 (fun _ _ => none) (ascii "0x10Ap0") = .returned result ∧
        f32Info.Converts false (256 : ℚ) result := by
    rw [← hread]
    exact hliteral.texParseFloat _ (by decide) (by decide) (by decide)
  obtain rfl := hconverts.unique hwrong
  refine ⟨(isHexFloat_iff _).mpr ⟨_, hliteral⟩, ⟨_, hliteral, rfl, hvalue⟩, hresult, hright, ?_⟩
  intro h
  exact absurd (h.unique hright) (by decide)

end Wasim
