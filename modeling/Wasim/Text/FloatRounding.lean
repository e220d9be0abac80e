import Mathlib.Data.Real.Basic
import Wasim.Library.Rounding
import Wasim.Text.Floats

/-!
# The rounding of hexadecimal literals

`parse_hex` narrows a significand of 64 bits to the ones of the float and two more, the last of
them sticky, denormalises it where the exponent is too small, and rounds it. The significand and
its exponent stand for the number all the way (`Sticky`), and what is put together at the end is
the nearest pattern of the format.
-/

namespace Wasim

open BinaryFloat

/-- The format with the data of a width. -/
def FloatInfo.format (info : FloatInfo) : Format where
  mantbits := info.mantbits
  expbits := info.expbits
  minExp := info.bias + 1

/-! ### Bits -/

theorem or_one_eq_setLast (m : ℕ) : m ||| 1 = setLast m := by
  have hodd : (m ||| 1) % 2 = 1 := Nat.or_mod_two_eq_one.mpr (Or.inr rfl)
  have hhalf : (m ||| 1) / 2 = m / 2 := by
    rw [Nat.or_div_two]
    exact Nat.or_zero _
  rw [setLast]
  split <;> omega

theorem shiftSticky_eq_jam (m : ℕ) : shiftSticky m = jam m := by
  rw [shiftSticky, Nat.shiftRight_eq_div_pow, Nat.and_one_is_mod, pow_one, jam]
  rcases Nat.mod_two_eq_zero_or_one m with heven | hodd
  · rw [heven, Nat.or_zero, if_neg (by omega)]
  · rw [hodd, or_one_eq_setLast, setLast]
    split <;> split <;> omega

/-- The two bits behind the significand, and its last bit, round it up exactly for three. -/
theorem round_eq_three_iff (m : ℕ) :
    ((m &&& 3) ||| (m / 4 &&& 1)) = 3 ↔ m % 4 = 3 ∨ m % 8 = 6 := by
  have hall : ∀ low < 4, ∀ last < 2, (low ||| last = 3 ↔ low = 3 ∨ low = 2 ∧ last = 1) := by
    decide
  rw [Nat.and_one_is_mod, Nat.and_two_pow_sub_one_eq_mod m 2,
    hall _ (Nat.mod_lt _ (by decide)) _ (Nat.mod_lt _ (by decide))]
  omega

theorem roundMantissa_eq {mantbits m : ℕ} (hm : m < 2 ^ (mantbits + 3)) (exp : ℤ) :
    roundMantissa mantbits m exp =
      if roundQuarter m = 2 ^ (mantbits + 1) then (2 ^ mantbits, exp + 3)
      else (roundQuarter m, exp + 2) := by
  have hpow₁ : 2 ^ (mantbits + 1) = 2 * 2 ^ mantbits := by ring
  have hpow₃ : 2 ^ (mantbits + 3) = 8 * 2 ^ mantbits := by ring
  have hquarter : m >>> 2 = m / 4 := Nat.shiftRight_eq_div_pow m 2
  have hcarry : 1 <<< (1 + mantbits) = 2 ^ (mantbits + 1) := by
    rw [Nat.one_shiftLeft, Nat.add_comm]
  rw [roundMantissa]
  simp only [hquarter, hcarry, round_eq_three_iff]
  by_cases hup : m % 4 = 3 ∨ m % 8 = 6
  · rw [if_pos hup, show roundQuarter m = m / 4 + 1 from if_pos hup]
    split
    · rename_i heq
      rw [heq, hpow₁, Nat.shiftRight_eq_div_pow, add_assoc]
      simp
    · rfl
  · rw [if_neg hup, show roundQuarter m = m / 4 from if_neg hup, if_neg (by omega)]

/-! ### The loops -/

section Loops

variable {K : Type*} [Field K] [LinearOrder K] [IsStrictOrderedRing K] {x : K} {mantbits m : ℕ}
  {exp : ℤ}

section

local instance twoAtLeastTwo : Nat.AtLeastTwo 2 := ⟨le_rfl⟩

/-- The value of the last bit of the significand, at the exponent of its first one. -/
def ulp (K : Type*) [Field K] (mantbits : ℕ) (exp : ℤ) : K := 2 ^ (exp - mantbits)

end

theorem ulp_pos (mantbits : ℕ) (exp : ℤ) : 0 < ulp K mantbits exp := zpow_pos two_pos _

theorem ulp_add_one (mantbits : ℕ) (exp : ℤ) :
    ulp K mantbits (exp + 1) = 2 * ulp K mantbits exp := by
  rw [ulp, ulp, add_sub_right_comm, zpow_add_one₀ two_ne_zero, mul_comm]

/-- The two shifts of the loops' conditions, as bounds. -/
theorem shiftRight_eq_zero_iff : m >>> (1 + mantbits + 2) = 0 ↔ m < 2 ^ (mantbits + 3) := by
  rw [Nat.shiftRight_eq_div_pow, Nat.div_eq_zero_iff_lt (Nat.two_pow_pos _),
    show 1 + mantbits + 2 = mantbits + 3 by omega]

/-- Widening is exact. -/
theorem widen_spec (mantbits m : ℕ) (exp : ℤ) :
    ((widen mantbits m exp).1 : K) * ulp K mantbits (widen mantbits m exp).2 =
        m * ulp K mantbits exp ∧
      ((widen mantbits m exp).1 = 0 ∨ 2 ^ (mantbits + 3) ≤ (widen mantbits m exp).1) := by
  induction m, exp using widen.induct mantbits with
  | case1 m exp h ih =>
    rw [widen, if_pos h]
    refine ⟨ih.1.trans ?_, ih.2⟩
    have hulp := ulp_add_one (K := K) mantbits (exp - 1)
    rw [sub_add_cancel] at hulp
    rw [hulp, Nat.shiftLeft_eq]
    push_cast
    ring
  | case2 m exp h =>
    rw [widen, if_neg h]
    rw [shiftRight_eq_zero_iff] at h
    exact ⟨rfl, by omega⟩

theorem widen_of_le (hm : 2 ^ (mantbits + 3) ≤ m) : widen mantbits m exp = (m, exp) := by
  rw [widen, if_neg]
  rw [shiftRight_eq_zero_iff]
  omega

theorem jam_bounds {k : ℕ} (hlo : 2 * k ≤ m) : k ≤ jam m := by
  rw [jam]
  split <;> omega

/-- Narrowing keeps what the significand stands for, and leaves it with two spare bits. -/
theorem narrow_spec (h : Sticky x (ulp K mantbits exp) m) (hm : m = 0 ∨ 2 ^ (mantbits + 2) ≤ m) :
    Sticky x (ulp K mantbits (narrow mantbits m exp).2) (narrow mantbits m exp).1 ∧
      (narrow mantbits m exp).1 < 2 ^ (mantbits + 3) ∧
      ((narrow mantbits m exp).1 = 0 ∨ 2 ^ (mantbits + 2) ≤ (narrow mantbits m exp).1) := by
  induction m, exp using narrow.induct mantbits with
  | case1 m exp hlarge ih =>
    rw [narrow, if_pos hlarge]
    rw [Ne, shiftRight_eq_zero_iff, not_lt] at hlarge
    have hpow : 2 ^ (mantbits + 3) = 2 * 2 ^ (mantbits + 2) := by ring
    rw [shiftSticky_eq_jam] at ih ⊢
    refine ih ?_ (Or.inr (jam_bounds (by omega)))
    rw [ulp_add_one]
    exact h.jam (ulp_pos mantbits exp)
  | case2 m exp hsmall =>
    rw [narrow, if_neg hsmall]
    exact ⟨h, shiftRight_eq_zero_iff.mp (not_not.mp hsmall), hm⟩

/-- Denormalising keeps what the significand stands for. It ends at the least exponent, unless
the exponent was not below it, or nothing but the sticky bit is left. -/
theorem denormalize_spec {minExp : ℤ} (h : Sticky x (ulp K mantbits exp) m)
    (hm : m < 2 ^ (mantbits + 3)) :
    Sticky x (ulp K mantbits (denormalize minExp m exp).2) (denormalize minExp m exp).1 ∧
      (denormalize minExp m exp).1 < 2 ^ (mantbits + 3) ∧
      ((denormalize minExp m exp).1 ≤ 1 ∧ (denormalize minExp m exp).2 < minExp - 2 ∨
        (denormalize minExp m exp).2 = minExp - 2 ∨
        minExp - 2 < exp ∧ denormalize minExp m exp = (m, exp)) := by
  induction m, exp using denormalize.induct minExp with
  | case1 m exp hlarge ih =>
    rw [denormalize, if_pos hlarge]
    have hlt := shiftSticky_lt hlarge.1
    obtain ⟨hsticky, hbound, hend⟩ := ih
      (by rw [ulp_add_one, shiftSticky_eq_jam]; exact h.jam (ulp_pos mantbits exp)) (by omega)
    exact ⟨hsticky, hbound, hend.imp_right fun h => Or.inl (h.resolve_right (by omega))⟩
  | case2 m exp hsmall =>
    rw [denormalize, if_neg hsmall]
    refine ⟨h, hm, ?_⟩
    rcases lt_trichotomy exp (minExp - 2) with hlt | heq | hgt
    · exact Or.inl ⟨by omega, hlt⟩
    · exact Or.inr (Or.inl heq)
    · exact Or.inr (Or.inr ⟨hgt, rfl⟩)

end Loops

/-! ### Putting the bits together -/

/-- The bits of a rounded significand, and whether the number is too large: the end of
`parse_hex`. -/
def hexBits (info : FloatInfo) (neg : Bool) (mantissa : ℕ) (exp : ℤ) : ℕ × Bool :=
  let maxExp : ℤ := 2 ^ info.expbits + info.bias - 2
  let exp := if mantissa >>> info.mantbits = 0 then info.bias else exp
  let overflow : Bool := maxExp < exp
  let mantissa := if overflow then 1 <<< info.mantbits else mantissa
  let exp := if overflow then maxExp + 1 else exp
  let biased := ((exp - info.bias) % 2 ^ info.expbits).toNat
  let bits := (mantissa &&& (1 <<< info.mantbits - 1)) ||| (biased <<< info.mantbits)
  (if neg then bits ||| info.signBit else bits, overflow)

/-- `parse_hex`, loop by loop. -/
theorem parseHex_eq (info : FloatInfo) (mantissa : ℕ) (exp : ℤ) (neg trunc : Bool) :
    parseHex info mantissa exp neg trunc =
      let wide := widen info.mantbits mantissa (exp + info.mantbits)
      let kept := narrow info.mantbits (if trunc then wide.1 ||| 1 else wide.1) wide.2
      let low := denormalize (info.bias + 1) kept.1 kept.2
      let rounded := roundMantissa info.mantbits low.1 low.2
      hexBits info neg rounded.1 rounded.2 := rfl

/-- The bits of a magnitude under a sign. -/
def FloatInfo.signed (info : FloatInfo) (neg : Bool) (bits : ℕ) : ℕ :=
  (if neg then info.signBit else 0) + bits

theorem fields_eq (mantbits mantissa biased : ℕ) :
    (mantissa &&& (1 <<< mantbits - 1)) ||| (biased <<< mantbits) =
      biased * 2 ^ mantbits + mantissa % 2 ^ mantbits := by
  rw [Nat.one_shiftLeft, Nat.and_two_pow_sub_one_eq_mod, Nat.or_comm,
    ← Nat.shiftLeft_add_eq_or_of_lt (Nat.mod_lt _ (Nat.two_pow_pos _)), Nat.shiftLeft_eq]

theorem fields_lt {info : FloatInfo} {biased fraction : ℕ} (hbiased : biased < 2 ^ info.expbits)
    (hfraction : fraction < 2 ^ info.mantbits) :
    biased * 2 ^ info.mantbits + fraction < info.signBit := by
  rw [FloatInfo.signBit, pow_add]
  calc biased * 2 ^ info.mantbits + fraction < (biased + 1) * 2 ^ info.mantbits := by
        rw [Nat.add_mul]
        omega
    _ ≤ 2 ^ info.expbits * 2 ^ info.mantbits := Nat.mul_le_mul_right _ hbiased
    _ = 2 ^ info.mantbits * 2 ^ info.expbits := Nat.mul_comm _ _

theorem or_signBit {info : FloatInfo} {bits : ℕ} (h : bits < info.signBit) (neg : Bool) :
    (if neg then bits ||| info.signBit else bits) = info.signed neg bits := by
  rw [FloatInfo.signed]
  cases neg with
  | false => simp
  | true =>
    have hadd := Nat.two_pow_add_eq_or_of_lt h 1
    rw [Nat.mul_one] at hadd
    rw [if_pos rfl, if_pos rfl, Nat.or_comm]
    exact hadd.symm

/-- The end of `parse_hex` with the biased exponent `biased`, that of subnormals included. -/
theorem hexBits_eq {info : FloatInfo} {mantissa biased : ℕ} {exp : ℤ}
    (hexpbits : 1 ≤ info.expbits)
    (hbiased : (if mantissa >>> info.mantbits = 0 then info.bias else exp) = info.bias + biased)
    (neg : Bool) :
    hexBits info neg mantissa exp =
      if 2 ^ info.expbits - 1 ≤ biased then (info.signed neg info.format.infinity, true)
      else
        (info.signed neg (biased * 2 ^ info.mantbits + mantissa % 2 ^ info.mantbits), false) := by
  have hpow : 2 ≤ 2 ^ info.expbits := by
    calc 2 = 2 ^ 1 := rfl
      _ ≤ 2 ^ info.expbits := Nat.pow_le_pow_right (by decide) hexpbits
  have hcast : ((2 ^ info.expbits : ℕ) : ℤ) = 2 ^ info.expbits := by push_cast; rfl
  have hmax : (2 ^ info.expbits + info.bias - 2 < info.bias + biased) ↔
      2 ^ info.expbits - 1 ≤ biased := by omega
  have hfield : ∀ n : ℕ, n < 2 ^ info.expbits →
      ((info.bias + n - info.bias) % 2 ^ info.expbits).toNat = n := by
    intro n hn
    rw [add_sub_cancel_left, ← hcast, ← Int.natCast_mod, Int.toNat_natCast, Nat.mod_eq_of_lt hn]
  rw [hexBits]
  simp only [hbiased, hmax, fields_eq, decide_eq_true_eq]
  by_cases hover : 2 ^ info.expbits - 1 ≤ biased
  · have hinf : (2 ^ info.expbits + info.bias - 2 + 1 : ℤ) =
        info.bias + (2 ^ info.expbits - 1 : ℕ) := by omega
    simp only [hover, if_true, decide_true]
    rw [hinf, hfield _ (by omega), Nat.one_shiftLeft, Nat.mod_self,
      or_signBit (fields_lt (by omega) (Nat.two_pow_pos _))]
    rfl
  · simp only [hover, if_false, decide_false]
    rw [hfield _ (by omega), or_signBit (fields_lt (by omega) (Nat.mod_lt _ (Nat.two_pow_pos _)))]

/-- The pattern that stands `n` units above the start of a binade, with the carry into the next
one. -/
theorem hexBits_pattern {info : FloatInfo} {n j : ℕ} {exp : ℤ} (hexpbits : 1 ≤ info.expbits)
    (hn : n ≤ 2 ^ (info.mantbits + 1)) (hj : j = 0 ∨ 2 ^ info.mantbits ≤ n)
    (hexp : exp + 2 = info.bias + 1 + j) (neg : Bool) {rounded : ℕ × ℤ}
    (hrounded : rounded =
      if n = 2 ^ (info.mantbits + 1) then (2 ^ info.mantbits, exp + 3) else (n, exp + 2)) :
    hexBits info neg rounded.1 rounded.2 =
      (info.signed neg (if info.format.infinity ≤ j * 2 ^ info.mantbits + n
          then info.format.infinity else j * 2 ^ info.mantbits + n),
        decide (info.format.infinity ≤ j * 2 ^ info.mantbits + n)) := by
  have hpos : 0 < 2 ^ info.mantbits := Nat.two_pow_pos _
  have hdouble : 2 ^ (info.mantbits + 1) = 2 * 2 ^ info.mantbits := by ring
  -- the fields of the pattern
  obtain ⟨biased, fraction, hpattern, hfraction, hmod, hbiased⟩ : ∃ biased fraction,
      j * 2 ^ info.mantbits + n = biased * 2 ^ info.mantbits + fraction ∧
      fraction < 2 ^ info.mantbits ∧ rounded.1 % 2 ^ info.mantbits = fraction ∧
      (if rounded.1 >>> info.mantbits = 0 then info.bias else rounded.2) = info.bias + biased := by
    simp only [Nat.shiftRight_eq_div_pow, Nat.div_eq_zero_iff_lt hpos]
    rcases hn.lt_or_eq with hlt | heq
    · rw [if_neg hlt.ne] at hrounded
      subst hrounded
      rcases Nat.lt_or_ge n (2 ^ info.mantbits) with hsub | hnormal
      · obtain rfl : j = 0 := hj.resolve_right (by omega)
        exact ⟨0, n, rfl, hsub, Nat.mod_eq_of_lt hsub, by rw [if_pos hsub]; simp⟩
      · refine ⟨j + 1, n - 2 ^ info.mantbits, by rw [Nat.add_mul]; omega, by omega, ?_, ?_⟩
        · rw [Nat.mod_eq_sub_mod hnormal, Nat.mod_eq_of_lt (by omega)]
        · rw [if_neg (by omega)]
          push_cast
          omega
    · rw [if_pos heq] at hrounded
      subst hrounded
      refine ⟨j + 2, 0, by rw [heq, Nat.add_mul]; omega, hpos, Nat.mod_self _, ?_⟩
      rw [if_neg (lt_irrefl _)]
      push_cast
      omega
  have hover : info.format.infinity ≤ j * 2 ^ info.mantbits + n ↔
      2 ^ info.expbits - 1 ≤ biased := by
    rw [hpattern]
    change (2 ^ info.expbits - 1) * 2 ^ info.mantbits ≤ _ ↔ _
    constructor
    · intro hle
      by_contra hlt
      have hmul := Nat.mul_le_mul_right (2 ^ info.mantbits) (show biased + 1 ≤ _ from not_le.mp hlt)
      rw [Nat.add_mul] at hmul
      omega
    · intro hle
      have hmul := Nat.mul_le_mul_right (2 ^ info.mantbits) hle
      omega
  rw [hexBits_eq hexpbits hbiased, hmod, ← hpattern]
  simp only [hover]
  split
  · rename_i hle
    rw [decide_eq_true hle]
  · rename_i hlt
    rw [decide_eq_false hlt]

/-! ### The rounding -/

section Rounding

variable {K : Type*} [Field K] [LinearOrder K] [IsStrictOrderedRing K] {x : K} {info : FloatInfo}

/-- What a conversion of `x` under a sign has to return. -/
def FloatInfo.Converts (info : FloatInfo) (neg : Bool) (x : K) (result : ℕ × Bool) : Prop :=
  ∃ bits, info.format.RoundsTo x bits result.2 ∧ result.1 = info.signed neg bits

theorem FloatInfo.Converts.unique {neg : Bool} {result result' : ℕ × Bool}
    (h : info.Converts neg x result) (h' : info.Converts neg x result') : result = result' := by
  obtain ⟨bits, hround, hbits⟩ := h
  obtain ⟨bits', hround', hbits'⟩ := h'
  obtain ⟨rfl, hover⟩ := hround.unique hround'
  exact Prod.ext (hbits.trans hbits'.symm) hover

theorem zero_roundMantissa {mantbits m : ℕ} (hm : m ≤ 1) (exp : ℤ) :
    roundMantissa mantbits m exp = (0, exp + 2) := by
  have hquarter : roundQuarter m = 0 := by
    rw [roundQuarter, if_neg (by omega)]
    omega
  have hlt : m < 2 ^ (mantbits + 3) := by
    have hpow : 2 ^ 3 ≤ 2 ^ (mantbits + 3) := Nat.pow_le_pow_right (by decide) (by omega)
    omega
  rw [roundMantissa_eq hlt, hquarter, if_neg (Nat.two_pow_pos _).ne]

/-- A number that is rounded to zero. -/
theorem hexBits_zero (hexpbits : 1 ≤ info.expbits) (h : info.format.IsNearest x 0) (neg : Bool)
    (exp : ℤ) : info.Converts neg x (hexBits info neg 0 exp) := by
  have hbits : hexBits info neg 0 exp =
      if 2 ^ info.expbits - 1 ≤ 0 then (info.signed neg info.format.infinity, true)
      else (info.signed neg (0 * 2 ^ info.mantbits + 0 % 2 ^ info.mantbits), false) :=
    hexBits_eq hexpbits (by rw [Nat.zero_shiftRight, if_pos rfl]; simp) neg
  have hpow : 2 ≤ 2 ^ info.expbits := by
    calc 2 = 2 ^ 1 := rfl
      _ ≤ 2 ^ info.expbits := Nat.pow_le_pow_right (by decide) hexpbits
  have hround := h.roundsTo hexpbits
  have hinf : ¬info.format.infinity ≤ 0 :=
    not_le.mpr (Nat.mul_pos (by change 0 < 2 ^ info.expbits - 1; omega) (Nat.two_pow_pos _))
  rw [if_neg hinf, decide_eq_false hinf] at hround
  rw [if_neg (by omega), Nat.zero_mul, Nat.zero_mod] at hbits
  rw [hbits]
  exact ⟨0, hround, rfl⟩

/-- A significand with two spare bits, at an exponent that is not below the least one. -/
theorem hexBits_roundMantissa {m j : ℕ} {exp : ℤ} (hmant : 1 ≤ info.mantbits)
    (hexpbits : 1 ≤ info.expbits) (h : Sticky x (ulp K info.mantbits exp) m)
    (hlt : m < 2 ^ (info.mantbits + 3)) (hnormal : j = 0 ∨ 2 ^ (info.mantbits + 2) ≤ m)
    (hexp : exp + 2 = info.bias + 1 + j) (neg : Bool) :
    info.Converts neg x (hexBits info neg (roundMantissa info.mantbits m exp).1
      (roundMantissa info.mantbits m exp).2) := by
  have hpow₁ : 2 ^ (info.mantbits + 1) = 2 * 2 ^ info.mantbits := by ring
  have hpow₂ : 2 ^ (info.mantbits + 2) = 4 * 2 ^ info.mantbits := by ring
  have hpow₃ : 2 ^ (info.mantbits + 3) = 8 * 2 ^ info.mantbits := by ring
  have hunit : 4 * ulp K info.mantbits exp =
      2 ^ (info.format.minExp - info.format.mantbits + j) := by
    have hulp : ulp K info.mantbits (exp + 1 + 1) = 4 * ulp K info.mantbits exp := by
      rw [ulp_add_one, ulp_add_one]
      ring
    rw [← hulp, ulp]
    congr 1
    change exp + 1 + 1 - info.mantbits = info.bias + 1 - info.mantbits + j
    omega
  have hnearest := info.format.isNearest_of_sticky hmant (ulp_pos _ _) h hunit hlt hnormal
  have hround : roundQuarter m = m / 4 ∨ roundQuarter m = m / 4 + 1 := by
    rw [roundQuarter]
    split <;> omega
  rw [hexBits_pattern hexpbits (by omega) (hnormal.imp_right fun hm => by omega) hexp neg
    (roundMantissa_eq hlt exp)]
  exact ⟨_, hnearest.roundsTo hexpbits, rfl⟩

/-- From a sticky significand that is wide enough `parse_hex` rounds to the nearest float. -/
theorem hexBits_converts {m : ℕ} {exp : ℤ} (hmant : 1 ≤ info.mantbits) (hexpbits : 1 ≤ info.expbits)
    (h : Sticky x (ulp K info.mantbits exp) m) (hm : m = 0 ∨ 2 ^ (info.mantbits + 2) ≤ m)
    (neg : Bool) :
    let kept := narrow info.mantbits m exp
    let low := denormalize (info.bias + 1) kept.1 kept.2
    let rounded := roundMantissa info.mantbits low.1 low.2
    info.Converts neg x (hexBits info neg rounded.1 rounded.2) := by
  intro kept low rounded
  obtain ⟨hkept, hkeptlt, hkeptnormal⟩ := narrow_spec h hm
  obtain ⟨hlow, hlowlt, htiny | hleast | ⟨habove, hsame⟩⟩ :=
    denormalize_spec hkept hkeptlt
  · -- nothing but the sticky bit is left
    have hx : x < ((2 * 1 : ℕ) : K) * ulp K info.mantbits low.2 :=
      hlow.lt_of_lt (ulp_pos _ _) (Nat.lt_of_le_of_lt htiny.1 (by decide))
    have hone : (info.format.value 1 : K) = ulp K info.mantbits (info.bias + 1) := by
      have hgrid :=
        info.format.value_grid (K := K) (j := 0) (n := 1) Nat.one_le_two_pow (Or.inl rfl)
      rw [Nat.zero_mul, Nat.zero_add] at hgrid
      rw [hgrid]
      simp [ulp, FloatInfo.format]
    have hulp : 4 * ulp K info.mantbits low.2 < ulp K info.mantbits (info.bias + 1) := by
      have htwo : 4 * ulp K info.mantbits low.2 = ulp K info.mantbits (low.2 + 1 + 1) := by
        rw [ulp_add_one, ulp_add_one]
        ring
      rw [htwo]
      exact zpow_lt_zpow_right₀ one_lt_two (by have : low.2 < info.bias + 1 - 2 := htiny.2; omega)
    have hzero : rounded = (0, low.2 + 2) := zero_roundMantissa htiny.1 low.2
    rw [hzero]
    refine hexBits_zero hexpbits (info.format.isNearest_zero ?_) neg _
    rw [hone]
    push_cast at hx
    linarith
  · exact hexBits_roundMantissa (j := 0) hmant hexpbits hlow hlowlt (Or.inl rfl)
      (by have : low.2 = info.bias + 1 - 2 := hleast; omega) neg
  · have hlow' : low = kept := hsame
    have habove' : info.bias + 1 - 2 < kept.2 := habove
    have hj : kept.2 + 2 = info.bias + 1 + (kept.2 + 2 - (info.bias + 1)).toNat := by omega
    change info.Converts neg x (hexBits info neg (roundMantissa info.mantbits low.1 low.2).1
      (roundMantissa info.mantbits low.1 low.2).2)
    rw [hlow']
    rcases hkeptnormal with hzero | hnormal
    · have hx : x = ((2 * 0 : ℕ) : K) * ulp K info.mantbits kept.2 := hkept.eq_of_eq hzero
      have hpos := info.format.value_lt_succ (K := K) 0
      rw [zero_roundMantissa (show kept.1 ≤ 1 from hzero.trans_le (Nat.zero_le 1))]
      refine hexBits_zero hexpbits (info.format.isNearest_zero ?_) neg _
      rw [info.format.value_zero] at hpos
      rw [hx]
      simpa using hpos
    · exact hexBits_roundMantissa hmant hexpbits hkept hkeptlt (Or.inr hnormal) hj neg

omit [LinearOrder K] [IsStrictOrderedRing K] in
theorem ulp_add_mantbits (mantbits : ℕ) (exp : ℤ) : ulp K mantbits (exp + mantbits) = 2 ^ exp := by
  rw [ulp, add_sub_cancel_right]

/-- An exact significand is rounded to the nearest float. -/
theorem parseHex_exact (hmant : 1 ≤ info.mantbits) (hexpbits : 1 ≤ info.expbits) (m : ℕ) (exp : ℤ)
    (neg : Bool) : info.Converts neg ((m : K) * 2 ^ exp) (parseHex info m exp neg false) := by
  obtain ⟨hexact, hwide⟩ := widen_spec (K := K) info.mantbits m (exp + info.mantbits)
  have hpow : 2 ^ (info.mantbits + 3) = 2 * 2 ^ (info.mantbits + 2) := by ring
  rw [ulp_add_mantbits] at hexact
  rw [parseHex_eq, ← hexact]
  exact hexBits_converts hmant hexpbits (sticky_exact (ulp_pos _ _) _)
    (hwide.imp_right fun h => by omega) neg

/-- A significand of sixteen hexadecimal digits from which something was cut off is rounded as
everything that it may stand for. -/
theorem parseHex_truncated (hmant : 1 ≤ info.mantbits) (hmant' : info.mantbits ≤ 57)
    (hexpbits : 1 ≤ info.expbits) {m : ℕ} (hm : 2 ^ 60 ≤ m) {exp : ℤ} (hlo : (m : K) * 2 ^ exp < x)
    (hhi : x < ((m : K) + 1) * 2 ^ exp) (neg : Bool) :
    info.Converts neg x (parseHex info m exp neg true) := by
  have hpow : 2 ^ (info.mantbits + 3) ≤ 2 ^ 60 := Nat.pow_le_pow_right (by decide) (by omega)
  have hpow₃ : 2 ^ (info.mantbits + 3) = 2 * 2 ^ (info.mantbits + 2) := by ring
  have hset : m ≤ setLast m := by
    rw [setLast]
    split <;> omega
  rw [parseHex_eq, widen_of_le (hpow.trans hm)]
  simp only [if_true, or_one_eq_setLast]
  refine hexBits_converts hmant hexpbits ?_ (Or.inr (by omega)) neg
  rw [ulp_add_mantbits]
  exact sticky_setLast hlo hhi (zpow_pos two_pos _)

end Rounding

/-! ### The loops as they run -/

/-- `parse_hex` on a significand of 64 bits and an `int`, with `fuel` turns for each loop. -/
def parseHexRun (info : FloatInfo) (mantissa : ℕ) (exp : ℤ) (neg trunc : Bool) (fuel : ℕ) :
    Outcome (ℕ × Bool) := do
  let minExp := info.bias + 1
  let wide ← Outcome.loop
    (fun s : ℕ × ℤ => s.1 ≠ 0 ∧ s.1 >>> (1 + info.mantbits + 2) = 0)
    (fun s => ((s.1 <<< 1) % 2 ^ 64, (s.2 - 1).bmod (2 ^ 64))) fuel
    (mantissa, (exp + info.mantbits).bmod (2 ^ 64))
  let kept ← Outcome.loop
    (fun s : ℕ × ℤ => s.1 >>> (1 + info.mantbits + 2) ≠ 0)
    (fun s => (shiftSticky s.1, (s.2 + 1).bmod (2 ^ 64))) fuel
    (if trunc then wide.1 ||| 1 else wide.1, wide.2)
  let low ← Outcome.loop
    (fun s : ℕ × ℤ => 1 < s.1 ∧ s.2 < minExp - 2)
    (fun s => (shiftSticky s.1, (s.2 + 1).bmod (2 ^ 64))) fuel kept
  let rounded := roundMantissa info.mantbits low.1 low.2
  return hexBits info neg rounded.1 rounded.2

theorem int_bmod_eq {n : ℤ} (hlo : -2 ^ 63 ≤ n) (hhi : n < 2 ^ 63) : n.bmod (2 ^ 64) = n :=
  Int.bmod_eq_of_le (by omega) (by omega)

/-- What the widening loop keeps: the exponent does not decrease by more than the significand
grows. -/
def WidenFits (s : ℕ × ℤ) : Prop :=
  s.1 < 2 ^ 64 ∧ s.2 ≤ 2 ^ 62 + 57 ∧ (-2 ^ 62 ≤ s.2 ∨ s.1 < 2 ^ 61 ∧ -2 ^ 62 ≤ s.2 + s.1)

/-- What the narrowing loops keep: the exponent does not increase by more than the bits of the
significand. -/
def NarrowFits (s : ℕ × ℤ) : Prop :=
  -2 ^ 62 - 2 ^ 61 ≤ s.2 ∧ ∃ k : ℕ, k ≤ 64 ∧ s.1 < 2 ^ k ∧ s.2 + k ≤ 2 ^ 62 + 57 + 64

theorem widen_answers {mantbits : ℕ} (hmant : mantbits ≤ 57) {s : ℕ × ℤ} (hs : WidenFits s) :
    Outcome.Answers (fun fuel => Outcome.loop
      (fun s : ℕ × ℤ => s.1 ≠ 0 ∧ s.1 >>> (1 + mantbits + 2) = 0)
      (fun s => ((s.1 <<< 1) % 2 ^ 64, (s.2 - 1).bmod (2 ^ 64))) fuel s)
      (widen mantbits s.1 s.2) ∧ WidenFits (widen mantbits s.1 s.2) := by
  have hpow : 2 ^ (mantbits + 3) ≤ 2 ^ 60 := Nat.pow_le_pow_right (by decide) (by omega)
  have hbody : ∀ s : ℕ × ℤ, WidenFits s → s.1 ≠ 0 ∧ s.1 >>> (1 + mantbits + 2) = 0 →
      (s.1 <<< 1) % 2 ^ 64 = 2 * s.1 ∧ (s.2 - 1).bmod (2 ^ 64) = s.2 - 1 ∧
        s.1 < 2 ^ (mantbits + 3) ∧ WidenFits (2 * s.1, s.2 - 1) := by
    rintro s ⟨-, hhi, hlo⟩ ⟨hzero, hsmall⟩
    rw [shiftRight_eq_zero_iff] at hsmall
    rw [Nat.shiftLeft_eq, pow_one, Nat.mod_eq_of_lt (by omega), int_bmod_eq (by omega) (by omega)]
    refine ⟨Nat.mul_comm _ _, rfl, hsmall, ?_, ?_, Or.inr ⟨?_, ?_⟩⟩ <;> dsimp only <;> omega
  refine Outcome.Answers.loop (f := fun s => widen mantbits s.1 s.2) WidenFits
    (fun s => 2 ^ (mantbits + 3) - s.1) (fun s hinv => ?_) (fun s hinv hcond => ?_) hs
  · by_cases hcond : s.1 ≠ 0 ∧ s.1 >>> (1 + mantbits + 2) = 0
    · obtain ⟨hmant, hexp, -, -⟩ := hbody s hinv hcond
      rw [widen, if_pos hcond, if_pos (decide_eq_true hcond), hmant, hexp, Nat.shiftLeft_eq,
        pow_one, Nat.mul_comm]
    · rw [widen, if_neg hcond, if_neg (by simpa using hcond)]
  · have hcond' := of_decide_eq_true hcond
    obtain ⟨hmant, hexp, hsmall, hfits⟩ := hbody s hinv hcond'
    have hzero := hcond'.1
    dsimp only
    rw [hmant, hexp]
    exact ⟨hfits, by omega⟩

/-- One turn of a narrowing loop. -/
theorem NarrowFits.turn {s : ℕ × ℤ} (h : NarrowFits s) (hlarge : 1 < s.1) :
    (s.2 + 1).bmod (2 ^ 64) = s.2 + 1 ∧ NarrowFits (shiftSticky s.1, s.2 + 1) := by
  obtain ⟨hlo, k, hk, hbits, hhi⟩ := h
  obtain ⟨j, rfl⟩ : ∃ j, k = j + 2 := by
    refine Nat.exists_eq_add_of_le' (Nat.succ_le_of_lt ?_)
    by_contra hsmall
    have hpow : 2 ^ k ≤ 2 ^ 1 := Nat.pow_le_pow_right (by decide) (by omega)
    omega
  have hdouble : 2 ^ (j + 2) = 4 * 2 ^ j := by ring
  have hhalf : 2 ^ (j + 1) = 2 * 2 ^ j := by ring
  have hjam : jam s.1 < 2 ^ (j + 1) := by
    rw [jam]
    split <;> omega
  refine ⟨int_bmod_eq (by omega) (by omega), by dsimp only; omega, j + 1, by omega, ?_, ?_⟩
  · rw [shiftSticky_eq_jam]
    exact hjam
  · dsimp only
    push_cast at hhi ⊢
    omega

/-- A narrowing loop, with the condition it has besides that of a large significand. -/
theorem narrowing_answers {condition : ℕ × ℤ → Bool} {f : ℕ × ℤ → ℕ × ℤ}
    (hlarge : ∀ s, condition s = true → 1 < s.1)
    (hf : ∀ s, f s = if condition s then f (shiftSticky s.1, s.2 + 1) else s) {s : ℕ × ℤ}
    (hs : NarrowFits s) :
    Outcome.Answers (fun fuel => Outcome.loop condition
      (fun s => (shiftSticky s.1, (s.2 + 1).bmod (2 ^ 64))) fuel s) (f s) ∧ NarrowFits (f s) := by
  refine Outcome.Answers.loop NarrowFits (fun s => s.1) (fun s hinv => ?_)
    (fun s hinv hcond => ?_) hs
  · rw [hf s]
    split
    · rename_i hcond
      rw [(hinv.turn (hlarge s hcond)).1]
    · rfl
  · obtain ⟨hexp, hfits⟩ := hinv.turn (hlarge s hcond)
    rw [hexp]
    exact ⟨hfits, shiftSticky_lt (hlarge s hcond)⟩

theorem narrow_answers {mantbits : ℕ} {s : ℕ × ℤ} (hs : NarrowFits s) :
    Outcome.Answers (fun fuel => Outcome.loop
      (fun s : ℕ × ℤ => s.1 >>> (1 + mantbits + 2) ≠ 0)
      (fun s => (shiftSticky s.1, (s.2 + 1).bmod (2 ^ 64))) fuel s)
      (narrow mantbits s.1 s.2) ∧ NarrowFits (narrow mantbits s.1 s.2) := by
  refine narrowing_answers (f := fun s => narrow mantbits s.1 s.2) (fun s hcond => ?_)
    (fun s => ?_) hs
  · have hpow : 2 ^ 3 ≤ 2 ^ (mantbits + 3) := Nat.pow_le_pow_right (by decide) (by omega)
    rw [decide_eq_true_eq, Ne, shiftRight_eq_zero_iff] at hcond
    omega
  · rw [narrow]
    simp only [decide_eq_true_eq]

theorem denormalize_answers {minExp : ℤ} {s : ℕ × ℤ} (hs : NarrowFits s) :
    Outcome.Answers (fun fuel => Outcome.loop
      (fun s : ℕ × ℤ => 1 < s.1 ∧ s.2 < minExp - 2)
      (fun s => (shiftSticky s.1, (s.2 + 1).bmod (2 ^ 64))) fuel s)
      (denormalize minExp s.1 s.2) ∧ NarrowFits (denormalize minExp s.1 s.2) := by
  refine narrowing_answers (f := fun s => denormalize minExp s.1 s.2)
    (fun s hcond => (of_decide_eq_true hcond).1) (fun s => ?_) hs
  rw [denormalize]
  simp only [decide_eq_true_eq]

/-- With enough fuel the loops end, and nothing wraps around on the way. -/
theorem parseHexRun_answers {info : FloatInfo} (hmant : info.mantbits ≤ 57) {m : ℕ}
    (hm : m < 2 ^ 64) {exp : ℤ} (hexp : |exp| < 2 ^ 62) (neg trunc : Bool) :
    Outcome.Answers (parseHexRun info m exp neg trunc) (parseHex info m exp neg trunc) := by
  obtain ⟨hlo, hhi⟩ := abs_lt.mp hexp
  have hstart : (exp + info.mantbits).bmod (2 ^ 64) = exp + info.mantbits :=
    int_bmod_eq (by omega) (by omega)
  obtain ⟨hwide, hbits, hhigh, hlow⟩ := widen_answers hmant (s := (m, exp + info.mantbits))
    ⟨hm, by dsimp only; omega, Or.inl (by dsimp only; omega)⟩
  rw [parseHex_eq]
  dsimp only at hwide hbits hhigh hlow ⊢
  generalize widen info.mantbits m (exp + info.mantbits) = wide at hwide hbits hhigh hlow ⊢
  have hfits : NarrowFits (if trunc then wide.1 ||| 1 else wide.1, wide.2) := by
    refine ⟨by dsimp only; omega, 64, le_rfl, ?_, by dsimp only; omega⟩
    dsimp only
    split
    · exact Nat.or_lt_two_pow hbits (by decide)
    · exact hbits
  obtain ⟨hkept, hkeptFits⟩ := narrow_answers hfits
  obtain ⟨hend, -⟩ := denormalize_answers hkeptFits
  unfold parseHexRun
  rw [hstart]
  exact hwide.bind (hkept.bind (hend.bind (.of_returned _)))

/-! ### The two formats -/

/-- **`parse_hex` rounds correctly**, for both formats: an exact significand to the nearest float,
and one of sixteen digits with something cut off as everything that it may stand for. -/
theorem parseHex_nearest {info : FloatInfo} (hinfo : info = f32Info ∨ info = f64Info) {m : ℕ}
    (hm : m < 2 ^ 64) {exp : ℤ} (hexp : |exp| < 2 ^ 62) (neg : Bool) :
    (∃ result, Outcome.Answers (parseHexRun info m exp neg false) result ∧
      ∀ r, info.Converts neg ((m : ℝ) * 2 ^ exp) r ↔ r = result) ∧
    (∃ result, Outcome.Answers (parseHexRun info m exp neg true) result ∧
      (2 ^ 60 ≤ m → ∀ x : ℝ, m * 2 ^ exp < x → x < (m + 1) * 2 ^ exp →
        ∀ r, info.Converts neg x r ↔ r = result)) := by
  have hmant : 1 ≤ info.mantbits ∧ info.mantbits ≤ 57 ∧ 1 ≤ info.expbits := by
    rcases hinfo with rfl | rfl <;> decide
  have hiff : ∀ {x : ℝ} {result : ℕ × Bool}, info.Converts neg x result →
      ∀ r, info.Converts neg x r ↔ r = result := by
    intro x result h r
    exact ⟨fun hr => hr.unique h, fun hr => hr ▸ h⟩
  refine ⟨⟨_, parseHexRun_answers hmant.2.1 hm hexp neg false, ?_⟩,
    ⟨_, parseHexRun_answers hmant.2.1 hm hexp neg true, fun hlarge x hlo hhi => ?_⟩⟩
  · exact hiff (parseHex_exact hmant.1 hmant.2.2 m exp neg)
  · exact hiff (parseHex_truncated hmant.1 hmant.2.1 hmant.2.2 hlarge hlo hhi neg)

/-- A half behind sixteen digits. -/
theorem parseHex_nearest_half :
    ∃ result, Outcome.Answers (parseHexRun f64Info (2 ^ 60) 0 false true) result ∧
      ∀ r, f64Info.Converts false (2 ^ 60 + 1 / 2 : ℝ) r ↔ r = result := by
  obtain ⟨-, result, hanswers, hround⟩ :=
    parseHex_nearest (m := 2 ^ 60) (Or.inr rfl) (by norm_num) (show |(0 : ℤ)| < 2 ^ 62 by norm_num)
      false
  exact ⟨result, hanswers, hround le_rfl _ (by norm_num) (by norm_num)⟩

end Wasim
