import Mathlib.Algebra.Order.Field.Power
import Mathlib.Tactic.Ring
import Mathlib.Tactic.Linarith
import Mathlib.Tactic.NormNum
import Mathlib.Tactic.FieldSimp
import Mathlib.Tactic.Positivity

/-!
# Rounding to binary floating-point numbers

A binary interchange format, its magnitudes numbered by their bit patterns: the exponent field
stands above the fraction, so the order of the patterns is the order of the numbers, and a
pattern is even exactly when its significand is. `IsNearest x b` rounds with an unbounded
exponent, to the nearest pattern with ties to even; `RoundsTo` adds the bound of the format.

A number is rounded from an integer significand with two bits to spare whose last bit is sticky:
`Sticky x s m` says that `m` units of `s` are `x`, where an odd `m` only tells that `x` lies
between the even numbers of units around it. Halving the significand keeps that (`Sticky.jam`),
and two spare bits are enough to round (`Format.isNearest_of_sticky`).
-/

namespace BinaryFloat

/-! ### Formats -/

/-- The bits of the fraction, the bits of the exponent, and the exponent of the least normal
number. -/
structure Format where
  mantbits : ℕ
  expbits : ℕ
  minExp : ℤ

namespace Format

variable {K : Type*} [Field K] (F : Format)

/-- The number that the magnitude pattern `b` stands for, whatever its exponent. -/
def value (b : ℕ) : K :=
  if b / 2 ^ F.mantbits = 0 then b * 2 ^ (F.minExp - F.mantbits)
  else (2 ^ F.mantbits + (b % 2 ^ F.mantbits : ℕ)) *
    2 ^ (F.minExp - F.mantbits + (b / 2 ^ F.mantbits - 1 : ℕ))

theorem value_zero : (F.value 0 : K) = 0 := by
  rw [value, if_pos (Nat.zero_div _), Nat.cast_zero, zero_mul]

/-- The pattern of infinity. -/
def infinity : ℕ := (2 ^ F.expbits - 1) * 2 ^ F.mantbits

/-- The pattern of the largest finite number. -/
def largest : ℕ := F.infinity - 1

variable [LinearOrder K] [IsStrictOrderedRing K]

/-- `x` is rounded to the pattern `b`: no pattern is closer, and where another one is as close,
`b` is even. -/
structure IsNearest (x : K) (b : ℕ) : Prop where
  dist_le : ∀ c, |x - F.value b| ≤ |x - F.value c|
  tie : ∀ c, c ≠ b → |x - F.value c| = |x - F.value b| → Even b

/-- `x` is rounded to `bits`, or to infinity if the rounded number exceeds the largest finite
one. -/
def RoundsTo (x : K) (bits : ℕ) (overflow : Bool) : Prop :=
  ∃ b, F.IsNearest x b ∧ (overflow = true ↔ (F.value F.largest : K) < F.value b) ∧
    bits = if overflow then F.infinity else b

/-! ### The grid of the patterns -/

/-- Inside of a binade, and in the two that share the least exponent, the patterns are evenly
spaced. -/
theorem value_grid {j n : ℕ} (hn : n ≤ 2 ^ (F.mantbits + 1)) (hj : j = 0 ∨ 2 ^ F.mantbits ≤ n) :
    (F.value (j * 2 ^ F.mantbits + n) : K) = n * 2 ^ (F.minExp - F.mantbits + j) := by
  have hpos : 0 < 2 ^ F.mantbits := Nat.two_pow_pos _
  have hdouble : 2 ^ (F.mantbits + 1) = 2 * 2 ^ F.mantbits := by ring
  rcases Nat.lt_or_ge n (2 ^ F.mantbits) with hsub | hnormal
  · obtain rfl : j = 0 := hj.resolve_right (by omega)
    rw [value, Nat.zero_mul, Nat.zero_add, if_pos (Nat.div_eq_of_lt hsub)]
    simp
  · obtain ⟨k, rfl⟩ := Nat.exists_eq_add_of_le hnormal
    have hsum : j * 2 ^ F.mantbits + (2 ^ F.mantbits + k) = k + (j + 1) * 2 ^ F.mantbits := by
      ring
    rw [value, hsum, Nat.add_mul_div_right _ _ hpos,
      if_neg (show k / 2 ^ F.mantbits + (j + 1) ≠ 0 from Nat.succ_ne_zero _),
      Nat.add_mul_mod_self_right]
    rcases Nat.lt_or_ge k (2 ^ F.mantbits) with hk | hk
    · rw [Nat.div_eq_of_lt hk, Nat.mod_eq_of_lt hk, Nat.zero_add, Nat.add_sub_cancel]
      push_cast
      rfl
    · -- the first pattern of the next binade
      obtain rfl : k = 2 ^ F.mantbits := by omega
      rw [Nat.div_self hpos, Nat.mod_self, show 1 + (j + 1) - 1 = j + 1 by omega]
      push_cast
      rw [← add_assoc, zpow_add_one₀ two_ne_zero]
      ring

/-- Every pattern has a next one on the same grid. -/
theorem exists_grid (b : ℕ) : ∃ j n, b = j * 2 ^ F.mantbits + n ∧ n < 2 ^ (F.mantbits + 1) ∧
    (j = 0 ∨ 2 ^ F.mantbits ≤ n) := by
  have hdouble : 2 ^ (F.mantbits + 1) = 2 * 2 ^ F.mantbits := by ring
  have hsplit := Nat.div_add_mod b (2 ^ F.mantbits)
  have hmod := Nat.mod_lt b (Nat.two_pow_pos F.mantbits)
  rcases Nat.eq_zero_or_pos (b / 2 ^ F.mantbits) with hzero | hpos
  · refine ⟨0, b, by omega, ?_, Or.inl rfl⟩
    rw [hzero] at hsplit
    omega
  · obtain ⟨q, hq⟩ := Nat.exists_eq_add_of_le' hpos
    refine ⟨q, 2 ^ F.mantbits + b % 2 ^ F.mantbits, ?_, by omega, Or.inr (by omega)⟩
    rw [hq] at hsplit
    linarith

theorem value_lt_succ (b : ℕ) : (F.value b : K) < F.value (b + 1) := by
  obtain ⟨j, n, rfl, hn, hj⟩ := F.exists_grid b
  have hunit : (0 : K) < 2 ^ (F.minExp - F.mantbits + j) := zpow_pos two_pos _
  rw [Nat.add_assoc, F.value_grid hn.le hj, F.value_grid hn (hj.imp_right Nat.le_succ_of_le)]
  push_cast
  linarith

theorem value_strictMono : StrictMono (F.value : ℕ → K) := strictMono_nat_of_lt_succ F.value_lt_succ

/-! ### Nearest patterns -/

/-- Only the two neighbours of a pattern matter: `x` lies in the middle of them or closer. -/
theorem isNearest_of_neighbours {x : K} {b : ℕ}
    (hup : 2 * x ≤ F.value b + F.value (b + 1))
    (hupTie : 2 * x = F.value b + F.value (b + 1) → Even b)
    (hdown : ∀ a, a + 1 = b → F.value a + F.value b ≤ 2 * x)
    (hdownTie : ∀ a, a + 1 = b → F.value a + F.value b = 2 * x → Even b) :
    F.IsNearest x b := by
  have hmono := F.value_strictMono (K := K)
  have habove : ∀ c, b < c → |x - F.value b| ≤ |x - F.value c| ∧
      (|x - F.value c| = |x - F.value b| → Even b) := by
    intro c hc
    have hnext : (F.value (b + 1) : K) ≤ F.value c := hmono.monotone hc
    have hlt : (F.value b : K) < F.value c := hmono hc
    rw [abs_of_nonpos (show x - F.value c ≤ 0 by linarith)]
    refine ⟨abs_le.mpr ⟨by linarith, by linarith⟩, fun heq => hupTie (le_antisymm hup ?_)⟩
    rcases abs_cases (x - F.value b) with ⟨habs, -⟩ | ⟨habs, -⟩ <;> linarith
  have hbelow : ∀ c, c < b → |x - F.value b| ≤ |x - F.value c| ∧
      (|x - F.value c| = |x - F.value b| → Even b) := by
    intro c hc
    obtain ⟨a, rfl⟩ := Nat.exists_eq_add_of_le' (Nat.one_le_of_lt hc)
    have hprev : (F.value c : K) ≤ F.value a := hmono.monotone (Nat.le_of_lt_succ hc)
    have hlt : (F.value c : K) < F.value (a + 1) := hmono hc
    have hmid := hdown a rfl
    rw [abs_of_nonneg (show 0 ≤ x - F.value c by linarith)]
    refine ⟨abs_le.mpr ⟨by linarith, by linarith⟩, fun heq =>
      hdownTie a rfl (le_antisymm hmid ?_)⟩
    rcases abs_cases (x - F.value (a + 1)) with ⟨habs, -⟩ | ⟨habs, -⟩ <;> linarith
  constructor
  · intro c
    rcases lt_trichotomy b c with h | rfl | h
    · exact (habove c h).1
    · exact le_rfl
    · exact (hbelow c h).1
  · intro c hne heq
    rcases hne.lt_or_gt with h | h
    · exact (hbelow c h).2 heq
    · exact (habove c h).2 heq

/-- What is below half of the least number is rounded to zero. -/
theorem isNearest_zero {x : K} (hlt : 2 * x < F.value 1) : F.IsNearest x 0 := by
  refine F.isNearest_of_neighbours ?_ (fun _ => Even.zero) (fun a ha => ?_) (fun a ha => ?_)
  · rw [F.value_zero, zero_add]
    exact hlt.le
  · omega
  · omega

theorem IsNearest.le {F : Format} {x : K} {b c : ℕ} (hb : F.IsNearest x b)
    (hc : F.IsNearest x c) : c ≤ b := by
  by_contra hgt
  have hlt : b < c := not_le.mp hgt
  have hdist : |x - F.value c| = |x - F.value b| := le_antisymm (hc.dist_le b) (hb.dist_le c)
  have hmono := F.value_strictMono (K := K)
  have hbc : (F.value b : K) < F.value c := hmono hlt
  -- `x` is the middle of both, and closer to whatever lies between them
  rcases Nat.eq_or_lt_of_le (Nat.succ_le_of_lt hlt) with rfl | hbetween
  · have heven := hb.tie _ hlt.ne' hdist
    have heven' := hc.tie _ hlt.ne hdist.symm
    rw [Nat.even_add_one] at heven'
    exact heven' heven
  · have hnext : (F.value b : K) < F.value (b + 1) := F.value_lt_succ b
    have hnext' : (F.value (b + 1) : K) < F.value c := hmono hbetween
    have hle := hb.dist_le (b + 1)
    rcases abs_cases (x - F.value b) with ⟨hb', -⟩ | ⟨hb', hneg⟩
    · rcases abs_cases (x - F.value c) with ⟨hc', -⟩ | ⟨hc', -⟩
      · linarith
      · rcases abs_cases (x - F.value (b + 1)) with ⟨hn', -⟩ | ⟨hn', -⟩ <;> linarith
    · -- `x` would lie below both
      rw [abs_of_neg (show x - F.value c < 0 by linarith)] at hdist
      linarith

/-- The nearest pattern is determined. -/
theorem IsNearest.unique {F : Format} {x : K} {b c : ℕ} (hb : F.IsNearest x b)
    (hc : F.IsNearest x c) : b = c :=
  le_antisymm (hc.le hb) (hb.le hc)

theorem RoundsTo.unique {F : Format} {x : K} {bits bits' : ℕ} {overflow overflow' : Bool}
    (h : F.RoundsTo x bits overflow) (h' : F.RoundsTo x bits' overflow') :
    bits = bits' ∧ overflow = overflow' := by
  obtain ⟨b, hb, hover, rfl⟩ := h
  obtain ⟨c, hc, hover', rfl⟩ := h'
  obtain rfl := hb.unique hc
  obtain rfl : overflow = overflow' := Bool.eq_iff_iff.mpr (hover.trans hover'.symm)
  exact ⟨rfl, rfl⟩

/-- A nearest pattern, cut off at infinity. -/
theorem IsNearest.roundsTo {F : Format} {x : K} {b : ℕ} (h : F.IsNearest x b)
    (hexp : 1 ≤ F.expbits) :
    F.RoundsTo x (if F.infinity ≤ b then F.infinity else b) (F.infinity ≤ b) := by
  have hinf : 1 ≤ F.infinity := by
    refine Nat.mul_pos (Nat.sub_pos_of_lt ?_) (Nat.two_pow_pos _)
    exact Nat.one_lt_two_pow (by omega)
  refine ⟨b, h, ?_, ?_⟩
  · rw [F.value_strictMono.lt_iff_lt, largest, decide_eq_true_eq]
    omega
  · simp only [decide_eq_true_eq]

/-- A number between the middles around a finite pattern is rounded to it. -/
theorem roundsTo_of_between {F : Format} {x : K} {b : ℕ} (hexp : 1 ≤ F.expbits)
    (hfinite : b < F.infinity) (hdown : F.value (b - 1) + F.value b < 2 * x)
    (hup : 2 * x < F.value b + F.value (b + 1)) : F.RoundsTo x b false := by
  have hnearest : F.IsNearest x b := by
    refine F.isNearest_of_neighbours hup.le (fun h => absurd h hup.ne) ?_ ?_
    · rintro a rfl
      exact hdown.le
    · rintro a rfl h
      exact absurd h hdown.ne
  have hround := hnearest.roundsTo hexp
  rwa [if_neg (not_le.mpr hfinite), decide_eq_false (not_le.mpr hfinite)] at hround

end Format

variable {K : Type*} [Field K] [LinearOrder K]

/-! ### Sticky significands -/

/-- `m` units of `s` are `x`; an odd `m` stands for everything between the even numbers around
it. -/
structure Sticky (x s : K) (m : ℕ) : Prop where
  even : Even m → x = m * s
  odd : Odd m → (m - 1) * s < x ∧ x < (m + 1) * s

/-- A significand with the last bit set. -/
def setLast (m : ℕ) : ℕ := if m % 2 = 0 then m + 1 else m

/-- Half of a significand, with what is lost kept in the last bit. -/
def jam (m : ℕ) : ℕ := if m % 4 = 1 then m / 2 + 1 else m / 2

/-- A significand with two bits to spare, rounded to even. -/
def roundQuarter (m : ℕ) : ℕ := if m % 4 = 3 ∨ m % 8 = 6 then m / 4 + 1 else m / 4

variable [IsStrictOrderedRing K] {x s u : K} {m n : ℕ}

theorem sticky_exact (hs : 0 < s) (m : ℕ) : Sticky (m * s) s m where
  even := fun _ => rfl
  odd := fun _ => ⟨by linarith, by linarith⟩

/-- What was cut off behind `m` is kept in the last bit. -/
theorem sticky_setLast (hlo : m * s < x) (hhi : x < (m + 1) * s) (hs : 0 < s) :
    Sticky x s (setLast m) := by
  rw [setLast]
  split
  · refine ⟨fun heven => ?_, fun _ => ?_⟩
    · rw [Nat.even_iff] at heven
      omega
    · push_cast
      exact ⟨by linarith, hhi.trans (mul_lt_mul_of_pos_right (lt_add_one _) hs)⟩
  · refine ⟨fun heven => ?_, fun _ =>
      ⟨(mul_lt_mul_of_pos_right (sub_one_lt (m : K)) hs).trans hlo, hhi⟩⟩
    rw [Nat.even_iff] at heven
    omega

namespace Sticky

omit [IsStrictOrderedRing K] in
theorem eq_of_eq (h : Sticky x s m) (heq : m = 2 * n) : x = (2 * n : ℕ) * s := by
  rw [h.even (by rw [heq]; exact even_two_mul n), heq]

theorem lt_of_lt (h : Sticky x s m) (hs : 0 < s) (hlt : m < 2 * n) : x < (2 * n : ℕ) * s := by
  rcases Nat.even_or_odd m with heven | hodd
  · rw [h.even heven]
    exact mul_lt_mul_of_pos_right (by exact_mod_cast hlt) hs
  · have hle : ((m + 1 : ℕ) : K) ≤ (2 * n : ℕ) := by exact_mod_cast hlt
    push_cast at hle
    calc x < (m + 1) * s := (h.odd hodd).2
      _ ≤ (2 * n : ℕ) * s := mul_le_mul_of_nonneg_right (by push_cast; exact hle) hs.le

theorem gt_of_gt (h : Sticky x s m) (hs : 0 < s) (hgt : 2 * n < m) : (2 * n : ℕ) * s < x := by
  rcases Nat.even_or_odd m with heven | hodd
  · rw [h.even heven]
    exact mul_lt_mul_of_pos_right (by exact_mod_cast hgt) hs
  · have hle : ((2 * n + 1 : ℕ) : K) ≤ m := by exact_mod_cast hgt
    push_cast at hle
    calc (2 * n : ℕ) * s ≤ (m - 1) * s :=
          mul_le_mul_of_nonneg_right (by push_cast; linarith) hs.le
      _ < x := (h.odd hodd).1

theorem le_of_le (h : Sticky x s m) (hs : 0 < s) (hle : m ≤ 2 * n) : x ≤ (2 * n : ℕ) * s :=
  hle.lt_or_eq.elim (fun hlt => (h.lt_of_lt hs hlt).le) fun heq => (h.eq_of_eq heq).le

theorem ge_of_ge (h : Sticky x s m) (hs : 0 < s) (hge : 2 * n ≤ m) : (2 * n : ℕ) * s ≤ x :=
  hge.lt_or_eq.elim (fun hlt => (h.gt_of_gt hs hlt).le) fun heq => (h.eq_of_eq heq.symm).ge

/-- Halving a significand keeps what it stands for. -/
theorem jam (h : Sticky x s m) (hs : 0 < s) : Sticky x (2 * s) (jam m) := by
  have hjam : BinaryFloat.jam m = if m % 4 = 1 then m / 2 + 1 else m / 2 := rfl
  constructor
  · intro heven
    rw [Nat.even_iff] at heven
    have heq : m = 2 * BinaryFloat.jam m := by
      split at hjam <;> omega
    rw [h.eq_of_eq heq]
    push_cast
    ring
  · intro hodd
    obtain ⟨k, hk⟩ := hodd
    have hlo : (2 * (2 * k) : ℕ) * s < x := h.gt_of_gt hs (by split at hjam <;> omega)
    have hhi : x < (2 * (2 * k + 2) : ℕ) * s := h.lt_of_lt hs (by split at hjam <;> omega)
    rw [hk]
    push_cast at hlo hhi ⊢
    exact ⟨by linarith, by linarith⟩

end Sticky

/-- `x` is `n` units of `u` up to half of a unit, and exactly half of one only if `n` is
even. -/
structure NearMultiple (x u : K) (n : ℕ) : Prop where
  le : 2 * x ≤ (2 * n + 1) * u
  le_tie : 2 * x = (2 * n + 1) * u → Even n
  ge : (2 * n - 1) * u ≤ 2 * x
  ge_tie : (2 * n - 1) * u = 2 * x → Even n

/-- Two spare bits are enough to round to the nearest multiple. -/
theorem Sticky.nearMultiple (h : Sticky x s m) (hs : 0 < s) :
    NearMultiple x (4 * s) (roundQuarter m) := by
  have hround : roundQuarter m = if m % 4 = 3 ∨ m % 8 = 6 then m / 4 + 1 else m / 4 := rfl
  generalize roundQuarter m = n at hround
  have hle : m ≤ 2 * (2 * n + 1) := by split at hround <;> omega
  have hge : ∀ k, n = k + 1 → 2 * (2 * k + 1) ≤ m := by
    intro k hk
    split at hround <;> omega
  refine ⟨?_, fun htie => ?_, ?_, fun htie => ?_⟩
  · have hx := h.le_of_le hs hle
    push_cast at hx
    linarith
  · have heq : m = 2 * (2 * n + 1) := by
      refine hle.eq_of_not_lt fun hlt => ?_
      have hx := h.lt_of_lt hs hlt
      push_cast at hx
      linarith
    rw [Nat.even_iff]
    split at hround <;> omega
  · cases n with
    | zero =>
      have hx := h.ge_of_ge (n := 0) hs (Nat.zero_le m)
      push_cast at hx ⊢
      linarith
    | succ k =>
      have hx := h.ge_of_ge hs (hge k rfl)
      push_cast at hx ⊢
      linarith
  · cases n with
    | zero => exact Even.zero
    | succ k =>
      have heq : 2 * (2 * k + 1) = m := by
        refine (hge k rfl).eq_of_not_lt fun hlt => ?_
        have hx := h.gt_of_gt hs hlt
        push_cast at hx htie
        linarith
      rw [Nat.even_iff]
      split at hround <;> omega

/-! ### Rounding a sticky significand -/

/-- A significand of the format's precision with two bits to spare is rounded to the nearest
pattern: `j` counts the binades above the least one. -/
theorem Format.isNearest_of_sticky (F : Format) (hmant : 1 ≤ F.mantbits) {j : ℕ} (hs : 0 < s)
    (h : Sticky x s m) (hunit : 4 * s = 2 ^ (F.minExp - F.mantbits + j))
    (hlt : m < 2 ^ (F.mantbits + 3)) (hnormal : j = 0 ∨ 2 ^ (F.mantbits + 2) ≤ m) :
    F.IsNearest x (j * 2 ^ F.mantbits + roundQuarter m) := by
  have hpow₁ : 2 ^ (F.mantbits + 1) = 2 * 2 ^ F.mantbits := by ring
  have hpow₂ : 2 ^ (F.mantbits + 2) = 4 * 2 ^ F.mantbits := by ring
  have hpow₃ : 2 ^ (F.mantbits + 3) = 8 * 2 ^ F.mantbits := by ring
  have hround : roundQuarter m = m / 4 ∨ roundQuarter m = m / 4 + 1 := by
    rw [roundQuarter]
    split <;> omega
  have hnear := h.nearMultiple hs
  generalize roundQuarter m = n at hround hnear ⊢
  have hn : n ≤ 2 ^ (F.mantbits + 1) := by omega
  have hj : j = 0 ∨ 2 ^ F.mantbits ≤ n := hnormal.imp_right fun hm => by omega
  have hvalue : (F.value (j * 2 ^ F.mantbits + n) : K) = n * (4 * s) := by
    rw [F.value_grid hn hj, hunit]
  have heven : Even n → Even (j * 2 ^ F.mantbits + n) :=
    fun hn => ((Nat.even_pow.mpr ⟨even_two, by omega⟩).mul_left j).add hn
  have hmono := F.value_lt_succ (K := K) (j * 2 ^ F.mantbits + n)
  have hup : 2 * x ≤ F.value (j * 2 ^ F.mantbits + n) + F.value (j * 2 ^ F.mantbits + n + 1) ∧
      (2 * x = F.value (j * 2 ^ F.mantbits + n) + F.value (j * 2 ^ F.mantbits + n + 1) →
        Even n) := by
    rcases hn.lt_or_eq with hlt' | heq
    · have hnext : (F.value (j * 2 ^ F.mantbits + n + 1) : K) = (n + 1) * (4 * s) := by
        rw [Nat.add_assoc, F.value_grid hlt' (hj.imp_right Nat.le_succ_of_le), hunit]
        push_cast
        rfl
      rw [hvalue, hnext]
      have hsum : (n : K) * (4 * s) + (n + 1) * (4 * s) = (2 * n + 1) * (4 * s) := by ring
      rw [hsum]
      exact ⟨hnear.le, hnear.le_tie⟩
    · -- the carry into the next binade: `x` is not above it
      have hx := h.le_of_le (n := 2 * n) hs (by omega)
      push_cast at hx
      exact ⟨by linarith, fun htie => by linarith⟩
  have hdown : ∀ a, a + 1 = j * 2 ^ F.mantbits + n →
      F.value a + F.value (j * 2 ^ F.mantbits + n) ≤ 2 * x ∧
        (F.value a + F.value (j * 2 ^ F.mantbits + n) = 2 * x → Even n) := by
    intro a ha
    by_cases hleast : j = 0 ∨ 2 ^ F.mantbits < n
    · obtain ⟨k, rfl⟩ : ∃ k, n = k + 1 := by
        refine Nat.exists_eq_add_of_le' ?_
        rcases hleast with rfl | hlt'
        · omega
        · omega
      obtain rfl : a = j * 2 ^ F.mantbits + k := by omega
      have hprev : (F.value (j * 2 ^ F.mantbits + k) : K) = k * (4 * s) := by
        rw [F.value_grid (by omega) (hleast.imp_right Nat.le_of_lt_succ), hunit]
      have hsum : (k : K) * (4 * s) + (k + 1 : ℕ) * (4 * s) = (2 * (k + 1 : ℕ) - 1) * (4 * s) := by
        push_cast
        ring
      rw [hvalue, hprev, hsum]
      exact ⟨hnear.ge, hnear.ge_tie⟩
    · -- the least number of a binade: `x` is not below it
      rw [not_or] at hleast
      have hx := h.ge_of_ge (n := 2 * n) hs (by have := hnormal.resolve_left hleast.1; omega)
      have hlt' := F.value_lt_succ (K := K) a
      rw [ha] at hlt'
      push_cast at hx
      exact ⟨by linarith, fun htie => by linarith⟩
  exact F.isNearest_of_neighbours hup.1 (fun h => heven (hup.2 h)) (fun a ha => (hdown a ha).1)
    fun a ha h => heven ((hdown a ha).2 h)

end BinaryFloat
