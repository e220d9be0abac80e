import Mathlib.Tactic.Common
import Mathlib.Algebra.Order.Ring.Nat

/-!
# Rounding up to a multiple

`Align.up n a` is the least multiple of `a` that is not below `n`. Shifting by a multiple of the
alignment commutes with it (`Align.add_up`), so the padding in front of an aligned address depends
on the offset in an aligned block only.
-/

namespace Align

/-- The least multiple of `a` from `n` on. -/
def up (n a : ℕ) : ℕ := (n + (a - 1)) / a * a

variable {n m a k : ℕ}

theorem dvd_up (n a : ℕ) : a ∣ up n a := Nat.dvd_mul_left a _

theorem le_up (ha : 0 < a) (n : ℕ) : n ≤ up n a := by
  have := Nat.lt_div_mul_add (a := n + (a - 1)) ha
  rw [up]
  omega

theorem up_lt (ha : 0 < a) (n : ℕ) : up n a < n + a := by
  have := Nat.div_mul_le_self (n + (a - 1)) a
  rw [up]
  omega

theorem up_le (ha : 0 < a) (hm : a ∣ m) (h : n ≤ m) : up n a ≤ m := by
  obtain ⟨q, rfl⟩ := hm
  rw [up, Nat.mul_comm a q]
  refine Nat.mul_le_mul_right a (Nat.lt_succ_iff.mp ((Nat.div_lt_iff_lt_mul ha).mpr ?_))
  rw [Nat.succ_mul, Nat.mul_comm q a]
  omega

theorem up_of_dvd (ha : 0 < a) (h : a ∣ n) : up n a = n :=
  le_antisymm (up_le ha h le_rfl) (le_up ha n)

/-- A multiple of the alignment in front does not change the padding. -/
theorem add_up (ha : 0 < a) (h : a ∣ k) : up (k + n) a = k + up n a := by
  obtain ⟨q, rfl⟩ := h
  rw [up, up, Nat.add_assoc, Nat.mul_add_div ha, Nat.add_mul, Nat.mul_comm q a]

end Align
