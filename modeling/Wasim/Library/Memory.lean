import Mathlib.Data.Set.Function
import Mathlib.Order.Interval.Finset.Nat

/-!
# Memories

A memory is a function of addresses. `write m lo n f` puts the first `n` values of `f` at the
address `lo`; filling and copying are writes, so one rule says what they leave alone
(`eqOn_write`). A copy takes its values from the memory as it was, so the two ranges may overlap.
-/

namespace Memory

variable {β : Type*} {m : ℕ → β} {f : ℕ → β} {z : β} {lo n i k src dst j : ℕ}

def write (m : ℕ → β) (lo n : ℕ) (f : ℕ → β) : ℕ → β :=
  fun i => if lo ≤ i ∧ i < lo + n then f (i - lo) else m i

def fill (m : ℕ → β) (lo n : ℕ) (z : β) : ℕ → β := write m lo n fun _ => z

/-- The `n` values from `src` on are put at `dst`. -/
def copy (m : ℕ → β) (dst src n : ℕ) : ℕ → β := write m dst n fun k => m (src + k)

theorem write_add (h : i < n) : write m lo n f (lo + i) = f i := by
  rw [write, if_pos (by omega), Nat.add_sub_cancel_left]

theorem write_of_notMem (h : i ∉ Finset.Ico lo (lo + n)) : write m lo n f i = m i := by
  rw [Finset.mem_Ico] at h
  rw [write, if_neg h]

theorem eqOn_write {s : Finset ℕ} (h : Disjoint (Finset.Ico lo (lo + n)) s) :
    Set.EqOn (write m lo n f) m s :=
  fun _ hi => write_of_notMem (Finset.disjoint_right.mp h hi)

theorem fill_zero : fill m lo 0 z = m := by
  funext i
  exact write_of_notMem (by simp)

/-- A range of `n` addresses is filled from `j` on, and the values of a range of length `k` are
copied to its start. -/
def move (m : ℕ → β) (dst n j : ℕ) (z : β) (src k : ℕ) : ℕ → β :=
  copy (fill m (dst + j) (n - j) z) dst src (min n k)

/-- If the part that is filled lies off the source and starts in front of its length, the values
of the source are followed by the one that is filled in. -/
theorem move_spec (hj : j ≤ k)
    (hoff : Disjoint (Finset.Ico (dst + j) (dst + n)) (Finset.Ico src (src + k))) :
    (∀ i < min n k, move m dst n j z src k (dst + i) = m (src + i)) ∧
      (∀ i, k ≤ i → i < n → move m dst n j z src k (dst + i) = z) ∧
      ∀ i ∉ Finset.Ico dst (dst + n), move m dst n j z src k i = m i := by
  refine ⟨fun i hi => ?_, fun i hk hn => ?_, fun i hi => ?_⟩
  · rw [move, copy, write_add hi, fill]
    refine write_of_notMem fun hmem => ?_
    have hsrc : src + i ∈ Finset.Ico src (src + k) := Finset.mem_Ico.mpr (by omega)
    refine Finset.disjoint_right.mp hoff hsrc (Finset.mem_Ico.mpr ?_)
    rw [Finset.mem_Ico] at hmem
    omega
  · have hfill : dst + i = dst + j + (i - j) := by omega
    rw [move, copy, write_of_notMem (by rw [Finset.mem_Ico]; omega), fill, hfill,
      write_add (by omega)]
  · rw [Finset.mem_Ico] at hi
    rw [move, copy, write_of_notMem (by rw [Finset.mem_Ico]; omega), fill,
      write_of_notMem (by rw [Finset.mem_Ico]; omega)]

end Memory
