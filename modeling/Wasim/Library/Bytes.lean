import Mathlib.Tactic.Ring
import Mathlib.Data.UInt

/-!
# Bytes and little-endian byte strings

`LittleEndian.bytes w v` writes the `w` low bytes of `v`, least significant first, and
`LittleEndian.value` reads a byte string back. The two are inverse to each other on strings of
the right width. A decidable property of a byte is decided over its 256 values
(`forall_byte`).
-/

/-- A property that holds of the 256 values holds of every byte. -/
theorem forall_byte {p : UInt8 → Prop} (h : ∀ n : Fin 256, p (UInt8.ofNat n)) :
    ∀ b, p b := by
  intro b
  have hb := h ⟨b.toNat, b.toNat_lt⟩
  rwa [UInt8.ofNat_toNat] at hb

namespace LittleEndian

/-- The `w` low bytes of `v`, least significant first. -/
def bytes : ℕ → ℕ → List UInt8
  | 0, _ => []
  | w + 1, v => UInt8.ofNat v :: bytes w (v / 256)

/-- The number a byte string spells. -/
def value : List UInt8 → ℕ
  | [] => 0
  | b :: bs => b.toNat + 256 * value bs

@[simp]
theorem length_bytes (w v : ℕ) : (bytes w v).length = w := by
  induction w generalizing v with
  | zero => rfl
  | succ w ih => simp [bytes, ih]

theorem value_lt (bs : List UInt8) : value bs < 256 ^ bs.length := by
  induction bs with
  | nil => simp [value]
  | cons b bs ih =>
    have hb : b.toNat < 256 := b.toNat_lt
    rw [value, List.length_cons, pow_succ]
    omega

@[simp]
theorem value_bytes (w v : ℕ) : value (bytes w v) = v % 256 ^ w := by
  induction w generalizing v with
  | zero => simp [bytes, value, Nat.mod_one]
  | succ w ih =>
    rw [bytes, value, ih, pow_succ, Nat.mul_comm (256 ^ w) 256, Nat.mod_mul]
    simp

/-- Writing the value of a byte string gives the string back. -/
theorem bytes_value (bs : List UInt8) : bytes bs.length (value bs) = bs := by
  induction bs with
  | nil => rfl
  | cons b bs ih =>
    have hb : b.toNat < 256 := b.toNat_lt
    rw [value, List.length_cons, bytes]
    congr 1
    · apply UInt8.toNat_inj.mp
      rw [UInt8.toNat_ofNat']
      omega
    · rw [show (b.toNat + 256 * value bs) / 256 = value bs by omega, ih]

end LittleEndian
