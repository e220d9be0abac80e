import Mathlib.Data.Nat.Bitwise
import Wasim.Binary.ReaderSpec

/-!
# The integers of the format

The format writes an integer of `N` bits in at most `⌈N / 7⌉` bytes of LEB128. In the last byte
of an encoding of full length some bits are left over: they are zero in an unsigned integer and
repeat the sign in a signed one. The readers check none of that. They decode 128 bits, count the
bytes and test the range, which comes to the same: `LebType.read_iff`.
-/

namespace Wasim

/-- The integers that are read from LEB128. -/
inductive LebType where
  | u32
  | u64
  | i32
  | i64
  deriving DecidableEq, Repr

namespace LebType

def bits : LebType → ℕ
  | u32 => 32
  | u64 => 64
  | i32 => 32
  | i64 => 64

def isSigned : LebType → Bool
  | u32 => false
  | u64 => false
  | i32 => true
  | i64 => true

/-- The reader of the type, its value as an integer. -/
def read (T : LebType) (ctx : BinReadCtx) : ReadResult ℤ :=
  match T with
  | u32 => (binReadU32Leb ctx).map fun v => (v.toNat : ℤ)
  | u64 => (binReadU64Leb ctx).map fun v => (v.toNat : ℤ)
  | i32 => binReadI32Leb ctx
  | i64 => binReadI64Leb ctx

def maxBytes (T : LebType) : ℕ := (T.bits + 6) / 7

/-- The bits of the type in the last byte of an encoding of full length. -/
def lastBits (T : LebType) : ℕ := T.bits - 7 * (T.maxBytes - 1)

/-- The bits left over in the last byte are zero, or repeat the sign. -/
def Padded (T : LebType) (last : UInt8) : Prop :=
  ∀ i, T.lastBits ≤ i → i < 7 →
    last.toNat.testBit i = (T.isSigned && last.toNat.testBit (T.lastBits - 1))

/-- The value of an encoding. -/
def value (T : LebType) (init : List UInt8) (last : UInt8) : ℤ :=
  if T.isSigned then Leb128.signedValue init last else Leb128.septets (init ++ [last])

/-- The encodings of the type. -/
def Encodes (T : LebType) : Encoding ℤ := fun v bs =>
  ∃ init last, bs = init ++ [last] ∧ (∀ b ∈ init, 128 ≤ b.toNat) ∧ last.toNat < 128 ∧
    bs.length ≤ T.maxBytes ∧ (bs.length = T.maxBytes → T.Padded last) ∧ v = T.value init last

/-! ### The padding and the range -/

/-- The values of the type. -/
def InRange (T : LebType) (v : ℤ) : Prop :=
  if T.isSigned then -2 ^ (T.bits - 1) ≤ v ∧ v < 2 ^ (T.bits - 1) else 0 ≤ v ∧ v < 2 ^ T.bits

/-- The septet of the last byte as the type takes it. -/
def lastValue (T : LebType) (last : UInt8) : ℤ :=
  last.toNat - if T.isSigned ∧ 64 ≤ last.toNat then 128 else 0

/-- The septet of a last byte, in the range that the bits of the type leave to it. -/
def LastInRange (T : LebType) (last : UInt8) : Prop :=
  if T.isSigned then
    -2 ^ (T.lastBits - 1) ≤ T.lastValue last ∧ T.lastValue last < 2 ^ (T.lastBits - 1)
  else T.lastValue last < 2 ^ T.lastBits

instance (T : LebType) (last : UInt8) : Decidable (T.Padded last) :=
  decidable_of_iff (∀ i < 7, T.lastBits ≤ i →
    last.toNat.testBit i = (T.isSigned && last.toNat.testBit (T.lastBits - 1)))
    ⟨fun h i hle hlt => h i hlt hle, fun h i hlt hle => h i hle hlt⟩

instance (T : LebType) (last : UInt8) : Decidable (T.LastInRange last) := by
  rw [LastInRange]
  infer_instance

theorem padded_iff (T : LebType) {last : UInt8} (hlast : last.toNat < 128) :
    T.Padded last ↔ T.LastInRange last := by
  have hall : ∀ T ∈ [u32, u64, i32, i64], ∀ last : UInt8, last.toNat < 128 →
      (T.Padded last ↔ T.LastInRange last) := by
    intro T hT
    refine forall_byte ?_
    revert T
    decide +kernel
  exact hall T (by cases T <;> simp) last hlast

theorem value_eq (T : LebType) (init : List UInt8) {last : UInt8} (hlast : last.toNat < 128) :
    T.value init last = Leb128.septets init + 2 ^ (7 * init.length) * T.lastValue last := by
  rw [value, lastValue, Leb128.signedValue, Leb128.septets_append_singleton,
    Nat.mod_eq_of_lt hlast, show 7 * (init.length + 1) = 7 * init.length + 7 by omega, pow_add]
  push_cast
  rcases T.isSigned with _ | _
  · simp
  · simp only [true_and, if_true]
    split <;> ring

/-- A number below `P` on top of a multiple of `P` is bounded by the multiple. -/
private theorem add_mul_lt_iff {P s x m : ℤ} (h0 : 0 ≤ s) (hs : s < P) :
    s + P * x < P * m ↔ x < m := by
  constructor
  · intro h
    by_contra hle
    have := Int.mul_le_mul_of_nonneg_left (not_lt.mp hle) (h0.trans hs.le)
    omega
  · intro h
    have := Int.mul_le_mul_of_nonneg_left (show x + 1 ≤ m from h) (h0.trans hs.le)
    rw [mul_add, mul_one] at this
    omega

theorem lastValue_range (T : LebType) {last : UInt8} (hlast : last.toNat < 128) :
    if T.isSigned then -2 ^ 6 ≤ T.lastValue last ∧ T.lastValue last < 2 ^ 6
    else 0 ≤ T.lastValue last ∧ T.lastValue last < 2 ^ 7 := by
  rw [lastValue]
  rcases T.isSigned with _ | _
  · simp
    omega
  · simp only [true_and, if_true]
    split <;> omega

theorem value_nonneg {T : LebType} (h : T.isSigned = false) (init : List UInt8) (last : UInt8) :
    0 ≤ T.value init last := by
  rw [value, if_neg (by simp [h])]
  exact Int.natCast_nonneg _

section Range

variable {T : LebType} {init : List UInt8} {last : UInt8} (hlast : last.toNat < 128)

include hlast

/-- The last byte decides whether a value is below a power of two. -/
theorem value_lt_iff (e : ℕ) :
    T.value init last < 2 ^ (7 * init.length + e) ↔ T.lastValue last < 2 ^ e := by
  have hseptets : ((Leb128.septets init : ℕ) : ℤ) < 2 ^ (7 * init.length) := by
    exact_mod_cast Leb128.septets_lt init
  rw [T.value_eq init hlast, pow_add, add_mul_lt_iff (Int.natCast_nonneg _) hseptets]

theorem le_value_iff (e : ℕ) :
    -2 ^ (7 * init.length + e) ≤ T.value init last ↔ -2 ^ e ≤ T.lastValue last := by
  have hseptets : ((Leb128.septets init : ℕ) : ℤ) < 2 ^ (7 * init.length) := by
    exact_mod_cast Leb128.septets_lt init
  rw [T.value_eq init hlast, pow_add, ← mul_neg, ← not_lt,
    add_mul_lt_iff (Int.natCast_nonneg _) hseptets, not_lt]

/-- An encoding has a value of the type exactly if its last byte is padded. -/
theorem inRange_value_iff (hlen : init.length + 1 ≤ T.maxBytes) :
    T.InRange (T.value init last) ↔ (init.length + 1 = T.maxBytes → T.Padded last) := by
  have hrange := T.lastValue_range hlast
  rcases Nat.lt_or_eq_of_le hlen with hshort | hfull
  · -- too few septets to leave the range
    refine iff_of_true ?_ fun h => absurd h hshort.ne
    have hbits : 7 * init.length + 7 ≤ T.bits := by
      revert hshort
      cases T <;> simp only [maxBytes, bits] <;> omega
    rcases hs : T.isSigned with _ | _
    · rw [if_neg (by simp [hs])] at hrange
      rw [InRange, if_neg (by simp [hs])]
      exact ⟨value_nonneg hs _ _, ((value_lt_iff hlast 7).mpr hrange.2).trans_le
        (pow_le_pow_right₀ (by norm_num) hbits)⟩
    · rw [if_pos hs] at hrange
      rw [InRange, if_pos hs]
      have hpow : (2 : ℤ) ^ (7 * init.length + 6) ≤ 2 ^ (T.bits - 1) :=
        pow_le_pow_right₀ (by norm_num) (by omega)
      exact ⟨(neg_le_neg hpow).trans ((le_value_iff hlast 6).mpr hrange.1),
        ((value_lt_iff hlast 6).mpr hrange.2).trans_le hpow⟩
  · rw [padded_iff T hlast, InRange, LastInRange, imp_iff_right hfull]
    rcases hs : T.isSigned with _ | _
    · have hbits : T.bits = 7 * init.length + T.lastBits := by
        revert hfull
        cases T <;> simp only [maxBytes, bits, lastBits] <;> omega
      rw [hbits, value_lt_iff hlast]
      simp only [Bool.false_eq_true, if_false, and_iff_right (value_nonneg hs _ _)]
    · have hbits : T.bits - 1 = 7 * init.length + (T.lastBits - 1) := by
        revert hfull
        cases T <;> simp only [maxBytes, bits, lastBits] <;> omega
      rw [hbits, value_lt_iff hlast, le_value_iff hlast]
      simp only [if_true]

end Range

/-- The encodings by their padding are those by their range. -/
theorem encodes_iff (T : LebType) (v : ℤ) (bs : List UInt8) :
    T.Encodes v bs ↔ (if T.isSigned then Leb128.Signed bs v
      else ∃ n : ℕ, v = n ∧ Leb128.Unsigned bs n) ∧ bs.length ≤ T.maxBytes ∧ T.InRange v := by
  have hparts : (if T.isSigned then Leb128.Signed bs v
      else ∃ n : ℕ, v = n ∧ Leb128.Unsigned bs n) ↔
      ∃ init last, bs = init ++ [last] ∧ (∀ b ∈ init, 128 ≤ b.toNat) ∧ last.toNat < 128 ∧
        v = T.value init last := by
    simp only [value]
    split
    · exact Leb128.signed_iff
    · constructor
      · rintro ⟨n, rfl, h⟩
        obtain ⟨init, last, rfl, hinit, hlast, rfl⟩ := Leb128.unsigned_iff.mp h
        exact ⟨init, last, rfl, hinit, hlast, rfl⟩
      · rintro ⟨init, last, rfl, hinit, hlast, rfl⟩
        exact ⟨_, rfl, Leb128.unsigned_iff.mpr ⟨init, last, rfl, hinit, hlast, rfl⟩⟩
  rw [hparts]
  constructor
  · rintro ⟨init, last, rfl, hinit, hlast, hlen, hpadded, rfl⟩
    rw [List.length_append, List.length_singleton] at hlen hpadded
    exact ⟨⟨init, last, rfl, hinit, hlast, rfl⟩, by simpa using hlen,
      (inRange_value_iff hlast hlen).mpr hpadded⟩
  · rintro ⟨⟨init, last, rfl, hinit, hlast, rfl⟩, hlen, hrange⟩
    rw [List.length_append, List.length_singleton] at hlen
    refine ⟨init, last, rfl, hinit, hlast, by simpa using hlen, ?_, rfl⟩
    rw [List.length_append, List.length_singleton]
    exact (inRange_value_iff hlast hlen).mp hrange

/-! ### The readers -/

theorem read_reads (T : LebType) : Reads T.Encodes T.read := by
  intro v bs hv c r hrest
  obtain ⟨hbytes, hlen, hrange⟩ := (T.encodes_iff v bs).mp hv
  cases T with
  | i32 => exact binReadIXXLeb_reads 32 (by omega) "i32" ⟨hbytes, hlen, hrange⟩ hrest
  | i64 => exact binReadIXXLeb_reads 64 (by omega) "i64" ⟨hbytes, hlen, hrange⟩ hrest
  | u32 =>
    obtain ⟨n, rfl, hn⟩ := hbytes
    have hlt : n < 2 ^ 32 := by exact_mod_cast hrange.2
    have hread := binReadUXXLeb_reads 32 (by omega) "u32" ⟨hn, hlen, hlt⟩ hrest
    rw [read, binReadU32Leb, hread, ReadResult.map, ReadResult.map,
      UInt32.toNat_ofNat_of_lt' hlt]
  | u64 =>
    obtain ⟨n, rfl, hn⟩ := hbytes
    have hlt : n < 2 ^ 64 := by exact_mod_cast hrange.2
    have hread := binReadUXXLeb_reads 64 (by omega) "u64" ⟨hn, hlen, hlt⟩ hrest
    rw [read, binReadU64Leb, hread, ReadResult.map, ReadResult.map,
      UInt64.toNat_ofNat_of_lt' hlt]

theorem read_accepts (T : LebType) {c : BinReadCtx} (hok : (T.read c).ok = true) :
    ∃ v bs r, T.Encodes v bs ∧ c.rest = bs ++ r := by
  cases T with
  | i32 =>
    obtain ⟨bs, r, hrest, hv, -⟩ := binReadIXXLeb_accepts 32 "i32" hok
    exact ⟨_, bs, r, (encodes_iff _ _ _).mpr ⟨hv.1, hv.2.1, hv.2.2⟩, hrest⟩
  | i64 =>
    obtain ⟨bs, r, hrest, hv, -⟩ := binReadIXXLeb_accepts 64 "i64" hok
    exact ⟨_, bs, r, (encodes_iff _ _ _).mpr ⟨hv.1, hv.2.1, hv.2.2⟩, hrest⟩
  | u32 =>
    obtain ⟨bs, r, hrest, hv, -⟩ := binReadUXXLeb_accepts 32 "u32" (c := c) hok
    exact ⟨_, bs, r, (encodes_iff _ _ _).mpr ⟨⟨_, rfl, hv.1⟩, hv.2.1,
      Int.natCast_nonneg _, by exact_mod_cast hv.2.2⟩, hrest⟩
  | u64 =>
    obtain ⟨bs, r, hrest, hv, -⟩ := binReadUXXLeb_accepts 64 "u64" (c := c) hok
    exact ⟨_, bs, r, (encodes_iff _ _ _).mpr ⟨⟨_, rfl, hv.1⟩, hv.2.1,
      Int.natCast_nonneg _, by exact_mod_cast hv.2.2⟩, hrest⟩

/-- A reader that fails leaves a diagnostic and nothing else. -/
theorem read_fails (T : LebType) (c : BinReadCtx) (h : (T.read c).ok = false) :
    ∃ d, (T.read c).ctx = { c with diags := c.diags ++ [d] } := by
  have hu : ∀ bits tName, (binReadUXXLeb bits tName c).ok = false →
      ∃ d, (binReadUXXLeb bits tName c).ctx = { c with diags := c.diags ++ [d] } := by
    intro bits tName hok
    simp only [binReadUXXLeb] at hok ⊢
    split at hok
    · split at hok
      · split at hok
        · cases hok
        · rw [if_pos ‹_›, if_neg ‹_›]
          exact ⟨_, rfl⟩
      · rw [if_neg ‹_›]
        exact ⟨_, rfl⟩
    · exact ⟨_, rfl⟩
    · exact ⟨_, rfl⟩
  have hi : ∀ bits tName, (binReadIXXLeb bits tName c).ok = false →
      ∃ d, (binReadIXXLeb bits tName c).ctx = { c with diags := c.diags ++ [d] } := by
    intro bits tName hok
    simp only [binReadIXXLeb] at hok ⊢
    split at hok
    · split at hok
      · split at hok
        · cases hok
        · rw [if_pos ‹_›, if_neg ‹_›]
          exact ⟨_, rfl⟩
      · rw [if_neg ‹_›]
        exact ⟨_, rfl⟩
    · exact ⟨_, rfl⟩
    · exact ⟨_, rfl⟩
  cases T with
  | u32 => exact hu 32 "u32" h
  | u64 => exact hu 64 "u64" h
  | i32 => exact hi 32 "i32" h
  | i64 => exact hi 64 "i64" h

/-- **The integers of the format.** A reader succeeds exactly on a context that starts with an
encoding of its type; then it returns the value and stands behind the encoding. Otherwise it
leaves one diagnostic and the context as it was. -/
theorem read_iff (T : LebType) (c : BinReadCtx) :
    ((T.read c).ok = true ↔ ∃ v bs r, T.Encodes v bs ∧ c.rest = bs ++ r) ∧
      (∀ v bs r, T.Encodes v bs → c.rest = bs ++ r →
        T.read c = ⟨v, true, c.advance bs.length⟩) ∧
      ((T.read c).ok = false → ∃ d, (T.read c).ctx = { c with diags := c.diags ++ [d] }) := by
  refine ⟨⟨T.read_accepts, ?_⟩, fun v bs r hv hrest => T.read_reads hv hrest, T.read_fails c⟩
  rintro ⟨v, bs, r, hv, hrest⟩
  rw [T.read_reads hv hrest]

/-- The least `i32` takes five bytes, its last byte padded with the sign. -/
example : (i32.read { data := [0x80, 0x80, 0x80, 0x80, 0x78] }).value = -2 ^ 31 := by
  decide +kernel

end LebType

end Wasim
