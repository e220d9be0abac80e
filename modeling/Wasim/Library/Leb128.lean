import Mathlib.Tactic.Ring
import Mathlib.Tactic.Linarith
import Mathlib.Tactic.NormNum
import Mathlib.Data.Nat.Cast.Basic
import Mathlib.Data.UInt

/-!
# LEB128

The variable-length integer format: seven payload bits per byte, least significant septet
first, the top bit of a byte set exactly when another byte follows. `Unsigned bs v` and
`Signed bs v` say that `bs` is *an* encoding of `v`; a value has many, since the last septet
may be padded.

The decoders work over a 128-bit result and so over at most 19 bytes. They are tied to the
format from both sides: what they accept is an encoding (`decodeUnsigned_sound`), and an
encoding of at most 18 bytes is accepted, wherever it stands
(`decodeUnsigned_complete`); likewise for the signed format.
-/

namespace Leb128

/-- `Unsigned bs v`: the bytes `bs` encode the natural number `v`. -/
inductive Unsigned : List UInt8 → ℕ → Prop
  | last {b : UInt8} (h : b.toNat < 128) : Unsigned [b] b.toNat
  | more {b : UInt8} {bs : List UInt8} {v : ℕ} (h : 128 ≤ b.toNat) (hbs : Unsigned bs v) :
      Unsigned (b :: bs) (b.toNat - 128 + 128 * v)

/-- `Signed bs v`: the bytes `bs` encode the integer `v` in two's complement; the second
highest bit of the last byte is the sign. -/
inductive Signed : List UInt8 → ℤ → Prop
  | pos {b : UInt8} (h : b.toNat < 64) : Signed [b] b.toNat
  | neg {b : UInt8} (hl : 64 ≤ b.toNat) (hr : b.toNat < 128) : Signed [b] (b.toNat - 128)
  | more {b : UInt8} {bs : List UInt8} {v : ℤ} (h : 128 ≤ b.toNat) (hbs : Signed bs v) :
      Signed (b :: bs) (b.toNat - 128 + 128 * v)

/-- The format is prefix-free: an encoding determines its value and where it ends. -/
theorem Unsigned.prefix_unique {bs cs r s : List UInt8} {v w : ℕ} (hv : Unsigned bs v)
    (hw : Unsigned cs w) (h : bs ++ r = cs ++ s) : bs = cs ∧ v = w := by
  induction hv generalizing cs w with
  | @last b hb =>
    cases hw with
    | last _ =>
      obtain ⟨rfl, -⟩ := List.cons.inj h
      exact ⟨rfl, rfl⟩
    | more hc _ =>
      obtain ⟨rfl, -⟩ := List.cons.inj h
      omega
  | more hb _ ih =>
    cases hw with
    | last hc =>
      obtain ⟨rfl, -⟩ := List.cons.inj h
      omega
    | more hc hcs =>
      obtain ⟨rfl, htl⟩ := List.cons.inj h
      obtain ⟨rfl, rfl⟩ := ih hcs htl
      exact ⟨rfl, rfl⟩

/-! ### Septets -/

/-- The payload bits of some bytes as one number, the first byte lowest. -/
def septets : List UInt8 → ℕ
  | [] => 0
  | b :: bs => b.toNat % 128 + 128 * septets bs

theorem septets_lt (bs : List UInt8) : septets bs < 2 ^ (7 * bs.length) := by
  induction bs with
  | nil => exact Nat.one_pos
  | cons b bs ih =>
    rw [septets, List.length_cons, show 7 * (bs.length + 1) = 7 * bs.length + 7 by ring, pow_add]
    omega

theorem septets_append_singleton (init : List UInt8) (last : UInt8) :
    septets (init ++ [last]) = septets init + 2 ^ (7 * init.length) * (last.toNat % 128) := by
  induction init with
  | nil => simp [septets]
  | cons b bs ih =>
    rw [List.cons_append, septets, septets, ih, List.length_cons,
      show 7 * (bs.length + 1) = 7 * bs.length + 7 by ring, pow_add]
    ring

/-- An encoding is read off its septets: all bytes but the last are continued. -/
theorem unsigned_iff {bs : List UInt8} {v : ℕ} :
    Unsigned bs v ↔ ∃ init last, bs = init ++ [last] ∧ (∀ b ∈ init, 128 ≤ b.toNat) ∧
      last.toNat < 128 ∧ v = septets bs := by
  constructor
  · intro h
    induction h with
    | @last b hb => exact ⟨[], b, rfl, nofun, hb, by rw [septets, septets]; omega⟩
    | @more b bs v hb _ ih =>
      obtain ⟨init, last, rfl, hinit, hlast, rfl⟩ := ih
      have hbyte := b.toNat_lt
      exact ⟨b :: init, last, rfl, List.forall_mem_cons.mpr ⟨hb, hinit⟩, hlast,
        by rw [septets]; omega⟩
  · rintro ⟨init, last, rfl, hinit, hlast, rfl⟩
    induction init with
    | nil =>
      have hvalue : septets [last] = last.toNat := by rw [septets, septets]; omega
      rw [List.nil_append, hvalue]
      exact .last hlast
    | cons b init ih =>
      obtain ⟨hb, hinit⟩ := List.forall_mem_cons.mp hinit
      have hbyte := b.toNat_lt
      have hvalue : septets (b :: init ++ [last]) =
          b.toNat - 128 + 128 * septets (init ++ [last]) := by
        rw [List.cons_append, septets]
        omega
      rw [hvalue]
      exact .more hb (ih hinit)

/-- The signed value of an encoding: bit 6 of the last byte counts negative. -/
def signedValue (init : List UInt8) (last : UInt8) : ℤ :=
  septets (init ++ [last]) - if 64 ≤ last.toNat then 2 ^ (7 * (init.length + 1)) else 0

theorem signedValue_cons (b : UInt8) (init : List UInt8) (last : UInt8) :
    signedValue (b :: init) last = (b.toNat % 128 : ℕ) + 128 * signedValue init last := by
  rw [signedValue, signedValue, List.cons_append, septets, List.length_cons,
    show 7 * (init.length + 1 + 1) = 7 * (init.length + 1) + 7 by ring, pow_add]
  push_cast
  split <;> ring

theorem signed_iff {bs : List UInt8} {v : ℤ} :
    Signed bs v ↔ ∃ init last, bs = init ++ [last] ∧ (∀ b ∈ init, 128 ≤ b.toNat) ∧
      last.toNat < 128 ∧ v = signedValue init last := by
  have hsingle : ∀ last : UInt8, last.toNat < 128 →
      signedValue [] last = last.toNat - if 64 ≤ last.toNat then 128 else 0 := by
    intro last hlast
    rw [signedValue, List.nil_append, septets, septets, Nat.mod_eq_of_lt hlast]
    simp
  constructor
  · intro h
    induction h with
    | @pos b hb =>
      exact ⟨[], b, rfl, nofun, by omega, by rw [hsingle b (by omega), if_neg (by omega)]; simp⟩
    | @neg b hl hr => exact ⟨[], b, rfl, nofun, hr, by rw [hsingle b hr, if_pos hl]⟩
    | @more b bs v hb _ ih =>
      obtain ⟨init, last, rfl, hinit, hlast, rfl⟩ := ih
      have hbyte := b.toNat_lt
      refine ⟨b :: init, last, rfl, List.forall_mem_cons.mpr ⟨hb, hinit⟩, hlast, ?_⟩
      rw [signedValue_cons]
      omega
  · rintro ⟨init, last, rfl, hinit, hlast, rfl⟩
    induction init with
    | nil =>
      rw [hsingle last hlast]
      split
      · exact .neg ‹_› hlast
      · rw [sub_zero]
        exact .pos (by omega)
    | cons b init ih =>
      obtain ⟨hb, hinit⟩ := List.forall_mem_cons.mp hinit
      have hbyte := b.toNat_lt
      have hvalue : signedValue (b :: init) last = b.toNat - 128 + 128 * signedValue init last := by
        rw [signedValue_cons]
        omega
      rw [hvalue]
      exact .more hb (ih hinit)

/-! ### The decoders -/

/-- Why a decoder gave up: the buffer ends inside a number, or the number does not fit the
128-bit result. -/
inductive Error where
  | bufferTooSmall
  | valueTooLarge
  deriving DecidableEq, Repr

/-- The number of bytes a 128-bit value can take: 18 full septets and two bits more. -/
def maxBytes : ℕ := 19

/-- The unsigned decoder after `offset` bytes, whose septets add up to `acc`. Returns the
value and the number of bytes it took. -/
def decodeUnsignedFrom (acc offset : ℕ) : List UInt8 → Except Error (ℕ × ℕ)
  | [] => .error .bufferTooSmall
  | b :: bs =>
    if maxBytes < offset + 1 ∨ offset + 1 = maxBytes ∧ 3 < b.toNat then
      .error .valueTooLarge
    else if b.toNat < 128 then .ok (acc + b.toNat * 2 ^ (7 * offset), offset + 1)
    else decodeUnsignedFrom (acc + (b.toNat - 128) * 2 ^ (7 * offset)) (offset + 1) bs

/-- Decode the unsigned number at the start of a buffer. -/
def decodeUnsigned (bs : List UInt8) : Except Error (ℕ × ℕ) := decodeUnsignedFrom 0 0 bs

/-- The signed decoder after `offset` bytes. The last byte extends the sign; in the 19th one
only two bits are left, so the others have to repeat the sign. -/
def decodeSignedFrom (acc : ℤ) (offset : ℕ) : List UInt8 → Except Error (ℤ × ℕ)
  | [] => .error .bufferTooSmall
  | b :: bs =>
    if maxBytes < offset + 1 ∨
        offset + 1 = maxBytes ∧ 2 ≤ b.toNat ∧ ¬(126 ≤ b.toNat ∧ b.toNat < 128)
    then .error .valueTooLarge
    else if b.toNat < 64 then .ok (acc + b.toNat * 2 ^ (7 * offset), offset + 1)
    else if b.toNat < 128 then .ok (acc + (b.toNat - 128) * 2 ^ (7 * offset), offset + 1)
    else decodeSignedFrom (acc + (b.toNat - 128) * 2 ^ (7 * offset)) (offset + 1) bs

/-- Decode the signed number at the start of a buffer. -/
def decodeSigned (bs : List UInt8) : Except Error (ℤ × ℕ) := decodeSignedFrom 0 0 bs

theorem decodeUnsignedFrom_sound {bs : List UInt8} {acc offset v n : ℕ}
    (h : decodeUnsignedFrom acc offset bs = .ok (v, n)) :
    ∃ cs rest w, bs = cs ++ rest ∧ Unsigned cs w ∧ n = offset + cs.length ∧
      v = acc + w * 2 ^ (7 * offset) := by
  induction bs generalizing acc offset with
  | nil => simp [decodeUnsignedFrom] at h
  | cons b bs ih =>
    rw [decodeUnsignedFrom] at h
    split at h
    · cases h
    · split at h
      · rename_i hb
        obtain ⟨rfl, rfl⟩ : acc + b.toNat * 2 ^ (7 * offset) = v ∧ offset + 1 = n := by
          simpa using h
        exact ⟨[b], bs, b.toNat, rfl, .last hb, rfl, rfl⟩
      · rename_i hb
        obtain ⟨cs, rest, w, rfl, hw, rfl, rfl⟩ := ih h
        refine ⟨b :: cs, rest, _, rfl, .more (Nat.le_of_not_lt hb) hw, ?_, ?_⟩
        · simp only [List.length_cons]
          omega
        · rw [show 7 * (offset + 1) = 7 * offset + 7 by ring, pow_add]
          ring

/-- What the unsigned decoder accepts is an encoding of the value it returns. -/
theorem decodeUnsigned_sound {bs : List UInt8} {v n : ℕ}
    (h : decodeUnsigned bs = .ok (v, n)) :
    ∃ cs rest, bs = cs ++ rest ∧ Unsigned cs v ∧ n = cs.length := by
  obtain ⟨cs, rest, w, hbs, hw, hn, hv⟩ := decodeUnsignedFrom_sound h
  simp only [Nat.zero_add, Nat.mul_zero, pow_zero, Nat.mul_one] at hn hv
  exact ⟨cs, rest, hbs, hv ▸ hw, hn⟩

theorem decodeUnsignedFrom_complete {cs : List UInt8} {w : ℕ} (hw : Unsigned cs w)
    (rest : List UInt8) (acc offset : ℕ) (hlen : offset + cs.length < maxBytes) :
    decodeUnsignedFrom acc offset (cs ++ rest) =
      .ok (acc + w * 2 ^ (7 * offset), offset + cs.length) := by
  induction hw generalizing acc offset with
  | last hb =>
    rw [List.singleton_append, decodeUnsignedFrom, if_neg, if_pos hb]
    · rfl
    · simp only [List.length_singleton] at hlen
      omega
  | more hb _ ih =>
    simp only [List.length_cons] at hlen
    rw [List.cons_append, decodeUnsignedFrom, if_neg (by omega), if_neg (by omega),
      ih _ _ (by omega)]
    simp only [List.length_cons, Except.ok.injEq, Prod.mk.injEq]
    refine ⟨?_, by omega⟩
    rw [show 7 * (offset + 1) = 7 * offset + 7 by ring, pow_add]
    ring

/-- An encoding of at most 18 bytes is decoded, whatever follows it. -/
theorem decodeUnsigned_complete {cs : List UInt8} {w : ℕ} (hw : Unsigned cs w)
    (rest : List UInt8) (hlen : cs.length < maxBytes) :
    decodeUnsigned (cs ++ rest) = .ok (w, cs.length) := by
  rw [decodeUnsigned, decodeUnsignedFrom_complete hw rest 0 0 (by omega)]
  simp

theorem decodeSignedFrom_sound {bs : List UInt8} {acc : ℤ} {offset : ℕ} {v : ℤ} {n : ℕ}
    (h : decodeSignedFrom acc offset bs = .ok (v, n)) :
    ∃ cs rest w, bs = cs ++ rest ∧ Signed cs w ∧ n = offset + cs.length ∧
      v = acc + w * 2 ^ (7 * offset) := by
  induction bs generalizing acc offset with
  | nil => simp [decodeSignedFrom] at h
  | cons b bs ih =>
    rw [decodeSignedFrom] at h
    split at h
    · cases h
    · split at h
      · rename_i hb
        obtain ⟨rfl, rfl⟩ : acc + (b.toNat : ℤ) * 2 ^ (7 * offset) = v ∧ offset + 1 = n := by
          simpa using h
        exact ⟨[b], bs, b.toNat, rfl, .pos hb, rfl, rfl⟩
      · rename_i hl
        split at h
        · rename_i hr
          obtain ⟨rfl, rfl⟩ :
              acc + ((b.toNat : ℤ) - 128) * 2 ^ (7 * offset) = v ∧ offset + 1 = n := by
            simpa using h
          exact ⟨[b], bs, _, rfl, .neg (Nat.le_of_not_lt hl) hr, rfl, rfl⟩
        · rename_i hb
          obtain ⟨cs, rest, w, rfl, hw, rfl, rfl⟩ := ih h
          refine ⟨b :: cs, rest, _, rfl, .more (Nat.le_of_not_lt hb) hw, ?_, ?_⟩
          · simp only [List.length_cons]
            omega
          · rw [show 7 * (offset + 1) = 7 * offset + 7 by ring, pow_add]
            ring

/-- What the signed decoder accepts is an encoding of the value it returns. -/
theorem decodeSigned_sound {bs : List UInt8} {v : ℤ} {n : ℕ}
    (h : decodeSigned bs = .ok (v, n)) :
    ∃ cs rest, bs = cs ++ rest ∧ Signed cs v ∧ n = cs.length := by
  obtain ⟨cs, rest, w, hbs, hw, hn, hv⟩ := decodeSignedFrom_sound h
  simp only [zero_add, Nat.mul_zero, pow_zero, mul_one] at hn hv
  exact ⟨cs, rest, hbs, hv ▸ hw, by omega⟩

theorem decodeSignedFrom_complete {cs : List UInt8} {w : ℤ} (hw : Signed cs w)
    (rest : List UInt8) (acc : ℤ) (offset : ℕ) (hlen : offset + cs.length < maxBytes) :
    decodeSignedFrom acc offset (cs ++ rest) =
      .ok (acc + w * 2 ^ (7 * offset), offset + cs.length) := by
  induction hw generalizing acc offset with
  | pos hb =>
    simp only [List.length_singleton] at hlen
    rw [List.singleton_append, decodeSignedFrom, if_neg (by omega), if_pos hb]
    rfl
  | neg hl hr =>
    simp only [List.length_singleton] at hlen
    rw [List.singleton_append, decodeSignedFrom, if_neg (by omega), if_neg (by omega),
      if_pos hr]
    rfl
  | more hb _ ih =>
    simp only [List.length_cons] at hlen
    rw [List.cons_append, decodeSignedFrom, if_neg (by omega), if_neg (by omega),
      if_neg (by omega), ih _ _ (by omega)]
    simp only [List.length_cons, Except.ok.injEq, Prod.mk.injEq]
    refine ⟨?_, by omega⟩
    rw [show 7 * (offset + 1) = 7 * offset + 7 by ring, pow_add]
    ring

/-- An encoding of at most 18 bytes is decoded, whatever follows it. -/
theorem decodeSigned_complete {cs : List UInt8} {w : ℤ} (hw : Signed cs w)
    (rest : List UInt8) (hlen : cs.length < maxBytes) :
    decodeSigned (cs ++ rest) = .ok (w, cs.length) := by
  rw [decodeSigned, decodeSignedFrom_complete hw rest 0 0 (by omega)]
  simp

end Leb128
