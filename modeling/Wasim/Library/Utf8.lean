import Mathlib.Tactic.Common
import Mathlib.Tactic.NormNum

/-!
# UTF-8

The encoding of Unicode scalar values as bytes, and the decoder that reads one value from the
front of a byte string. Like the usual library decoders it never fails: at an invalid sequence
it returns the replacement character `U+FFFD` and consumes one byte, so a replacement character
of length three was really encoded in the input.
-/

namespace Utf8

/-- The replacement character. -/
def runeError : ℕ := 0xFFFD

/-- A Unicode scalar value: a code point that is not a surrogate. -/
def Scalar (c : ℕ) : Prop := c < 0xD800 ∨ (0xE000 ≤ c ∧ c < 0x110000)

instance (c : ℕ) : Decidable (Scalar c) := inferInstanceAs (Decidable (_ ∨ _))

/-- A byte in the range `lo` to `hi`. -/
def inRange (lo hi : ℕ) (b : UInt8) : Bool := lo ≤ b.toNat && b.toNat ≤ hi

/-- The range of a second byte, which excludes overlong forms, surrogates and values above
`U+10FFFF`. -/
def secondRange (b : UInt8) : ℕ × ℕ :=
  if b.toNat = 0xE0 then (0xA0, 0xBF)
  else if b.toNat = 0xED then (0x80, 0x9F)
  else if b.toNat = 0xF0 then (0x90, 0xBF)
  else if b.toNat = 0xF4 then (0x80, 0x8F)
  else (0x80, 0xBF)

/-- The rest of a value of two bytes that starts with `b`. -/
def decodeTwo (b : UInt8) : List UInt8 → ℕ × ℕ
  | b₁ :: _ =>
    if inRange 0x80 0xBF b₁ then (b.toNat % 32 * 64 + b₁.toNat % 64, 2) else (runeError, 1)
  | _ => (runeError, 1)

/-- The rest of a value of three bytes that starts with `b`. -/
def decodeThree (b : UInt8) : List UInt8 → ℕ × ℕ
  | b₁ :: b₂ :: _ =>
    if inRange (secondRange b).1 (secondRange b).2 b₁ && inRange 0x80 0xBF b₂ then
      (b.toNat % 16 * 4096 + b₁.toNat % 64 * 64 + b₂.toNat % 64, 3)
    else (runeError, 1)
  | _ => (runeError, 1)

/-- The rest of a value of four bytes that starts with `b`. -/
def decodeFour (b : UInt8) : List UInt8 → ℕ × ℕ
  | b₁ :: b₂ :: b₃ :: _ =>
    if inRange (secondRange b).1 (secondRange b).2 b₁ && inRange 0x80 0xBF b₂ &&
        inRange 0x80 0xBF b₃ then
      (b.toNat % 8 * 262144 + b₁.toNat % 64 * 4096 + b₂.toNat % 64 * 64 + b₃.toNat % 64, 4)
    else (runeError, 1)
  | _ => (runeError, 1)

/-- The first value of a byte string, and the number of bytes it takes. -/
def decodeRune : List UInt8 → ℕ × ℕ
  | [] => (runeError, 0)
  | b :: bs =>
    if b.toNat < 0x80 then (b.toNat, 1)
    else if inRange 0xC2 0xDF b then decodeTwo b bs
    else if inRange 0xE0 0xEF b then decodeThree b bs
    else if inRange 0xF0 0xF4 b then decodeFour b bs
    else (runeError, 1)

/-- The bytes of a scalar value. -/
def encodeRune (c : ℕ) : List UInt8 :=
  if c < 0x80 then [UInt8.ofNat c]
  else if c < 0x800 then [UInt8.ofNat (0xC0 + c / 64), UInt8.ofNat (0x80 + c % 64)]
  else if c < 0x10000 then
    [UInt8.ofNat (0xE0 + c / 4096), UInt8.ofNat (0x80 + c / 64 % 64), UInt8.ofNat (0x80 + c % 64)]
  else
    [UInt8.ofNat (0xF0 + c / 262144), UInt8.ofNat (0x80 + c / 4096 % 64),
      UInt8.ofNat (0x80 + c / 64 % 64), UInt8.ofNat (0x80 + c % 64)]

/-- A value takes at least one byte. -/
theorem decodeRune_length_pos (b : UInt8) (bs : List UInt8) : 1 ≤ (decodeRune (b :: bs)).2 := by
  rw [decodeRune]
  split_ifs
  · exact le_rfl
  · rw [decodeTwo.eq_def]
    split
    · split_ifs <;> simp
    · exact le_rfl
  · rw [decodeThree.eq_def]
    split
    · split_ifs <;> simp
    · exact le_rfl
  · rw [decodeFour.eq_def]
    split
    · split_ifs <;> simp
    · exact le_rfl
  · exact le_rfl

theorem decodeRune_length_le (bs : List UInt8) : (decodeRune bs).2 ≤ bs.length := by
  rcases bs with _ | ⟨b, bs⟩
  · exact le_rfl
  · rw [decodeRune, decodeTwo.eq_def, decodeThree.eq_def, decodeFour.eq_def]
    split_ifs
    · simp
    all_goals
      try split
      all_goals
        try split_ifs
        all_goals simp

/-- What the range of a second byte says about overlong forms. -/
theorem inRange_secondRange {b x : UInt8}
    (h : inRange (secondRange b).1 (secondRange b).2 x) :
    0x80 ≤ x.toNat ∧ x.toNat ≤ 0xBF ∧ (b.toNat = 0xE0 → 0xA0 ≤ x.toNat) ∧
      (b.toNat = 0xF0 → 0x90 ≤ x.toNat) := by
  rw [secondRange] at h
  split_ifs at h <;> simp only [inRange, Bool.and_eq_true, decide_eq_true_eq] at h <;> omega

/-- A byte that is not ASCII starts a value that is not, and all bytes of it are not. -/
theorem decodeRune_nonascii {b : UInt8} (h : 0x80 ≤ b.toNat) (bs : List UInt8) :
    0x80 ≤ (decodeRune (b :: bs)).1 ∧
      ∀ x ∈ (b :: bs).take (decodeRune (b :: bs)).2, 0x80 ≤ x.toNat := by
  have herror : 0x80 ≤ runeError ∧ ∀ x ∈ (b :: bs).take 1, 0x80 ≤ x.toNat := by
    simp [runeError, h]
  rw [decodeRune, if_neg (by omega)]
  split_ifs with h2 h3 h4
  · rw [decodeTwo.eq_def]
    split
    · rename_i b₁ _
      split_ifs with hb
      · simp only [inRange, Bool.and_eq_true, decide_eq_true_eq] at h2 hb
        simp only [List.take_succ_cons, List.take_zero, List.mem_cons, List.not_mem_nil, or_false,
          forall_eq_or_imp, forall_eq]
        omega
      · exact herror
    · exact herror
  · rw [decodeThree.eq_def]
    split
    · rename_i b₁ b₂ _
      split_ifs with hb
      · rw [Bool.and_eq_true] at hb
        have hsecond := inRange_secondRange hb.1
        simp only [inRange, Bool.and_eq_true, decide_eq_true_eq] at h3 hb
        simp only [List.take_succ_cons, List.take_zero, List.mem_cons, List.not_mem_nil, or_false,
          forall_eq_or_imp, forall_eq]
        omega
      · exact herror
    · exact herror
  · rw [decodeFour.eq_def]
    split
    · rename_i b₁ b₂ b₃ _
      split_ifs with hb
      · rw [Bool.and_eq_true, Bool.and_eq_true] at hb
        have hsecond := inRange_secondRange hb.1.1
        simp only [inRange, Bool.and_eq_true, decide_eq_true_eq] at h4 hb
        simp only [List.take_succ_cons, List.take_zero, List.mem_cons, List.not_mem_nil, or_false,
          forall_eq_or_imp, forall_eq]
        omega
      · exact herror
    · exact herror
  · exact herror

theorem toNat_ofNat {n : ℕ} (h : n < 256) : (UInt8.ofNat n).toNat = n :=
  UInt8.toNat_ofNat_of_lt' h

theorem decodeRune_ascii {b : UInt8} (h : b.toNat < 0x80) (bs : List UInt8) :
    decodeRune (b :: bs) = (b.toNat, 1) := by
  rw [decodeRune, if_pos h]

/-- Decoding undoes encoding. -/
theorem decodeRune_encodeRune {c : ℕ} (h : Scalar c) (bs : List UInt8) :
    decodeRune (encodeRune c ++ bs) = (c, (encodeRune c).length) := by
  have hc : c < 0x110000 := by rcases h with h | h <;> omega
  rw [encodeRune]
  split_ifs with h1 h2 h3
  · have hb := toNat_ofNat (show c < 256 by omega)
    rw [List.singleton_append, decodeRune_ascii (by rwa [hb]), hb]
    rfl
  · have hb := toNat_ofNat (show 0xC0 + c / 64 < 256 by omega)
    have hb₁ := toNat_ofNat (show 0x80 + c % 64 < 256 by omega)
    simp only [List.cons_append, List.nil_append, decodeRune, decodeTwo, inRange, hb, hb₁]
    rw [if_neg (by omega), if_pos (by simp; omega), if_pos (by simp; omega)]
    simp only [List.length_cons, List.length_nil]
    congr 1
    omega
  · have hb := toNat_ofNat (show 0xE0 + c / 4096 < 256 by omega)
    have hb₁ := toNat_ofNat (show 0x80 + c / 64 % 64 < 256 by omega)
    have hb₂ := toNat_ofNat (show 0x80 + c % 64 < 256 by omega)
    simp only [List.cons_append, List.nil_append, decodeRune, decodeThree, inRange,
      secondRange, hb, hb₁, hb₂]
    rw [if_neg (by omega), if_neg (by simp; omega), if_pos (by simp; omega), if_pos ?_]
    · simp only [List.length_cons, List.length_nil]
      congr 1
      omega
    · -- the second byte is in its range since the value is neither overlong nor a surrogate
      rcases h with h | h <;> split_ifs <;> simp <;> omega
  · have hb := toNat_ofNat (show 0xF0 + c / 262144 < 256 by omega)
    have hb₁ := toNat_ofNat (show 0x80 + c / 4096 % 64 < 256 by omega)
    have hb₂ := toNat_ofNat (show 0x80 + c / 64 % 64 < 256 by omega)
    have hb₃ := toNat_ofNat (show 0x80 + c % 64 < 256 by omega)
    simp only [List.cons_append, List.nil_append, decodeRune, decodeFour, inRange,
      secondRange, hb, hb₁, hb₂, hb₃]
    rw [if_neg (by omega), if_neg (by simp; omega), if_neg (by simp; omega),
      if_pos (by simp; omega), if_pos ?_]
    · simp only [List.length_cons, List.length_nil]
      congr 1
      omega
    · split_ifs <;> simp <;> omega

theorem encodeRune_ne_nil (c : ℕ) : encodeRune c ≠ [] := by
  rw [encodeRune]
  split_ifs <;> exact List.cons_ne_nil _ _

theorem ofNat_of_eq {n : ℕ} {b : UInt8} (h : n = b.toNat) : UInt8.ofNat n = b := by
  rw [h, UInt8.ofNat_toNat]

/-- What is decoded and not an error is the encoding of a scalar value. -/
theorem encodeRune_decodeRune {b : UInt8} {bs : List UInt8}
    (h : decodeRune (b :: bs) ≠ (runeError, 1)) :
    Scalar (decodeRune (b :: bs)).1 ∧
      encodeRune (decodeRune (b :: bs)).1 = (b :: bs).take (decodeRune (b :: bs)).2 := by
  have hb := b.toNat_lt
  rw [decodeRune] at h ⊢
  split_ifs at h ⊢ with h1 h2 h3 h4
  · refine ⟨Or.inl (by dsimp only; omega), ?_⟩
    rw [encodeRune, if_pos h1, ofNat_of_eq rfl]
    rfl
  · rw [decodeTwo.eq_def] at h ⊢
    split at h
    · rename_i b₁ bs
      split_ifs at h ⊢ with hb₁
      · simp only [inRange, Bool.and_eq_true, decide_eq_true_eq] at h2 hb₁
        refine ⟨Or.inl (by dsimp only; omega), ?_⟩
        dsimp only
        rw [encodeRune, if_neg (by omega), if_pos (by omega), ofNat_of_eq (b := b) (by omega),
          ofNat_of_eq (b := b₁) (by omega)]
        rfl
      · exact absurd rfl h
    · exact absurd rfl h
  · rw [decodeThree.eq_def] at h ⊢
    split at h
    · rename_i b₁ b₂ bs
      split_ifs at h ⊢ with hbs
      · rw [Bool.and_eq_true] at hbs
        have hsecond := inRange_secondRange hbs.1
        have hsurrogate : b.toNat = 0xED → b₁.toNat ≤ 0x9F := by
          intro hed
          have := hbs.1
          rw [secondRange, if_neg (by omega), if_pos hed] at this
          simp only [inRange, Bool.and_eq_true, decide_eq_true_eq] at this
          exact this.2
        simp only [inRange, Bool.and_eq_true, decide_eq_true_eq] at h3 hbs
        refine ⟨?_, ?_⟩
        · simp only [Scalar]
          omega
        · dsimp only
          rw [encodeRune, if_neg (by omega), if_neg (by omega), if_pos (by omega),
            ofNat_of_eq (b := b) (by omega), ofNat_of_eq (b := b₁) (by omega),
            ofNat_of_eq (b := b₂) (by omega)]
          rfl
      · exact absurd rfl h
    · exact absurd rfl h
  · rw [decodeFour.eq_def] at h ⊢
    split at h
    · rename_i b₁ b₂ b₃ bs
      split_ifs at h ⊢ with hbs
      · rw [Bool.and_eq_true, Bool.and_eq_true] at hbs
        have hsecond := inRange_secondRange hbs.1.1
        have hlarge : b.toNat = 0xF4 → b₁.toNat ≤ 0x8F := by
          intro hf4
          have := hbs.1.1
          rw [secondRange, if_neg (by omega), if_neg (by omega), if_neg (by omega),
            if_pos hf4] at this
          simp only [inRange, Bool.and_eq_true, decide_eq_true_eq] at this
          exact this.2
        simp only [inRange, Bool.and_eq_true, decide_eq_true_eq] at h4 hbs
        refine ⟨?_, ?_⟩
        · simp only [Scalar]
          omega
        · dsimp only
          rw [encodeRune, if_neg (by omega), if_neg (by omega), if_neg (by omega),
            ofNat_of_eq (b := b) (by omega), ofNat_of_eq (b := b₁) (by omega),
            ofNat_of_eq (b := b₂) (by omega), ofNat_of_eq (b := b₃) (by omega)]
          rfl
      · exact absurd rfl h
    · exact absurd rfl h
  · exact absurd rfl h

/-- The first value depends on its own bytes only. -/
theorem decodeRune_append {xs ys : List UInt8} (h : (decodeRune (xs ++ ys)).2 ≤ xs.length) :
    decodeRune xs = decodeRune (xs ++ ys) := by
  rcases xs with _ | ⟨b, xs⟩
  · rcases ys with _ | ⟨c, ys⟩
    · rfl
    · have := decodeRune_length_pos c ys
      simp only [List.nil_append, List.length_nil] at h
      omega
  · by_cases hfull : decodeRune (b :: (xs ++ ys)) = (runeError, 1)
    · by_contra hne
      rw [List.cons_append, hfull] at hne
      obtain ⟨hscalar, hencode⟩ := encodeRune_decodeRune hne
      have hsplit := List.take_append_drop (decodeRune (b :: xs)).2 (b :: xs)
      rw [← hencode] at hsplit
      rw [← List.cons_append, ← hsplit, List.append_assoc, decodeRune_encodeRune hscalar] at hfull
      rw [← hsplit, decodeRune_encodeRune hscalar] at hne
      exact hne hfull
    · obtain ⟨hscalar, hencode⟩ := encodeRune_decodeRune hfull
      rw [← List.cons_append] at hscalar hencode
      rw [List.take_append_of_le_length h] at hencode
      have hsplit := List.take_append_drop (decodeRune (b :: xs ++ ys)).2 (b :: xs)
      rw [← hencode] at hsplit
      conv_lhs => rw [← hsplit, decodeRune_encodeRune hscalar]
      conv_rhs => rw [← hsplit, List.append_assoc, decodeRune_encodeRune hscalar]

/-- Byte strings that encode scalar values one behind the other. -/
def Valid (bs : List UInt8) : Prop :=
  ∃ cs : List ℕ, (∀ c ∈ cs, Scalar c) ∧ bs = cs.flatMap encodeRune

end Utf8
