import Wasim.Text.Tokens

/-!
# The tokenizer as a reader of bytes

`TexTokenizer.rest` is what has not been read yet, from the current rune on. A tokenizer is
**placed** when its rune is the one in front of that rest; every function of the tokenizer only
reads runes and reports errors (`Scans`), so it keeps the input, the placement and the errors
reported before.

What the tokenizer looks for is ASCII, and a rune that is not ASCII has no ASCII byte in it.
So a test of the current rune is a test of the byte in front (`ch_eq_rune_iff`), and the two
tests with a byte of lookahead are tests of the two bytes in front (`looksAt_iff`).
-/

namespace Wasim

variable {t u v : TexTokenizer}

def TexTokenizer.rest (t : TexTokenizer) : List UInt8 := t.input.drop t.position.pos

def headRune : List UInt8 → Option ℕ
  | [] => none
  | b :: bs => some (Utf8.decodeRune (b :: bs)).1

def dropRune (bs : List UInt8) : List UInt8 := bs.drop (Utf8.decodeRune bs).2

structure TexTokenizer.Placed (t : TexTokenizer) : Prop where
  pos_le : t.position.pos ≤ t.input.length
  ch_eq : t.ch = headRune t.rest
  chLen_eq : t.chLen = (Utf8.decodeRune t.rest).2

theorem length_rest (t : TexTokenizer) : t.rest.length = t.input.length - t.position.pos :=
  List.length_drop

theorem TexTokenizer.Placed.pos_add_length (h : t.Placed) :
    t.position.pos + t.rest.length = t.input.length := by
  have := h.pos_le
  rw [length_rest]
  omega

/-! ### Reading one rune -/

@[simp]
theorem input_texTokReadCh (t : TexTokenizer) : (texTokReadCh t).input = t.input := by
  rw [texTokReadCh]
  split
  · rfl
  · dsimp only
    split <;> rfl

theorem pos_texTokReadCh (h : t.position.pos + t.chLen ≤ t.input.length) :
    (texTokReadCh t).position.pos = t.position.pos + t.chLen := by
  rw [texTokReadCh]
  split
  · exact le_antisymm ‹_› h
  · dsimp only
    split <;> simp only [texTokErrorfHere, texTokErrorf] <;> split <;> rfl

theorem rest_texTokReadCh' (h : t.position.pos + t.chLen ≤ t.input.length) :
    (texTokReadCh t).rest = t.input.drop (t.position.pos + t.chLen) := by
  rw [TexTokenizer.rest, input_texTokReadCh, pos_texTokReadCh h]

theorem placed_texTokReadCh' (h : t.position.pos + t.chLen ≤ t.input.length) :
    (texTokReadCh t).Placed := by
  refine ⟨by rw [input_texTokReadCh, pos_texTokReadCh h]; exact h, ?_, ?_⟩
  · rw [rest_texTokReadCh' h, texTokReadCh]
    split
    · rename_i hlen
      rw [List.drop_eq_nil_of_le hlen]
      rfl
    · rename_i hlen
      obtain ⟨b, bs, hdrop⟩ : ∃ b bs, t.input.drop (t.position.pos + t.chLen) = b :: bs :=
        List.exists_cons_of_ne_nil (by simpa using hlen)
      dsimp only
      split <;> simp [texTokErrorfHere, texTokErrorf, hdrop, headRune]
  · rw [rest_texTokReadCh' h, texTokReadCh]
    split
    · rename_i hlen
      rw [List.drop_eq_nil_of_le hlen]
      rfl
    · dsimp only
      split <;> rfl

theorem TexTokenizer.Placed.chLen_le (h : t.Placed) :
    t.position.pos + t.chLen ≤ t.input.length := by
  have hlen := Utf8.decodeRune_length_le t.rest
  have := h.pos_add_length
  rw [h.chLen_eq]
  omega

theorem TexTokenizer.Placed.read (h : t.Placed) : (texTokReadCh t).Placed :=
  placed_texTokReadCh' h.chLen_le

theorem TexTokenizer.Placed.rest_read (h : t.Placed) : (texTokReadCh t).rest = dropRune t.rest := by
  rw [rest_texTokReadCh' h.chLen_le, dropRune, ← h.chLen_eq, TexTokenizer.rest, List.drop_drop]

theorem placed_texTokInit (input : List UInt8) (file : String) :
    (texTokInit input file).Placed ∧ (texTokInit input file).rest = input :=
  ⟨placed_texTokReadCh' (Nat.zero_le _), rest_texTokReadCh' (Nat.zero_le _)⟩

/-! ### What the rune in front can be -/

theorem dropRune_ascii {b : UInt8} (h : b.toNat < 0x80) (bs : List UInt8) :
    dropRune (b :: bs) = bs := by
  rw [dropRune, Utf8.decodeRune_ascii h]
  rfl

/-- The rune in front: none, an ASCII byte, or some bytes that are not ASCII. -/
theorem TexTokenizer.Placed.cases (h : t.Placed) :
    (t.rest = [] ∧ t.ch = none) ∨
      (∃ b bs, t.rest = b :: bs ∧ b.toNat < 0x80 ∧ t.ch = some b.toNat ∧
        (texTokReadCh t).rest = bs) ∨
      ∃ xs bs r, t.rest = xs ++ bs ∧ xs ≠ [] ∧ (∀ x ∈ xs, 0x80 ≤ x.toNat) ∧ t.ch = some r ∧
        0x80 ≤ r ∧ (texTokReadCh t).rest = bs := by
  rw [h.rest_read, h.ch_eq]
  rcases hrest : t.rest with _ | ⟨b, bs⟩
  · exact Or.inl ⟨rfl, rfl⟩
  · refine Or.inr ?_
    by_cases hb : b.toNat < 0x80
    · refine Or.inl ⟨b, bs, rfl, hb, ?_, dropRune_ascii hb bs⟩
      rw [headRune, Utf8.decodeRune_ascii hb]
    · obtain ⟨hrune, hbytes⟩ := Utf8.decodeRune_nonascii (not_lt.mp hb) bs
      refine Or.inr ⟨(b :: bs).take (Utf8.decodeRune (b :: bs)).2, dropRune (b :: bs), _,
        (List.take_append_drop _ _).symm, ?_, hbytes, rfl, hrune, rfl⟩
      have := Utf8.decodeRune_length_pos b bs
      rw [ne_eq, List.take_eq_nil_iff]
      rintro (h | h)
      · omega
      · cases h

theorem toNat_byteOf {c : Char} (hc : c.toNat < 0x80) : (byteOf c).toNat = c.toNat :=
  Utf8.toNat_ofNat (by omega)

theorem byteOf_eq_of_toNat {c : Char} {b : UInt8} (hb : b.toNat = c.toNat) : b = byteOf c := by
  rw [byteOf, ← hb, UInt8.ofNat_toNat]

/-- The rune in front is an ASCII character exactly when the byte in front is. -/
theorem ch_eq_rune_iff (h : t.Placed) {c : Char} (hc : c.toNat < 0x80) :
    t.ch = rune c ↔ ∃ bs, t.rest = byteOf c :: bs := by
  constructor
  · intro hch
    rcases h.cases with ⟨-, hnone⟩ | ⟨b, bs, hrest, -, hb, -⟩ | ⟨_, _, r, -, -, -, hr, hle, -⟩
    · rw [hnone] at hch
      cases hch
    · rw [hb] at hch
      exact ⟨bs, by rw [hrest, byteOf_eq_of_toNat (Option.some.inj hch)]⟩
    · rw [hr] at hch
      have := Option.some.inj hch
      omega
  · rintro ⟨bs, hrest⟩
    have hb := toNat_byteOf hc
    rw [h.ch_eq, hrest, headRune, Utf8.decodeRune_ascii (by omega), hb]
    rfl

theorem TexTokenizer.Placed.rest_read_ascii (h : t.Placed) {b : UInt8} {bs : List UInt8}
    (hrest : t.rest = b :: bs) (hb : b.toNat < 0x80) : (texTokReadCh t).rest = bs := by
  rw [h.rest_read, hrest, dropRune_ascii hb]

theorem TexTokenizer.Placed.ch_none_iff (h : t.Placed) : t.ch = none ↔ t.rest = [] := by
  rw [h.ch_eq]
  rcases t.rest with _ | ⟨b, bs⟩ <;> simp [headRune]

theorem texTokPeek_eq (h : t.Placed) : texTokPeek t = (texTokReadCh t).rest.headD 0 := by
  rw [rest_texTokReadCh' h.chLen_le, texTokPeek]
  split
  · rw [List.drop_eq_nil_of_le ‹_›]
    rfl
  · rename_i hlen
    rw [List.getD_eq_getElem?_getD, List.headD_eq_head?_getD, List.head?_drop]

/-- The two bytes in front. -/
theorem looksAt_iff (h : t.Placed) {c d : Char} (hc : c.toNat < 0x80) (hd : byteOf d ≠ 0) :
    (t.ch = rune c ∧ texTokPeek t = byteOf d) ↔
      ∃ bs, t.rest = byteOf c :: byteOf d :: bs := by
  have hb := toNat_byteOf hc
  rw [ch_eq_rune_iff h hc, texTokPeek_eq h]
  constructor
  · rintro ⟨⟨bs, hrest⟩, hpeek⟩
    rw [h.rest_read_ascii hrest (by omega)] at hpeek
    rcases bs with _ | ⟨x, bs⟩
    · exact absurd hpeek.symm hd
    · rw [List.headD_cons] at hpeek
      exact ⟨bs, by rw [hrest, hpeek]⟩
  · rintro ⟨bs, hrest⟩
    refine ⟨⟨_, hrest⟩, ?_⟩
    rw [h.rest_read_ascii hrest (by omega)]
    rfl

/-- Two ASCII bytes are read by two steps. -/
theorem TexTokenizer.Placed.rest_read_two (h : t.Placed) {b c : UInt8} {bs : List UInt8}
    (hrest : t.rest = b :: c :: bs) (hb : b.toNat < 0x80) (hc : c.toNat < 0x80) :
    (texTokReadCh (texTokReadCh t)).rest = bs :=
  h.read.rest_read_ascii (h.rest_read_ascii hrest hb) hc

/-! ### Reading runes and reporting errors -/

/-- `u` is reached from `t` by reading runes and reporting errors. -/
inductive Scans (t : TexTokenizer) : TexTokenizer → Prop
  | refl : Scans t t
  | read {u : TexTokenizer} : Scans t u → Scans t (texTokReadCh u)
  | report {u : TexTokenizer} (position : TexPosition) (format : String) (args : List TexArg) :
      Scans t u → Scans t (texTokErrorf u position format args)

theorem Scans.trans (htu : Scans t u) (huv : Scans u v) : Scans t v := by
  induction huv with
  | refl => exact htu
  | read _ ih => exact ih.read
  | report position format args _ ih => exact ih.report position format args

theorem Scans.input_eq (h : Scans t u) : u.input = t.input := by
  induction h with
  | refl => rfl
  | read _ ih => rw [input_texTokReadCh, ih]
  | report _ _ _ _ ih => exact ih

theorem placed_texTokErrorf (h : t.Placed) (position : TexPosition) (format : String)
    (args : List TexArg) : (texTokErrorf t position format args).Placed :=
  ⟨h.pos_le, h.ch_eq, h.chLen_eq⟩

theorem Scans.placed (h : Scans t u) (ht : t.Placed) : u.Placed := by
  induction h with
  | refl => exact ht
  | read _ ih => exact ih.read
  | report _ _ _ _ ih => exact placed_texTokErrorf ih _ _ _

theorem Scans.pos_le (h : Scans t u) (ht : t.Placed) : t.position.pos ≤ u.position.pos := by
  induction h with
  | refl => exact le_rfl
  | read hread ih =>
    rw [pos_texTokReadCh (hread.placed ht).chLen_le]
    omega
  | report _ _ _ _ ih => exact ih

theorem errors_texTokReadCh (t : TexTokenizer) : t.errors <+: (texTokReadCh t).errors := by
  rw [texTokReadCh]
  split
  · exact List.prefix_refl _
  · dsimp only
    split
    · exact List.prefix_append _ _
    · exact List.prefix_refl _

theorem Scans.errors_prefix (h : Scans t u) : t.errors <+: u.errors := by
  induction h with
  | refl => exact List.prefix_refl _
  | read _ ih => exact ih.trans (errors_texTokReadCh _)
  | report _ _ _ _ ih => exact ih.trans (List.prefix_append _ _)

theorem scans_texTokErrorfHere (t : TexTokenizer) (format : String) (args : List TexArg) :
    Scans t (texTokErrorfHere t format args) := Scans.refl.report _ _ _

theorem scans_texTokSkipLine (t : TexTokenizer) : Scans t (texTokSkipLine t) := by
  fun_induction texTokSkipLine t with
  | case1 t _ ih => exact Scans.refl.read.trans ih
  | case2 t _ => exact Scans.refl

theorem scans_texTokSkipBlock (depth : ℕ) (t : TexTokenizer) :
    Scans t (texTokSkipBlock depth t) := by
  fun_induction texTokSkipBlock depth t with
  | case1 depth t _ _ => exact scans_texTokErrorfHere _ _ _
  | case2 depth t _ _ _ ih => exact Scans.refl.read.read.trans ih
  | case3 depth t _ _ _ _ ih => exact Scans.refl.read.read.trans ih
  | case4 depth t _ _ _ _ ih => exact Scans.refl.read.trans ih
  | case5 depth t _ => exact Scans.refl

theorem scans_texTokSkipSpace (t : TexTokenizer) : Scans t (texTokSkipSpace t) := by
  fun_induction texTokSkipSpace t with
  | case1 t _ ih => exact Scans.refl.read.trans ih
  | case2 t _ _ ih => exact (Scans.refl.read.read.trans (scans_texTokSkipLine _)).trans ih
  | case3 t _ _ _ ih => exact (Scans.refl.read.read.trans (scans_texTokSkipBlock 1 _)).trans ih
  | case4 t _ _ _ => exact Scans.refl

theorem scans_texTokSkipToTokenBoundary (t : TexTokenizer) :
    Scans t (texTokSkipToTokenBoundary t) := by
  fun_induction texTokSkipToTokenBoundary t with
  | case1 t _ => exact Scans.refl
  | case2 t _ _ => exact Scans.refl
  | case3 t _ _ _ => exact Scans.refl
  | case4 t _ _ _ ih => exact Scans.refl.read.trans ih

theorem scans_texTokSkipHex (t : TexTokenizer) : Scans t (texTokSkipHex t) := by
  fun_induction texTokSkipHex t with
  | case1 t _ ih => exact Scans.refl.read.trans ih
  | case2 t _ => exact Scans.refl

theorem scans_texTokReadEscape (t : TexTokenizer) : Scans t (texTokReadEscape t).1 := by
  rw [texTokReadEscape]
  split
  · exact Scans.refl.read
  · split
    · refine Scans.refl.read.trans ?_
      rw [texTokReadUnicodeEscape]
      split
      · exact scans_texTokErrorfHere _ _ _
      · refine Scans.refl.read.trans ?_
        dsimp only
        split
        · exact scans_texTokErrorfHere _ _ _
        · split
          · exact (scans_texTokSkipHex _).trans (scans_texTokErrorfHere _ _ _)
          · exact (scans_texTokSkipHex _).read
    · split
      · exact Scans.refl.read.read
      · exact scans_texTokErrorfHere _ _ _

theorem scans_texTokReadStringLoop (t : TexTokenizer) (kind : TexTokenKind) :
    Scans t (texTokReadStringLoop t kind).1 := by
  fun_induction texTokReadStringLoop t kind with
  | case1 t kind _ => exact Scans.refl
  | case2 t kind _ => exact Scans.refl
  | case3 t kind _ _ escape ih =>
    exact (Scans.refl.read.trans (scans_texTokReadEscape _)).trans ih
  | case4 t kind _ _ _ _ _ ih => exact (scans_texTokErrorfHere _ _ _).read.trans ih
  | case5 t kind _ _ _ _ _ ih => exact Scans.refl.read.trans ih

theorem scans_texTokReadString (t : TexTokenizer) : Scans t (texTokReadString t).1 := by
  have hloop := Scans.refl.read.trans (scans_texTokReadStringLoop (texTokReadCh t) .string)
  simp only [texTokReadString]
  split
  · exact hloop.read
  · exact hloop

theorem scans_texTokReadWord (t : TexTokenizer) : Scans t (texTokReadWord t).1 := by
  have hskip := scans_texTokSkipToTokenBoundary t
  simp only [texTokReadWord]
  split
  · split
    · exact hskip.report _ _ _
    · exact hskip.report _ _ _
  · exact hskip

theorem scans_texTokNext (t : TexTokenizer) : Scans t (texTokNext t).1 := by
  have hskip := scans_texTokSkipSpace t
  simp only [texTokNext]
  split
  · exact hskip.read
  · split
    · exact hskip.read
    · split
      · exact hskip.read
      · split
        · exact hskip.trans (scans_texTokReadString _)
        · exact hskip.trans (scans_texTokReadWord _)

end Wasim
