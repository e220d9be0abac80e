import Wasim.Text.Blanks

/-!
# Strings

The grammar of string literals over bytes, and `tex_tok_read_string` on a literal of it: the
literal is read to its end, nothing is reported, and the token is a string
(`StringRest.read`). A character that is not ASCII stands in a literal with all its bytes, which
the tokenizer reads in one step.
-/

namespace Wasim

variable {t u : TexTokenizer}

def isHexByte (b : UInt8) : Bool := texTokIsDigit b.toNat 16

/-- The characters that stand for a byte behind a backslash. -/
def escapes : List UInt8 := ['t', 'n', 'r', '"', '\'', '\\'].map byteOf

/-- What follows the opening quote of a string, to its closing quote. -/
inductive StringRest : List UInt8 → Prop
  | close : StringRest [byteOf '"']
  | char {b : UInt8} {s : List UInt8} (hcontrol : 0x20 ≤ b.toNat ∧ b.toNat ≠ 0x7F)
      (hquote : b ≠ byteOf '"') (hescape : b ≠ byteOf '\\') : StringRest s → StringRest (b :: s)
  | escape {c : UInt8} {s : List UInt8} (hc : c ∈ escapes) :
      StringRest s → StringRest (byteOf '\\' :: c :: s)
  | unicode {hex s : List UInt8} (hne : hex ≠ []) (hhex : hex.all isHexByte) :
      StringRest s →
      StringRest (byteOf '\\' :: byteOf 'u' :: byteOf '\x7b' :: (hex ++ byteOf '\x7d' :: s))
  | byte {d e : UInt8} {s : List UInt8} (hd : isHexByte d) (he : isHexByte e) :
      StringRest s → StringRest (byteOf '\\' :: d :: e :: s)

/-! ### Bytes in front -/

theorem ch_of_rest (h : t.Placed) {b : UInt8} {bs : List UInt8} (hrest : t.rest = b :: bs)
    (hb : b.toNat < 0x80) : t.ch = some b.toNat := by
  rw [h.ch_eq, hrest, headRune, Utf8.decodeRune_ascii hb]

theorem isHexByte_lt {b : UInt8} (h : isHexByte b) : b.toNat < 0x80 := by
  rw [isHexByte, texTokIsDigit] at h
  split at h
  · rename_i hdigit
    exact lt_of_le_of_lt hdigit.2 (by decide)
  · split at h
    · rename_i hletter
      rcases hletter with hletter | hletter
      · exact lt_of_le_of_lt hletter.2 (by decide)
      · exact lt_of_le_of_lt hletter.2 (by decide)
    · cases h

/-- The characters of a literal that are not ASCII are read with all their bytes. -/
theorem StringRest.drop_nonascii {s r xs bs : List UInt8} (hs : StringRest s)
    (hsplit : s ++ r = xs ++ bs) (hxs : ∀ x ∈ xs, 0x80 ≤ x.toNat) :
    ∃ s', StringRest s' ∧ bs = s' ++ r ∧ s'.length + xs.length = s.length := by
  induction xs generalizing s with
  | nil => exact ⟨s, hs, hsplit.symm, rfl⟩
  | cons x xs ih =>
    have hx := hxs x (by simp)
    have hne : ∀ c : Char, c.toNat < 0x80 → x ≠ byteOf c := fun c hc =>
      ne_byteOf_of_nonascii hx hc
    rcases hs with _ | ⟨hcontrol, hquote, hescape, hs⟩ | ⟨_, _⟩ | ⟨_, _, _⟩ | ⟨_, _, _⟩
    · exact absurd (List.cons.inj hsplit).1.symm (hne '"' (by decide))
    · obtain ⟨s', hs', hbs, hlength⟩ :=
        ih hs (List.cons.inj hsplit).2 fun y hy => hxs y (by simp [hy])
      exact ⟨s', hs', hbs, by simp only [List.length_cons]; omega⟩
    · exact absurd (List.cons.inj hsplit).1.symm (hne '\\' (by decide))
    · exact absurd (List.cons.inj hsplit).1.symm (hne '\\' (by decide))
    · exact absurd (List.cons.inj hsplit).1.symm (hne '\\' (by decide))

/-! ### Escapes -/

theorem texTokSkipHex_moves {hex rest : List UInt8} {c : UInt8} (hhex : hex.all isHexByte)
    (hc : isHexByte c = false) (hlt : c.toNat < 0x80) (h : t.Placed)
    (hrest : t.rest = hex ++ c :: rest) :
    Moves t (texTokSkipHex t) ∧ (texTokSkipHex t).rest = c :: rest := by
  induction hex generalizing t with
  | nil =>
    rw [texTokSkipHex, ch_of_rest h hrest hlt, if_neg]
    · exact ⟨.refl, hrest⟩
    · rw [texTokIsRuneDigit]
      exact Bool.not_eq_true _ ▸ hc
  | cons d hex ih =>
    rw [List.all_cons, Bool.and_eq_true] at hhex
    have hd := isHexByte_lt hhex.1
    obtain ⟨hmoves, hbehind⟩ := ih hhex.2 h.read (h.rest_read_ascii hrest hd)
    have hdigit : texTokIsRuneDigit (some d.toNat) 16 = true := hhex.1
    rw [texTokSkipHex, ch_of_rest h hrest hd, if_pos hdigit]
    exact ⟨Moves.refl.read.trans hmoves, hbehind⟩

theorem mem_escapes {c : UInt8} : c ∈ escapes ↔ c = byteOf 't' ∨ c = byteOf 'n' ∨
    c = byteOf 'r' ∨ c = byteOf '"' ∨ c = byteOf '\'' ∨ c = byteOf '\\' := by
  simp [escapes]

theorem escape_lt {c : UInt8} (hc : c ∈ escapes) : c.toNat < 0x80 := by
  obtain rfl | rfl | rfl | rfl | rfl | rfl := mem_escapes.mp hc
  all_goals decide

theorem texTokReadEscape_char {c : UInt8} (hc : c ∈ escapes) {rest : List UInt8} (h : t.Placed)
    (hrest : t.rest = c :: rest) : texTokReadEscape t = (texTokReadCh t, true) := by
  have hchar : some c.toNat = rune 't' ∨ some c.toNat = rune 'n' ∨
      some c.toNat = rune 'r' ∨ some c.toNat = rune '"' ∨ some c.toNat = rune '\'' ∨
      some c.toNat = rune '\\' := by
    obtain rfl | rfl | rfl | rfl | rfl | rfl := mem_escapes.mp hc
    all_goals decide
  rw [texTokReadEscape, ch_of_rest h hrest (escape_lt hc), if_pos hchar]

theorem texTokReadEscape_byte {d e : UInt8} (hd : isHexByte d) (he : isHexByte e)
    {rest : List UInt8} (h : t.Placed) (hrest : t.rest = d :: e :: rest) :
    texTokReadEscape t = (texTokReadCh (texTokReadCh t), true) := by
  have hlt := isHexByte_lt hd
  have hch := ch_of_rest h hrest hlt
  have hne : ∀ c : Char, texTokIsDigit c.toNat 16 = false → t.ch ≠ rune c := by
    intro c hc heq
    rw [hch] at heq
    have hval : d.toNat = c.toNat := Option.some.inj heq
    rw [isHexByte, hval, hc] at hd
    cases hd
  have hpeek : texTokPeek t = e := by
    rw [texTokPeek_eq h, h.rest_read_ascii hrest hlt]
    rfl
  rw [texTokReadEscape, if_neg, if_neg (hne 'u' (by decide)), if_pos]
  · rw [hch, hpeek, texTokIsRuneDigit, Bool.and_eq_true]
    exact ⟨hd, he⟩
  · rintro (h | h | h | h | h | h)
    · exact hne 't' (by decide) h
    · exact hne 'n' (by decide) h
    · exact hne 'r' (by decide) h
    · exact hne '"' (by decide) h
    · exact hne '\'' (by decide) h
    · exact hne '\\' (by decide) h

theorem texTokReadEscape_unicode {hex rest : List UInt8} (hne : hex ≠ [])
    (hhex : hex.all isHexByte) (h : t.Placed)
    (hrest : t.rest = byteOf 'u' :: byteOf '\x7b' :: (hex ++ byteOf '\x7d' :: rest)) :
    (texTokReadEscape t).2 = true ∧ Moves t (texTokReadEscape t).1 ∧
      (texTokReadEscape t).1.rest = rest := by
  have hch := ch_of_rest h hrest (by decide)
  have hopen := h.rest_read_ascii hrest (by decide)
  have hdigits := h.read.rest_read_ascii hopen (by decide)
  obtain ⟨hmoves, hbehind⟩ := texTokSkipHex_moves hhex (by decide) (by decide) h.read.read hdigits
  have hplaced := hmoves.placed h.read.read
  have hfirst : texTokIsRuneDigit (texTokReadCh (texTokReadCh t)).ch 16 = true := by
    obtain ⟨d, hex, rfl⟩ := List.exists_cons_of_ne_nil hne
    rw [List.all_cons, Bool.and_eq_true] at hhex
    rw [ch_of_rest h.read.read hdigits (isHexByte_lt hhex.1)]
    exact hhex.1
  have hclose : (texTokSkipHex (texTokReadCh (texTokReadCh t))).ch = rune '\x7d' :=
    (ch_eq_rune_iff hplaced (by decide)).mpr ⟨_, hbehind⟩
  have hbrace : (texTokReadCh t).ch = rune '\x7b' :=
    (ch_eq_rune_iff h.read (by decide)).mpr ⟨_, hopen⟩
  have hescape : texTokReadEscape t =
      (texTokReadCh (texTokSkipHex (texTokReadCh (texTokReadCh t))), true) := by
    rw [texTokReadEscape, hch, if_neg (by decide), if_pos (by decide), texTokReadUnicodeEscape,
      if_neg (by rw [hbrace]; simp)]
    dsimp only
    rw [hfirst, hclose]
    simp
  rw [hescape]
  exact ⟨rfl, (Moves.refl.read.read.trans hmoves).read,
    hplaced.rest_read_ascii hbehind (by decide)⟩

/-! ### Literals -/

theorem texTokReadStringLoop_some {ch : ℕ} (h : t.ch = some ch) (kind : TexTokenKind) :
    texTokReadStringLoop t kind =
      if ch = '"'.toNat then (t, kind)
      else if ch = '\\'.toNat then
        texTokReadStringLoop (texTokReadEscape (texTokReadCh t)).1
          (if (texTokReadEscape (texTokReadCh t)).2 then kind else .invalid)
      else if ch < 0x20 ∨ ch = 0x7F then
        texTokReadStringLoop
          (texTokReadCh (texTokErrorfHere t "invalid control character %q in string" [.rune t.ch]))
          .invalid
      else texTokReadStringLoop (texTokReadCh t) kind := by
  rw [texTokReadStringLoop]
  split
  · rename_i hnone
    rw [hnone] at h
    cases h
  · rename_i ch' hsome
    rw [hsome] at h
    obtain rfl := Option.some.inj h
    rfl

/-- A literal is read up to its closing quote, and the kind of the token stays. -/
theorem StringRest.read {s rest : List UInt8} (hs : StringRest s) (h : t.Placed)
    (hrest : t.rest = s ++ rest) :
    ∃ u, Moves t u ∧ u.rest = byteOf '"' :: rest ∧
      ∀ kind, texTokReadStringLoop t kind = (u, kind) := by
  induction hlength : s.length using Nat.strong_induction_on generalizing s t with
  | _ n ih =>
    subst hlength
    -- behind a valid escape the loop goes on with the same kind
    have hescaped : ∀ {c : UInt8} {tail s' : List UInt8}, t.rest = byteOf '\\' :: c :: tail →
        StringRest s' → s'.length < s.length → (texTokReadEscape (texTokReadCh t)).2 = true →
        Moves (texTokReadCh t) (texTokReadEscape (texTokReadCh t)).1 →
        (texTokReadEscape (texTokReadCh t)).1.rest = s' ++ rest →
        ∃ u, Moves t u ∧ u.rest = byteOf '"' :: rest ∧
          ∀ kind, texTokReadStringLoop t kind = (u, kind) := by
      intro c tail s' ht hs' hlt hvalid hmoves hbehind
      obtain ⟨u, hu, hurest, hloop⟩ := ih _ hlt hs' (hmoves.placed h.read) hbehind rfl
      refine ⟨u, (Moves.refl.read.trans hmoves).trans hu, hurest, fun kind => ?_⟩
      rw [texTokReadStringLoop_some (ch_of_rest h ht (by decide)), if_neg (by decide),
        if_pos (by decide), if_pos hvalid, hloop]
    rcases hs with _ | @⟨b, s, hcontrol, hquote, hescape, hs⟩ | @⟨c, s, hc, hs⟩ |
      @⟨hex, s, hne, hhex, hs⟩ | @⟨d, e, s, hd, he, hs⟩
    · refine ⟨t, .refl, hrest, fun kind => ?_⟩
      rw [texTokReadStringLoop_some (ch_of_rest h hrest (by decide)), if_pos (by decide)]
    · have hread : ∀ {s' : List UInt8} {ch : ℕ}, t.ch = some ch → ch ≠ '"'.toNat →
          ch ≠ '\\'.toNat → ¬(ch < 0x20 ∨ ch = 0x7F) → (texTokReadCh t).rest = s' ++ rest →
          StringRest s' → s'.length < (b :: s).length →
          ∃ u, Moves t u ∧ u.rest = byteOf '"' :: rest ∧
            ∀ kind, texTokReadStringLoop t kind = (u, kind) := by
        intro s' ch hch hnquote hnescape hncontrol hnext hs' hlt
        obtain ⟨u, hu, hurest, hloop⟩ := ih _ hlt hs' h.read hnext rfl
        refine ⟨u, Moves.refl.read.trans hu, hurest, fun kind => ?_⟩
        rw [texTokReadStringLoop_some hch, if_neg hnquote, if_neg hnescape, if_neg hncontrol,
          hloop]
      rcases h.cases with ⟨hnil, -⟩ | ⟨b', bs, hb', -, hch, hnext⟩ |
        ⟨xs, bs, r, hxs, hxsne, hbytes, hch, hr, hnext⟩
      · rw [hrest] at hnil
        cases hnil
      · obtain ⟨rfl, rfl⟩ := List.cons.inj (hrest.symm.trans hb')
        refine hread hch ?_ ?_ (by omega) hnext hs (by simp)
        · exact fun heq => hquote (byteOf_eq_of_toNat heq)
        · exact fun heq => hescape (byteOf_eq_of_toNat heq)
      · obtain ⟨s', hs', rfl, hlength⟩ :=
          (StringRest.char hcontrol hquote hescape hs).drop_nonascii (hrest.symm.trans hxs) hbytes
        have hpos := List.length_pos_iff.mpr hxsne
        refine hread hch ?_ ?_ (by omega) hnext hs' (by omega)
        · simp only [Char.reduceToNat]
          omega
        · simp only [Char.reduceToNat]
          omega
    · have hescape := texTokReadEscape_char hc h.read (h.rest_read_ascii hrest (by decide))
      refine hescaped hrest hs (by simp only [List.length_cons]; omega) (by rw [hescape]) ?_ ?_
      · rw [hescape]
        exact Moves.refl.read
      · rw [hescape]
        exact h.rest_read_two hrest (by decide) (escape_lt hc)
    · simp only [List.cons_append, List.append_assoc] at hrest
      obtain ⟨hvalid, hmoves, hbehind⟩ :=
        texTokReadEscape_unicode hne hhex h.read (h.rest_read_ascii hrest (by decide))
      refine hescaped hrest hs ?_ hvalid hmoves hbehind
      simp only [List.length_cons, List.length_append]
      omega
    · have hbehind := h.rest_read_ascii hrest (by decide)
      have hescape := texTokReadEscape_byte hd he h.read hbehind
      refine hescaped hrest hs (by simp only [List.length_cons]; omega) (by rw [hescape]) ?_ ?_
      · rw [hescape]
        exact Moves.refl.read.read
      · rw [hescape]
        exact h.read.rest_read_two hbehind (isHexByte_lt hd) (isHexByte_lt he)

end Wasim
