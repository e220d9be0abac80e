import Wasim.Text.Strings
import Wasim.Text.Tiling

/-!
# Which strings are tokens

`tex_tok_read_string` calls a token a string exactly when the input starts with one
(`texTokReadString_iff`): an error inside a string marks the token for good, and no way on from an
error passes over the closing quote. The grammar is over the runes as the tokenizer decodes them,
so that it covers invalid UTF-8 as well.
-/

namespace Wasim

variable {t : TexTokenizer}

/-- A text behind an opening quote starts with the rest of a string; `rest` is what follows the
closing quote. -/
inductive StringTail : List UInt8 → List UInt8 → Prop
  | close (rest : List UInt8) : StringTail (byteOf '"' :: rest) rest
  | char {s rest : List UInt8} {r : ℕ} (hr : headRune s = some r)
      (hcontrol : 0x20 ≤ r ∧ r ≠ 0x7F) (hquote : r ≠ '"'.toNat) (hescape : r ≠ '\\'.toNat) :
      StringTail (dropRune s) rest → StringTail s rest
  | escape {c : UInt8} {s rest : List UInt8} (hc : c ∈ escapes) :
      StringTail s rest → StringTail (byteOf '\\' :: c :: s) rest
  | unicode {hex s rest : List UInt8} (hne : hex ≠ []) (hhex : hex.all isHexByte) :
      StringTail s rest → StringTail
        (byteOf '\\' :: byteOf 'u' :: byteOf '\x7b' :: (hex ++ byteOf '\x7d' :: s)) rest
  | byte {d e : UInt8} {s rest : List UInt8} (hd : isHexByte d) (he : isHexByte e) :
      StringTail s rest → StringTail (byteOf '\\' :: d :: e :: s) rest

/-- A character or an escape stands in front of a text; `s'` is what follows it. -/
inductive StringElement : List UInt8 → List UInt8 → Prop
  | char {s : List UInt8} {r : ℕ} (hr : headRune s = some r) (hcontrol : 0x20 ≤ r ∧ r ≠ 0x7F)
      (hquote : r ≠ '"'.toNat) (hescape : r ≠ '\\'.toNat) : StringElement s (dropRune s)
  | escape {c : UInt8} {s : List UInt8} (hc : c ∈ escapes) :
      StringElement (byteOf '\\' :: c :: s) s
  | unicode {hex s : List UInt8} (hne : hex ≠ []) (hhex : hex.all isHexByte) :
      StringElement
        (byteOf '\\' :: byteOf 'u' :: byteOf '\x7b' :: (hex ++ byteOf '\x7d' :: s)) s
  | byte {d e : UInt8} {s : List UInt8} (hd : isHexByte d) (he : isHexByte e) :
      StringElement (byteOf '\\' :: d :: e :: s) s

theorem StringElement.tail {s s' rest : List UInt8} (h : StringElement s s')
    (hs : StringTail s' rest) : StringTail s rest := by
  rcases h with ⟨hr, hcontrol, hquote, hescape⟩ | hc | ⟨hne, hhex⟩ | ⟨hd, he⟩
  · exact .char hr hcontrol hquote hescape hs
  · exact .escape hc hs
  · exact .unicode hne hhex hs
  · exact .byte hd he hs

/-- A string is its elements and the closing quote. -/
@[elab_as_elim]
theorem StringTail.induct {motive : ∀ s rest, StringTail s rest → Prop}
    (close : ∀ rest, motive (byteOf '"' :: rest) rest (.close rest))
    (element : ∀ {s s' rest : List UInt8} (h : StringElement s s') (hs : StringTail s' rest),
      motive s' rest hs → motive s rest (h.tail hs))
    {s rest : List UInt8} (h : StringTail s rest) : motive s rest h := by
  induction h with
  | close rest => exact close rest
  | char hr hcontrol hquote hescape hs ih =>
    exact element (.char hr hcontrol hquote hescape) hs ih
  | escape hc hs ih => exact element (.escape hc) hs ih
  | unicode hne hhex hs ih => exact element (.unicode hne hhex) hs ih
  | byte hd he hs ih => exact element (.byte hd he) hs ih

theorem StringTail.suffix {s rest : List UInt8} (h : StringTail s rest) : rest <:+ s := by
  induction h with
  | close rest => exact List.suffix_cons _ _
  | char _ _ _ _ _ ih => exact ih.trans (List.drop_suffix _ _)
  | @escape c s rest _ _ ih => exact ih.trans ⟨[byteOf '\\', c], rfl⟩
  | @unicode hex s rest _ _ _ ih =>
    refine ih.trans ⟨byteOf '\\' :: byteOf 'u' :: byteOf '\x7b' :: (hex ++ [byteOf '\x7d']), ?_⟩
    simp only [List.cons_append, List.append_assoc, List.nil_append]
  | @byte d e s rest _ _ _ ih => exact ih.trans ⟨[byteOf '\\', d, e], rfl⟩

/-! ### Strings are read to their end -/

/-- An element of a string is read without a report, and the kind of the token stays. -/
theorem StringElement.read {s s' : List UInt8} (hs : StringElement s s') (h : t.Placed)
    (hrest : t.rest = s) :
    ∃ u, Moves t u ∧ u.rest = s' ∧
      ∀ kind, texTokReadStringLoop t kind = texTokReadStringLoop u kind := by
  -- behind a valid escape the loop goes on with the same kind
  have hescaped : ∀ {tail : List UInt8}, t.rest = byteOf '\\' :: tail →
      (texTokReadEscape (texTokReadCh t)).2 = true → ∀ kind, texTokReadStringLoop t kind =
        texTokReadStringLoop (texTokReadEscape (texTokReadCh t)).1 kind := by
    intro tail hrest hvalid kind
    rw [texTokReadStringLoop_some (ch_of_rest h hrest (by decide)), if_neg (by decide),
      if_pos (by decide), if_pos hvalid]
  rcases hs with @⟨s, r, hr, hcontrol, hquote, hescape⟩ | hc | ⟨hne, hhex⟩ | ⟨hd, he⟩
  · have hch : t.ch = some r := by rw [h.ch_eq, hrest, hr]
    refine ⟨texTokReadCh t, Moves.refl.read, by rw [h.rest_read, hrest], fun kind => ?_⟩
    rw [texTokReadStringLoop_some hch, if_neg hquote, if_neg hescape, if_neg (by omega)]
  · have hread := texTokReadEscape_char hc h.read (h.rest_read_ascii hrest (by decide))
    refine ⟨texTokReadCh (texTokReadCh t), Moves.refl.read.read,
      h.rest_read_two hrest (by decide) (escape_lt hc), fun kind => ?_⟩
    rw [hescaped hrest (by rw [hread]), hread]
  · obtain ⟨hvalid, hmoves, hbehind⟩ :=
      texTokReadEscape_unicode hne hhex h.read (h.rest_read_ascii hrest (by decide))
    exact ⟨_, Moves.refl.read.trans hmoves, hbehind, hescaped hrest hvalid⟩
  · have hbehind := h.rest_read_ascii hrest (by decide)
    have hread := texTokReadEscape_byte hd he h.read hbehind
    refine ⟨texTokReadCh (texTokReadCh (texTokReadCh t)), Moves.refl.read.read.read,
      h.read.rest_read_two hbehind (isHexByte_lt hd) (isHexByte_lt he), fun kind => ?_⟩
    rw [hescaped hrest (by rw [hread]), hread]

/-- The loop stops at the closing quote of a string, and the kind of the token stays. -/
theorem StringTail.read {s rest : List UInt8} (hs : StringTail s rest) (h : t.Placed)
    (hrest : t.rest = s) (kind : TexTokenKind) :
    Moves t (texTokReadStringLoop t kind).1 ∧ (texTokReadStringLoop t kind).2 = kind ∧
      (texTokReadStringLoop t kind).1.rest = byteOf '"' :: rest := by
  induction hs using StringTail.induct generalizing t with
  | close rest =>
    rw [texTokReadStringLoop_some (ch_of_rest h hrest (by decide)), if_pos (by decide)]
    exact ⟨.refl, rfl, hrest⟩
  | element helement _ ih =>
    obtain ⟨u, hmoves, hu, hloop⟩ := helement.read h hrest
    obtain ⟨hmoves', hkind, hend⟩ := ih (hmoves.placed h) hu
    rw [hloop]
    exact ⟨hmoves.trans hmoves', hkind, hend⟩

/-! ### What is read without an error is a string -/

/-- An error marks the token for good. -/
theorem texTokReadStringLoop_invalid (t : TexTokenizer) :
    (texTokReadStringLoop t .invalid).2 = .invalid := by
  generalize hkind : TexTokenKind.invalid = kind
  fun_induction texTokReadStringLoop t kind with
  | case1 t kind _ => exact hkind
  | case2 t kind _ => rfl
  | case3 t kind _ escape _ ih =>
    subst hkind
    simp only [dite_eq_ite, ite_self] at ih ⊢
    exact ih trivial
  | case4 t kind _ _ _ _ _ ih => exact hkind ▸ ih rfl
  | case5 t kind _ _ _ _ _ ih => exact ih hkind

theorem digit_lt {r base : ℕ} (h : texTokIsDigit r base) : r < 0x80 := by
  rw [texTokIsDigit] at h
  simp only [Char.reduceToNat] at h
  split_ifs at h <;> omega

/-- A hexadecimal digit in front is a byte in front. -/
theorem exists_hexByte (h : t.Placed) (hdigit : texTokIsRuneDigit t.ch 16) :
    ∃ d bs, t.rest = d :: bs ∧ isHexByte d ∧ (texTokReadCh t).rest = bs := by
  rcases h.cases with ⟨-, hnone⟩ | ⟨b, bs, hrest, -, hb, hnext⟩ | ⟨_, _, r, -, -, -, hr, hle, -⟩
  · rw [hnone] at hdigit
    cases hdigit
  · rw [hb] at hdigit
    exact ⟨b, bs, hrest, hdigit, hnext⟩
  · rw [hr] at hdigit
    have := digit_lt hdigit
    omega

theorem texTokSkipHex_splits (h : t.Placed) :
    ∃ hex, hex.all isHexByte ∧ t.rest = hex ++ (texTokSkipHex t).rest ∧
      (texTokIsRuneDigit t.ch 16 → hex ≠ []) := by
  fun_induction texTokSkipHex t with
  | case1 t hdigit ih =>
    obtain ⟨hex, hhex, hrest, -⟩ := ih h.read
    obtain ⟨d, bs, hd, hbyte, hnext⟩ := exists_hexByte h hdigit
    refine ⟨d :: hex, by rw [List.all_cons, hbyte, hhex]; rfl, ?_, fun _ => List.cons_ne_nil d hex⟩
    rw [hd, ← hnext, hrest, List.cons_append]
  | case2 t hdigit => exact ⟨[], rfl, rfl, fun hd => absurd hd hdigit⟩

theorem rest_read_of_rune (h : t.Placed) {c : Char} (hc : c.toNat < 0x80) (hch : t.ch = rune c) :
    t.rest = byteOf c :: (texTokReadCh t).rest := by
  obtain ⟨bs, hrest⟩ := (ch_eq_rune_iff h hc).mp hch
  rw [hrest, h.rest_read_ascii hrest (by rw [toNat_byteOf hc]; exact hc)]

theorem texTokReadUnicodeEscape_element (h : t.Placed)
    (hvalid : (texTokReadUnicodeEscape t).2 = true) :
    StringElement (byteOf '\\' :: byteOf 'u' :: t.rest) (texTokReadUnicodeEscape t).1.rest := by
  rw [texTokReadUnicodeEscape] at hvalid ⊢
  split at hvalid
  · cases hvalid
  · rename_i hopen
    rw [if_neg hopen]
    dsimp only at hvalid ⊢
    split at hvalid
    · cases hvalid
    · rename_i hdigit
      rw [if_neg hdigit]
      split at hvalid
      · cases hvalid
      · rename_i hclose
        rw [if_neg hclose]
        obtain ⟨hex, hhex, hsplit, hne⟩ := texTokSkipHex_splits h.read
        have hplaced := (scans_texTokSkipHex (texTokReadCh t)).placed h.read
        rw [rest_read_of_rune h (by decide) (not_not.mp hopen), hsplit,
          rest_read_of_rune hplaced (by decide) (not_not.mp hclose)]
        exact .unicode (hne (by simpa using hdigit)) hhex

/-- A valid escape is one of the grammar. -/
theorem texTokReadEscape_element (h : t.Placed) (hvalid : (texTokReadEscape t).2 = true) :
    StringElement (byteOf '\\' :: t.rest) (texTokReadEscape t).1.rest := by
  rw [texTokReadEscape] at hvalid ⊢
  split at hvalid
  · rename_i hchar
    rw [if_pos hchar]
    have hescape : ∀ {c : Char}, c.toNat < 0x80 → byteOf c ∈ escapes → t.ch = rune c →
        StringElement (byteOf '\\' :: t.rest) (texTokReadCh t).rest := by
      intro c hc hmem hch
      rw [rest_read_of_rune h hc hch]
      exact .escape hmem
    rcases hchar with hch | hch | hch | hch | hch | hch
    · exact hescape (by decide) (by decide) hch
    · exact hescape (by decide) (by decide) hch
    · exact hescape (by decide) (by decide) hch
    · exact hescape (by decide) (by decide) hch
    · exact hescape (by decide) (by decide) hch
    · exact hescape (by decide) (by decide) hch
  · rename_i hchar
    rw [if_neg hchar]
    split at hvalid
    · rename_i hu
      rw [if_pos hu, rest_read_of_rune h (by decide) hu]
      exact texTokReadUnicodeEscape_element h.read hvalid
    · rename_i hu
      rw [if_neg hu]
      split at hvalid
      · rename_i hdigits
        rw [if_pos hdigits]
        rw [Bool.and_eq_true] at hdigits
        obtain ⟨d, bs, hd, hbyte, hnext⟩ := exists_hexByte h hdigits.1
        rw [texTokPeek_eq h, hnext] at hdigits
        rcases bs with _ | ⟨e, bs⟩
        · exact absurd hdigits.2 (by decide)
        · have he : isHexByte e := hdigits.2
          rw [h.read.rest_read_ascii hnext (isHexByte_lt he), hd]
          exact .byte hbyte he
      · cases hvalid

/-- A token that stays a string ends at the closing quote of one. -/
theorem exists_stringTail (h : t.Placed) (kind : TexTokenKind)
    (hkind : kind ≠ .invalid) (hread : (texTokReadStringLoop t kind).2 = kind) :
    ∃ rest, StringTail t.rest rest := by
  have hinvalid : ∀ {u : TexTokenizer}, (texTokReadStringLoop u .invalid).2 ≠ kind := by
    intro u hu
    rw [texTokReadStringLoop_invalid] at hu
    exact hkind hu.symm
  fun_induction texTokReadStringLoop t kind with
  | case1 t kind _ => exact absurd hread.symm hkind
  | case2 t kind hch =>
    obtain ⟨bs, hrest⟩ := (@ch_eq_rune_iff t h '"' (by decide)).mp hch
    exact ⟨bs, hrest ▸ .close bs⟩
  | case3 t kind escape hch hquote ih =>
    by_cases hvalid : escape.2 = true
    · rw [dif_pos hvalid] at ih
      rw [if_pos hvalid] at hread
      have hplaced := (scans_texTokReadEscape (texTokReadCh t)).placed h.read
      obtain ⟨rest, hs⟩ := ih hplaced hkind hread hinvalid
      refine ⟨rest, ?_⟩
      rw [@rest_read_of_rune t h '\\' (by decide) hch]
      exact (texTokReadEscape_element h.read hvalid).tail hs
    · rw [if_neg hvalid] at hread
      exact absurd hread hinvalid
  | case4 t kind ch hch hquote hslash hcontrol ih => exact absurd hread hinvalid
  | case5 t kind ch hch hquote hslash hcontrol ih =>
    obtain ⟨rest, hs⟩ := ih h.read hkind hread hinvalid
    rw [h.rest_read] at hs
    refine ⟨rest, .char (by rw [← h.ch_eq, hch]) (by omega) hquote hslash hs⟩

/-! ### Tokens -/

/-- What is left of the input in front of the token and behind it. -/
theorem texTokReadString_spans (h : t.Placed) {s rest : List UInt8}
    (hquote : t.rest = byteOf '"' :: s) (hs : StringTail s rest) :
    (texTokReadString t).2.kind = .string ∧ (texTokReadString t).1.rest = rest ∧
      byteOf '"' :: s = (texTokReadString t).2.data ++ rest := by
  have hnext := h.rest_read_ascii hquote (by decide)
  obtain ⟨-, hkind, hclose⟩ := hs.read h.read hnext .string
  have hscans := Scans.refl.read.trans (scans_texTokReadStringLoop (texTokReadCh t) .string)
  have hplaced := hscans.placed h
  have hch := (ch_eq_rune_iff hplaced (by decide)).mpr ⟨rest, hclose⟩
  have hrest := hplaced.rest_read_ascii hclose (by decide)
  have hread : (texTokReadString t).1 =
      texTokReadCh (texTokReadStringLoop (texTokReadCh t) .string).1 := by
    simp only [texTokReadString, if_pos hch]
  have hinput := (scans_texTokReadString t).input_eq
  obtain ⟨p, hp⟩ := hs.suffix
  have hdata : (texTokReadString t).2.data = byteOf '"' :: p := by
    have hsplit : t.rest = byteOf '"' :: p ++ (texTokReadString t).1.rest := by
      rw [hread, hrest, hquote, ← hp, List.cons_append]
    have hbetween := between_of_rest h ((scans_texTokReadString t).placed h) hinput hsplit
    rw [← hinput] at hbetween
    exact hbetween
  refine ⟨hkind, by rw [hread, hrest], ?_⟩
  rw [hdata, List.cons_append, hp]

/-- At an opening quote the token is a string exactly when a string stands in front. Then it is
that string, and the tokenizer stands right behind it. -/
theorem texTokReadString_iff (h : t.Placed) {s : List UInt8} (hquote : t.rest = byteOf '"' :: s) :
    ((texTokReadString t).2.kind = .string ↔ ∃ rest, StringTail s rest) ∧
      ∀ p rest, byteOf '"' :: s = p ++ rest → StringTail s rest →
        (texTokReadString t).2.data = p ∧ (texTokReadString t).1.rest = rest := by
  refine ⟨⟨fun hkind => ?_, fun ⟨rest, hs⟩ => (texTokReadString_spans h hquote hs).1⟩, ?_⟩
  · have hnext := h.rest_read_ascii hquote (by decide)
    obtain ⟨rest, hs⟩ := exists_stringTail h.read .string (by decide) hkind
    exact ⟨rest, hnext ▸ hs⟩
  · intro p rest hp hs
    obtain ⟨-, hrest, hdata⟩ := texTokReadString_spans h hquote hs
    exact ⟨List.append_cancel_right (hdata.symm.trans hp), hrest⟩

/-- A string with escapes, and something behind it. -/
theorem texTokReadString_escapes :
    ∃ u, texTokReadString (texTokInit (ascii "\"a\\n\\u\x7b1F\x7d\\0a\"b") "") = u ∧
      u.2.kind = .string ∧ u.2.data = ascii "\"a\\n\\u\x7b1F\x7d\\0a\"" ∧
      u.1.rest = ascii "b" := by
  have hchar : ∀ {s rest : List UInt8}, StringTail s rest →
      StringTail (byteOf 'a' :: s) rest := by
    intro s rest hs
    have ha : (byteOf 'a').toNat < 0x80 := by decide
    refine .char (by rw [headRune, Utf8.decodeRune_ascii ha]) (by decide) (by decide) (by decide) ?_
    rwa [dropRune_ascii ha]
  have hs : StringTail (ascii "a\\n\\u\x7b1F\x7d\\0a\"b") (ascii "b") :=
    hchar (@StringTail.escape (byteOf 'n') _ _ (by decide)
      (@StringTail.unicode (ascii "1F") _ _ (by decide) (by decide)
        (.byte (by decide) (by decide) (.close _))))
  obtain ⟨hplaced, hrest⟩ := placed_texTokInit (ascii "\"a\\n\\u\x7b1F\x7d\\0a\"b") ""
  obtain ⟨hkind, hspan⟩ := texTokReadString_iff hplaced hrest
  obtain ⟨hdata, hbehind⟩ := hspan (ascii "\"a\\n\\u\x7b1F\x7d\\0a\"") _ rfl hs
  exact ⟨_, rfl, hkind.mpr ⟨_, hs⟩, hdata, hbehind⟩

end Wasim
