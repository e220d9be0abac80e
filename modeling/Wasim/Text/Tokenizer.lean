import Wasim.Text.Numbers

/-!
# The tokenizer

`wasim_text_tokenizer.odin`. The tokenizer holds the current rune `ch` with its length, and
moves on with `tex_tok_read_ch`; `RUNE_EOF` is `none` here. The errors are kept as a list, with
position, format string and arguments, in place of the counter and the callback of the source.

Every loop of the tokenizer reads runes until it meets one it looks for or the end of the
input. Its measure is `TexTokenizer.left`, which `tex_tok_read_ch` decreases at any rune
(`left_texTokReadCh_lt`) and keeps at the end of the input.
-/

namespace Wasim

structure TexPosition where
  pos : ℕ := 0
  col : ℕ := 0
  row : ℕ := 0
  file : String := ""
  deriving DecidableEq, Repr

/-- An argument of an error of the tokenizer or the parser. -/
inductive TexArg where
  | byte (b : UInt8)
  | rune (ch : Option ℕ)
  | text (data : List UInt8)
  | kind (kind : TexTokenKind)
  deriving DecidableEq, Repr

structure TexTokError where
  position : TexPosition
  format : String
  args : List TexArg
  deriving DecidableEq, Repr

structure TexTokenizer where
  position : TexPosition
  input : List UInt8
  ch : Option ℕ := some 0
  chLen : ℕ := 0
  errors : List TexTokError := []
  deriving DecidableEq, Repr

structure TexToken where
  position : TexPosition := {}
  kind : TexTokenKind := .invalid
  data : List UInt8 := []
  deriving DecidableEq, Repr

/-- The rune of a character of the source. -/
def rune (c : Char) : Option ℕ := some c.toNat

def texTokErrorf (t : TexTokenizer) (position : TexPosition) (format : String)
    (args : List TexArg) : TexTokenizer :=
  { t with errors := t.errors ++ [⟨position, format, args⟩] }

def texTokErrorfHere (t : TexTokenizer) (format : String) (args : List TexArg) : TexTokenizer :=
  texTokErrorf t t.position format args

/-! ### Reading runes -/

def texTokReadCh (t : TexTokenizer) : TexTokenizer :=
  if t.input.length ≤ t.position.pos + t.chLen then
    { t with position := { t.position with pos := t.input.length }, ch := none, chLen := 0 }
  else
    let pos := t.position.pos + t.chLen
    let position :=
      if t.ch ≠ rune '\n' then { t.position with pos := pos, col := t.position.col + 1 }
      else { t.position with pos := pos, row := t.position.row + 1, col := 1 }
    let decoded := Utf8.decodeRune (t.input.drop pos)
    let t := { t with position := position, ch := some decoded.1, chLen := decoded.2 }
    if decoded.1 = Utf8.runeError then
      texTokErrorfHere t "invalid utf-8 %v" [.byte (t.input.getD pos 0)]
    else t

def texTokInit (input : List UInt8) (file : String) : TexTokenizer :=
  texTokReadCh { position := { file := file, row := 1 }, input := input }

def texTokIsSpace (ch : Option ℕ) : Bool :=
  ch = rune ' ' || ch = some 0x09 || ch = some 0x0A || ch = some 0x0D

def texTokIsIdChar (ch : ℕ) : Bool :=
  ('0'.toNat ≤ ch && ch ≤ '9'.toNat) || ('A'.toNat ≤ ch && ch ≤ 'Z'.toNat) ||
    ('a'.toNat ≤ ch && ch ≤ 'z'.toNat) ||
    ("!#$%&'*+-./:<=>?@\\^_`|~".toList.map Char.toNat).contains ch

def texTokIsReserved (s : List UInt8) : Bool := (runes s).all texTokIsIdChar

/-- The byte behind the current rune. -/
def texTokPeek (t : TexTokenizer) : UInt8 :=
  if t.input.length ≤ t.position.pos + t.chLen then 0
  else t.input.getD (t.position.pos + t.chLen) 0

/-! ### The measure of the loops -/

/-- What is left to read, with room for a rune that has not been read yet. -/
def TexTokenizer.left (t : TexTokenizer) : ℕ :=
  if t.ch = none then 0
  else 2 * (t.input.length - t.position.pos) + if t.chLen = 0 then 2 else 1

/-- At the end of the input nothing more is read. -/
def TexTokenizer.Settled (t : TexTokenizer) : Prop :=
  t.ch = none → t.input.length ≤ t.position.pos + t.chLen

theorem settled_texTokReadCh (t : TexTokenizer) : (texTokReadCh t).Settled := by
  rw [texTokReadCh]
  split
  · intro _
    exact le_rfl
  · dsimp only
    split
    · intro h
      cases h
    · intro h
      cases h

theorem settled_texTokInit (input : List UInt8) (file : String) :
    (texTokInit input file).Settled := settled_texTokReadCh _

/-- Every rune that is read leaves less. -/
theorem left_texTokReadCh_lt {t : TexTokenizer} (h : t.ch ≠ none) :
    (texTokReadCh t).left < t.left := by
  have ht : t.left = 2 * (t.input.length - t.position.pos) + if t.chLen = 0 then 2 else 1 := by
    rw [TexTokenizer.left, if_neg h]
  rw [texTokReadCh]
  split
  · rw [ht]
    simp only [TexTokenizer.left, if_true]
    split <;> omega
  · rename_i hlen
    obtain ⟨b, bs, hdrop⟩ : ∃ b bs, t.input.drop (t.position.pos + t.chLen) = b :: bs :=
      List.exists_cons_of_ne_nil (by simpa using hlen)
    have hpos := Utf8.decodeRune_length_pos b bs
    have hleft : ∀ position errors, position.pos = t.position.pos + t.chLen →
        (TexTokenizer.mk position t.input (some (Utf8.decodeRune (b :: bs)).1)
          (Utf8.decodeRune (b :: bs)).2 errors).left < t.left := by
      intro position errors hposition
      rw [ht, TexTokenizer.left, if_neg (by simp)]
      simp only [hposition]
      rw [if_neg (by omega)]
      split <;> omega
    dsimp only
    rw [hdrop]
    split
    · exact hleft _ _ (by split <;> rfl)
    · exact hleft _ _ (by split <;> rfl)

theorem left_texTokReadCh_le {t : TexTokenizer} (h : t.Settled) :
    (texTokReadCh t).left ≤ t.left := by
  by_cases hch : t.ch = none
  · rw [texTokReadCh, if_pos (h hch), TexTokenizer.left]
    simp
  · exact (left_texTokReadCh_lt hch).le

/-- Two runes on. -/
theorem left_texTokReadCh_two {t : TexTokenizer} (h : t.ch ≠ none) :
    (texTokReadCh (texTokReadCh t)).left < t.left :=
  (left_texTokReadCh_le (settled_texTokReadCh t)).trans_lt (left_texTokReadCh_lt h)

/-! ### Space and comments -/

/-- The rest of a line comment. -/
def texTokSkipLine (t : TexTokenizer) : TexTokenizer :=
  if t.ch ≠ rune '\n' ∧ t.ch ≠ none then texTokSkipLine (texTokReadCh t) else t
termination_by t.left
decreasing_by
  rename_i h
  exact left_texTokReadCh_lt h.2

/-- The rest of a block comment. -/
def texTokSkipBlock (depth : ℕ) (t : TexTokenizer) : TexTokenizer :=
  if 0 < depth then
    if t.ch = none then texTokErrorfHere t "early eof in block comments" []
    else if t.ch = rune '(' ∧ texTokPeek t = byteOf ';' then
      texTokSkipBlock (depth + 1) (texTokReadCh (texTokReadCh t))
    else if t.ch = rune ';' ∧ texTokPeek t = byteOf ')' then
      texTokSkipBlock (depth - 1) (texTokReadCh (texTokReadCh t))
    else texTokSkipBlock depth (texTokReadCh t)
  else t
termination_by t.left
decreasing_by
  · rename_i h _
    exact left_texTokReadCh_two h
  · rename_i h _ _
    exact left_texTokReadCh_two h
  · rename_i h _ _
    exact left_texTokReadCh_lt h

theorem texTokSkipLine_left_le (t : TexTokenizer) (h : t.Settled) :
    (texTokSkipLine t).left ≤ t.left ∧ (texTokSkipLine t).Settled := by
  fun_induction texTokSkipLine t with
  | case1 t hch ih =>
    obtain ⟨hle, hsettled⟩ := ih (settled_texTokReadCh t)
    exact ⟨hle.trans (left_texTokReadCh_le h), hsettled⟩
  | case2 t hch => exact ⟨le_rfl, h⟩

theorem texTokSkipBlock_left_le (depth : ℕ) (t : TexTokenizer) (h : t.Settled) :
    (texTokSkipBlock depth t).left ≤ t.left ∧ (texTokSkipBlock depth t).Settled := by
  fun_induction texTokSkipBlock depth t with
  | case1 depth t hdepth hch => exact ⟨le_rfl, h⟩
  | case2 depth t hdepth hch hopen ih =>
    obtain ⟨hle, hsettled⟩ := ih (settled_texTokReadCh _)
    exact ⟨hle.trans (left_texTokReadCh_two hch).le, hsettled⟩
  | case3 depth t hdepth hch hopen hclose ih =>
    obtain ⟨hle, hsettled⟩ := ih (settled_texTokReadCh _)
    exact ⟨hle.trans (left_texTokReadCh_two hch).le, hsettled⟩
  | case4 depth t hdepth hch hopen hclose ih =>
    obtain ⟨hle, hsettled⟩ := ih (settled_texTokReadCh _)
    exact ⟨hle.trans (left_texTokReadCh_le h), hsettled⟩
  | case5 depth t hdepth => exact ⟨le_rfl, h⟩

/-- Skip space and comments. A block comment that is cut off by the end of the input ends this
loop as well, since there is nothing left to skip. -/
def texTokSkipSpace (t : TexTokenizer) : TexTokenizer :=
  if texTokIsSpace t.ch then texTokSkipSpace (texTokReadCh t)
  else if t.ch = rune ';' ∧ texTokPeek t = byteOf ';' then
    texTokSkipSpace (texTokSkipLine (texTokReadCh (texTokReadCh t)))
  else if t.ch = rune '(' ∧ texTokPeek t = byteOf ';' then
    texTokSkipSpace (texTokSkipBlock 1 (texTokReadCh (texTokReadCh t)))
  else t
termination_by t.left
decreasing_by
  · rename_i h
    refine left_texTokReadCh_lt fun hch => ?_
    rw [hch] at h
    cases h
  · rename_i h
    exact (texTokSkipLine_left_le _ (settled_texTokReadCh _)).1.trans_lt
      (left_texTokReadCh_two (by rw [h.1]; simp [rune]))
  · rename_i h
    exact (texTokSkipBlock_left_le _ _ (settled_texTokReadCh _)).1.trans_lt
      (left_texTokReadCh_two (by rw [h.1]; simp [rune]))

/-! ### Tokens -/

/-- Find the end of a token. -/
def texTokSkipToTokenBoundary (t : TexTokenizer) : TexTokenizer :=
  if texTokIsSpace t.ch then t
  else if t.ch = rune ';' ∧ texTokPeek t = byteOf ';' then t
  else if t.ch = none ∨ t.ch = rune '(' ∨ t.ch = rune ')' then t
  else texTokSkipToTokenBoundary (texTokReadCh t)
termination_by t.left
decreasing_by
  rename_i h
  exact left_texTokReadCh_lt fun hch => h (Or.inl hch)

/-- `tex_tok_is_digit` at a rune that may be the end of the input. -/
def texTokIsRuneDigit (ch : Option ℕ) (base : ℕ) : Bool :=
  match ch with
  | some ch => texTokIsDigit ch base
  | none => false

/-- The digits of a unicode escape. -/
def texTokSkipHex (t : TexTokenizer) : TexTokenizer :=
  if texTokIsRuneDigit t.ch 16 then texTokSkipHex (texTokReadCh t) else t
termination_by t.left
decreasing_by
  rename_i h
  refine left_texTokReadCh_lt fun hch => ?_
  rw [hch] at h
  cases h

theorem texTokSkipHex_left_le (t : TexTokenizer) (h : t.Settled) :
    (texTokSkipHex t).left ≤ t.left ∧ (texTokSkipHex t).Settled := by
  fun_induction texTokSkipHex t with
  | case1 t hch ih =>
    obtain ⟨hle, hsettled⟩ := ih (settled_texTokReadCh t)
    exact ⟨hle.trans (left_texTokReadCh_le h), hsettled⟩
  | case2 t hch => exact ⟨le_rfl, h⟩

/-- The escape behind `\u`: the tokenizer behind it, and whether it was valid. -/
def texTokReadUnicodeEscape (t : TexTokenizer) : TexTokenizer × Bool :=
  if t.ch ≠ rune '\x7b' then
    (texTokErrorfHere t
      "expected '\x7b\x7b' after unicode escape in string, got %q instead" [.rune t.ch], false)
  else
    let t := texTokReadCh t
    if !texTokIsRuneDigit t.ch 16 then
      (texTokErrorfHere t
        "expected an hex number inside unicode escape in string, got %q instead" [.rune t.ch],
        false)
    else
      let t := texTokSkipHex t
      if t.ch ≠ rune '\x7d' then
        (texTokErrorfHere t
          "expected '\x7d\x7d' after hex number inside unicode escape in string, got %q instead"
          [.rune t.ch], false)
      else (texTokReadCh t, true)

/-- The escape behind a backslash: the tokenizer behind it, and whether it was valid. -/
def texTokReadEscape (t : TexTokenizer) : TexTokenizer × Bool :=
  if t.ch = rune 't' ∨ t.ch = rune 'n' ∨ t.ch = rune 'r' ∨ t.ch = rune '"' ∨ t.ch = rune '\'' ∨
      t.ch = rune '\\' then (texTokReadCh t, true)
  else if t.ch = rune 'u' then texTokReadUnicodeEscape (texTokReadCh t)
  else if texTokIsRuneDigit t.ch 16 && texTokIsDigit (texTokPeek t).toNat 16 then
    (texTokReadCh (texTokReadCh t), true)
  else (texTokErrorfHere t "invalid escape sequence character %q" [.rune t.ch], false)

theorem texTokReadUnicodeEscape_left_le (t : TexTokenizer) (h : t.Settled) :
    (texTokReadUnicodeEscape t).1.left ≤ t.left ∧ (texTokReadUnicodeEscape t).1.Settled := by
  have hread := left_texTokReadCh_le h
  rw [texTokReadUnicodeEscape]
  split
  · exact ⟨le_rfl, h⟩
  · dsimp only
    split
    · exact ⟨hread, settled_texTokReadCh t⟩
    · obtain ⟨hle, hsettled⟩ := texTokSkipHex_left_le (texTokReadCh t) (settled_texTokReadCh t)
      split
      · exact ⟨hle.trans hread, hsettled⟩
      · exact ⟨(left_texTokReadCh_le hsettled).trans (hle.trans hread), settled_texTokReadCh _⟩

theorem texTokReadEscape_left_le (t : TexTokenizer) (h : t.Settled) :
    (texTokReadEscape t).1.left ≤ t.left ∧ (texTokReadEscape t).1.Settled := by
  have hread := left_texTokReadCh_le h
  rw [texTokReadEscape]
  split
  · exact ⟨hread, settled_texTokReadCh t⟩
  · split
    · obtain ⟨hle, hsettled⟩ := texTokReadUnicodeEscape_left_le _ (settled_texTokReadCh t)
      exact ⟨hle.trans hread, hsettled⟩
    · split
      · exact ⟨(left_texTokReadCh_le (settled_texTokReadCh t)).trans hread,
          settled_texTokReadCh _⟩
      · exact ⟨le_rfl, h⟩

/-- The loop of `tex_tok_read_string`, with the kind of the token so far. -/
def texTokReadStringLoop (t : TexTokenizer) (kind : TexTokenKind) :
    TexTokenizer × TexTokenKind :=
  match _h : t.ch with
  | none => (t, .invalid)
  | some ch =>
    if ch = '"'.toNat then (t, kind)
    else if ch = '\\'.toNat then
      let escape := texTokReadEscape (texTokReadCh t)
      texTokReadStringLoop escape.1 (if escape.2 then kind else .invalid)
    else if ch < 0x20 ∨ ch = 0x7F then
      texTokReadStringLoop
        (texTokReadCh (texTokErrorfHere t "invalid control character %q in string" [.rune t.ch]))
        .invalid
    else texTokReadStringLoop (texTokReadCh t) kind
termination_by t.left
decreasing_by
  · exact (texTokReadEscape_left_le _ (settled_texTokReadCh t)).1.trans_lt
      (left_texTokReadCh_lt (by simp [_h]))
  · exact left_texTokReadCh_lt (t := texTokErrorfHere t _ _) (by simp [texTokErrorfHere,
      texTokErrorf, _h])
  · exact left_texTokReadCh_lt (by simp [_h])

/-- The text between two positions. -/
def TexTokenizer.slice (t : TexTokenizer) (start stop : ℕ) : List UInt8 :=
  (t.input.take stop).drop start

def texTokReadString (t : TexTokenizer) : TexTokenizer × TexToken :=
  let position := t.position
  let (t, kind) := texTokReadStringLoop (texTokReadCh t) .string
  let t := if t.ch = rune '"' then texTokReadCh t else t
  (t, ⟨position, kind, t.slice position.pos t.position.pos⟩)

def texTokReadMemoryArgument (s : List UInt8) : TexTokenKind :=
  if startsWith s (ascii "align=") then
    if texTokReadNumberLike (s.drop (ascii "align=").length) = .integerUnsigned then
      .alignEqualNatural
    else .invalid
  else if startsWith s (ascii "offset=") then
    if texTokReadNumberLike (s.drop (ascii "offset=").length) = .integerUnsigned then
      .offsetEqualNatural
    else .invalid
  else .invalid

def texTokIsIdentifier (s : List UInt8) : Bool :=
  startsWith s (ascii "$") && ((runes s).takeWhile texTokIsIdChar).length = s.length &&
    2 ≤ s.length

/-- The kind of a token that is neither a parenthesis nor a string. -/
def texTokWordKind (data : List UInt8) : TexTokenKind :=
  if texTokReadMemoryArgument data ≠ .invalid then texTokReadMemoryArgument data
  else
    match texTokPerfectHashProc data with
    | some index => .keyword index
    | none =>
      if texTokReadNumberLike data ≠ .invalid then texTokReadNumberLike data
      else if texTokIsIdentifier data then .identifier
      else .invalid

/-- A token that is neither a parenthesis nor a string. -/
def texTokReadWord (t : TexTokenizer) : TexTokenizer × TexToken :=
  let position := t.position
  let t := texTokSkipToTokenBoundary t
  let data := t.slice position.pos t.position.pos
  let kind := texTokWordKind data
  let t :=
    if kind = .invalid then
      if texTokIsReserved data then
        texTokErrorf t position "found invalid reserved token %q" [.text data]
      else texTokErrorf t position "invalid token %q" [.text data]
    else t
  (t, ⟨position, kind, data⟩)

def texTokNext (t : TexTokenizer) : TexTokenizer × TexToken :=
  let t := texTokSkipSpace t
  let data := t.slice t.position.pos (t.position.pos + t.chLen)
  if t.ch = none then (texTokReadCh t, ⟨t.position, .eof, data⟩)
  else if t.ch = rune '(' then (texTokReadCh t, ⟨t.position, .parenOpen, data⟩)
  else if t.ch = rune ')' then (texTokReadCh t, ⟨t.position, .parenClose, data⟩)
  else if t.ch = rune '"' then texTokReadString t
  else texTokReadWord t

/-! ### Tokens leave less to read -/

theorem texTokSkipSpace_left_le (t : TexTokenizer) (h : t.Settled) :
    (texTokSkipSpace t).left ≤ t.left ∧ (texTokSkipSpace t).Settled := by
  fun_induction texTokSkipSpace t with
  | case1 t hch ih =>
    obtain ⟨hle, hsettled⟩ := ih (settled_texTokReadCh t)
    exact ⟨hle.trans (left_texTokReadCh_le h), hsettled⟩
  | case2 t _ hch ih =>
    have hline := texTokSkipLine_left_le _ (settled_texTokReadCh (texTokReadCh t))
    obtain ⟨hle, hsettled⟩ := ih hline.2
    have htwo := left_texTokReadCh_two (t := t) (by rw [hch.1]; simp [rune])
    exact ⟨hle.trans (hline.1.trans htwo.le), hsettled⟩
  | case3 t _ _ hch ih =>
    have hblock := texTokSkipBlock_left_le 1 _ (settled_texTokReadCh (texTokReadCh t))
    obtain ⟨hle, hsettled⟩ := ih hblock.2
    have htwo := left_texTokReadCh_two (t := t) (by rw [hch.1]; simp [rune])
    exact ⟨hle.trans (hblock.1.trans htwo.le), hsettled⟩
  | case4 t _ _ _ => exact ⟨le_rfl, h⟩

/-- Skipping stops in front of something that is not skipped. -/
theorem texTokSkipSpace_stops (t : TexTokenizer) :
    let u := texTokSkipSpace t
    texTokIsSpace u.ch = false ∧ ¬(u.ch = rune ';' ∧ texTokPeek u = byteOf ';') := by
  fun_induction texTokSkipSpace t with
  | case1 t hch ih => exact ih
  | case2 t _ hch ih => exact ih
  | case3 t _ _ hch ih => exact ih
  | case4 t hspace hline _ => exact ⟨by simpa using hspace, hline⟩

theorem texTokSkipToTokenBoundary_left_le (t : TexTokenizer) (h : t.Settled) :
    (texTokSkipToTokenBoundary t).left ≤ t.left ∧ (texTokSkipToTokenBoundary t).Settled := by
  fun_induction texTokSkipToTokenBoundary t with
  | case1 t _ => exact ⟨le_rfl, h⟩
  | case2 t _ _ => exact ⟨le_rfl, h⟩
  | case3 t _ _ _ => exact ⟨le_rfl, h⟩
  | case4 t _ _ _ ih =>
    obtain ⟨hle, hsettled⟩ := ih (settled_texTokReadCh t)
    exact ⟨hle.trans (left_texTokReadCh_le h), hsettled⟩

theorem texTokReadStringLoop_left_le (t : TexTokenizer) (kind : TexTokenKind) (h : t.Settled) :
    (texTokReadStringLoop t kind).1.left ≤ t.left ∧ (texTokReadStringLoop t kind).1.Settled := by
  fun_induction texTokReadStringLoop t kind with
  | case1 t kind _ => exact ⟨le_rfl, h⟩
  | case2 t kind _ => exact ⟨le_rfl, h⟩
  | case3 t kind _ _ escape ih =>
    have hescape := texTokReadEscape_left_le _ (settled_texTokReadCh t)
    obtain ⟨hle, hsettled⟩ := ih hescape.2
    exact ⟨hle.trans (hescape.1.trans (left_texTokReadCh_le h)), hsettled⟩
  | case4 t kind _ _ _ _ _ ih =>
    obtain ⟨hle, hsettled⟩ := ih (settled_texTokReadCh _)
    exact ⟨hle.trans (left_texTokReadCh_le (t := texTokErrorfHere t _ _) h), hsettled⟩
  | case5 t kind _ _ _ _ _ ih =>
    obtain ⟨hle, hsettled⟩ := ih (settled_texTokReadCh t)
    exact ⟨hle.trans (left_texTokReadCh_le h), hsettled⟩

theorem texTokReadString_left_lt {t : TexTokenizer} (hch : t.ch ≠ none) :
    (texTokReadString t).1.left < t.left ∧ (texTokReadString t).1.Settled := by
  obtain ⟨hle, hsettled⟩ :=
    texTokReadStringLoop_left_le (texTokReadCh t) .string (settled_texTokReadCh t)
  have hlt := hle.trans_lt (left_texTokReadCh_lt hch)
  simp only [texTokReadString]
  split
  · exact ⟨(left_texTokReadCh_le hsettled).trans_lt hlt, settled_texTokReadCh _⟩
  · exact ⟨hlt, hsettled⟩

/-- A word has at least one rune. -/
theorem texTokReadWord_left_lt {t : TexTokenizer} (hspace : texTokIsSpace t.ch = false)
    (hline : ¬(t.ch = rune ';' ∧ texTokPeek t = byteOf ';'))
    (hch : ¬(t.ch = none ∨ t.ch = rune '(' ∨ t.ch = rune ')')) :
    (texTokReadWord t).1.left < t.left ∧ (texTokReadWord t).1.Settled := by
  obtain ⟨hle, hsettled⟩ :=
    texTokSkipToTokenBoundary_left_le (texTokReadCh t) (settled_texTokReadCh t)
  have hlt := hle.trans_lt (left_texTokReadCh_lt fun h => hch (Or.inl h))
  have hskip : texTokSkipToTokenBoundary t = texTokSkipToTokenBoundary (texTokReadCh t) := by
    rw [texTokSkipToTokenBoundary, if_neg (by simp [hspace]), if_neg hline, if_neg hch]
  simp only [texTokReadWord, hskip]
  split
  · split
    · exact ⟨hlt, hsettled⟩
    · exact ⟨hlt, hsettled⟩
  · exact ⟨hlt, hsettled⟩

/-- Every token but the end of the input leaves less to read. -/
theorem texTokNext_left (t : TexTokenizer) (h : t.Settled) :
    (texTokNext t).1.Settled ∧ (texTokNext t).1.left ≤ t.left ∧
      ((texTokNext t).2.kind ≠ .eof → (texTokNext t).1.left < t.left) := by
  obtain ⟨hle, hsettled⟩ := texTokSkipSpace_left_le t h
  obtain ⟨hspace, hline⟩ := texTokSkipSpace_stops t
  have hstrict : ∀ {u : TexTokenizer}, u.left < (texTokSkipSpace t).left ∧ u.Settled →
      ∀ {k : Prop}, u.Settled ∧ u.left ≤ t.left ∧ (k → u.left < t.left) := fun hu _ =>
    ⟨hu.2, (hu.1.trans_le hle).le, fun _ => hu.1.trans_le hle⟩
  simp only [texTokNext]
  split
  · exact ⟨settled_texTokReadCh _, (left_texTokReadCh_le hsettled).trans hle,
      fun hk => absurd rfl hk⟩
  · rename_i hch
    have hread := left_texTokReadCh_lt hch
    split
    · exact hstrict ⟨hread, settled_texTokReadCh _⟩
    · rename_i hopen
      split
      · exact hstrict ⟨hread, settled_texTokReadCh _⟩
      · rename_i hclose
        split
        · exact hstrict (texTokReadString_left_lt hch)
        · refine hstrict (texTokReadWord_left_lt hspace hline ?_)
          rintro (h | h | h)
          · exact hch h
          · exact hopen h
          · exact hclose h

end Wasim
