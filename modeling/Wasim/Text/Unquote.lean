import Wasim.Base.ArenaFits
import Wasim.Text.StringTokens

/-!
# Unquoting

`tex_unquote_string` of `wasim_text_utils.odin`. The bytes that a literal without unicode escapes
denotes are given by its grammar (`Denotes`). The procedure writes them to a buffer as long as the
literal, and gives back what it has not used; without a backslash it returns the text between the
quotes. Its loop reads the next rune at the top and so runs once more behind the last one
(`Denotes.loop`).
-/

namespace Wasim

variable {t : TexTokenizer}

/-! ### The procedure -/

/-- What is left of the text, from the current rune on. The length of the current rune stays
inside of it, so that the slices of the source are in bounds. -/
structure UnquoteCursor where
  s : List UInt8
  ch : ℕ := 0
  chLen : ℕ := 0
  chLen_le : chLen ≤ s.length

namespace UnquoteCursor

/-- The cursor in front of the first rune. -/
def start (s : List UInt8) : UnquoteCursor where
  s := s
  chLen_le := Nat.zero_le _

def advance (c : UnquoteCursor) : UnquoteCursor where
  s := c.s.drop c.chLen
  ch := (Utf8.decodeRune (c.s.drop c.chLen)).1
  chLen := (Utf8.decodeRune (c.s.drop c.chLen)).2
  chLen_le := Utf8.decodeRune_length_le _

/-- The measure of the loop: what is behind the current rune, and the current rune. -/
def left (c : UnquoteCursor) : ℕ := 2 * (c.s.length - c.chLen) + min c.s.length 1

/-- Advancing takes one rune from what was behind the current one. -/
theorem left_advance (c : UnquoteCursor) : c.advance.left ≤ 2 * (c.s.length - c.chLen) := by
  have hbehind : (c.s.drop c.chLen).length = c.s.length - c.chLen := List.length_drop
  rw [left, advance, ← hbehind]
  dsimp only
  generalize c.s.drop c.chLen = s
  rcases s with _ | ⟨b, bs⟩
  · simp
  · have hpos := Utf8.decodeRune_length_pos b bs
    have hle := Utf8.decodeRune_length_le (b :: bs)
    omega

theorem left_advance_le (c : UnquoteCursor) : c.advance.left ≤ c.left := by
  have := c.left_advance
  rw [left.eq_def c]
  omega

theorem left_advance_lt {c : UnquoteCursor} (h : c.s ≠ []) : c.advance.left < c.left := by
  have := c.left_advance
  have := List.length_pos_iff.mpr h
  rw [left.eq_def c]
  omega

end UnquoteCursor

/-- Copies a text to the index `i` of the buffer. Returns the buffer and the index behind it. -/
def bytesPushString (data : List UInt8) (i : ℕ) (s : List UInt8) : Outcome (List UInt8 × ℕ) :=
  if i + s.length ≤ data.length then
    .returned (data.take i ++ s ++ data.drop (i + s.length), i + s.length)
  else .crashed

def bytesPushByte (data : List UInt8) (i : ℕ) (b : UInt8) : Outcome (List UInt8 × ℕ) :=
  if i < data.length then .returned (data.set i b, i + 1) else .crashed

/-- The byte of an escape of one character. -/
def unquoteEscape (ch : ℕ) : Option UInt8 :=
  if ch = 't'.toNat then some (byteOf '\t')
  else if ch = 'n'.toNat then some (byteOf '\n')
  else if ch = 'r'.toNat then some (byteOf '\r')
  else if ch = '"'.toNat then some (byteOf '"')
  else if ch = '\''.toNat then some (byteOf '\'')
  else if ch = '\\'.toNat then some (byteOf '\\')
  else none

/-- The loop. Returns the buffer and the index behind what was written. -/
def texUnquoteLoop (c : UnquoteCursor) (data : List UInt8) (i : ℕ) : Outcome (List UInt8 × ℕ) :=
  if _h : c.s = [] then .returned (data, i)
  else if c.advance.ch = '\\'.toNat then
    match unquoteEscape c.advance.advance.ch with
    | some b => do
      let r ← bytesPushByte data i b
      texUnquoteLoop c.advance.advance r.1 r.2
    | none =>
      -- unicode escapes are not implemented
      if c.advance.advance.ch = 'u'.toNat then .crashed
      else do
        let first ← texIntegerRuneValue c.advance.advance.ch
        let second ← texIntegerRuneValue c.advance.advance.advance.ch
        let r ← bytesPushByte data i (16 * UInt8.ofNat first + UInt8.ofNat second)
        texUnquoteLoop c.advance.advance.advance r.1 r.2
  else do
    let r ← bytesPushString data i (c.advance.s.take c.advance.chLen)
    texUnquoteLoop c.advance r.1 r.2
termination_by c.left
decreasing_by
  · exact (UnquoteCursor.left_advance_le _).trans_lt (UnquoteCursor.left_advance_lt _h)
  · exact ((UnquoteCursor.left_advance_le _).trans (UnquoteCursor.left_advance_le _)).trans_lt
      (UnquoteCursor.left_advance_lt _h)
  · exact UnquoteCursor.left_advance_lt _h

/-- Returns the arena and the bytes. Without an escape sequence they are those of the literal, and
nothing is allocated. -/
def texUnquoteString (memory : VirtualMemory) (arena : ArenaChain) (quoted : List UInt8) :
    Outcome (ArenaChain × List UInt8) := do
  arenaAssert (2 ≤ quoted.length)
  arenaAssert (quoted.head? = some (byteOf '"'))
  arenaAssert (quoted.getLast? = some (byteOf '"'))
  let s := (quoted.take (quoted.length - 1)).drop 1
  if byteOf '\\' ∉ quoted then return (arena, s)
  else
    let (arena, _) ← arenaPushAlignedNonZeroed memory arena quoted.length 1
    let (unquoted, i) ← texUnquoteLoop (.start s) (List.replicate quoted.length 0) 0
    let extra : ℤ := unquoted.length - i
    let arena ← arenaPop arena extra
    return (arena, unquoted.take i)

/-! ### What a literal denotes -/

/-- The text between the quotes of a literal has no unicode escape. -/
def noUnicodeEscape : List UInt8 → Bool
  | [] => true
  | [_] => true
  | b :: c :: s =>
    if b = byteOf '\\' then c != byteOf 'u' && noUnicodeEscape s else noUnicodeEscape (c :: s)

/-- The byte that a character behind a backslash stands for. -/
def escapedByte (c : UInt8) : UInt8 :=
  if c = byteOf 't' then 0x09
  else if c = byteOf 'n' then 0x0A
  else if c = byteOf 'r' then 0x0D
  else c

/-- The value of a hexadecimal digit. -/
def hexDigitValue (d : UInt8) : ℕ :=
  if d.toNat ≤ '9'.toNat then d.toNat - '0'.toNat
  else if d.toNat ≤ 'F'.toNat then d.toNat - 'A'.toNat + 10
  else d.toNat - 'a'.toNat + 10

/-- The bytes that the text between the quotes of a literal stands for: a character for its own
bytes, and an escape for one byte. -/
inductive Denotes : List UInt8 → List UInt8 → Prop
  | nil : Denotes [] []
  | char {s bytes : List UInt8} {r : ℕ} (hr : headRune s = some r)
      (hcontrol : 0x20 ≤ r ∧ r ≠ 0x7F) (hquote : r ≠ '"'.toNat) (hescape : r ≠ '\\'.toNat) :
      Denotes (dropRune s) bytes → Denotes s (s.take (Utf8.decodeRune s).2 ++ bytes)
  | escape {c : UInt8} {s bytes : List UInt8} (hc : c ∈ escapes) :
      Denotes s bytes → Denotes (byteOf '\\' :: c :: s) (escapedByte c :: bytes)
  | byte {d e : UInt8} {s bytes : List UInt8} (hd : isHexByte d) (he : isHexByte e) :
      Denotes s bytes → Denotes (byteOf '\\' :: d :: e :: s)
        (UInt8.ofNat (16 * hexDigitValue d + hexDigitValue e) :: bytes)

/-! ### The loop -/

/-- The buffer with a text written to the index `i` of it. -/
def written (data : List UInt8) (i : ℕ) (s : List UInt8) : List UInt8 :=
  data.take i ++ s ++ data.drop (i + s.length)

theorem bytesPushString_eq {data s : List UInt8} {i : ℕ} (h : i + s.length ≤ data.length) :
    bytesPushString data i s = .returned (written data i s, i + s.length) := if_pos h

theorem bytesPushByte_eq {data : List UInt8} {i : ℕ} (b : UInt8) (h : i < data.length) :
    bytesPushByte data i b = .returned (written data i [b], i + 1) := by
  rw [bytesPushByte, if_pos h, List.set_eq_take_append_cons_drop, if_pos h, written,
    List.append_assoc, List.singleton_append]
  rfl

theorem written_spec {data s : List UInt8} {i : ℕ} (h : i + s.length ≤ data.length) :
    (written data i s).length = data.length ∧
      (written data i s).take (i + s.length) = data.take i ++ s := by
  have hlength : (data.take i ++ s).length = i + s.length := by
    rw [List.length_append, List.length_take, min_eq_left (by omega)]
  constructor
  · rw [written, List.length_append, hlength, List.length_drop]
    omega
  · rw [written, ← hlength]
    exact List.take_left

theorem texIntegerRuneValue_hexByte {d : UInt8} (h : isHexByte d) :
    texIntegerRuneValue d.toNat = .returned (hexDigitValue d) := by
  have hall : ∀ n < 256, texTokIsDigit n 16 →
      texIntegerRuneValue n = .returned (hexDigitValue (UInt8.ofNat n)) := by decide +kernel
  have := hall d.toNat d.toNat_lt h
  rwa [UInt8.ofNat_toNat] at this

theorem unquoteEscape_escapes {c : UInt8} (h : c ∈ escapes) :
    unquoteEscape c.toNat = some (escapedByte c) := by
  have hall : ∀ c ∈ escapes, unquoteEscape c.toNat = some (escapedByte c) := by decide +kernel
  exact hall c h

theorem unquoteEscape_hexByte {d : UInt8} (h : isHexByte d) :
    unquoteEscape d.toNat = none ∧ d.toNat ≠ 'u'.toNat := by
  have hall : ∀ n < 256, texTokIsDigit n 16 → unquoteEscape n = none ∧ n ≠ 'u'.toNat := by
    decide +kernel
  exact hall d.toNat d.toNat_lt h

theorem UnquoteCursor.advance_ascii {c : UnquoteCursor} {b : UInt8} {bs : List UInt8}
    (h : c.s.drop c.chLen = b :: bs) (hb : b.toNat < 0x80) :
    c.advance.ch = b.toNat ∧ c.advance.s.drop c.advance.chLen = bs := by
  rw [advance]
  dsimp only
  rw [h, Utf8.decodeRune_ascii hb]
  exact ⟨rfl, rfl⟩

theorem texUnquoteLoop_nil {c : UnquoteCursor} (h : c.s.drop c.chLen = []) (data : List UInt8)
    (i : ℕ) (hi : i ≤ data.length) : texUnquoteLoop c data i = .returned (data, i) := by
  by_cases hs : c.s = []
  · rw [texUnquoteLoop, dif_pos hs]
  -- behind the last rune nothing is written
  have hadvance : c.advance.s = [] := h
  have hch : c.advance.ch ≠ '\\'.toNat := by
    rw [UnquoteCursor.advance]
    dsimp only
    rw [h]
    decide
  rw [texUnquoteLoop, dif_neg hs, if_neg hch, hadvance, List.take_nil,
    bytesPushString_eq (show i + ([] : List UInt8).length ≤ data.length from hi)]
  rw [Outcome.returned_bind, texUnquoteLoop, dif_pos hadvance, written]
  simp

/-- What the loop leaves behind from the index `i` on. -/
def Unquotes (c : UnquoteCursor) (data : List UInt8) (i : ℕ) (bytes : List UInt8) : Prop :=
  ∃ data', texUnquoteLoop c data i = .returned (data', i + bytes.length) ∧
    data'.length = data.length ∧ data'.take (i + bytes.length) = data.take i ++ bytes

/-- A round of the loop and the rounds behind it. -/
theorem Unquotes.round {c c' : UnquoteCursor} {data s bytes : List UInt8} {i : ℕ}
    (hi : i + s.length ≤ data.length)
    (hround : texUnquoteLoop c data i = texUnquoteLoop c' (written data i s) (i + s.length))
    (h : Unquotes c' (written data i s) (i + s.length) bytes) :
    Unquotes c data i (s ++ bytes) := by
  obtain ⟨data', hloop, hlength, htake⟩ := h
  obtain ⟨hlength', htake'⟩ := written_spec hi
  rw [Nat.add_assoc, ← List.length_append] at hloop htake
  rw [htake', List.append_assoc] at htake
  exact ⟨data', hround.trans hloop, hlength.trans hlength', htake⟩

theorem Denotes.length_le {s bytes : List UInt8} (h : Denotes s bytes) :
    bytes.length ≤ s.length := by
  induction h with
  | nil => exact le_rfl
  | @char s bytes r hr _ _ _ _ ih =>
    rw [dropRune, List.length_drop] at ih
    have := Utf8.decodeRune_length_le s
    rw [List.length_append, List.length_take]
    omega
  | escape _ _ ih =>
    simp only [List.length_cons]
    omega
  | byte _ _ _ ih =>
    simp only [List.length_cons]
    omega

theorem ne_nil_of_drop {c : UnquoteCursor} {b : UInt8} {bs : List UInt8}
    (h : c.s.drop c.chLen = b :: bs) : c.s ≠ [] := by
  intro hnil
  rw [hnil, List.drop_nil] at h
  cases h

/-- The loop writes what the text denotes. -/
theorem Denotes.loop {s bytes : List UInt8} (h : Denotes s bytes) {c : UnquoteCursor}
    (hc : c.s.drop c.chLen = s) {data : List UInt8} {i : ℕ} (hi : i + s.length ≤ data.length) :
    Unquotes c data i bytes := by
  induction h generalizing c data i with
  | nil =>
    exact ⟨data, texUnquoteLoop_nil hc data i hi, rfl, by rw [List.append_nil]; rfl⟩
  | @char s bytes r hr hcontrol hquote hescape hs ih =>
    obtain ⟨b, bs, rfl⟩ : ∃ b bs, s = b :: bs := by
      rcases s with _ | ⟨b, bs⟩
      · cases hr
      · exact ⟨b, bs, rfl⟩
    have hch : c.advance.ch ≠ '\\'.toNat := by
      rw [UnquoteCursor.advance]
      dsimp only
      rw [hc]
      exact Option.some.inj hr ▸ hescape
    have htake : c.advance.s.take c.advance.chLen =
        (b :: bs).take (Utf8.decodeRune (b :: bs)).2 := by
      rw [UnquoteCursor.advance]
      dsimp only
      rw [hc]
    have hdrop : c.advance.s.drop c.advance.chLen = dropRune (b :: bs) := by
      rw [UnquoteCursor.advance]
      dsimp only
      rw [hc, dropRune]
    have hlength : ((b :: bs).take (Utf8.decodeRune (b :: bs)).2).length +
        (dropRune (b :: bs)).length = (b :: bs).length := by
      rw [dropRune, ← List.length_append, List.take_append_drop]
    have hroom : i + ((b :: bs).take (Utf8.decodeRune (b :: bs)).2).length ≤ data.length := by
      omega
    refine Unquotes.round hroom ?_ (ih hdrop ?_)
    · rw [texUnquoteLoop, dif_neg (ne_nil_of_drop hc), if_neg hch, htake, bytesPushString_eq hroom]
      rfl
    · rw [(written_spec hroom).1]
      omega
  | @escape e s bytes he hs ih =>
    obtain ⟨hch, hnext⟩ := UnquoteCursor.advance_ascii hc (by decide)
    obtain ⟨hch', hnext'⟩ := UnquoteCursor.advance_ascii hnext (escape_lt he)
    rw [toNat_byteOf (by decide)] at hch
    simp only [List.length_cons] at hi
    have hroom : i + [escapedByte e].length ≤ data.length := by
      rw [List.length_singleton]
      omega
    refine Unquotes.round hroom ?_ (ih hnext' ?_)
    · rw [texUnquoteLoop, dif_neg (ne_nil_of_drop hc), if_pos hch, hch', unquoteEscape_escapes he]
      dsimp only
      rw [bytesPushByte_eq _ hroom]
      rfl
    · rw [(written_spec hroom).1, List.length_singleton]
      omega
  | @byte d e s bytes hd he hs ih =>
    obtain ⟨hch, hnext⟩ := UnquoteCursor.advance_ascii hc (by decide)
    obtain ⟨hch', hnext'⟩ := UnquoteCursor.advance_ascii hnext (isHexByte_lt hd)
    obtain ⟨hch'', hnext''⟩ := UnquoteCursor.advance_ascii hnext' (isHexByte_lt he)
    obtain ⟨hescape, hunicode⟩ := unquoteEscape_hexByte hd
    rw [toNat_byteOf (by decide)] at hch
    simp only [List.length_cons] at hi
    have hroom : i + [UInt8.ofNat (16 * hexDigitValue d + hexDigitValue e)].length ≤
        data.length := by
      rw [List.length_singleton]
      omega
    have hvalue : 16 * UInt8.ofNat (hexDigitValue d) + UInt8.ofNat (hexDigitValue e) =
        UInt8.ofNat (16 * hexDigitValue d + hexDigitValue e) := by
      rw [UInt8.ofNat_add, UInt8.ofNat_mul]
      rfl
    refine Unquotes.round hroom ?_ (ih hnext'' ?_)
    · rw [texUnquoteLoop, dif_neg (ne_nil_of_drop hc), if_pos hch, hch', hch'', hescape]
      dsimp only
      rw [if_neg hunicode, texIntegerRuneValue_hexByte hd, texIntegerRuneValue_hexByte he]
      simp only [Outcome.returned_bind]
      rw [hvalue, bytesPushByte_eq _ hroom]
      rfl
    · rw [(written_spec hroom).1, List.length_singleton]
      omega

/-! ### Literals of the tokenizer -/

theorem headRune_of_ne_nil {s : List UInt8} (h : s ≠ []) :
    headRune s = some (Utf8.decodeRune s).1 := by
  obtain ⟨b, bs, rfl⟩ := List.exists_cons_of_ne_nil h
  rfl

theorem noUnicodeEscape_append {w : List UInt8} (hw : byteOf '\\' ∉ w) (s : List UInt8) :
    noUnicodeEscape (w ++ s) = noUnicodeEscape s := by
  induction w with
  | nil => rfl
  | cons b w ih =>
    obtain ⟨hb, hw⟩ := not_or.mp (List.mem_cons.not.mp hw)
    rw [← ih hw, List.cons_append]
    rcases w ++ s with _ | ⟨c, s⟩
    · rfl
    · rw [noUnicodeEscape, if_neg (Ne.symm hb)]

/-- The bytes of a character other than a backslash. -/
theorem backslash_not_mem_rune {s : List UInt8} {r : ℕ} (hr : headRune s = some r)
    (hescape : r ≠ '\\'.toNat) : byteOf '\\' ∉ s.take (Utf8.decodeRune s).2 := by
  rcases s with _ | ⟨b, bs⟩
  · cases hr
  obtain rfl := Option.some.inj hr
  intro hmem
  by_cases hb : b.toNat < 0x80
  · rw [Utf8.decodeRune_ascii hb] at hmem hescape
    rw [List.take_succ_cons, List.take_zero, List.mem_singleton] at hmem
    exact hescape (hmem ▸ toNat_byteOf (by decide))
  · have := (Utf8.decodeRune_nonascii (not_lt.mp hb) bs).2 _ hmem
    rw [toNat_byteOf (by decide)] at this
    exact absurd this (by decide)

/-- A literal of the tokenizer denotes some bytes. -/
theorem StringTail.denotes {s rest : List UInt8} (h : StringTail s rest) :
    ∃ p, s = p ++ byteOf '"' :: rest ∧ (noUnicodeEscape p → ∃ bytes, Denotes p bytes) := by
  induction h with
  | close rest => exact ⟨[], rfl, fun _ => ⟨[], .nil⟩⟩
  | @char s rest r hr hcontrol hquote hescape _ ih =>
    obtain ⟨p, hp, hdenotes⟩ := ih
    have hsplit : s = s.take (Utf8.decodeRune s).2 ++ p ++ byteOf '"' :: rest := by
      rw [List.append_assoc, ← hp, dropRune, List.take_append_drop]
    have hlength : (s.take (Utf8.decodeRune s).2).length = (Utf8.decodeRune s).2 :=
      List.length_take_of_le (Utf8.decodeRune_length_le s)
    -- the character is read in the same way without what is behind the literal
    have hdecode : Utf8.decodeRune (s.take (Utf8.decodeRune s).2 ++ p) = Utf8.decodeRune s := by
      have happend := @Utf8.decodeRune_append (s.take (Utf8.decodeRune s).2 ++ p)
        (byteOf '"' :: rest) (by rw [← hsplit, List.length_append]; omega)
      rwa [← hsplit] at happend
    have hdrop : dropRune (s.take (Utf8.decodeRune s).2 ++ p) = p := by
      rw [dropRune, hdecode, List.drop_append_of_le_length hlength.ge, List.drop_take_self,
        List.nil_append]
    refine ⟨s.take (Utf8.decodeRune s).2 ++ p, hsplit, fun hfree => ?_⟩
    rw [noUnicodeEscape_append (backslash_not_mem_rune hr hescape)] at hfree
    obtain ⟨bytes, hbytes⟩ := hdenotes hfree
    have hhead : headRune (s.take (Utf8.decodeRune s).2 ++ p) = some r := by
      have hs : s ≠ [] := by
        rintro rfl
        cases hr
      have hpos : 0 < (Utf8.decodeRune s).2 := by
        obtain ⟨b, bs, rfl⟩ := List.exists_cons_of_ne_nil hs
        exact Utf8.decodeRune_length_pos b bs
      have hne : s.take (Utf8.decodeRune s).2 ++ p ≠ [] := by
        refine List.append_ne_nil_of_left_ne_nil (List.ne_nil_of_length_pos ?_) p
        rwa [hlength]
      rw [headRune_of_ne_nil hne, hdecode, ← headRune_of_ne_nil hs, hr]
    exact ⟨_, .char hhead hcontrol hquote hescape (hdrop ▸ hbytes)⟩
  | @escape c s rest hc _ ih =>
    obtain ⟨p, rfl, hdenotes⟩ := ih
    refine ⟨byteOf '\\' :: c :: p, rfl, fun hfree => ?_⟩
    rw [noUnicodeEscape, if_pos rfl, Bool.and_eq_true] at hfree
    obtain ⟨bytes, hbytes⟩ := hdenotes hfree.2
    exact ⟨_, .escape hc hbytes⟩
  | @unicode hex s rest _ _ _ ih =>
    obtain ⟨p, rfl, -⟩ := ih
    refine ⟨byteOf '\\' :: byteOf 'u' :: byteOf '\x7b' :: (hex ++ byteOf '\x7d' :: p), by simp,
      fun hfree => ?_⟩
    rw [noUnicodeEscape, if_pos rfl] at hfree
    simp at hfree
  | @byte d e s rest hd he _ ih =>
    obtain ⟨p, rfl, hdenotes⟩ := ih
    refine ⟨byteOf '\\' :: d :: e :: p, rfl, fun hfree => ?_⟩
    have hslash : byteOf '\\' ∉ [e] := by
      rw [List.mem_singleton]
      rintro rfl
      revert he
      decide
    rw [noUnicodeEscape, if_pos rfl, Bool.and_eq_true, ← List.singleton_append,
      noUnicodeEscape_append hslash] at hfree
    obtain ⟨bytes, hbytes⟩ := hdenotes hfree.2
    exact ⟨_, .byte hd he hbytes⟩

/-! ### What is returned -/

/-- The literal with a text between its quotes. -/
def quoted (p : List UInt8) : List UInt8 := byteOf '"' :: (p ++ [byteOf '"'])

theorem length_quoted (p : List UInt8) : (quoted p).length = p.length + 2 := by
  simp [quoted]

theorem unquoted_quoted (p : List UInt8) :
    ((quoted p).take ((quoted p).length - 1)).drop 1 = p := by
  rw [length_quoted, quoted, show p.length + 2 - 1 = p.length + 1 by omega, List.take_succ_cons,
    List.drop_succ_cons, List.drop_zero, List.take_left]

theorem mem_quoted {p : List UInt8} : byteOf '\\' ∈ quoted p ↔ byteOf '\\' ∈ p := by
  have hne : byteOf '\\' ≠ byteOf '"' := by decide
  simp [quoted, hne]

/-- Without a backslash a text denotes itself. -/
theorem Denotes.plain {p bytes : List UInt8} (h : Denotes p bytes) (hp : byteOf '\\' ∉ p) :
    bytes = p := by
  induction h with
  | nil => rfl
  | @char s bytes r hr _ _ _ _ ih =>
    have hdrop : byteOf '\\' ∉ dropRune s := fun hmem => hp (List.mem_of_mem_drop hmem)
    rw [ih hdrop, dropRune, List.take_append_drop]
  | escape => exact absurd List.mem_cons_self hp
  | byte => exact absurd List.mem_cons_self hp

/-- A text denotes one thing only. -/
theorem Denotes.unique {p bytes bytes' : List UInt8} (h : Denotes p bytes)
    (h' : Denotes p bytes') : bytes' = bytes := by
  have hroom : 0 + p.length ≤ (List.replicate p.length (0 : UInt8)).length := by simp
  obtain ⟨data, hloop, -, htake⟩ := @Denotes.loop p bytes h (.start p) rfl _ _ hroom
  obtain ⟨data', hloop', -, htake'⟩ := @Denotes.loop p bytes' h' (.start p) rfl _ _ hroom
  rw [hloop, Outcome.returned.injEq, Prod.mk.injEq] at hloop'
  rw [List.take_zero, List.nil_append] at htake htake'
  rw [← htake, ← htake', hloop'.1, hloop'.2]

/-- The literal with the text between its quotes is unquoted to the bytes: by the loop, and by the
procedure in every arena that can be pushed to. Without a backslash nothing is allocated, and else
the arena keeps the bytes and nothing of the rest of the buffer. -/
def UnquotesTo (p bytes : List UInt8) : Prop :=
  Unquotes (.start p) (List.replicate (quoted p).length 0) 0 bytes ∧
    ∀ (memory : VirtualMemory) (arena : ArenaChain), arena.Valid → (∀ b ∈ arena.blocks, b.Paged) →
      memory.Enough arena (quoted p).length 1 →
      ∃ arena', texUnquoteString memory arena (quoted p) = .returned (arena', bytes) ∧
        arena'.Valid ∧ (byteOf '\\' ∉ p → arena' = arena ∧ bytes = p) ∧
        (byteOf '\\' ∈ p → arena.Fits (quoted p).length 1 →
          arena'.pos = arena.pos + bytes.length)

theorem Denotes.unquotesTo {p bytes : List UInt8} (h : Denotes p bytes) : UnquotesTo p bytes := by
  have hlength := length_quoted p
  have hloop : Unquotes (.start p) (List.replicate (quoted p).length 0) 0 bytes :=
    @Denotes.loop p bytes h (.start p) rfl _ _ (by rw [List.length_replicate]; omega)
  refine ⟨hloop, fun memory arena harena hpaged henough => ?_⟩
  have hquotes : (quoted p).head? = some (byteOf '"') ∧
      (quoted p).getLast? = some (byteOf '"') := by
    refine ⟨rfl, ?_⟩
    rw [quoted, ← List.cons_append, List.getLast?_concat]
  rw [texUnquoteString, arenaAssert, if_pos (by omega), Outcome.returned_bind, arenaAssert,
    if_pos hquotes.1, Outcome.returned_bind, arenaAssert, if_pos hquotes.2, Outcome.returned_bind]
  dsimp only
  rw [unquoted_quoted]
  simp only [mem_quoted]
  by_cases hp : byteOf '\\' ∈ p
  · obtain ⟨arena', range, hpush, hvalid, hused, hfits⟩ :=
      arenaPush_bytes harena hpaged (by omega) henough
    obtain ⟨data, hreturned, hdata, htake⟩ := hloop
    have hle := h.length_le
    rw [List.length_replicate] at hdata
    rw [Nat.zero_add] at hreturned htake
    rw [List.take_zero, List.nil_append] at htake
    have hextra : (data.length : ℤ) - bytes.length = ((data.length - bytes.length : ℕ) : ℤ) := by
      omega
    have hpop := hvalid.pop_within (show data.length - bytes.length + sizeOfArena ≤
      arena'.curr.used by omega)
    have hcurr := hvalid.block arena'.curr List.mem_cons_self
    have hreserved := hcurr.used_le
    have hvalid' := hvalid.setUsed arena'.curr.commited
      (show sizeOfArena ≤ arena'.curr.used - (data.length - bytes.length) by omega)
      (show arena'.curr.used - (data.length - bytes.length) ≤ arena'.curr.reserved by omega)
    rw [if_neg (not_not.mpr hp), hpush, Outcome.returned_bind, hreturned]
    simp only [Outcome.returned_bind]
    rw [hextra, hpop, Outcome.returned_bind, htake]
    refine ⟨_, rfl, hvalid', fun hplain => absurd hp hplain, fun _ hroom => ?_⟩
    obtain ⟨-, hbase, heq⟩ := hfits hroom
    rw [hvalid'.pos_eq, harena.pos_eq]
    dsimp only
    omega
  · rw [if_pos hp, h.plain hp]
    exact ⟨arena, rfl, harena, fun _ => ⟨rfl, rfl⟩, fun hmem => absurd hmem hp⟩

/-! ### Bytes in hexadecimal -/

/-- The character of a hexadecimal digit. -/
def hexDigit (n : ℕ) : UInt8 := UInt8.ofNat (if n < 10 then '0'.toNat + n else 'a'.toNat + n - 10)

/-- A byte as an escape of two digits. -/
def hexEscape (b : UInt8) : List UInt8 :=
  [byteOf '\\', hexDigit (b.toNat / 16), hexDigit (b.toNat % 16)]

theorem hexDigit_spec {n : ℕ} (h : n < 16) :
    isHexByte (hexDigit n) ∧ hexDigitValue (hexDigit n) = n := by
  have hall : ∀ n < 16, isHexByte (hexDigit n) ∧ hexDigitValue (hexDigit n) = n := by
    decide +kernel
  exact hall n h

theorem denotes_hexEscape (bs : List UInt8) : Denotes (bs.flatMap hexEscape) bs := by
  induction bs with
  | nil => exact .nil
  | cons b bs ih =>
    obtain ⟨hhigh, hhigh'⟩ := hexDigit_spec (show b.toNat / 16 < 16 by have := b.toNat_lt; omega)
    obtain ⟨hlow, hlow'⟩ := hexDigit_spec (Nat.mod_lt b.toNat (by decide : 0 < 16))
    have hbyte := Denotes.byte hhigh hlow ih
    rwa [hhigh', hlow', Nat.div_add_mod, UInt8.ofNat_toNat] at hbyte

/-- A token that is a string without unicode escapes is unquoted to the bytes it denotes, and
bytes in hexadecimal to themselves. -/
theorem texUnquoteString_denoted :
    (∀ (t : TexTokenizer) (s : List UInt8), t.Placed → t.rest = byteOf '"' :: s →
      (texTokReadString t).2.kind = .string →
      ∃ p, (texTokReadString t).2.data = quoted p ∧ (noUnicodeEscape p →
        ∃ bytes, Denotes p bytes ∧ (∀ bytes', Denotes p bytes' → bytes' = bytes) ∧
          UnquotesTo p bytes)) ∧
    ∀ bs : List UInt8, UnquotesTo (bs.flatMap hexEscape) bs := by
  refine ⟨fun t s h hquote hkind => ?_, fun bs => (denotes_hexEscape bs).unquotesTo⟩
  obtain ⟨rest, hs⟩ := (texTokReadString_iff h hquote).1.mp hkind
  obtain ⟨p, rfl, hdenotes⟩ := hs.denotes
  have hdata : (texTokReadString t).2.data = quoted p :=
    ((texTokReadString_iff h hquote).2 (quoted p) rest (by simp [quoted]) hs).1
  refine ⟨p, hdata, fun hfree => ?_⟩
  obtain ⟨bytes, hbytes⟩ := hdenotes hfree
  exact ⟨bytes, hbytes, fun bytes' h' => hbytes.unique h', hbytes.unquotesTo⟩

/-- A line feed and a byte, into the arena of one page. -/
theorem texUnquoteString_denoted_escapes :
    (texTokReadString (texTokInit (ascii "\"\\n\\0f\" ") "")).2.data = ascii "\"\\n\\0f\"" ∧
      ∃ arena, texUnquoteString (memoryAt 0x100000) ⟨pageArena, []⟩ (ascii "\"\\n\\0f\"") =
        .returned (arena, [0x0A, 0x0F]) ∧ arena.pos = 74 := by
  have hs : StringTail (ascii "\\n\\0f\" ") (ascii " ") :=
    @StringTail.escape (byteOf 'n') _ _ (by decide) (.byte (by decide) (by decide) (.close _))
  have hdenotes : Denotes (ascii "\\n\\0f") [0x0A, 0x0F] :=
    @Denotes.escape (byteOf 'n') _ _ (by decide)
      (@Denotes.byte (byteOf '0') (byteOf 'f') _ _ (by decide) (by decide) .nil)
  obtain ⟨hplaced, hrest⟩ := placed_texTokInit (ascii "\"\\n\\0f\" ") ""
  obtain ⟨hkind, hspan⟩ := texTokReadString_iff hplaced hrest
  obtain ⟨hdata, -⟩ := hspan (ascii "\"\\n\\0f\"") _ rfl hs
  obtain ⟨p, hquoted, hp⟩ := texUnquoteString_denoted.1 _ _ hplaced hrest (hkind.mpr ⟨_, hs⟩)
  obtain rfl : p = ascii "\\n\\0f" := by
    rw [← unquoted_quoted p, ← hquoted, hdata]
    decide
  obtain ⟨bytes, -, hunique, -, hunquotes⟩ := hp (by decide)
  obtain rfl := hunique _ hdenotes
  have hmemory : (memoryAt 0x100000).Fresh [pageArena] :=
    fresh_memoryAt (by decide) (by decide) (by decide) (by decide)
  have hinv := ArenaState.Nested.alloc
    (fresh_memoryAt (by decide) (by decide) (by decide) nofun) arenaAlloc_pageArena
  have hfits : ArenaChain.Fits ⟨pageArena, []⟩ (quoted (ascii "\\n\\0f")).length 1 := by
    unfold ArenaChain.Fits
    decide
  obtain ⟨arena, hreturned, -, -, hpos⟩ := hunquotes (memoryAt 0x100000) ⟨pageArena, []⟩
    hinv.inv.chain hinv.paged ⟨hmemory, rfl, fun h => absurd hfits h⟩
  exact ⟨hdata, arena, hreturned, hpos (by decide) hfits⟩

end Wasim
