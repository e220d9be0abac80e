import Wasim.Text.Lexemes
import Wasim.Text.Strings
import Wasim.Text.Tiling

/-!
# Rendering and tokenizing

A list of lexemes is rendered by putting blanks and comments between them. They may be left out
next to a parenthesis, and right behind an opening parenthesis they must not start with a
semicolon (`Renders`). The tokenizer undoes this: it returns the lexemes, each with its text and
its kind, and then the end (`texTokNth_of_renders`). On its way it reports nothing but characters
that do not decode (`Renders.tokens`).
-/

namespace Wasim

variable {t u : TexTokenizer}

/-! ### Lexemes and separators -/

inductive IsLexeme : TexTokenKind → List UInt8 → Prop
  | parenOpen : IsLexeme .parenOpen [byteOf '(']
  | parenClose : IsLexeme .parenClose [byteOf ')']
  | word {kind : TexTokenKind} {data : List UInt8} (h : IsWord kind data) : IsLexeme kind data
  | string {s : List UInt8} (h : StringRest s) : IsLexeme .string (byteOf '"' :: s)

structure Lexeme where
  kind : TexTokenKind
  data : List UInt8
  valid : IsLexeme kind data

def Lexeme.IsParen (l : Lexeme) : Prop := l.kind = .parenOpen ∨ l.kind = .parenClose

/-- What may stand between two neighbouring lexemes. -/
structure Separates (prev : Option Lexeme) (sep : List UInt8) (next : Lexeme) : Prop where
  blanks : Blanks sep
  apart : ∀ l, prev = some l → ¬l.IsParen → ¬next.IsParen → sep ≠ []
  open_ : ∀ l, prev = some l → l.kind = .parenOpen → sep.head? ≠ some (byteOf ';')

/-- What may stand behind the last lexeme. A line comment there may end with the text. -/
structure Trails (prev : Option Lexeme) (tail : List UInt8) : Prop where
  blanks : ∃ sep last, tail = sep ++ last ∧ Blanks sep ∧
    (last = [] ∨ ∃ cs, last = byteOf ';' :: byteOf ';' :: cs ∧ byteOf '\n' ∉ cs)
  open_ : ∀ l, prev = some l → l.kind = .parenOpen → tail.head? ≠ some (byteOf ';')

/-- `text` renders the lexemes behind the lexeme `prev`. -/
inductive Renders : Option Lexeme → List Lexeme → List UInt8 → Prop
  | last {prev : Option Lexeme} {tail : List UInt8} (htail : Trails prev tail) :
      Renders prev [] tail
  | lexeme {prev : Option Lexeme} {sep text : List UInt8} {l : Lexeme} {ls : List Lexeme}
      (hsep : Separates prev sep l) : Renders (some l) ls text →
      Renders prev (l :: ls) (sep ++ (l.data ++ text))

/-! ### What follows a lexeme -/

/-- A word ends in front of this. -/
def Boundary (bs : List UInt8) : Prop :=
  bs = [] ∨ (∃ b cs, bs = b :: cs ∧ (isBlank b ∨ b = byteOf '(' ∨ b = byteOf ')')) ∨
    ∃ cs, bs = byteOf ';' :: byteOf ';' :: cs

theorem Blanks.boundary {sep : List UInt8} (h : Blanks sep) (hne : sep ≠ []) (rest : List UInt8) :
    Boundary (sep ++ rest) := by
  rcases h with _ | ⟨hb, _⟩ | ⟨_, _⟩ | ⟨_, _⟩
  · exact absurd rfl hne
  · exact Or.inr (Or.inl ⟨_, _, rfl, Or.inl hb⟩)
  · exact Or.inr (Or.inr ⟨_, rfl⟩)
  · exact Or.inr (Or.inl ⟨_, _, rfl, Or.inr (Or.inl rfl)⟩)

theorem Lexeme.boundary_of_isParen {l : Lexeme} (h : l.IsParen) (rest : List UInt8) :
    Boundary (l.data ++ rest) := by
  obtain ⟨kind, data, valid⟩ := l
  rcases valid with _ | _ | hword | _
  · exact Or.inr (Or.inl ⟨_, _, rfl, Or.inr (Or.inl rfl)⟩)
  · exact Or.inr (Or.inl ⟨_, _, rfl, Or.inr (Or.inr rfl)⟩)
  · rcases h with h | h
    · exact absurd h hword.kind_ne.2.2.1
    · exact absurd h hword.kind_ne.2.2.2
  · rcases h with h | h <;> cases h

theorem isIdByte_ne {b : UInt8} (h : isIdByte b) :
    ¬isBlank b ∧ b ≠ byteOf '(' ∧ b ≠ byteOf ')' ∧ b ≠ byteOf ';' ∧ b ≠ byteOf '"' := by
  have hall : ∀ n < 256, texTokIsIdChar n → ¬texTokIsSpace (some n) ∧ n ≠ '('.toNat ∧
      n ≠ ')'.toNat ∧ n ≠ ';'.toNat ∧ n ≠ '"'.toNat := by decide +kernel
  obtain ⟨hspace, hopen, hclose, hsemicolon, hquote⟩ := hall _ b.toNat_lt h
  have hne : ∀ c : Char, c.toNat < 0x80 → b.toNat ≠ c.toNat → b ≠ byteOf c := by
    rintro c hc hb rfl
    exact hb (toNat_byteOf hc)
  exact ⟨hspace, hne '(' (by decide) hopen, hne ')' (by decide) hclose,
    hne ';' (by decide) hsemicolon, hne '"' (by decide) hquote⟩

/-- No lexeme starts with a blank or a semicolon. -/
theorem Lexeme.exists_head (l : Lexeme) :
    ∃ b s, l.data = b :: s ∧ ¬isBlank b ∧ b ≠ byteOf ';' := by
  obtain ⟨kind, data, valid⟩ := l
  rcases valid with _ | _ | hword | _
  · exact ⟨_, _, rfl, by decide, by decide⟩
  · exact ⟨_, _, rfl, by decide, by decide⟩
  · obtain ⟨b, s, hdata⟩ := List.exists_cons_of_ne_nil hword.ne_nil
    have hall := hword.all
    rw [hdata, List.all_cons, Bool.and_eq_true] at hall
    have hb := isIdByte_ne hall.1
    exact ⟨b, s, hdata, hb.1, hb.2.2.2.1⟩
  · exact ⟨_, _, rfl, by decide, by decide⟩

theorem Lexeme.kind_ne_eof (l : Lexeme) : l.kind ≠ .eof := by
  obtain ⟨kind, data, valid⟩ := l
  rcases valid with _ | _ | hword | _
  · simp
  · simp
  · exact hword.kind_ne.2.1
  · simp

/-- A word is followed by a boundary. -/
theorem Renders.boundary {l : Lexeme} {ls : List Lexeme} {text : List UInt8}
    (h : Renders (some l) ls text) (hl : ¬l.IsParen) : Boundary text := by
  rcases h with ⟨⟨⟨sep, last, rfl, hsep, hlast⟩, -⟩⟩ | @⟨_, sep, text, l', ls, hsep, htext⟩
  · by_cases hne : sep = []
    · subst hne
      rcases hlast with rfl | ⟨cs, rfl, -⟩
      · exact Or.inl rfl
      · exact Or.inr (Or.inr ⟨cs, rfl⟩)
    · exact hsep.boundary hne last
  · by_cases hne : sep = []
    · subst hne
      have hparen : l'.IsParen := by
        by_contra hparen
        exact hsep.apart l rfl hl hparen rfl
      exact Lexeme.boundary_of_isParen hparen text
    · exact hsep.blanks.boundary hne _

/-- An opening parenthesis is not followed by a semicolon. -/
theorem Renders.head_ne {l : Lexeme} {ls : List Lexeme} {text : List UInt8}
    (h : Renders (some l) ls text) (hl : l.kind = .parenOpen) :
    text.head? ≠ some (byteOf ';') := by
  rcases h with ⟨-, hopen⟩ | @⟨_, sep, text, l', ls, hsep, htext⟩
  · exact hopen l rfl hl
  · rcases sep with _ | ⟨b, sep⟩
    · obtain ⟨b, s, hdata, -, hb⟩ := l'.exists_head
      rw [List.nil_append, hdata]
      simpa using hb
    · exact hsep.open_ l rfl hl

/-! ### One lexeme -/

theorem texTokSkipToTokenBoundary_stops {bs : List UInt8} (h : t.Placed) (hrest : t.rest = bs)
    (hbs : Boundary bs) : texTokSkipToTokenBoundary t = t := by
  subst hrest
  rw [texTokSkipToTokenBoundary]
  rcases hbs with hnil | ⟨b, cs, hcs, hb | rfl | rfl⟩ | ⟨cs, hcs⟩
  · rw [if_neg, if_neg, if_pos (Or.inl (h.ch_none_iff.mpr hnil))]
    · rw [looksAt_iff h (by decide) (by decide), hnil]
      rintro ⟨_, h⟩
      cases h
    · rw [texTokIsSpace_iff h, hnil]
      rintro ⟨_, _, h, -⟩
      cases h
  · rw [if_pos ((texTokIsSpace_iff h).mpr ⟨b, cs, hcs, hb⟩)]
  · have hch := (ch_eq_rune_iff h (c := '(') (by decide)).mpr ⟨cs, hcs⟩
    rw [hch, if_neg (by decide), if_neg (by simp [rune]), if_pos (by simp)]
  · have hch := (ch_eq_rune_iff h (c := ')') (by decide)).mpr ⟨cs, hcs⟩
    rw [hch, if_neg (by decide), if_neg (by simp [rune]), if_pos (by simp)]
  · have hlooks := (looksAt_iff h (c := ';') (d := ';') (by decide) (by decide)).mpr ⟨cs, hcs⟩
    rw [if_neg, if_pos hlooks]
    rw [hlooks.1]
    decide

/-- A word is read to the boundary behind it. -/
theorem texTokSkipToTokenBoundary_word {w rest : List UInt8} (hw : w.all isIdByte)
    (hrest : Boundary rest) (h : t.Placed) (ht : t.rest = w ++ rest) :
    Moves t (texTokSkipToTokenBoundary t) ∧ (texTokSkipToTokenBoundary t).rest = rest := by
  induction w generalizing t with
  | nil =>
    rw [texTokSkipToTokenBoundary_stops h ht hrest]
    exact ⟨.refl, ht⟩
  | cons b w ih =>
    rw [List.all_cons, Bool.and_eq_true] at hw
    obtain ⟨hblank, hopen, hclose, hsemicolon, -⟩ := isIdByte_ne hw.1
    have hlt := isIdByte_lt hw.1
    have hch := ch_of_rest h ht hlt
    have hne : ∀ c : Char, c.toNat < 0x80 → b ≠ byteOf c → t.ch ≠ rune c := by
      intro c hc hb heq
      obtain ⟨bs, hbs⟩ := (ch_eq_rune_iff h hc).mp heq
      exact hb (List.cons.inj (ht.symm.trans hbs)).1
    obtain ⟨hmoves, hbehind⟩ := ih hw.2 h.read (h.rest_read_ascii ht hlt)
    rw [texTokSkipToTokenBoundary, if_neg, if_neg, if_neg]
    · exact ⟨Moves.refl.read.trans hmoves, hbehind⟩
    · rintro (h | h | h)
      · rw [hch] at h
        cases h
      · exact hne '(' (by decide) hopen h
      · exact hne ')' (by decide) hclose h
    · exact fun hlooks => hne ';' (by decide) hsemicolon hlooks.1
    · rw [hch]
      exact hblank

/-- The text that was passed. -/
theorem slice_of_rest {data : List UInt8} (ht : t.Placed) (hu : u.Placed)
    (hinput : u.input = t.input) (h : t.rest = data ++ u.rest) :
    u.slice t.position.pos u.position.pos = data := by
  have hbetween := between_of_rest ht hu hinput h
  rw [TexTokenizer.slice, hinput]
  exact hbetween

theorem texTokNext_paren {kind : TexTokenKind} {c : Char} {text : List UInt8} (h : t.Placed)
    (hrest : t.rest = byteOf c :: text) (hc : c = '(' ∨ c = ')')
    (hkind : kind = if c = '(' then .parenOpen else .parenClose)
    (hskip : texTokSkipSpace t = t) :
    Moves t (texTokNext t).1 ∧ (texTokNext t).1.rest = text ∧
      (texTokNext t).2.kind = kind ∧ (texTokNext t).2.data = [byteOf c] := by
  have hlt : c.toNat < 0x80 := by rcases hc with rfl | rfl <;> decide
  have hch := (ch_eq_rune_iff h hlt).mpr ⟨text, hrest⟩
  have hnext := h.rest_read_ascii hrest (by rw [toNat_byteOf hlt]; exact hlt)
  have hdata : t.slice t.position.pos (t.position.pos + t.chLen) = [byteOf c] := by
    have := slice_of_rest h h.read (input_texTokReadCh t)
      (hrest.trans (by rw [hnext]; rfl : byteOf c :: text = [byteOf c] ++ _))
    rw [pos_texTokReadCh h.chLen_le, TexTokenizer.slice, input_texTokReadCh] at this
    exact this
  rw [texTokNext, hskip]
  rcases hc with rfl | rfl
  · rw [hch, if_neg (by simp [rune]), if_pos rfl]
    exact ⟨Moves.refl.read, hnext, hkind.symm, hdata⟩
  · rw [hch, if_neg (by simp [rune]), if_neg (by decide), if_pos rfl]
    exact ⟨Moves.refl.read, hnext, hkind.symm, hdata⟩

theorem texTokNext_string {s text : List UInt8} (hs : StringRest s) (h : t.Placed)
    (hrest : t.rest = byteOf '"' :: (s ++ text)) (hskip : texTokSkipSpace t = t) :
    Moves t (texTokNext t).1 ∧ (texTokNext t).1.rest = text ∧
      (texTokNext t).2.kind = .string ∧ (texTokNext t).2.data = byteOf '"' :: s := by
  have hch := (ch_eq_rune_iff h (c := '"') (by decide)).mpr ⟨_, hrest⟩
  have hnext := h.rest_read_ascii hrest (by decide)
  obtain ⟨v, hmoves, hv, hloop⟩ := hs.read h.read hnext
  have hplaced := hmoves.placed h.read
  have hvch := (ch_eq_rune_iff hplaced (c := '"') (by decide)).mpr ⟨_, hv⟩
  have hbehind := hplaced.rest_read_ascii hv (by decide)
  have hread : texTokReadString t = (texTokReadCh v, ⟨t.position, .string,
      (texTokReadCh v).slice t.position.pos (texTokReadCh v).position.pos⟩) := by
    simp only [texTokReadString, hloop, hvch, if_true]
  have hscans := (Moves.refl.read.trans hmoves).read.scans
  have hdata := slice_of_rest h hplaced.read hscans.input_eq
    (hrest.trans (by rw [hbehind]; rfl : _ = (byteOf '"' :: s) ++ _))
  rw [texTokNext, hskip]
  rw [hch, if_neg (by simp [rune]), if_neg (by decide), if_neg (by decide), if_pos rfl, hread]
  exact ⟨(Moves.refl.read.trans hmoves).read, hbehind, rfl, hdata⟩

theorem texTokNext_word {kind : TexTokenKind} {w text : List UInt8} (hw : IsWord kind w)
    (htext : Boundary text) (h : t.Placed) (hrest : t.rest = w ++ text)
    (hskip : texTokSkipSpace t = t) :
    Moves t (texTokNext t).1 ∧ (texTokNext t).1.rest = text ∧
      (texTokNext t).2.kind = kind ∧ (texTokNext t).2.data = w := by
  obtain ⟨hmoves, hbehind⟩ := texTokSkipToTokenBoundary_word hw.all htext h hrest
  have hdata := slice_of_rest h (hmoves.placed h) hmoves.scans.input_eq
    (hrest.trans (by rw [hbehind]))
  have hread : texTokReadWord t =
      (texTokSkipToTokenBoundary t, ⟨t.position, kind, w⟩) := by
    simp only [texTokReadWord, hdata, hw.texTokWordKind_eq, if_neg hw.kind_ne.1]
  have hnot : ∀ c : Char, c.toNat < 0x80 → isIdByte (byteOf c) = false → t.ch ≠ rune c := by
    intro c hc hid hch
    obtain ⟨bs, hbs⟩ := (ch_eq_rune_iff h hc).mp hch
    obtain ⟨b, w, rfl⟩ := List.exists_cons_of_ne_nil hw.ne_nil
    have hall := hw.all
    rw [List.all_cons, Bool.and_eq_true, (List.cons.inj (hrest.symm.trans hbs)).1, hid] at hall
    exact absurd hall.1 (by simp)
  have hnone : t.ch ≠ none := by
    rw [ne_eq, h.ch_none_iff, hrest]
    simp [hw.ne_nil]
  rw [texTokNext, hskip]
  rw [if_neg hnone, if_neg (hnot '(' (by decide) (by decide)),
    if_neg (hnot ')' (by decide) (by decide)),
    if_neg (hnot '"' (by decide) (by decide)), hread]
  exact ⟨hmoves, hbehind, rfl, rfl⟩

/-- Skipping stops in front of a lexeme. -/
theorem Lexeme.noBlank (l : Lexeme) {text : List UInt8}
    (hopen : l.kind = .parenOpen → text.head? ≠ some (byteOf ';')) :
    NoBlank (l.data ++ text) := by
  obtain ⟨b, s, hdata, hblank, hsemicolon⟩ := l.exists_head
  refine ⟨?_, ?_, ?_⟩
  · rintro b' cs heq
    rw [hdata] at heq
    obtain ⟨rfl, -⟩ := List.cons.inj heq
    exact hblank
  · rintro cs heq
    rw [hdata] at heq
    exact hsemicolon (List.cons.inj heq).1
  · rintro cs heq
    obtain ⟨kind, data, valid⟩ := l
    rcases valid with _ | _ | hword | _
    · have htext : text = byteOf ';' :: cs := (List.cons.inj heq).2
      exact hopen rfl (by rw [htext]; rfl)
    · exact absurd (List.cons.inj heq).1 (by decide)
    · obtain ⟨c, w, rfl⟩ := List.exists_cons_of_ne_nil hword.ne_nil
      have hall := hword.all
      rw [List.all_cons, Bool.and_eq_true] at hall
      exact (isIdByte_ne hall.1).2.1 (List.cons.inj heq).1
    · exact absurd (List.cons.inj heq).1 (by decide)

/-- The end of the blanks in front of a lexeme is where the tokenizer goes on. -/
theorem texTokNext_of_skip {v : TexTokenizer} (hskip : texTokSkipSpace t = texTokSkipSpace v) :
    texTokNext t = texTokNext v := by
  rw [texTokNext, texTokNext, hskip]

/-- A lexeme with blanks in front of it is the next token. -/
theorem texTokNext_lexeme {l : Lexeme} {sep text : List UInt8} (hsep : Blanks sep)
    (hboundary : ¬l.IsParen → Boundary text)
    (hopen : l.kind = .parenOpen → text.head? ≠ some (byteOf ';')) (h : t.Placed)
    (hrest : t.rest = sep ++ (l.data ++ text)) :
    Moves t (texTokNext t).1 ∧ (texTokNext t).1.rest = text ∧
      (texTokNext t).2.kind = l.kind ∧ (texTokNext t).2.data = l.data := by
  obtain ⟨v, hmoves, hv, hskip⟩ := hsep.skip h hrest
  have hplaced := hmoves.placed h
  have hstop := texTokSkipSpace_noBlank hplaced (hv ▸ l.noBlank hopen)
  rw [texTokNext_of_skip hskip]
  have hnext : Moves v (texTokNext v).1 ∧ (texTokNext v).1.rest = text ∧
      (texTokNext v).2.kind = l.kind ∧ (texTokNext v).2.data = l.data := by
    obtain ⟨kind, data, valid⟩ := l
    rcases valid with _ | _ | hword | hs
    · exact texTokNext_paren hplaced hv (Or.inl rfl) (by simp) hstop
    · exact texTokNext_paren hplaced hv (Or.inr rfl) (by simp) hstop
    · have hparen : ¬Lexeme.IsParen ⟨kind, data, .word hword⟩ := by
        rintro (h | h)
        · exact hword.kind_ne.2.2.1 h
        · exact hword.kind_ne.2.2.2 h
      exact texTokNext_word hword (hboundary hparen) hplaced hv hstop
    · exact texTokNext_string hs hplaced hv hstop
  exact ⟨hmoves.trans hnext.1, hnext.2⟩

/-- Behind the last lexeme the end is returned. -/
theorem texTokNext_trails {prev : Option Lexeme} {tail : List UInt8} (htail : Trails prev tail)
    (h : t.Placed) (hrest : t.rest = tail) :
    Moves t (texTokNext t).1 ∧ (texTokNext t).2.kind = .eof := by
  obtain ⟨⟨sep, last, rfl, hsep, hlast⟩, -⟩ := htail
  obtain ⟨v, hmoves, hv, hskip⟩ := hsep.skip h hrest
  have hplaced := hmoves.placed h
  rw [texTokNext_of_skip hskip]
  have hended : ∀ {w : TexTokenizer}, Moves v w → texTokSkipSpace v = w → w.rest = [] →
      Moves t (texTokNext v).1 ∧ (texTokNext v).2.kind = .eof := by
    intro w hw hskip hnil
    have hnone := (hw.placed hplaced).ch_none_iff.mpr hnil
    simp only [texTokNext, hskip, if_pos hnone]
    exact ⟨(hmoves.trans hw).read, trivial⟩
  rcases hlast with rfl | ⟨cs, rfl, hcs⟩
  · refine hended .refl (texTokSkipSpace_noBlank hplaced ?_) hv
    rw [hv]
    refine ⟨?_, ?_, ?_⟩
    · intro _ _ hnil
      cases hnil
    · intro _ hnil
      cases hnil
    · intro _ hnil
      cases hnil
  · -- a line comment that the end of the text cuts off
    have hlooks := (looksAt_iff hplaced (by decide) (by decide)).mpr ⟨cs, hv⟩
    have hnext := hplaced.rest_read_two hv (by decide) (by decide)
    obtain ⟨hline, hbehind⟩ := texTokSkipLine_moves hplaced.read.read
    have hnil : (texTokSkipLine (texTokReadCh (texTokReadCh v))).rest = [] := by
      rw [hbehind, hnext, List.dropWhile_eq_nil_iff]
      intro x hx
      have hne : x ≠ byteOf '\n' := fun h => hcs (h ▸ hx)
      simpa using hne
    have hlineplaced := hline.placed hplaced.read.read
    refine hended (Moves.refl.read.read.trans hline) ?_ hnil
    rw [texTokSkipSpace, if_neg, if_pos hlooks]
    · exact texTokSkipSpace_ended (hlineplaced.ch_none_iff.mpr hnil)
    · rw [hlooks.1]
      decide

/-! ### All lexemes -/

/-- The tokens of a rendered text are its lexemes, and the tokenizer only moves on. -/
theorem Renders.tokens {prev : Option Lexeme} {ls : List Lexeme} {text : List UInt8}
    (h : Renders prev ls text) (ht : t.Placed) (hsettled : t.Settled) (hrest : t.rest = text) :
    (t.tokens hsettled).map (fun token => (token.kind, token.data)) =
      ls.map (fun l => (l.kind, l.data)) := by
  induction h generalizing t with
  | last htail =>
    rw [TexTokenizer.tokens, if_pos (texTokNext_trails htail ht hrest).2]
    rfl
  | @lexeme prev sep text l ls hsep htext ih =>
    obtain ⟨hmoves, hnext, hkind, hdata⟩ :=
      texTokNext_lexeme hsep.blanks htext.boundary htext.head_ne ht hrest
    have hne : (texTokNext t).2.kind ≠ .eof := hkind ▸ l.kind_ne_eof
    rw [TexTokenizer.tokens, if_neg hne, List.map_cons, List.map_cons, hkind, hdata,
      ih (hmoves.placed ht) _ hnext]

/-- Tokenizing undoes rendering: the calls return the lexemes, and then the end. -/
theorem texTokNth_of_renders {ls : List Lexeme} {text : List UInt8} (h : Renders none ls text)
    (file : String) (k : ℕ) :
    match ls[k]? with
    | some l => (texTokNth (texTokInit text file) k).kind = l.kind ∧
        (texTokNth (texTokInit text file) k).data = l.data
    | none => (texTokNth (texTokInit text file) k).kind = .eof := by
  obtain ⟨hplaced, hrest⟩ := placed_texTokInit text file
  have htokens := h.tokens hplaced (settled_texTokInit text file) hrest
  have hk := congrArg (fun list => list[k]?) htokens
  simp only [List.getElem?_map, getElem?_tokens] at hk
  split
  · rename_i l hl
    rw [hl] at hk
    split at hk
    · cases hk
    · exact Prod.mk.inj (Option.some.inj hk)
  · rename_i hl
    rw [hl] at hk
    split at hk
    · assumption
    · cases hk

/-- A function with a comment in it: the identifier is its third token. -/
theorem texTokNth_of_renders_func :
    (texTokNth (texTokInit (ascii "(func (;c;) $a)") "test.wat") 2).kind = .identifier ∧
      (texTokNth (texTokInit (ascii "(func (;c;) $a)") "test.wat") 2).data = ascii "$a" := by
  have hcomment : BlockBody (ascii "c;)") := .letter (by decide) (by decide) .close
  have hblanks : Blanks (ascii " (;c;) ") :=
    .blank (by decide) (.block hcomment (.blank (by decide) .nil))
  have hrenders : Renders none
      [⟨.parenOpen, _, .parenOpen⟩,
        ⟨.func, ascii "func", .word (.keyword (by decide))⟩,
        ⟨.identifier, ascii "$a", .word (.identifier (s := ascii "a") (by decide)
          (by decide))⟩,
        ⟨.parenClose, _, .parenClose⟩]
      ([] ++ ([byteOf '('] ++ ([] ++ (ascii "func" ++ (ascii " (;c;) " ++ (ascii "$a" ++
        ([] ++ ([byteOf ')'] ++ [])))))))) := by
    refine .lexeme ⟨.nil, nofun, nofun⟩ (.lexeme ⟨.nil, ?_, by simp⟩
      (.lexeme ⟨hblanks, fun _ _ _ _ => by decide, fun _ _ _ => by decide⟩
        (.lexeme ⟨.nil, ?_, by simp⟩ (.last ⟨⟨[], [], rfl, .nil, Or.inl rfl⟩, by simp⟩))))
    · intro l hl hparen
      obtain rfl := Option.some.inj hl
      exact absurd (Or.inl rfl) hparen
    · intro _ _ _ hparen
      exact absurd (Or.inr rfl) hparen
  have htext : ascii "(func (;c;) $a)" = [] ++ ([byteOf '('] ++ ([] ++ (ascii "func" ++
      (ascii " (;c;) " ++ (ascii "$a" ++ ([] ++ ([byteOf ')'] ++ []))))))) := by decide
  rw [htext]
  exact texTokNth_of_renders hrenders "test.wat" 2

end Wasim
