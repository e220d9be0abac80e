import Wasim.Text.Rendering
import Wasim.Text.StringTokens
import Wasim.Text.Reports

/-!
# Invalid tokens and the error count

Which calls of `tex_tok_next` count an error. A text is described from where a call starts: a
string that the end of the text cuts off (`OpenQuote`), a block comment that it cuts off
(`CutBlock`), or a valid token with what is behind it (`Extent`). A call counts an error for an
invalid token, for a comment that is cut off and for a character that does not decode, and for
nothing else, with two exceptions (`texTokNext_counts_iff`): the token of a string that is cut off
is invalid and nothing is counted for it, and an encoded replacement character is counted although
it decodes.
-/

namespace Wasim

variable {t u : TexTokenizer} {text rest : List UInt8}

/-! ### The text in front of a call -/

/-- A block comment that is never closed stands in front. -/
def CutBlock (text : List UInt8) : Prop :=
  ∃ front cs, text = front ++ byteOf '(' :: byteOf ';' :: cs ∧ Blanks front ∧
    ∀ body rest, cs = body ++ rest → ¬BlockBody body

/-- Behind an opening quote: characters and escapes up to the end of the text. -/
inductive OpenString : List UInt8 → Prop
  | nil : OpenString []
  | element {s s' : List UInt8} (helement : StringElement s s') : OpenString s' → OpenString s

/-- The next token is a string that the end of the text cuts off. -/
def OpenQuote (text : List UInt8) : Prop :=
  ∃ gap s, text = gap ++ byteOf '"' :: s ∧ Blanks gap ∧ OpenString s

/-- No word ends in front of a byte of `w`. -/
def Unbroken (w rest : List UInt8) : Prop :=
  ∀ front back, w = front ++ back → back ≠ [] → ¬Boundary (back ++ rest)

/-- A token that is not invalid stands in front of a text; `rest` is what follows it. -/
inductive ValidToken : List UInt8 → List UInt8 → Prop
  | eof : ValidToken [] []
  | paren {c : Char} (hc : c = '(' ∨ c = ')') (rest : List UInt8) :
      ValidToken (byteOf c :: rest) rest
  | string {s rest : List UInt8} (hs : StringTail s rest) : ValidToken (byteOf '"' :: s) rest
  | word {w rest : List UInt8} (hne : w ≠ []) (hquote : w.head? ≠ some (byteOf '"'))
      (hw : Unbroken w rest) (hrest : Boundary rest) (hkind : texTokWordKind w ≠ .invalid) :
      ValidToken (w ++ rest) rest

/-- The next token is not invalid, and `rest` is what follows it. -/
def Extent (text rest : List UInt8) : Prop :=
  ∃ gap token, text = gap ++ token ∧ Gap gap token ∧ NoBlank token ∧ ValidToken token rest

/-! ### Skipping -/

theorem noBlank_texTokSkipSpace (h : t.Placed) : NoBlank (texTokSkipSpace t).rest := by
  fun_induction texTokSkipSpace t with
  | case1 t _ ih => exact ih h.read
  | case2 t _ _ ih => exact ih ((scans_texTokSkipLine _).placed h.read.read)
  | case3 t _ _ _ ih => exact ih ((scans_texTokSkipBlock 1 _).placed h.read.read)
  | case4 t hspace hline hblock =>
    rw [looksAt_iff h (by decide) (by decide)] at hline hblock
    refine ⟨fun b cs hrest hb => ?_, fun cs hrest => hline ⟨cs, hrest⟩,
      fun cs hrest => hblock ⟨cs, hrest⟩⟩
    exact hspace ((texTokIsSpace_iff h).mpr ⟨b, cs, hrest, hb⟩)

theorem noBlank_nil : NoBlank [] := ⟨nofun, nofun, nofun⟩

/-- A line comment that is cut off is read to the end. -/
theorem texTokSkipSpace_lastLine (h : t.Placed) {cs : List UInt8}
    (hrest : t.rest = byteOf ';' :: byteOf ';' :: cs) (hcs : byteOf '\n' ∉ cs) :
    Moves t (texTokSkipSpace t) ∧ (texTokSkipSpace t).rest = [] := by
  have hnext := h.rest_read_two hrest (by decide) (by decide)
  obtain ⟨hline, hbehind⟩ := texTokSkipLine_moves h.read.read
  have hend : (texTokSkipLine (texTokReadCh (texTokReadCh t))).rest = [] := by
    rw [hbehind, hnext, List.dropWhile_eq_nil_iff]
    intro x hx
    have hne : x ≠ byteOf '\n' := fun heq => hcs (heq ▸ hx)
    simpa using hne
  rw [texTokSkipSpace_line h hrest,
    texTokSkipSpace_noBlank (hline.placed h.read.read) (hend ▸ noBlank_nil)]
  exact ⟨Moves.refl.read.read.trans hline, hend⟩

/-- What is skipped without a report. -/
theorem Gap.skip {gap token : List UInt8} (hgap : Gap gap token) (htoken : NoBlank token)
    (h : t.Placed) (hrest : t.rest = gap ++ token) (hcut : ¬CutBlock t.rest) :
    Moves t (texTokSkipSpace t) ∧ (texTokSkipSpace t).rest = token := by
  rcases hgap with hgap | ⟨rfl, front, last, rfl, hfront, hlast⟩
  · obtain ⟨u, hmoves, hu, hskip⟩ := hgap.skip h hrest
    rw [hskip, texTokSkipSpace_noBlank (hmoves.placed h) (hu ▸ htoken)]
    exact ⟨hmoves, hu⟩
  · rw [List.append_nil] at hrest
    obtain ⟨u, hmoves, hu, hskip⟩ := hfront.skip h hrest
    rcases hlast with ⟨cs, rfl, hcs⟩ | ⟨cs, rfl, hcs⟩
    · obtain ⟨hline, hend⟩ := texTokSkipSpace_lastLine (hmoves.placed h) hu hcs
      rw [hskip]
      exact ⟨hmoves.trans hline, hend⟩
    · exact absurd ⟨front, cs, hrest, hfront, hcs⟩ hcut

/-- Behind a block comment that is cut off there is nothing. -/
theorem CutBlock.skip (hcut : CutBlock t.rest) (h : t.Placed) : (texTokSkipSpace t).rest = [] := by
  obtain ⟨front, cs, hrest, hfront, hcs⟩ := hcut
  obtain ⟨u, hmoves, hu, hskip⟩ := hfront.skip h hrest
  have hplaced := hmoves.placed h
  have hnext := hplaced.rest_read_two hu (by decide) (by decide)
  have hscan : scanBlock 1 (texTokReadCh (texTokReadCh u)).rest = none := by
    rw [hnext, Option.eq_none_iff_forall_not_mem]
    intro rest hresult
    obtain ⟨body, hbody, hsplit⟩ := (Nested.scan_one_eq_some_iff (by decide)).mp hresult
    exact hcs body rest hsplit hbody
  have hend := (texTokSkipBlock_scan 1 hplaced.read.read).2 hscan
  have hblock := (scans_texTokSkipBlock 1 _).placed hplaced.read.read
  rw [hskip, texTokSkipSpace_block hplaced hu,
    texTokSkipSpace_noBlank hblock (hend ▸ noBlank_nil)]
  exact hend

/-! ### Words -/

theorem not_boundary_nonascii {x : UInt8} (hx : 0x80 ≤ x.toNat) (bs : List UInt8) :
    ¬Boundary (x :: bs) := by
  have hne : ∀ c : Char, c.toNat < 0x80 → x ≠ byteOf c := fun c hc => ne_byteOf_of_nonascii hx hc
  rintro (h | ⟨b, cs, h, hb⟩ | ⟨cs, h⟩)
  · cases h
  · obtain ⟨rfl, -⟩ := List.cons.inj h
    rcases hb with hb | hb | hb
    · have := isBlank_lt hb
      omega
    · exact hne '(' (by decide) hb
    · exact hne ')' (by decide) hb
  · exact hne ';' (by decide) (List.cons.inj h).1

/-- A word is read up to the first boundary behind its start. -/
theorem texTokSkipToTokenBoundary_unbroken (h : t.Placed) :
    ∃ w, t.rest = w ++ (texTokSkipToTokenBoundary t).rest ∧
      Unbroken w (texTokSkipToTokenBoundary t).rest ∧
      Boundary (texTokSkipToTokenBoundary t).rest := by
  have hstop : ∀ {rest : List UInt8}, Unbroken [] rest := by
    intro rest front back hsplit hback
    exact absurd (List.append_eq_nil_iff.mp hsplit.symm).2 hback
  fun_induction texTokSkipToTokenBoundary t with
  | case1 t hspace =>
    obtain ⟨b, bs, hrest, hb⟩ := (texTokIsSpace_iff h).mp hspace
    exact ⟨[], rfl, hstop, Or.inr (Or.inl ⟨b, bs, hrest, Or.inl hb⟩)⟩
  | case2 t _ hline =>
    obtain ⟨bs, hrest⟩ := (looksAt_iff h (by decide) (by decide)).mp hline
    exact ⟨[], rfl, hstop, Or.inr (Or.inr ⟨bs, hrest⟩)⟩
  | case3 t _ _ hch =>
    refine ⟨[], rfl, hstop, ?_⟩
    rcases hch with hch | hch | hch
    · exact Or.inl (h.ch_none_iff.mp hch)
    · obtain ⟨bs, hrest⟩ := (ch_eq_rune_iff h (by decide)).mp hch
      exact Or.inr (Or.inl ⟨_, bs, hrest, Or.inr (Or.inl rfl)⟩)
    · obtain ⟨bs, hrest⟩ := (ch_eq_rune_iff h (by decide)).mp hch
      exact Or.inr (Or.inl ⟨_, bs, hrest, Or.inr (Or.inr rfl)⟩)
  | case4 t hspace hline hch ih =>
    obtain ⟨w, hrest, hw, hend⟩ := ih h.read
    have hinside : ¬Boundary t.rest := by
      rw [texTokIsSpace_iff h] at hspace
      rw [looksAt_iff h (by decide) (by decide)] at hline
      rw [h.ch_none_iff, ch_eq_rune_iff h (by decide), ch_eq_rune_iff h (by decide)] at hch
      rintro (hnil | ⟨b, cs, hcs, hb | rfl | rfl⟩ | hcs)
      · exact hch (Or.inl hnil)
      · exact hspace ⟨b, cs, hcs, hb⟩
      · exact hch (Or.inr (Or.inl ⟨cs, hcs⟩))
      · exact hch (Or.inr (Or.inr ⟨cs, hcs⟩))
      · exact hline hcs
    -- the bytes of the rune in front, none of which starts a boundary
    obtain ⟨xs, hxs, hbytes⟩ : ∃ xs, t.rest = xs ++ (texTokReadCh t).rest ∧
        ∀ front back, xs = front ++ back → back ≠ [] →
          ¬Boundary (back ++ (texTokReadCh t).rest) := by
      rcases h.cases with ⟨-, hnone⟩ | ⟨b, bs, hb, -, -, hnext⟩ |
        ⟨xs, bs, r, hxs, -, hnonascii, -, -, hnext⟩
      · exact absurd (Or.inl hnone) hch
      · refine ⟨[b], by rw [hb, hnext]; rfl, fun front back hsplit hback => ?_⟩
        rcases front with _ | ⟨c, front⟩
        · rw [List.nil_append] at hsplit
          rwa [← hsplit, hnext, List.singleton_append, ← hb]
        · have := (List.cons.inj hsplit).2
          exact absurd (List.append_eq_nil_iff.mp this.symm).2 hback
      · refine ⟨xs, by rw [hxs, hnext], fun front back hsplit hback => ?_⟩
        obtain ⟨x, back, rfl⟩ := List.exists_cons_of_ne_nil hback
        exact not_boundary_nonascii (hnonascii x (by rw [hsplit]; simp)) _
    refine ⟨xs ++ w, by rw [hxs, hrest, List.append_assoc], fun front back hsplit hback => ?_, hend⟩
    rcases List.append_eq_append_iff.mp hsplit with ⟨a, rfl, rfl⟩ | ⟨a, rfl, rfl⟩
    · exact hw a back rfl hback
    · rcases eq_or_ne a [] with rfl | ha
      · exact hw [] w rfl hback
      · rw [List.append_assoc, ← hrest]
        exact hbytes front a rfl ha

/-- A text has at most one word in front. -/
theorem Unbroken.unique {w w' rest' : List UInt8} (hw : Unbroken w rest) (hrest : Boundary rest)
    (hw' : Unbroken w' rest') (hrest' : Boundary rest') (h : w ++ rest = w' ++ rest') :
    w = w' ∧ rest = rest' := by
  rcases List.append_eq_append_iff.mp h with ⟨a, rfl, rfl⟩ | ⟨a, rfl, rfl⟩
  · rcases eq_or_ne a [] with rfl | ha
    · simp
    · exact absurd hrest (hw' w a rfl ha)
  · rcases eq_or_ne a [] with rfl | ha
    · simp
    · exact absurd hrest' (hw w' a rfl ha)

/-! ### Strings -/

theorem OpenString.read {s : List UInt8} (hs : OpenString s) (h : t.Placed) (hrest : t.rest = s)
    (kind : TexTokenKind) :
    Moves t (texTokReadStringLoop t kind).1 ∧ (texTokReadStringLoop t kind).2 = .invalid ∧
      (texTokReadStringLoop t kind).1.rest = [] := by
  induction hs generalizing t with
  | nil =>
    have hch := h.ch_none_iff.mpr hrest
    rw [texTokReadStringLoop]
    split
    · exact ⟨.refl, rfl, hrest⟩
    · rename_i hsome
      rw [hch] at hsome
      cases hsome
  | element helement _ ih =>
    obtain ⟨u, hmoves, hu, hloop⟩ := helement.read h hrest
    obtain ⟨hmoves', hkind, hend⟩ := ih (hmoves.placed h) hu
    rw [hloop]
    exact ⟨hmoves.trans hmoves', hkind, hend⟩

/-- A string is closed, cut off, or invalid with a report. -/
theorem texTokReadStringLoop_cases (h : t.Placed) (kind : TexTokenKind) :
    (∃ rest, StringTail t.rest rest) ∨ OpenString t.rest ∨
      (texTokReadStringLoop t kind).2 = .invalid ∧
        ∃ n, 0 < n ∧ Emits t n (texTokReadStringLoop t kind).1 := by
  fun_induction texTokReadStringLoop t kind with
  | case1 t kind hch => exact Or.inr (Or.inl (h.ch_none_iff.mp hch ▸ .nil))
  | case2 t kind hch =>
    obtain ⟨bs, hrest⟩ := (@ch_eq_rune_iff t h '"' (by decide)).mp hch
    exact Or.inl ⟨bs, hrest ▸ .close bs⟩
  | case3 t kind escape hch hquote ih =>
    have hescape := emits_texTokReadEscape (texTokReadCh t)
    have hplaced := (scans_texTokReadEscape (texTokReadCh t)).placed h.read
    by_cases hvalid : escape.2 = true
    · have helement := texTokReadEscape_element h.read hvalid
      rw [← @rest_read_of_rune t h '\\' (by decide) hch] at helement
      rw [if_pos hvalid] at hescape
      rw [dif_pos hvalid] at ih
      rw [if_pos hvalid]
      rcases ih hplaced with ⟨rest, hs⟩ | hs | ⟨hkind, n, hpos, hn⟩
      · exact Or.inl ⟨rest, helement.tail hs⟩
      · exact Or.inr (Or.inl (.element helement hs))
      · exact Or.inr (Or.inr ⟨hkind, _, by omega, (Emits.refl.read.trans hescape).trans hn⟩)
    · rw [if_neg hvalid] at hescape
      rw [if_neg hvalid]
      obtain ⟨n, hn⟩ := exists_emits_texTokReadStringLoop escape.1 .invalid
      exact Or.inr (Or.inr ⟨texTokReadStringLoop_invalid _, _, by omega,
        (Emits.refl.read.trans hescape).trans hn⟩)
  | case4 t kind ch hch hquote hslash hcontrol ih =>
    obtain ⟨n, hn⟩ := exists_emits_texTokReadStringLoop _ .invalid
    exact Or.inr (Or.inr ⟨texTokReadStringLoop_invalid _, _, by omega,
      (emits_texTokErrorfHere (by decide) _).read.trans hn⟩)
  | case5 t kind ch hch hquote hslash hcontrol ih =>
    have helement : StringElement t.rest (texTokReadCh t).rest := by
      rw [h.rest_read]
      exact .char (by rw [← h.ch_eq, hch]) (by omega) hquote hslash
    rcases ih h.read with ⟨rest, hs⟩ | hs | ⟨hkind, n, hpos, hn⟩
    · exact Or.inl ⟨rest, helement.tail hs⟩
    · exact Or.inr (Or.inl (.element helement hs))
    · exact Or.inr (Or.inr ⟨hkind, _, by omega, Emits.refl.read.trans hn⟩)

/-! ### Calls -/

theorem texTokReadWord_unbroken (h : t.Placed) :
    ∃ w, t.rest = w ++ (texTokSkipToTokenBoundary t).rest ∧
      Unbroken w (texTokSkipToTokenBoundary t).rest ∧
      Boundary (texTokSkipToTokenBoundary t).rest ∧
      (texTokReadWord t).2.kind = texTokWordKind w := by
  obtain ⟨w, hrest, hw, hend⟩ := texTokSkipToTokenBoundary_unbroken h
  have hmoves := moves_texTokSkipToTokenBoundary t
  have hdata := slice_of_rest h (hmoves.placed h) hmoves.scans.input_eq hrest
  refine ⟨w, hrest, hw, hend, ?_⟩
  simp only [texTokReadWord, hdata]

/-- In front of a boundary that is not skipped there is a parenthesis or nothing. -/
theorem not_boundary_of_word (h : t.Placed) (hno : NoBlank t.rest) (hch : t.ch ≠ none)
    (hopen : t.ch ≠ rune '(') (hclose : t.ch ≠ rune ')') : ¬Boundary t.rest := by
  rintro (hnil | ⟨b, cs, hcs, hb | rfl | rfl⟩ | ⟨cs, hcs⟩)
  · exact hch (h.ch_none_iff.mpr hnil)
  · exact hno.1 b cs hcs hb
  · exact hopen ((ch_eq_rune_iff h (by decide)).mpr ⟨cs, hcs⟩)
  · exact hclose ((ch_eq_rune_iff h (by decide)).mpr ⟨cs, hcs⟩)
  · exact hno.2.1 cs hcs

/-- A valid token is the text in front, and reports nothing. -/
theorem texTokNext_validToken (h : (texTokSkipSpace t).Placed)
    (hno : NoBlank (texTokSkipSpace t).rest) (hkind : (texTokNext t).2.kind ≠ .invalid) :
    Moves (texTokSkipSpace t) (texTokNext t).1 ∧
      ValidToken (texTokSkipSpace t).rest (texTokNext t).1.rest := by
  simp only [texTokNext] at hkind ⊢
  generalize texTokSkipSpace t = v at h hno hkind ⊢
  have hparen : ∀ {c : Char}, c = '(' ∨ c = ')' → v.ch = rune c →
      ValidToken v.rest (texTokReadCh v).rest := by
    intro c hc hch
    have hlt : c.toNat < 0x80 := by rcases hc with rfl | rfl <;> decide
    rw [rest_read_of_rune h hlt hch]
    exact .paren hc _
  split
  · rename_i hch
    have hrest := h.ch_none_iff.mp hch
    rw [h.rest_read, hrest]
    exact ⟨Moves.refl.read, .eof⟩
  · rename_i hch
    rw [if_neg hch] at hkind
    split
    · exact ⟨Moves.refl.read, hparen (Or.inl rfl) ‹_›⟩
    · rename_i hopen
      rw [if_neg hopen] at hkind
      split
      · exact ⟨Moves.refl.read, hparen (Or.inr rfl) ‹_›⟩
      · rename_i hclose
        rw [if_neg hclose] at hkind
        split
        · rename_i hquote
          rw [if_pos hquote] at hkind
          have hrest := rest_read_of_rune h (by decide) hquote
          rcases texTokReadStringLoop_cases h.read .string with ⟨rest, hs⟩ | hs | ⟨hloop, -⟩
          · obtain ⟨hmoves, -, hend⟩ := hs.read h.read rfl .string
            have hplaced := hmoves.placed h.read
            have hclosed := (ch_eq_rune_iff hplaced (by decide)).mpr ⟨rest, hend⟩
            obtain ⟨-, hbehind, -⟩ := texTokReadString_spans h hrest hs
            rw [hbehind, hrest]
            refine ⟨?_, .string hs⟩
            simp only [texTokReadString, if_pos hclosed]
            exact (Moves.refl.read.trans hmoves).read
          · exact absurd (hs.read h.read rfl .string).2.1 hkind
          · exact absurd hloop hkind
        · rename_i hquote
          rw [if_neg hquote] at hkind
          obtain ⟨w, hrest, hw, hend, hword⟩ := texTokReadWord_unbroken h
          rw [(emits_texTokReadWord v).2 hkind]
          refine ⟨moves_texTokSkipToTokenBoundary v, ?_⟩
          have hbound := not_boundary_of_word h hno hch hopen hclose
          rw [hrest]
          refine .word ?_ ?_ hw hend (hword ▸ hkind)
          · rintro rfl
            exact hbound (hrest ▸ hend)
          · intro hhead
            obtain ⟨w', rfl⟩ := List.head?_eq_some_iff.mp hhead
            exact hquote ((ch_eq_rune_iff h (by decide)).mpr ⟨_, hrest⟩)

/-- A call that returns a valid token only reads. -/
theorem texTokNext_extent (h : t.Placed) (hcut : ¬CutBlock t.rest)
    (hkind : (texTokNext t).2.kind ≠ .invalid) :
    Moves t (texTokNext t).1 ∧ Extent t.rest (texTokNext t).1.rest := by
  obtain ⟨gap, hrest, hgap⟩ := texTokSkipSpace_gap h
  have hno := noBlank_texTokSkipSpace h
  obtain ⟨hmoves, -⟩ := hgap.skip hno h hrest hcut
  obtain ⟨hmoves', hvalid⟩ := texTokNext_validToken (hmoves.placed h) hno hkind
  exact ⟨hmoves.trans hmoves', gap, _, hrest, hgap, hno, hvalid⟩

/-- A valid token in front is what the call returns. -/
theorem Extent.next (hextent : Extent t.rest rest) (h : t.Placed) (hcut : ¬CutBlock t.rest) :
    (texTokNext t).2.kind ≠ .invalid ∧ (texTokNext t).1.rest = rest := by
  obtain ⟨gap, token, hrest, hgap, hno, hvalid⟩ := hextent
  obtain ⟨hmoves, hskip⟩ := hgap.skip hno h hrest hcut
  have hplaced := hmoves.placed h
  simp only [texTokNext]
  generalize texTokSkipSpace t = v at hplaced hskip ⊢
  rcases hvalid with _ | ⟨hc, rest⟩ | hs | @⟨w, rest, hne, hquote, hw, hend, hkind⟩
  · have hch := hplaced.ch_none_iff.mpr hskip
    rw [if_pos hch, hplaced.rest_read, hskip]
    exact ⟨by simp, rfl⟩
  · rcases hc with rfl | rfl
    · have hch := (ch_eq_rune_iff hplaced (c := '(') (by decide)).mpr ⟨rest, hskip⟩
      rw [hch, if_neg (by simp [rune]), if_pos rfl]
      exact ⟨by simp, hplaced.rest_read_ascii hskip (by decide)⟩
    · have hch := (ch_eq_rune_iff hplaced (c := ')') (by decide)).mpr ⟨rest, hskip⟩
      rw [hch, if_neg (by simp [rune]), if_neg (by decide), if_pos rfl]
      exact ⟨by simp, hplaced.rest_read_ascii hskip (by decide)⟩
  · have hch := (ch_eq_rune_iff hplaced (c := '"') (by decide)).mpr ⟨_, hskip⟩
    obtain ⟨hkind, hbehind, -⟩ := texTokReadString_spans hplaced hskip hs
    rw [hch, if_neg (by simp [rune]), if_neg (by decide), if_neg (by decide), if_pos rfl]
    exact ⟨by rw [hkind]; decide, hbehind⟩
  · have hbound : ¬Boundary v.rest := hskip ▸ hw [] w rfl hne
    have hnone : v.ch ≠ none := fun hch => hbound (Or.inl (hplaced.ch_none_iff.mp hch))
    have hparen : v.ch ≠ rune '(' ∧ v.ch ≠ rune ')' := by
      constructor
      · intro hch
        obtain ⟨bs, hbs⟩ := (ch_eq_rune_iff hplaced (by decide)).mp hch
        exact hbound (Or.inr (Or.inl ⟨_, bs, hbs, Or.inr (Or.inl rfl)⟩))
      · intro hch
        obtain ⟨bs, hbs⟩ := (ch_eq_rune_iff hplaced (by decide)).mp hch
        exact hbound (Or.inr (Or.inl ⟨_, bs, hbs, Or.inr (Or.inr rfl)⟩))
    have hnquote : v.ch ≠ rune '"' := by
      intro hch
      obtain ⟨bs, hbs⟩ := (ch_eq_rune_iff hplaced (by decide)).mp hch
      obtain ⟨b, w, rfl⟩ := List.exists_cons_of_ne_nil hne
      obtain ⟨rfl, -⟩ := List.cons.inj (hskip.symm.trans hbs)
      exact hquote rfl
    obtain ⟨w', hrest', hw', hend', hword⟩ := texTokReadWord_unbroken hplaced
    obtain ⟨rfl, hbehind⟩ := hw.unique hend hw' hend' (hskip.symm.trans hrest')
    have hvalid : (texTokReadWord v).2.kind ≠ .invalid := hword ▸ hkind
    rw [if_neg hnone, if_neg hparen.1, if_neg hparen.2, if_neg hnquote,
      (emits_texTokReadWord v).2 hvalid]
    exact ⟨hvalid, hbehind.symm⟩

/-- A call that returns an invalid token has reported it, unless a string is cut off. -/
theorem texTokNext_invalid (h : t.Placed) (hcut : ¬CutBlock t.rest)
    (hkind : (texTokNext t).2.kind = .invalid) :
    OpenQuote t.rest ∨ ∃ n, 0 < n ∧ Emits t n (texTokNext t).1 := by
  obtain ⟨gap, hrest, hgap⟩ := texTokSkipSpace_gap h
  obtain ⟨hmoves, -⟩ := hgap.skip (noBlank_texTokSkipSpace h) h hrest hcut
  have hplaced := hmoves.placed h
  have hquoted : ∀ {s : List UInt8}, (texTokSkipSpace t).rest = byteOf '"' :: s → OpenString s →
      OpenQuote t.rest := by
    intro s hs hopen
    rcases hgap with hgap | ⟨hnil, -⟩
    · exact ⟨gap, s, by rw [hrest, hs], hgap, hopen⟩
    · rw [hnil] at hs
      cases hs
  simp only [texTokNext] at hkind ⊢
  generalize texTokSkipSpace t = v at hmoves hplaced hquoted hkind ⊢
  split at hkind
  · cases hkind
  · rename_i hch
    split at hkind
    · cases hkind
    · rename_i hopen
      split at hkind
      · cases hkind
      · rename_i hclose
        rw [if_neg hch, if_neg hopen, if_neg hclose]
        split at hkind
        · rename_i hquote
          rw [if_pos hquote]
          have hs := rest_read_of_rune hplaced (by decide) hquote
          rcases texTokReadStringLoop_cases hplaced.read .string with
            ⟨rest, htail⟩ | hopen | ⟨-, n, hpos, hn⟩
          · rw [(texTokReadString_spans hplaced hs htail).1] at hkind
            cases hkind
          · exact Or.inl (hquoted hs hopen)
          · exact Or.inr ⟨_, by omega,
              hmoves.emits.trans (emits_texTokReadString (Emits.refl.read.trans hn))⟩
        · rename_i hquote
          rw [if_neg hquote]
          exact Or.inr ⟨_, by omega, hmoves.emits.trans ((emits_texTokReadWord v).1 hkind)⟩

theorem OpenQuote.next (hquote : OpenQuote t.rest) (h : t.Placed) :
    (texTokNext t).2.kind = .invalid ∧ Moves t (texTokNext t).1 ∧ (texTokNext t).1.rest = [] := by
  obtain ⟨gap, s, hrest, hgap, hs⟩ := hquote
  obtain ⟨v, hmoves, hv, hskip⟩ := hgap.skip h hrest
  have hplaced := hmoves.placed h
  have hno : NoBlank v.rest := by
    rw [hv]
    refine ⟨?_, fun cs hcs => ?_, fun cs hcs => ?_⟩
    · rintro b cs hcs
      obtain ⟨rfl, -⟩ := List.cons.inj hcs
      decide
    · exact absurd (List.cons.inj hcs).1 (by decide)
    · exact absurd (List.cons.inj hcs).1 (by decide)
  have hch := (ch_eq_rune_iff hplaced (c := '"') (by decide)).mpr ⟨s, hv⟩
  have hnext := hplaced.rest_read_ascii hv (by decide)
  obtain ⟨hloop, hkind, hend⟩ := hs.read hplaced.read hnext .string
  have hnone := (hloop.placed hplaced.read).ch_none_iff.mpr hend
  have hread : (texTokReadString v).1 = (texTokReadStringLoop (texTokReadCh v) .string).1 := by
    simp only [texTokReadString, hnone]
    rw [if_neg (by simp [rune])]
  rw [texTokNext, hskip, texTokSkipSpace_noBlank hplaced hno]
  rw [hch, if_neg (by simp [rune]), if_neg (by decide), if_neg (by decide), if_pos rfl, hread]
  exact ⟨hkind, hmoves.trans (Moves.refl.read.trans hloop), hend⟩

theorem CutBlock.next (hcut : CutBlock t.rest) (h : t.Placed) : (texTokNext t).2.kind = .eof := by
  have hch := ((scans_texTokSkipSpace t).placed h).ch_none_iff.mpr (hcut.skip h)
  simp only [texTokNext, if_pos hch]

/-! ### The error count -/

/-- The error count goes up in a call that returns an invalid token, and else only for a block
comment that is cut off and for a character that does not decode. -/
def CountsErrors (t : TexTokenizer) : Prop :=
  ((texTokNext t).2.kind = .invalid → t.errors.length < (texTokNext t).1.errors.length) ∧
    (t.errors.length < (texTokNext t).1.errors.length →
      (texTokNext t).2.kind = .invalid ∨ CutBlock t.rest ∨
        ∃ rs, ReadsRunes t.rest rs (texTokNext t).1.rest ∧
          (Utf8.runeError, 1) ∈ entered rs (texTokNext t).1.rest)

/-- The next token is a string that the end of the text cuts off, and no character from there on
reads as the replacement character. -/
def Silent (text : List UInt8) : Prop := OpenQuote text ∧ Utf8.runeError ∉ (runes text).tail

/-- The next token is not invalid, no block comment is cut off, and of the characters up to the
one behind the token some encode the replacement character and all decode. -/
def Masked (text : List UInt8) : Prop :=
  ¬CutBlock text ∧ ∃ rest rs, Extent text rest ∧ ReadsRunes text rs rest ∧
    Utf8.runeError ∈ (entered rs rest).map Prod.fst ∧ (Utf8.runeError, 1) ∉ entered rs rest

/-- A call counts its errors unless it is one of the two kinds. -/
theorem countsErrors_iff (h : t.Placed) :
    CountsErrors t ↔ ¬Silent t.rest ∧ ¬Masked t.rest := by
  by_cases hcut : CutBlock t.rest
  · have hkind := hcut.next h
    refine iff_of_true ⟨fun hinvalid => ?_, fun _ => Or.inr (Or.inl hcut)⟩
      ⟨fun hsilent => ?_, fun hmasked => hmasked.1 hcut⟩
    · rw [hkind] at hinvalid
      cases hinvalid
    · rw [(hsilent.1.next h).1] at hkind
      cases hkind
  by_cases hkind : (texTokNext t).2.kind = .invalid
  · have hmasked : ¬Masked t.rest := by
      rintro ⟨-, rest, rs, hextent, -⟩
      exact (hextent.next h hcut).1 hkind
    have hcount : CountsErrors t ↔ t.errors.length < (texTokNext t).1.errors.length :=
      ⟨fun hcounts => hcounts.1 hkind, fun hlt => ⟨fun _ => hlt, fun _ => Or.inl hkind⟩⟩
    rw [hcount, and_iff_left hmasked]
    -- behind a string that is cut off everything has been read
    have hopen : OpenQuote t.rest → (t.errors.length < (texTokNext t).1.errors.length ↔
        Utf8.runeError ∈ (runes t.rest).tail) := by
      intro hquote
      obtain ⟨-, hmoves, hend⟩ := hquote.next h
      obtain ⟨rs, hreads, -, hlength⟩ := hmoves.emits.count h
      rw [hend] at hreads hlength
      have hreads : ReadsRunes (t.rest ++ []) rs [] := by rwa [List.append_nil]
      have hrunes : runes t.rest = rs.map Prod.fst := hreads.runes_eq
      rw [hlength, hrunes, ← List.map_tail, ← countErrors_pos_iff, entered, frontRune,
        List.append_nil]
      omega
    constructor
    · rintro hlt ⟨hquote, hnone⟩
      exact hnone ((hopen hquote).mp hlt)
    · intro hsilent
      rcases texTokNext_invalid h hcut hkind with hquote | ⟨n, hpos, hn⟩
      · exact (hopen hquote).mpr (not_not.mp fun hnone => hsilent ⟨hquote, hnone⟩)
      · obtain ⟨rs, -, -, hlength⟩ := hn.count h
        omega
  · have hsilent : ¬Silent t.rest := fun hsilent => hkind (hsilent.1.next h).1
    obtain ⟨hmoves, hextent⟩ := texTokNext_extent h hcut hkind
    obtain ⟨rs, hreads, -, hlength⟩ := hmoves.emits.count h
    have hlt : t.errors.length < (texTokNext t).1.errors.length ↔
        Utf8.runeError ∈ (entered rs (texTokNext t).1.rest).map Prod.fst := by
      rw [hlength, ← countErrors_pos_iff]
      omega
    rw [and_iff_right hsilent]
    constructor
    · rintro ⟨-, hcounts⟩ ⟨-, rest, rs', hextent', hreads', hmem, hnot⟩
      obtain ⟨-, rfl⟩ := hextent'.next h hcut
      obtain rfl := hreads.unique hreads'
      rcases hcounts (hlt.mpr hmem) with hinvalid | hcut' | ⟨rs', hreads', hmem'⟩
      · exact hkind hinvalid
      · exact hcut hcut'
      · obtain rfl := hreads.unique hreads'
        exact hnot hmem'
    · intro hmasked
      refine ⟨fun hinvalid => absurd hinvalid hkind, fun hless => Or.inr (Or.inr ⟨rs, hreads, ?_⟩)⟩
      by_contra hnot
      exact hmasked ⟨hcut, _, rs, hextent, hreads, hlt.mp hless, hnot⟩

theorem scans_drained (h : t.Settled) (k : ℕ) :
    (texTokAfter t k).errors <+: t.drained h := by
  induction k generalizing t with
  | zero =>
    fun_induction TexTokenizer.drained t h with
    | case1 t h heof => exact Scans.errors_prefix (scans_texTokNext t)
    | case2 t h hkind ih => exact (Scans.errors_prefix (scans_texTokNext t)).trans ih
  | succ k ih =>
    rw [← drained_texTokNext t h]
    exact ih (texTokNext_left t h).1

/-- Every call of a text counts its errors unless it is one of the two kinds. In a text that is
read to the end without an error the invalid tokens are the strings that are cut off. -/
theorem texTokNext_counts_iff (input : List UInt8) (file : String) :
    (∀ k, CountsErrors (texTokAfter (texTokInit input file) k) ↔
      ¬Silent (texTokAfter (texTokInit input file) k).rest ∧
        ¬Masked (texTokAfter (texTokInit input file) k).rest) ∧
    ((texTokInit input file).drained (settled_texTokInit input file) = [] →
      ∀ k, (texTokNth (texTokInit input file) k).kind = .invalid ↔
        Silent (texTokAfter (texTokInit input file) k).rest) := by
  refine ⟨fun k => countsErrors_iff (placed_texTokAfter input file k), fun hclean k => ?_⟩
  have hplaced := placed_texTokAfter input file k
  have herrors := scans_drained (settled_texTokInit input file) (k + 1)
  rw [hclean, List.prefix_nil, texTokAfter_succ] at herrors
  rw [texTokNth_eq]
  refine ⟨fun hkind => ?_, fun hsilent => (hsilent.1.next hplaced).1⟩
  have hmasked : ¬Masked (texTokAfter (texTokInit input file) k).rest := by
    rintro ⟨hcut, rest, rs, hextent, -⟩
    exact (hextent.next hplaced hcut).1 hkind
  by_contra hsilent
  have hlt := ((countsErrors_iff hplaced).mpr ⟨hsilent, hmasked⟩).1 hkind
  rw [herrors] at hlt
  exact Nat.not_lt_zero _ hlt

/-- A quote at the end of a text is an invalid token, and no error is counted. -/
theorem not_countsErrors_openString :
    ¬CountsErrors (texTokAfter (texTokInit (ascii "\"a") "test.wat") 0) ∧
      (texTokNth (texTokInit (ascii "\"a") "test.wat") 0).kind = .invalid ∧
      (texTokNth (texTokInit (ascii "\"a") "test.wat") 1).kind = .eof ∧
      (texTokAfter (texTokInit (ascii "\"a") "test.wat") 2).errors = [] := by
  refine ⟨fun hcounts => ?_, by decide +kernel, by decide +kernel, by decide +kernel⟩
  exact absurd (hcounts.1 (by decide +kernel)) (by decide +kernel)

end Wasim
