import Wasim.Text.Blanks

/-!
# The tokens tile the input

Whatever the input is, the tokens cover it from front to back: each has a non-empty text that
stands in the input at the position of the token, none overlaps the one before, and what lies
between them is in the grammar of blanks and comments (`texTokens_tile`). This holds through
invalid UTF-8, stray semicolons and bad strings, since every loop of the tokenizer only moves
forward.
-/

namespace Wasim

variable {t : TexTokenizer}

/-! ### Calls one after another -/

/-- The token of the call number `k` of `tex_tok_next`, counted from zero. -/
def texTokNth (t : TexTokenizer) : ℕ → TexToken
  | 0 => (texTokNext t).2
  | k + 1 => texTokNth (texTokNext t).1 k

theorem texTokNth_ended (hsettled : t.Settled) (hch : t.ch = none) (k : ℕ) :
    (texTokNth t k).kind = .eof := by
  induction k generalizing t with
  | zero => exact (texTokNext_ended hsettled hch).1
  | succ k ih => exact ih (texTokNext_left t hsettled).1 (texTokNext_ended hsettled hch).2.1

/-- The calls return the tokens of the list, and then the end for ever. -/
theorem getElem?_tokens (t : TexTokenizer) (h : t.Settled) (k : ℕ) :
    (t.tokens h)[k]? = if (texTokNth t k).kind = .eof then none else some (texTokNth t k) := by
  induction k generalizing t with
  | zero =>
    rw [TexTokenizer.tokens, texTokNth]
    split <;> rfl
  | succ k ih =>
    rw [TexTokenizer.tokens, texTokNth]
    split
    · rename_i heof
      rw [if_pos (texTokNth_ended (texTokNext_left t h).1 (texTokNext_eof h heof) k)]
      rfl
    · rw [List.getElem?_cons_succ, ih]

/-- The kinds up to the first end of file, computed, give the kind of each token. -/
theorem kind_texTokNth_of_kinds {t : TexTokenizer} {kinds : List TexTokenKind}
    (h : (List.range (kinds.length + 1)).map (fun n => (texTokNth t n).kind) = kinds ++ [.eof])
    {k : ℕ} {kind : TexTokenKind} (hk : (kinds ++ [.eof])[k]? = some kind) :
    (texTokNth t k).kind = kind := by
  rw [← h, List.getElem?_map, Option.map_eq_some_iff] at hk
  obtain ⟨n, hn, rfl⟩ := hk
  obtain ⟨-, rfl⟩ := List.getElem?_eq_some_iff.mp hn
  rw [List.getElem_range]

theorem tokens_of_kinds {t : TexTokenizer} (hsettled : t.Settled) {kinds : List TexTokenKind}
    (h : (List.range (kinds.length + 1)).map (fun n => (texTokNth t n).kind) = kinds ++ [.eof])
    (hne : .eof ∉ kinds) : t.tokens hsettled = (List.range kinds.length).map (texTokNth t) := by
  have hend : (t.tokens hsettled)[kinds.length]? = none := by
    rw [getElem?_tokens, if_pos (kind_texTokNth_of_kinds h List.getElem?_concat_length)]
  refine List.ext_getElem? fun k => ?_
  rcases lt_or_ge k kinds.length with hlt | hge
  · have hk := kind_texTokNth_of_kinds h (k := k)
      (by rw [List.getElem?_append_left hlt, List.getElem?_eq_getElem hlt])
    rw [getElem?_tokens, List.getElem?_map, List.getElem?_range hlt, if_neg]
    · rfl
    · rw [hk]
      exact fun heof => hne (heof ▸ List.getElem_mem hlt)
  · rw [List.getElem?_eq_none ((List.getElem?_eq_none_iff.mp hend).trans hge),
      List.getElem?_eq_none (by rw [List.length_map, List.length_range]; exact hge)]

/-! ### Tilings -/

/-- The bytes of the input from `start` up to `stop`. -/
def between (input : List UInt8) (start stop : ℕ) : List UInt8 := (input.take stop).drop start

/-- The tokens cover the input from `pos` on. -/
inductive Tiles (input : List UInt8) : ℕ → List TexToken → Prop
  | last {pos : ℕ} (hpos : pos ≤ input.length) (hgap : Gap (input.drop pos) []) :
      Tiles input pos []
  | token {pos : ℕ} {token : TexToken} {tokens : List TexToken}
      (hpos : pos ≤ token.position.pos)
      (hgap : Blanks (between input pos token.position.pos))
      (hne : token.data ≠ [])
      (hdata : token.data = between input token.position.pos
        (token.position.pos + token.data.length)) :
      Tiles input (token.position.pos + token.data.length) tokens →
      Tiles input pos (token :: tokens)

theorem Tiles.pos_le {input : List UInt8} {pos : ℕ} {tokens : List TexToken}
    (h : Tiles input pos tokens) : pos + tokens.length ≤ input.length := by
  induction h with
  | last hpos _ => simpa using hpos
  | token hpos _ hne _ _ ih =>
    have := List.length_pos_iff.mpr hne
    simp only [List.length_cons]
    omega

theorem Tiles.le_of_mem {input : List UInt8} {pos : ℕ} {tokens : List TexToken}
    (h : Tiles input pos tokens) {token : TexToken} (hmem : token ∈ tokens) :
    pos ≤ token.position.pos := by
  induction h with
  | last => cases hmem
  | token hpos _ _ _ _ ih =>
    rcases List.mem_cons.mp hmem with rfl | hmem
    · exact hpos
    · have := ih hmem
      omega

/-- No token starts before the one in front of it has ended. -/
theorem Tiles.pairwise {input : List UInt8} {pos : ℕ} {tokens : List TexToken}
    (h : Tiles input pos tokens) :
    tokens.Pairwise fun a b =>
      a.position.pos < b.position.pos ∧ a.position.pos + a.data.length ≤ b.position.pos := by
  induction h with
  | last => exact .nil
  | token _ _ hne _ htiles ih =>
    have := List.length_pos_iff.mpr hne
    refine .cons (fun b hb => ?_) ih
    have := htiles.le_of_mem hb
    omega

/-! ### One call -/

theorem chLen_pos (h : t.Placed) (hch : t.ch ≠ none) : 0 < t.chLen := by
  obtain ⟨b, bs, hrest⟩ := List.exists_cons_of_ne_nil (fun hrest => hch (h.ch_none_iff.mpr hrest))
  have := Utf8.decodeRune_length_pos b bs
  rw [h.chLen_eq, hrest]
  omega

/-- Reading at least one rune moves forward. -/
theorem pos_lt_of_reads {u : TexTokenizer} (h : t.Placed) (hch : t.ch ≠ none)
    (hscans : Scans (texTokReadCh t) u) : t.position.pos < u.position.pos := by
  have hle := hscans.pos_le h.read
  have hpos := chLen_pos h hch
  rw [pos_texTokReadCh h.chLen_le] at hle
  omega

/-- A token other than the end starts where skipping stops, and its text is what the tokenizer
has passed. -/
theorem texTokNext_spans (h : t.Placed) (hkind : (texTokNext t).2.kind ≠ .eof) :
    (texTokNext t).2.position = (texTokSkipSpace t).position ∧
      (texTokNext t).2.data = between t.input (texTokSkipSpace t).position.pos
        (texTokNext t).1.position.pos ∧
      (texTokSkipSpace t).position.pos < (texTokNext t).1.position.pos := by
  have hskip := scans_texTokSkipSpace t
  have hplaced := hskip.placed h
  obtain ⟨hspace, hline⟩ := texTokSkipSpace_stops t
  have hparen : (texTokSkipSpace t).ch ≠ none →
      (texTokSkipSpace t).slice (texTokSkipSpace t).position.pos
        ((texTokSkipSpace t).position.pos + (texTokSkipSpace t).chLen) =
      between t.input (texTokSkipSpace t).position.pos
        (texTokReadCh (texTokSkipSpace t)).position.pos ∧
      (texTokSkipSpace t).position.pos < (texTokReadCh (texTokSkipSpace t)).position.pos := by
    intro hch
    refine ⟨?_, pos_lt_of_reads hplaced hch .refl⟩
    rw [pos_texTokReadCh hplaced.chLen_le, TexTokenizer.slice, hskip.input_eq]
    rfl
  simp only [texTokNext] at hkind ⊢
  split at hkind
  · exact absurd rfl hkind
  · rename_i hch
    rw [if_neg hch]
    split
    · exact ⟨rfl, hparen hch⟩
    · rename_i hopen
      split
      · exact ⟨rfl, hparen hch⟩
      · rename_i hclose
        split
        · have hscans : Scans (texTokReadCh (texTokSkipSpace t))
              (texTokReadString (texTokSkipSpace t)).1 := by
            have hloop := scans_texTokReadStringLoop (texTokReadCh (texTokSkipSpace t)) .string
            simp only [texTokReadString]
            split
            · exact hloop.read
            · exact hloop
          refine ⟨rfl, ?_, pos_lt_of_reads hplaced hch hscans⟩
          have hinput := (hskip.trans (scans_texTokReadString (texTokSkipSpace t))).input_eq
          simp only [texTokReadString, TexTokenizer.slice] at hinput ⊢
          rw [hinput]
          rfl
        · have hboundary : texTokSkipToTokenBoundary (texTokSkipSpace t) =
              texTokSkipToTokenBoundary (texTokReadCh (texTokSkipSpace t)) := by
            rw [texTokSkipToTokenBoundary, if_neg (by simp [hspace]), if_neg hline, if_neg]
            rintro (h | h | h)
            · exact hch h
            · exact hopen h
            · exact hclose h
          have hpos : (texTokReadWord (texTokSkipSpace t)).1.position =
              (texTokSkipToTokenBoundary (texTokSkipSpace t)).position := by
            simp only [texTokReadWord]
            split
            · split <;> rfl
            · rfl
          have hinput := (hskip.trans (scans_texTokSkipToTokenBoundary
            (texTokSkipSpace t))).input_eq
          refine ⟨rfl, ?_, ?_⟩
          · rw [hpos]
            simp only [texTokReadWord, TexTokenizer.slice, hinput]
            rfl
          · rw [hpos, hboundary]
            exact pos_lt_of_reads hplaced hch (scans_texTokSkipToTokenBoundary _)

theorem length_between {input : List UInt8} {start stop : ℕ} (hstop : stop ≤ input.length) :
    (between input start stop).length = stop - start := by
  rw [between, List.length_drop, List.length_take, min_eq_left hstop]

/-- What the tokenizer has passed on its way from one place to another. -/
theorem between_of_rest {u : TexTokenizer} {gap : List UInt8} (ht : t.Placed) (hu : u.Placed)
    (hinput : u.input = t.input) (h : t.rest = gap ++ u.rest) :
    between t.input t.position.pos u.position.pos = gap := by
  have hlength := congrArg List.length h
  have htpos := ht.pos_add_length
  have hupos := hu.pos_add_length
  rw [List.length_append] at hlength
  rw [hinput] at hupos
  have hstop : u.position.pos = t.position.pos + gap.length := by omega
  rw [between, List.drop_take, hstop, Nat.add_sub_cancel_left]
  have hdrop : t.input.drop t.position.pos = gap ++ u.rest := h
  rw [hdrop, List.take_left]

theorem tiles_tokens (h : t.Placed) (hsettled : t.Settled) :
    Tiles t.input t.position.pos (t.tokens hsettled) := by
  fun_induction TexTokenizer.tokens t hsettled with
  | case1 t hsettled heof =>
    refine .last h.pos_le ?_
    obtain ⟨gap, hrest, hgap⟩ := texTokSkipSpace_gap h
    have hplaced := (scans_texTokSkipSpace t).placed h
    have hend := hplaced.ch_none_iff.mp (texTokSkipSpace_of_eof heof)
    rw [hend] at hgap hrest
    have hdrop : t.input.drop t.position.pos = gap := by
      rw [← List.append_nil gap, ← hrest]
      rfl
    rw [hdrop]
    exact hgap
  | case2 t hsettled hkind ih =>
    obtain ⟨hposition, hdata, hlt⟩ := texTokNext_spans h hkind
    have hscans := scans_texTokNext t
    have hplaced := hscans.placed h
    have hskip := scans_texTokSkipSpace t
    have hlength := congrArg List.length hdata
    have hle := hplaced.pos_le
    rw [hscans.input_eq] at hle
    rw [length_between hle] at hlength
    have hstop : (texTokNext t).2.position.pos + (texTokNext t).2.data.length =
        (texTokNext t).1.position.pos := by
      rw [hposition]
      omega
    obtain ⟨gap, hrest, hgap⟩ := texTokSkipSpace_gap h
    refine .token ?_ ?_ ?_ ?_ ?_
    · rw [hposition]
      exact hskip.pos_le h
    · rw [hposition, between_of_rest h (hskip.placed h) hskip.input_eq hrest]
      rcases hgap with hgap | ⟨hend, -⟩
      · exact hgap
      · have := (hskip.placed h).pos_add_length
        rw [hend, List.length_nil, hskip.input_eq] at this
        omega
    · intro hnil
      rw [hnil, List.length_nil] at hlength
      omega
    · rw [hstop, hposition]
      exact hdata
    · rw [hstop, ← hscans.input_eq]
      exact ih hplaced

/-- The tokens of every text tile it, and there are at most as many as there are bytes. -/
theorem texTokens_tile (input : List UInt8) (file : String) :
    (∀ k, (texTokens input file)[k]? =
      if (texTokNth (texTokInit input file) k).kind = .eof then none
      else some (texTokNth (texTokInit input file) k)) ∧
    (texTokens input file).length ≤ input.length ∧
    Tiles input 0 (texTokens input file) ∧
    (texTokens input file).Pairwise fun a b =>
      a.position.pos < b.position.pos ∧ a.position.pos + a.data.length ≤ b.position.pos := by
  obtain ⟨hplaced, hrest⟩ := placed_texTokInit input file
  have htiles := tiles_tokens hplaced (settled_texTokInit input file)
  have hinput : (texTokInit input file).input = input := input_texTokReadCh _
  have hpos : (texTokInit input file).position.pos = 0 := by
    have := hplaced.pos_add_length
    rw [hrest, hinput] at this
    omega
  rw [hinput, hpos] at htiles
  refine ⟨getElem?_tokens _ _, ?_, htiles, htiles.pairwise⟩
  have hle := htiles.pos_le
  rw [Nat.zero_add] at hle
  exact hle

end Wasim
