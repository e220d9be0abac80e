import Wasim.Text.Tokenizer

/-!
# The tokens of a text

`TexTokenizer.tokens` is the list of the tokens that `tex_tok_next` hands out in front of the
end, and `TexTokenizer.drained` the tokenizer behind them. At the end of the input the
tokenizer stays there (`texTokNext_ended`), so what a caller that looks ahead has seen is
always the front of this list.
-/

namespace Wasim

/-! ### What the kind of a token says about its text -/

/-- Identifiers have a text, and unsigned integers are literals. -/
def TexToken.Sound (token : TexToken) : Prop :=
  (token.kind = .identifier → token.data ≠ []) ∧
    (token.kind = .integerUnsigned → texTokReadNumberLike token.data = .integerUnsigned)

theorem texTokReadMemoryArgument_cases (s : List UInt8) :
    texTokReadMemoryArgument s = .alignEqualNatural ∨
      texTokReadMemoryArgument s = .offsetEqualNatural ∨ texTokReadMemoryArgument s = .invalid := by
  rw [texTokReadMemoryArgument]
  split
  · split
    · exact Or.inl rfl
    · exact Or.inr (Or.inr rfl)
  · split
    · split
      · exact Or.inr (Or.inl rfl)
      · exact Or.inr (Or.inr rfl)
    · exact Or.inr (Or.inr rfl)

/-- The kinds of words, with the reason for each. -/
theorem texTokWordKind_cases (data : List UInt8) :
    texTokWordKind data = .alignEqualNatural ∨ texTokWordKind data = .offsetEqualNatural ∨
      (∃ index, texTokWordKind data = .keyword index) ∨
      texTokWordKind data = texTokReadNumberLike data ∨
      (texTokWordKind data = .identifier ∧ texTokIsIdentifier data) ∨
      texTokWordKind data = .invalid := by
  rw [texTokWordKind]
  split
  · rename_i hmemory
    rcases texTokReadMemoryArgument_cases data with h | h | h
    · exact Or.inl h
    · exact Or.inr (Or.inl h)
    · exact absurd h hmemory
  · refine Or.inr (Or.inr ?_)
    split
    · exact Or.inl ⟨_, rfl⟩
    · refine Or.inr ?_
      split
      · exact Or.inl rfl
      · refine Or.inr ?_
        split
        · rename_i hidentifier
          exact Or.inl ⟨rfl, hidentifier⟩
        · exact Or.inr rfl

theorem texTokWordKind_ne_eof (data : List UInt8) : texTokWordKind data ≠ .eof := by
  have hnumber := isNumberLike_texTokReadNumberLike data
  intro heof
  rcases texTokWordKind_cases data with h | h | ⟨_, h⟩ | h | h | h
  · simp [h] at heof
  · simp [h] at heof
  · simp [h] at heof
  · rw [← h, heof] at hnumber
    simp [TexTokenKind.IsNumberLike] at hnumber
  · simp [h.1] at heof
  · simp [h] at heof

theorem sound_of_texTokWordKind (position : TexPosition) (data : List UInt8) :
    (TexToken.mk position (texTokWordKind data) data).Sound := by
  have hnumber := isNumberLike_texTokReadNumberLike data
  constructor
  · intro hkind hdata
    have hdata : data = [] := hdata
    subst hdata
    have hkind : texTokWordKind [] = .identifier := hkind
    revert hkind
    decide +kernel
  · intro hkind
    have hkind : texTokWordKind data = .integerUnsigned := hkind
    rcases texTokWordKind_cases data with h | h | ⟨_, h⟩ | h | h | h
    · simp [h] at hkind
    · simp [h] at hkind
    · simp [h] at hkind
    · exact h.symm.trans hkind
    · simp [h.1] at hkind
    · simp [h] at hkind

theorem texTokReadStringLoop_kind (t : TexTokenizer) (kind : TexTokenKind)
    (h : kind = .string ∨ kind = .invalid) :
    (texTokReadStringLoop t kind).2 = .string ∨ (texTokReadStringLoop t kind).2 = .invalid := by
  fun_induction texTokReadStringLoop t kind with
  | case1 t kind _ => exact Or.inr rfl
  | case2 t kind _ => exact h
  | case3 t kind _ _ escape ih =>
    refine ih ?_
    split
    · exact h
    · exact Or.inr rfl
  | case4 t kind _ _ _ _ _ ih => exact ih (Or.inr rfl)
  | case5 t kind _ _ _ _ _ ih => exact ih h

theorem texTokReadString_kind (t : TexTokenizer) :
    (texTokReadString t).2.kind = .string ∨ (texTokReadString t).2.kind = .invalid :=
  texTokReadStringLoop_kind _ _ (Or.inl rfl)

theorem texTokNext_sound (t : TexTokenizer) : (texTokNext t).2.Sound := by
  have hother : ∀ {token : TexToken}, token.kind ≠ .identifier → token.kind ≠ .integerUnsigned →
      token.Sound := fun hid hint => ⟨fun h => absurd h hid, fun h => absurd h hint⟩
  simp only [texTokNext]
  split
  · exact hother (fun h => by cases h) fun h => by cases h
  · split
    · exact hother (fun h => by cases h) fun h => by cases h
    · split
      · exact hother (fun h => by cases h) fun h => by cases h
      · split
        · have hkind := texTokReadString_kind (texTokSkipSpace t)
          rcases hkind with h | h
          · exact hother (by simp [h]) (by simp [h])
          · exact hother (by simp [h]) (by simp [h])
        · exact sound_of_texTokWordKind _ _

/-! ### The end of the input -/

theorem texTokSkipSpace_ended {t : TexTokenizer} (h : t.ch = none) : texTokSkipSpace t = t := by
  rw [texTokSkipSpace, h]
  simp [texTokIsSpace, rune]

theorem texTokReadCh_ended {t : TexTokenizer} (hsettled : t.Settled) (h : t.ch = none) :
    (texTokReadCh t).ch = none ∧ (texTokReadCh t).errors = t.errors := by
  rw [texTokReadCh, if_pos (hsettled h)]
  exact ⟨rfl, rfl⟩

/-- At the end there is only the end, and nothing is reported. -/
theorem texTokNext_ended {t : TexTokenizer} (hsettled : t.Settled) (h : t.ch = none) :
    (texTokNext t).2.kind = .eof ∧ (texTokNext t).1.ch = none ∧
      (texTokNext t).1.errors = t.errors := by
  simp only [texTokNext, texTokSkipSpace_ended h, if_pos h]
  exact ⟨trivial, texTokReadCh_ended hsettled h⟩

/-- The end is returned in front of nothing. -/
theorem texTokSkipSpace_of_eof {t : TexTokenizer} (h : (texTokNext t).2.kind = .eof) :
    (texTokSkipSpace t).ch = none := by
  simp only [texTokNext] at h
  split at h
  · assumption
  · split at h
    · cases h
    · split at h
      · cases h
      · split at h
        · have hkind := texTokReadString_kind (texTokSkipSpace t)
          rw [h] at hkind
          simp at hkind
        · exact absurd h (texTokWordKind_ne_eof _)

theorem texTokNext_eof {t : TexTokenizer} (hsettled : t.Settled)
    (h : (texTokNext t).2.kind = .eof) : (texTokNext t).1.ch = none := by
  have hch := texTokSkipSpace_of_eof h
  simp only [texTokNext, if_pos hch]
  exact (texTokReadCh_ended (texTokSkipSpace_left_le t hsettled).2 hch).1

/-! ### The list of the tokens -/

/-- The tokens in front of the end. -/
def TexTokenizer.tokens (t : TexTokenizer) (h : t.Settled) : List TexToken :=
  if (texTokNext t).2.kind = .eof then []
  else (texTokNext t).2 :: TexTokenizer.tokens (texTokNext t).1 (texTokNext_left t h).1
termination_by t.left
decreasing_by
  rename_i hkind
  exact (texTokNext_left t h).2.2 hkind

/-- The errors that the tokenizer will have reported at the end. -/
def TexTokenizer.drained (t : TexTokenizer) (h : t.Settled) : List TexTokError :=
  if (texTokNext t).2.kind = .eof then (texTokNext t).1.errors
  else TexTokenizer.drained (texTokNext t).1 (texTokNext_left t h).1
termination_by t.left
decreasing_by
  rename_i hkind
  exact (texTokNext_left t h).2.2 hkind

/-- The tokens of a text. -/
def texTokens (input : List UInt8) (file : String) : List TexToken :=
  (texTokInit input file).tokens (settled_texTokInit input file)

theorem kind_ne_eof_of_mem_tokens {t : TexTokenizer} {h : t.Settled} {token : TexToken}
    (hmem : token ∈ t.tokens h) : token.kind ≠ .eof := by
  fun_induction TexTokenizer.tokens t h with
  | case1 => cases hmem
  | case2 t h hkind ih =>
    rcases List.mem_cons.mp hmem with rfl | hmem
    · exact hkind
    · exact ih hmem

theorem drained_ended {t : TexTokenizer} (hsettled : t.Settled) (h : t.ch = none) :
    t.drained hsettled = t.errors := by
  rw [TexTokenizer.drained, if_pos (texTokNext_ended hsettled h).1]
  exact (texTokNext_ended hsettled h).2.2

theorem drained_texTokNext (t : TexTokenizer) (h : t.Settled) :
    (texTokNext t).1.drained (texTokNext_left t h).1 = t.drained h := by
  rw [TexTokenizer.drained.eq_1 t]
  split
  · rename_i hkind
    exact drained_ended _ (texTokNext_eof h hkind)
  · rfl

end Wasim
