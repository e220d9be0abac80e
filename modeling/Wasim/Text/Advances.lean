import Wasim.Text.Parser

/-!
# What the parser does to its state

Every procedure of the parser takes tokens and reports errors, and does nothing else to its
state (`Advances`). So the errors reported before stay, the tokens that are left are the end of
those that were there, and what the tokenizer will have reported at the end of the text does not
change.
-/

namespace Wasim

variable {p q r : TexParser}

/-- `q` is reached from `p` by taking tokens and reporting errors. -/
inductive Advances (p : TexParser) : TexParser → Prop
  | refl : Advances p p
  | next {q : TexParser} : Advances p q → Advances p (texParNextToken q)
  | report {q : TexParser} (token : TexToken) (format : String) (args : List TexArg) :
      Advances p q → Advances p (texParErrorf q token format args)

theorem Advances.trans (hpq : Advances p q) (hqr : Advances q r) : Advances p r := by
  induction hqr with
  | refl => exact hpq
  | next _ ih => exact ih.next
  | report token format args _ ih => exact ih.report token format args

theorem Advances.errors_prefix (h : Advances p q) : p.errors <+: q.errors := by
  induction h with
  | refl => exact List.prefix_refl _
  | next _ ih => exact ih
  | report _ _ _ _ ih => exact ih.trans (List.prefix_append _ _)

/-- If nothing has been reported in the end, nothing was reported before. -/
theorem Advances.errors_eq_nil (h : Advances p q) (hq : q.errors = []) : p.errors = [] :=
  List.prefix_nil.mp (hq ▸ h.errors_prefix)

theorem Advances.tokens_suffix (h : Advances p q) : q.tokens <:+ p.tokens := by
  induction h with
  | refl => exact List.suffix_refl _
  | next _ ih =>
    rw [tokens_texParNextToken]
    exact (List.tail_suffix _).trans ih
  | report _ _ _ _ ih => exact ih

/-- The errors that the tokenizer will have reported at the end of the text. -/
def TexParser.drained (p : TexParser) : List TexTokError := p.tokenizer.drained p.settled

theorem Advances.drained_eq (h : Advances p q) : q.drained = p.drained := by
  induction h with
  | refl => rfl
  | @next q _ ih => exact (drained_texTokNext q.tokenizer q.settled).trans ih
  | report _ _ _ _ ih => exact ih

/-- At the end of the tokens all errors of the tokenizer have been reported. -/
theorem drained_of_eof (h : p.currentToken.kind = .eof) : p.tokenizer.errors = p.drained :=
  (drained_ended p.settled (p.peek_eof (p.current_eof h))).symm

theorem drained_texParOfText (input : List UInt8) (file : String) :
    (texParOfText input file).drained =
      (texTokInit input file).drained (settled_texTokInit input file) := by
  rw [texParOfText, texParInit, TexParser.drained]
  exact (drained_texTokNext _ _).trans (drained_texTokNext _ _)

/-! ### The procedures -/

theorem advances_texParErrorfCurrent (p : TexParser) (format : String) (args : List TexArg) :
    Advances p (texParErrorfCurrent p format args) := Advances.refl.report _ _ _

theorem advances_texParErrorfPeek (p : TexParser) (format : String) (args : List TexArg) :
    Advances p (texParErrorfPeek p format args) := Advances.refl.report _ _ _

theorem advances_texParExpectCurrent (p : TexParser) (kind : TexTokenKind) :
    Advances p (texParExpectCurrent p kind).1 := by
  rw [texParExpectCurrent]
  split
  · exact .refl
  · exact advances_texParErrorfCurrent _ _ _

theorem advances_texParParseValueType (p : TexParser) :
    Advances p (texParParseValueType p).1 := by
  rw [texParParseValueType]
  split
  · exact Advances.refl.next
  · exact Advances.refl.next
  · exact Advances.refl.next
  · exact Advances.refl.next
  · exact (advances_texParErrorfCurrent _ _ _).next

theorem advances_texParRecover (depth : ℤ) (p : TexParser) :
    Advances p (texParRecover depth p) := by
  fun_induction texParRecover depth p with
  | case1 => exact .refl
  | case2 => exact .refl
  | case3 depth p _ _ _ ih => exact Advances.refl.next.trans ih

theorem advances_texParParenKindBegin (p : TexParser) (kind : TexTokenKind) :
    Advances p (texParParenKindBegin p kind).1 := by
  rw [texParParenKindBegin]
  split
  · split
    · exact Advances.refl.next.next
    · exact (advances_texParErrorfPeek _ _ _).trans (advances_texParRecover 0 _)
  · exact advances_texParErrorfCurrent _ _ _

theorem advances_texParParenKindEnd (p : TexParser) : Advances p (texParParenKindEnd p) := by
  have hexpect := advances_texParExpectCurrent p .parenClose
  rw [texParParenKindEnd]
  split
  · exact hexpect.next
  · exact hexpect.trans (advances_texParRecover 0 _)

theorem advances_texParParseId (p : TexParser) : Advances p (texParParseId p).1 := by
  rw [texParParseId]
  split
  · exact Advances.refl.next
  · exact .refl

theorem advances_texParValueTypesLoop (p : TexParser) :
    Advances p (texParValueTypesLoop p).1 := by
  fun_induction texParValueTypesLoop p with
  | case1 => exact .refl
  | case2 p _ first rest ih => exact (advances_texParParseValueType p).trans ih

theorem advances_texParNamedClause (p : TexParser) : Advances p (texParNamedClause p).1 := by
  have hid := advances_texParParseId p
  have htype := hid.trans (advances_texParParseValueType (texParParseId p).1)
  simp only [texParNamedClause]
  split
  · split
    · exact (htype.trans (advances_texParValueTypesLoop _)).trans (advances_texParParenKindEnd _)
    · exact htype.trans (advances_texParParenKindEnd _)
  · exact hid.trans (advances_texParParenKindEnd _)

theorem advances_texParParseNamedValueType (keyword : ClauseKeyword) (p : TexParser) :
    Advances p (texParParseNamedValueType keyword p).1 := by
  fun_induction texParParseNamedValueType keyword p with
  | case1 p _ opened _ clause rest ih =>
    exact ((advances_texParParenKindBegin p _).trans (advances_texParNamedClause _)).trans ih
  | case2 p _ opened _ ih => exact (advances_texParParenKindBegin p _).trans ih
  | case3 p _ => exact .refl

theorem advances_texParParseValueTypes (keyword : ClauseKeyword) (p : TexParser) :
    Advances p (texParParseValueTypes keyword p).1 := by
  fun_induction texParParseValueTypes keyword p with
  | case1 p _ opened _ clause rest ih =>
    exact (((advances_texParParenKindBegin p _).trans (advances_texParValueTypesLoop _)).trans
      (advances_texParParenKindEnd _)).trans ih
  | case2 p _ opened _ ih => exact (advances_texParParenKindBegin p _).trans ih
  | case3 p _ => exact .refl

theorem advances_texParParseFuncTypeDecl (p : TexParser) :
    Advances p (texParParseFuncTypeDecl p).1 :=
  (advances_texParParseNamedValueType _ p).trans (advances_texParParseValueTypes _ _)

theorem advances_texParTypeIndex {use : TexTypeUse} (h : texParTypeIndex p = .returned (q, use)) :
    Advances p q := by
  rw [texParTypeIndex] at h
  split at h
  · obtain ⟨rfl, -⟩ := Prod.mk.inj (Outcome.returned.inj h)
    exact .refl
  · obtain ⟨result, -, hrest⟩ := Outcome.bind_eq_returned.mp h
    dsimp only at hrest
    split at hrest
    · obtain ⟨rfl, -⟩ := Prod.mk.inj (Outcome.returned.inj hrest)
      exact advances_texParErrorfCurrent _ _ _
    · obtain ⟨rfl, -⟩ := Prod.mk.inj (Outcome.returned.inj hrest)
      exact .refl
  · obtain ⟨rfl, -⟩ := Prod.mk.inj (Outcome.returned.inj h)
    exact .refl

theorem advances_texParParseTypeUse {use : TexTypeUse}
    (h : texParParseTypeUse p = .returned (q, use)) : Advances p q := by
  simp only [texParParseTypeUse] at h
  split at h
  · split at h
    · obtain ⟨⟨r, _⟩, hindex, hrest⟩ := Outcome.bind_eq_returned.mp h
      obtain ⟨rfl, -⟩ := Prod.mk.inj (Outcome.returned.inj hrest)
      have hindexed := (advances_texParParenKindBegin p _).trans (advances_texParTypeIndex hindex)
      exact (hindexed.next.trans (advances_texParParseFuncTypeDecl _)).trans
        (advances_texParParenKindEnd _)
    · cases h
  · obtain ⟨rfl, -⟩ := Prod.mk.inj (Outcome.returned.inj h)
    exact .refl

theorem advances_texParParseFunc {func : TexFunc} (h : texParParseFunc p = .returned (q, func)) :
    Advances p q := by
  simp only [texParParseFunc] at h
  split at h
  · have hbegin := advances_texParParenKindBegin p .func
    split at h
    · obtain ⟨⟨r, use⟩, huse, hrest⟩ := Outcome.bind_eq_returned.mp h
      obtain ⟨rfl, -⟩ := Prod.mk.inj (Outcome.returned.inj hrest)
      exact (((hbegin.trans (advances_texParParseId _)).trans
        (advances_texParParseTypeUse huse)).trans (advances_texParParseNamedValueType _ r)).trans
        (advances_texParParenKindEnd _)
    · obtain ⟨rfl, -⟩ := Prod.mk.inj (Outcome.returned.inj h)
      exact hbegin
  · cases h

theorem advances_texParModuleField {funcs funcs' : List TexFunc}
    (h : texParModuleField p funcs = .returned (q, funcs')) : Advances p q := by
  rw [texParModuleField] at h
  split at h
  · obtain ⟨⟨r, func⟩, hfunc, hrest⟩ := Outcome.bind_eq_returned.mp h
    obtain ⟨rfl, -⟩ := Prod.mk.inj (Outcome.returned.inj hrest)
    exact advances_texParParseFunc hfunc
  · obtain ⟨rfl, -⟩ := Prod.mk.inj (Outcome.returned.inj h)
    exact advances_texParErrorfPeek _ _ _

theorem advances_texParModuleLoop {fuel : ℕ} {funcs funcs' : List TexFunc}
    (h : texParModuleLoop fuel p funcs = .returned (q, funcs')) : Advances p q := by
  induction fuel generalizing p funcs with
  | zero => cases h
  | succ fuel ih =>
    rw [texParModuleLoop] at h
    split at h
    · obtain ⟨⟨r, _⟩, hfield, hrest⟩ := Outcome.bind_eq_returned.mp h
      exact (advances_texParModuleField hfield).trans (ih hrest)
    · obtain ⟨rfl, -⟩ := Prod.mk.inj (Outcome.returned.inj h)
      exact .refl

end Wasim
