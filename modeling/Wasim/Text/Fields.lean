import Wasim.Text.Parser

/-!
# The fields of a module

Which tokens the parser passes depends on their kinds only. The functions here say what it
passes in terms of the list of kinds: `afterFunc` for a function, with the recovery from every
error in it. The loop over the fields of a module stops in front of a token other than an opening
parenthesis, and it passes functions; `onlyFuncs` says that it meets nothing else on its way.

The main result of the module is `texParParseModule_returns_iff`: this is exactly when the
parser returns. In front of another field the loop reports and consumes nothing.
-/

namespace Wasim

/-! ### Passing over forms -/

/-- Behind the parenthesis that closes the form, `depth` forms further out. -/
def closeForm : ℕ → List TexTokenKind → List TexTokenKind
  | _, [] => []
  | depth, .parenOpen :: kinds => closeForm (depth + 1) kinds
  | 0, .parenClose :: kinds => kinds
  | depth + 1, .parenClose :: kinds => closeForm depth kinds
  | depth, _ :: kinds => closeForm depth kinds

/-- Behind a list of value types: whatever stands there, the next closing parenthesis ends it. -/
def afterTypes (kinds : List TexTokenKind) : List TexTokenKind :=
  (kinds.dropWhile (· ≠ .parenClose)).tail

def afterId : List TexTokenKind → List TexTokenKind
  | .identifier :: kinds => kinds
  | kinds => kinds

/-- Behind a clause, from behind its keyword on. A name is followed by one type. -/
def afterClause : ClauseKeyword → List TexTokenKind → List TexTokenKind
  | .result, kinds => afterTypes kinds
  | _, .identifier :: .parenClose :: kinds => kinds
  | _, .identifier :: kinds => closeForm 0 kinds.tail
  | _, kinds => afterTypes kinds

theorem length_closeForm_le (depth : ℕ) (kinds : List TexTokenKind) :
    (closeForm depth kinds).length ≤ kinds.length := by
  fun_induction closeForm depth kinds <;> simp_all <;> omega

theorem length_afterTypes_le (kinds : List TexTokenKind) :
    (afterTypes kinds).length ≤ kinds.length := by
  have hdrop := (List.dropWhile_sublist (l := kinds) (· ≠ .parenClose)).length_le
  rw [afterTypes, List.length_tail]
  omega

theorem length_afterClause_le (keyword : ClauseKeyword) (kinds : List TexTokenKind) :
    (afterClause keyword kinds).length ≤ kinds.length := by
  fun_cases afterClause keyword kinds with
  | case1 kinds => exact length_afterTypes_le kinds
  | case2 _ kinds _ =>
    simp only [List.length_cons]
    omega
  | case3 _ kinds _ _ =>
    have hclose := length_closeForm_le 0 kinds.tail
    simp only [List.length_cons, List.length_tail] at hclose ⊢
    omega
  | case4 => exact length_afterTypes_le kinds

/-- Behind all clauses of a keyword. -/
def afterClauses (keyword : ClauseKeyword) : List TexTokenKind → List TexTokenKind
  | .parenOpen :: kind :: kinds =>
    if kind = keyword.kind then afterClauses keyword (afterClause keyword kinds)
    else .parenOpen :: kind :: kinds
  | kinds => kinds
termination_by kinds => kinds.length
decreasing_by
  have := length_afterClause_le keyword kinds
  simp only [List.length_cons]
  omega

/-- Behind a type use. The token behind the keyword is passed over, whatever it is. -/
def afterTypeUse : List TexTokenKind → List TexTokenKind
  | .parenOpen :: .type :: kinds =>
    closeForm 0 (afterClauses .result (afterClauses .param kinds.tail))
  | kinds => kinds

/-- Behind a function, from behind its keyword on. -/
def afterFunc (kinds : List TexTokenKind) : List TexTokenKind :=
  closeForm 0 (afterClauses .local_ (afterTypeUse (afterId kinds)))

theorem length_afterId_le (kinds : List TexTokenKind) :
    (afterId kinds).length ≤ kinds.length := by
  fun_cases afterId kinds <;> simp

theorem length_afterClauses_le (keyword : ClauseKeyword) (kinds : List TexTokenKind) :
    (afterClauses keyword kinds).length ≤ kinds.length := by
  fun_induction afterClauses keyword kinds with
  | case1 kinds ih =>
    have hclause := length_afterClause_le keyword kinds
    simp only [List.length_cons]
    omega
  | case2 => exact le_rfl
  | case3 => exact le_rfl

theorem length_afterTypeUse_le (kinds : List TexTokenKind) :
    (afterTypeUse kinds).length ≤ kinds.length := by
  fun_cases afterTypeUse kinds with
  | case1 kinds =>
    have hform := length_closeForm_le 0 (afterClauses .result (afterClauses .param kinds.tail))
    have hresult := length_afterClauses_le .result (afterClauses .param kinds.tail)
    have hparam := length_afterClauses_le .param kinds.tail
    simp only [List.length_cons, List.length_tail] at *
    omega
  | case2 => exact le_rfl

theorem length_afterFunc_le (kinds : List TexTokenKind) :
    (afterFunc kinds).length ≤ kinds.length :=
  (length_closeForm_le _ _).trans ((length_afterClauses_le _ _).trans
    ((length_afterTypeUse_le _).trans (length_afterId_le _)))

/-- The loop over the fields of a module meets functions only. -/
def onlyFuncs : List TexTokenKind → Bool
  | .parenOpen :: .func :: kinds => onlyFuncs (afterFunc kinds)
  | .parenOpen :: _ => false
  | _ => true
termination_by kinds => kinds.length
decreasing_by
  have := length_afterFunc_le kinds
  simp only [List.length_cons]
  omega

/-- Every field of the module that the text starts with is a function. -/
def moduleOfFuncs : List TexTokenKind → Bool
  | .parenOpen :: .module :: kinds => onlyFuncs (afterId kinds)
  | _ => true

/-! ### The parser passes over just that -/

/-- The kinds of the tokens from the current one on. -/
def TexParser.kinds (p : TexParser) : List TexTokenKind := p.tokens.map TexToken.kind

@[simp]
theorem kinds_texParNextToken (p : TexParser) : (texParNextToken p).kinds = p.kinds.tail := by
  rw [TexParser.kinds, tokens_texParNextToken, List.map_tail]
  rfl

@[simp]
theorem kinds_texParErrorf (p : TexParser) (token : TexToken) (format : String)
    (args : List TexArg) : (texParErrorf p token format args).kinds = p.kinds := rfl

@[simp]
theorem kinds_texParErrorfCurrent (p : TexParser) (format : String) (args : List TexArg) :
    (texParErrorfCurrent p format args).kinds = p.kinds := rfl

@[simp]
theorem kinds_texParErrorfPeek (p : TexParser) (format : String) (args : List TexArg) :
    (texParErrorfPeek p format args).kinds = p.kinds := rfl

theorem currentToken_kind_eq (p : TexParser) : p.currentToken.kind = p.kinds.headD .eof :=
  currentToken_kind p

theorem peekToken_kind_eq (p : TexParser) : p.peekToken.kind = p.kinds.tail.headD .eof := by
  rw [peekToken_kind, kindOf, List.map_tail]
  rfl

theorem kinds_of_current {p : TexParser} {kind : TexTokenKind} (hkind : kind ≠ .eof)
    (h : p.currentToken.kind = kind) : p.kinds = kind :: p.kinds.tail := by
  subst h
  rw [TexParser.kinds, tokens_cons hkind]
  rfl

theorem kinds_of_eof {p : TexParser} (h : p.currentToken.kind = .eof) : p.kinds = [] := by
  rw [TexParser.kinds, tokens_eq_nil h]
  rfl

theorem current_of_kinds {p : TexParser} {kind : TexTokenKind} {kinds : List TexTokenKind}
    (h : p.kinds = kind :: kinds) : p.currentToken.kind = kind := by
  rw [currentToken_kind_eq, h]
  rfl

theorem current_ne_eof {p : TexParser} {kind : TexTokenKind} {kinds : List TexTokenKind}
    (h : p.kinds = kind :: kinds) : p.currentToken.kind ≠ .eof := by
  intro heof
  rw [kinds_of_eof heof] at h
  cases h

theorem peek_of_kinds {p : TexParser} {kind kind' : TexTokenKind} {kinds : List TexTokenKind}
    (h : p.kinds = kind :: kind' :: kinds) : p.peekToken.kind = kind' := by
  rw [peekToken_kind_eq, h]
  rfl

@[simp]
theorem kinds_texParParseValueType (p : TexParser) :
    (texParParseValueType p).1.kinds = p.kinds.tail := by
  rw [texParParseValueType]
  split <;> simp

/-- Recovery passes to behind the form that it is in. -/
theorem kinds_texParRecover (depth : ℕ) (p : TexParser) :
    (texParRecover depth p).kinds = closeForm depth p.kinds := by
  induction hkinds : p.kinds generalizing p depth with
  | nil =>
    have heof : p.currentToken.kind = .eof := by rw [currentToken_kind_eq, hkinds]; rfl
    rw [texParRecover, if_pos heof, hkinds]
    rfl
  | cons kind kinds ih =>
    have hnext : (texParNextToken p).kinds = kinds := by simp [hkinds]
    rw [texParRecover, if_neg (current_ne_eof hkinds), if_neg (by omega),
      current_of_kinds hkinds]
    dsimp only
    by_cases hopen : kind = .parenOpen
    · subst hopen
      rw [if_pos rfl]
      exact ih (depth + 1) _ hnext
    · rw [if_neg hopen]
      by_cases hclose : kind = .parenClose
      · subst hclose
        rw [if_pos rfl]
        rcases depth with _ | depth
        · -- the form is closed, and the next turn ends the loop
          rw [texParRecover]
          simp [closeForm, hnext]
        · have := ih depth _ hnext
          simpa [closeForm] using this
      · rw [if_neg hclose, ih depth _ hnext, closeForm]
        · exact hopen
        · exact fun _ => hclose
        · exact fun _ _ => hclose

@[simp]
theorem kinds_texParAttemptRecovery (p : TexParser) :
    (texParAttemptRecovery p).kinds = closeForm 0 p.kinds := kinds_texParRecover 0 p

@[simp]
theorem kinds_texParParenKindEnd (p : TexParser) :
    (texParParenKindEnd p).kinds = closeForm 0 p.kinds := by
  rw [texParParenKindEnd, texParExpectCurrent]
  split
  · rename_i hclose
    rw [kinds_of_current (by simp) hclose]
    exact kinds_texParNextToken p
  · exact kinds_texParAttemptRecovery _

@[simp]
theorem kinds_texParParseId (p : TexParser) : (texParParseId p).1.kinds = afterId p.kinds := by
  rw [texParParseId]
  split
  · rename_i hid
    rw [kinds_of_current (by simp) hid]
    exact kinds_texParNextToken p
  · rename_i hid
    rw [afterId]
    intro kinds hkinds
    exact hid (current_of_kinds hkinds)

theorem kinds_texParValueTypesLoop (p : TexParser) :
    (texParValueTypesLoop p).1.kinds = p.kinds.dropWhile (· ≠ .parenClose) := by
  fun_induction texParValueTypesLoop p with
  | case1 p h =>
    rcases h with h | h
    · rw [kinds_of_eof h]
      rfl
    · rw [kinds_of_current (by simp) h]
      simp
  | case2 p h first rest ih =>
    obtain ⟨heof, hclose⟩ := not_or.mp h
    rw [ih, kinds_texParParseValueType, kinds_of_current heof rfl, List.dropWhile_cons]
    simp [hclose]

theorem closeForm_dropWhile (kinds : List TexTokenKind) :
    closeForm 0 (kinds.dropWhile (· ≠ .parenClose)) = afterTypes kinds := by
  rw [afterTypes]
  induction kinds with
  | nil => rfl
  | cons kind kinds ih =>
    rw [List.dropWhile_cons]
    split
    · exact ih
    · rename_i hkind
      have hkind : kind = .parenClose := by simpa using hkind
      subst hkind
      rfl

theorem afterTypes_tail {p : TexParser} (h : p.currentToken.kind ≠ .parenClose) :
    afterTypes p.kinds.tail = afterTypes p.kinds := by
  by_cases heof : p.currentToken.kind = .eof
  · rw [kinds_of_eof heof]
    rfl
  · rw [kinds_of_current heof rfl, afterTypes, afterTypes, List.dropWhile_cons]
    simp [h]

theorem kinds_texParNamedClause {keyword : ClauseKeyword} (h : keyword ≠ .result)
    (p : TexParser) : (texParNamedClause p).1.kinds = afterClause keyword p.kinds := by
  rw [texParNamedClause, texParParseId]
  by_cases hid : p.currentToken.kind = .identifier
  · have hdata := p.current_sound.1 hid
    rw [if_pos hid, kinds_of_current (by simp) hid]
    dsimp only
    split
    · rename_i hclose
      rw [kinds_texParParenKindEnd, kinds_texParParseValueType, kinds_texParNextToken, afterClause]
      · intro kinds hkinds
        exact hclose (current_of_kinds ((kinds_texParNextToken p).trans hkinds))
      · exact h
    · rename_i hclose
      have hkinds := kinds_of_current (by simp) (not_not.mp hclose)
      rw [kinds_texParParenKindEnd, hkinds]
      rw [kinds_texParNextToken] at hkinds
      rw [kinds_texParNextToken, hkinds, afterClause]
      · rfl
      · exact h
  · have hafter : afterClause keyword p.kinds = afterTypes p.kinds := by
      rw [afterClause]
      · exact h
      · intro kinds hkinds
        exact hid (current_of_kinds hkinds)
      · intro kinds hkinds
        exact hid (current_of_kinds hkinds)
    rw [if_neg hid, hafter]
    dsimp only
    split
    · rename_i hclose
      rw [if_pos rfl, kinds_texParParenKindEnd, kinds_texParValueTypesLoop,
        kinds_texParParseValueType, closeForm_dropWhile, afterTypes_tail hclose]
    · rename_i hclose
      rw [kinds_texParParenKindEnd, kinds_of_current (by simp) (not_not.mp hclose)]
      rfl

/-- Where the loops look for a clause. -/
theorem texParGetNextParenKind_eq_iff (p : TexParser) {kind : TexTokenKind}
    (hkind : kind ≠ .invalid ∧ kind ≠ .eof) :
    texParGetNextParenKind p = kind ↔ ∃ kinds, p.kinds = .parenOpen :: kind :: kinds := by
  rw [texParGetNextParenKind]
  constructor
  · intro h
    split at h
    · rename_i hopen
      have hpeek := kinds_of_current (p := texParNextToken p) hkind.2 h
      rw [kinds_texParNextToken] at hpeek
      rw [kinds_of_current (by simp) hopen, hpeek]
      exact ⟨_, rfl⟩
    · exact absurd h.symm hkind.1
  · rintro ⟨kinds, hkinds⟩
    rw [if_pos (current_of_kinds hkinds), peek_of_kinds hkinds]

theorem ClauseKeyword.kind_ne (keyword : ClauseKeyword) :
    keyword.kind ≠ .invalid ∧ keyword.kind ≠ .eof := by
  rcases keyword <;> simp [ClauseKeyword.kind]

theorem texParParenKindBegin_of_kinds {p : TexParser} {kind : TexTokenKind}
    {kinds : List TexTokenKind} (h : p.kinds = .parenOpen :: kind :: kinds) :
    texParParenKindBegin p kind = (texParNextToken (texParNextToken p), true) := by
  rw [texParParenKindBegin, if_pos (current_of_kinds h), if_pos (peek_of_kinds h)]

/-- A list of clauses, when each clause is passed over as `afterClause` says. -/
theorem afterClauses_of_kinds (keyword : ClauseKeyword) {kinds : List TexTokenKind}
    (h : ∀ rest, kinds ≠ .parenOpen :: keyword.kind :: rest) :
    afterClauses keyword kinds = kinds := by
  fun_cases afterClauses keyword kinds with
  | case1 rest => exact absurd rfl (h rest)
  | case2 => rfl
  | case3 => rfl

theorem kinds_texParParseNamedValueType {keyword : ClauseKeyword} (h : keyword ≠ .result)
    (p : TexParser) :
    (texParParseNamedValueType keyword p).1.kinds = afterClauses keyword p.kinds := by
  fun_induction texParParseNamedValueType keyword p with
  | case1 p hnext opened hopened clause rest ih =>
    obtain ⟨kinds, hkinds⟩ := (texParGetNextParenKind_eq_iff p keyword.kind_ne).mp hnext
    rw [ih, kinds_texParNamedClause h, hkinds, afterClauses, if_pos rfl]
    have hbegin := texParParenKindBegin_of_kinds hkinds
    simp only [opened, hbegin, kinds_texParNextToken, hkinds, List.tail_cons]
  | case2 p hnext opened hopened ih =>
    obtain ⟨kinds, hkinds⟩ := (texParGetNextParenKind_eq_iff p keyword.kind_ne).mp hnext
    exact absurd (by simp [opened, texParParenKindBegin_of_kinds hkinds]) hopened
  | case3 p hnext =>
    refine (afterClauses_of_kinds keyword fun rest hkinds => hnext ?_).symm
    exact (texParGetNextParenKind_eq_iff p keyword.kind_ne).mpr ⟨rest, hkinds⟩

theorem kinds_texParParseValueTypes (p : TexParser) :
    (texParParseValueTypes .result p).1.kinds = afterClauses .result p.kinds := by
  fun_induction texParParseValueTypes .result p with
  | case1 p hnext opened hopened clause rest ih =>
    obtain ⟨kinds, hkinds⟩ :=
      (texParGetNextParenKind_eq_iff p (ClauseKeyword.kind_ne .result)).mp hnext
    rw [ih, kinds_texParParenKindEnd, kinds_texParValueTypesLoop, closeForm_dropWhile, hkinds,
      afterClauses, if_pos rfl, afterClause]
    have hbegin := texParParenKindBegin_of_kinds hkinds
    simp only [opened, hbegin, kinds_texParNextToken, hkinds, List.tail_cons]
  | case2 p hnext opened hopened ih =>
    obtain ⟨kinds, hkinds⟩ :=
      (texParGetNextParenKind_eq_iff p (ClauseKeyword.kind_ne .result)).mp hnext
    exact absurd (by simp [opened, texParParenKindBegin_of_kinds hkinds]) hopened
  | case3 p hnext =>
    refine (afterClauses_of_kinds .result fun rest hkinds => hnext ?_).symm
    exact (texParGetNextParenKind_eq_iff p (ClauseKeyword.kind_ne .result)).mpr ⟨rest, hkinds⟩

theorem texParTypeIndex_returned (p : TexParser) :
    ∃ q use, texParTypeIndex p = .returned (q, use) ∧ q.kinds = p.kinds := by
  rw [texParTypeIndex]
  split
  · exact ⟨_, _, rfl, rfl⟩
  · rename_i hkind
    obtain ⟨result, hresult⟩ := texU32FromString_returned (p.current_sound.2 hkind)
    rw [hresult, Outcome.returned_bind]
    dsimp only
    split
    · exact ⟨_, _, rfl, rfl⟩
    · exact ⟨_, _, rfl, rfl⟩
  · exact ⟨_, _, rfl, rfl⟩

theorem texParParseTypeUse_returned (p : TexParser) :
    ∃ q use, texParParseTypeUse p = .returned (q, use) ∧ q.kinds = afterTypeUse p.kinds := by
  have htype : TexTokenKind.type ≠ .invalid ∧ TexTokenKind.type ≠ .eof := by simp
  have hiff := texParGetNextParenKind_eq_iff p htype
  rw [texParParseTypeUse]
  split
  · rename_i hnext
    obtain ⟨kinds, hkinds⟩ := hiff.mp hnext
    obtain ⟨q, use, hindex, hq⟩ := texParTypeIndex_returned (texParNextToken (texParNextToken p))
    rw [texParParenKindBegin_of_kinds hkinds]
    simp only [if_true, hindex, Outcome.returned_bind]
    refine ⟨_, _, rfl, ?_⟩
    rw [kinds_texParParenKindEnd, texParParseFuncTypeDecl, kinds_texParParseValueTypes,
      kinds_texParParseNamedValueType (by simp), kinds_texParNextToken, hq, kinds_texParNextToken,
      kinds_texParNextToken, hkinds]
    rfl
  · rename_i hnext
    refine ⟨p, _, rfl, ?_⟩
    rw [afterTypeUse]
    exact fun kinds hkinds => hnext (hiff.mpr ⟨kinds, hkinds⟩)

/-- A function is parsed, whatever follows its keyword. -/
theorem texParParseFunc_returned {p : TexParser} {kinds : List TexTokenKind}
    (h : p.kinds = .parenOpen :: .func :: kinds) :
    ∃ q func, texParParseFunc p = .returned (q, func) ∧ q.kinds = afterFunc kinds := by
  rw [texParParseFunc, if_pos ⟨current_of_kinds h, peek_of_kinds h⟩,
    texParParenKindBegin_of_kinds h]
  simp only [if_true]
  obtain ⟨q, use, huse, hq⟩ :=
    texParParseTypeUse_returned (texParParseId (texParNextToken (texParNextToken p))).1
  simp only [huse, Outcome.returned_bind]
  refine ⟨_, _, rfl, ?_⟩
  rw [kinds_texParParenKindEnd, kinds_texParParseNamedValueType (by simp), hq,
    kinds_texParParseId, kinds_texParNextToken, kinds_texParNextToken, h]
  rfl

/-! ### When the parser returns -/

theorem texParModuleLoop_returned (p : TexParser) (funcs : List TexFunc)
    (h : onlyFuncs p.kinds) :
    ∃ fuel result, texParModuleLoop fuel p funcs = .returned result := by
  induction hkinds : p.kinds using onlyFuncs.induct generalizing p funcs with
  | case1 kinds ih =>
    rw [hkinds, onlyFuncs] at h
    obtain ⟨q, func, hfunc, hq⟩ := texParParseFunc_returned hkinds
    obtain ⟨fuel, result, hresult⟩ := ih q (funcs ++ [func]) (by rw [hq]; exact h) hq
    refine ⟨fuel + 1, result, ?_⟩
    rw [texParModuleLoop, if_pos (current_of_kinds hkinds), texParModuleField,
      if_pos (peek_of_kinds hkinds), hfunc]
    exact hresult
  | case2 rest hrest =>
    rw [hkinds, onlyFuncs] at h
    · cases h
    · exact hrest
  | case3 kinds hfunc hopen =>
    refine ⟨1, (p, funcs), ?_⟩
    rw [texParModuleLoop, if_neg]
    intro hcurrent
    exact hopen _ (hkinds.symm.trans (kinds_of_current (by simp) hcurrent))

/-- A field that is not a function is met again on every turn. -/
theorem onlyFuncs_of_texParModuleLoop {fuel : ℕ} {p : TexParser} {funcs : List TexFunc}
    (h : texParModuleLoop fuel p funcs ≠ .outOfFuel) : onlyFuncs p.kinds := by
  induction fuel generalizing p funcs with
  | zero => exact absurd rfl h
  | succ fuel ih =>
    rw [texParModuleLoop] at h
    split at h
    · rename_i hopen
      have hkinds := kinds_of_current (by simp) hopen
      rw [texParModuleField] at h
      split at h
      · rename_i hfunc
        have hpeek := kinds_of_current (p := texParNextToken p) (by simp) hfunc
        rw [kinds_texParNextToken] at hpeek
        rw [hpeek] at hkinds
        obtain ⟨q, func, hparse, hq⟩ := texParParseFunc_returned hkinds
        rw [hparse] at h
        rw [hkinds, onlyFuncs, ← hq]
        exact ih h
      · -- the state of the next turn differs in its errors only
        rw [Outcome.returned_bind] at h
        have hrest := ih h
        rwa [kinds_texParErrorfPeek] at hrest
    · rename_i hopen
      rw [onlyFuncs.eq_3]
      · intro kinds hkinds
        exact hopen (current_of_kinds hkinds)
      · intro kinds hkinds
        exact hopen (current_of_kinds hkinds)

theorem texParParenKindBegin_eq_true_iff (p : TexParser) {kind : TexTokenKind}
    (hkind : kind ≠ .eof) :
    (texParParenKindBegin p kind).2 = true ↔ ∃ kinds, p.kinds = .parenOpen :: kind :: kinds := by
  rw [texParParenKindBegin]
  constructor
  · intro h
    split at h
    · rename_i hopen
      split at h
      · rename_i hpeek
        have htail := kinds_of_current (p := texParNextToken p) hkind hpeek
        rw [kinds_texParNextToken] at htail
        rw [kinds_of_current (by simp) hopen, htail]
        exact ⟨_, rfl⟩
      · cases h
    · cases h
  · rintro ⟨kinds, hkinds⟩
    rw [if_pos (current_of_kinds hkinds), if_pos (peek_of_kinds hkinds)]

/-- The parser returns exactly when the module it finds has functions only. -/
theorem texParParseModule_returned_iff (p : TexParser) :
    (∃ result, Outcome.Returns (fun fuel => texParParseModule fuel p) result) ↔
      moduleOfFuncs p.kinds := by
  by_cases hmodule : ∃ kinds, p.kinds = .parenOpen :: .module :: kinds
  · obtain ⟨kinds, hkinds⟩ := hmodule
    have hbegin := texParParenKindBegin_of_kinds hkinds
    have hfields : (texParParseId (texParNextToken (texParNextToken p))).1.kinds =
        afterId kinds := by simp [hkinds]
    rw [hkinds, moduleOfFuncs, ← hfields]
    simp only [Outcome.Returns, texParParseModule, hbegin, if_true]
    constructor
    · rintro ⟨result, fuel, hresult⟩
      obtain ⟨loop, hloop, -⟩ := Outcome.bind_eq_returned.mp hresult
      exact onlyFuncs_of_texParModuleLoop (by rw [hloop]; simp)
    · intro h
      obtain ⟨fuel, result, hloop⟩ := texParModuleLoop_returned _ [] h
      exact ⟨_, fuel, by rw [hloop]; rfl⟩
  · have hbegin : (texParParenKindBegin p .module).2 = false := by
      rw [← Bool.not_eq_true, texParParenKindBegin_eq_true_iff p (by simp)]
      exact hmodule
    have hresult : texParParseModule 0 p = .returned ((texParParenKindBegin p .module).1,
        { range := { start := p.currentToken.position } }) := by
      simp [texParParseModule, hbegin]
    refine iff_of_true ⟨_, 0, hresult⟩ ?_
    rw [moduleOfFuncs]
    exact fun kinds hkinds => hmodule ⟨kinds, hkinds⟩

/-- Each turn that a loop of the parser takes at this state leaves fewer tokens. -/
structure TexParser.LoopsConsume (p : TexParser) : Prop where
  recovery : p.currentToken.kind ≠ .eof → (texParNextToken p).tokens.length < p.tokens.length
  valueTypes : p.currentToken.kind ≠ .eof → p.currentToken.kind ≠ .parenClose →
    (texParParseValueType p).1.tokens.length < p.tokens.length
  namedClauses : ∀ keyword : ClauseKeyword, texParGetNextParenKind p = keyword.kind →
    (texParNamedClause (texParParenKindBegin p keyword.kind).1).1.tokens.length < p.tokens.length
  clauses : ∀ keyword : ClauseKeyword, texParGetNextParenKind p = keyword.kind →
    (texParParenKindEnd
        (texParValueTypesLoop (texParParenKindBegin p keyword.kind).1).1).tokens.length <
      p.tokens.length
  fields : p.currentToken.kind = .parenOpen → ∀ funcs, ∃ q funcs',
    texParModuleField p funcs = .returned (q, funcs') ∧ q.tokens.length < p.tokens.length

theorem length_kinds (p : TexParser) : p.kinds.length = p.tokens.length := List.length_map _

theorem loopsConsume_iff (p : TexParser) :
    p.LoopsConsume ↔ (p.currentToken.kind = .parenOpen → p.peekToken.kind = .func) := by
  constructor
  · intro h hopen
    by_contra hpeek
    obtain ⟨q, funcs', hfield, hlt⟩ := h.fields hopen []
    rw [texParModuleField, if_neg hpeek] at hfield
    obtain ⟨rfl, -⟩ := Prod.mk.inj (Outcome.returned.inj hfield)
    exact lt_irrefl _ hlt
  · intro h
    refine ⟨length_texParNextToken_lt, fun heof _ => ?_, fun keyword hnext => ?_,
      fun keyword hnext => ?_, fun hopen funcs => ?_⟩
    · rw [← length_kinds, kinds_texParParseValueType, ← kinds_texParNextToken, length_kinds]
      exact length_texParNextToken_lt heof
    · obtain ⟨hbegin, hlt⟩ := texParParenKindBegin_clause hnext
      rw [hbegin]
      exact (texParNamedClause_length_le _).trans_lt hlt
    · obtain ⟨hbegin, hlt⟩ := texParParenKindBegin_clause hnext
      rw [hbegin]
      exact (texParParenKindEnd_length_le _).trans_lt
        ((texParValueTypesLoop_length_le _).trans_lt hlt)
    · have hfunc := kinds_of_current (p := texParNextToken p) (by simp) (h hopen)
      have hkinds := kinds_of_current (by simp) hopen
      rw [kinds_texParNextToken] at hfunc
      rw [hfunc] at hkinds
      obtain ⟨q, func, hparse, hq⟩ := texParParseFunc_returned hkinds
      refine ⟨q, funcs ++ [func], ?_, ?_⟩
      · rw [texParModuleField, if_pos (h hopen), hparse]
        rfl
      · have hle := length_afterFunc_le p.kinds.tail.tail
        have hlength := congrArg List.length hkinds
        rw [← length_kinds, ← length_kinds, hq]
        simp only [List.length_cons] at hlength
        omega

theorem tokens_texParOfText (input : List UInt8) (file : String) :
    (texParOfText input file).tokens = texTokens input file :=
  tokens_texParInit _ _

theorem kinds_texParOfText (input : List UInt8) (file : String) :
    (texParOfText input file).kinds = (texTokens input file).map TexToken.kind := by
  rw [TexParser.kinds, tokens_texParOfText]

/-- On every text the parser returns exactly when every field of the module is a function, and
each of its loops consumes a token on every turn, save the one over the fields in front of
another field. -/
theorem texParParseModule_returns_iff (input : List UInt8) (file : String) (p : TexParser) :
    ((∃ result, Outcome.Returns (fun fuel => texParParseModule fuel (texParOfText input file))
        result) ↔ moduleOfFuncs ((texTokens input file).map TexToken.kind)) ∧
      (p.LoopsConsume ↔ (p.currentToken.kind = .parenOpen → p.peekToken.kind = .func)) := by
  refine ⟨?_, loopsConsume_iff p⟩
  rw [← kinds_texParOfText]
  exact texParParseModule_returned_iff _

/-- A module with a memory is never parsed to its end. -/
theorem texParParseModule_not_returns_memory :
    ¬∃ result, Outcome.Returns
      (fun fuel => texParParseModule fuel (texParOfText (ascii "(module (memory 1))") "test.wat"))
      result := by
  rw [texParParseModule_returned_iff, kinds_texParOfText]
  decide +kernel

end Wasim
