import Wasim.Text.Rendering
import Wasim.Text.Reports
import Wasim.Text.TypeDecls

/-!
# Modules and their texts

The abstract syntax of the modules that the parser supports, as the text format has it: a type
use is a type clause and, behind it, the parameters and results. A module is written as a list of
lexemes, and these are rendered with blanks and comments between them (`Renders`). Parsing such a
text gives back the module without an error exactly when no function has parameters or results
and the text has no replacement character in it (`parsesTo_iff`): `tex_par_parse_func` looks for
them inside the type clause.
-/

namespace Wasim

open TexGrammar (IsValueType)

variable {p q : TexParser} {tokens rest : List TexToken}

/-! ### The syntax -/

inductive WatValueType where
  | i32
  | i64
  | f32
  | f64
  deriving DecidableEq, Repr

structure WatId where
  data : List UInt8
  isWord : IsWord .identifier data

/-- The index of a type: an integer that fits into 32 bits, or an identifier. -/
inductive WatIndex where
  | number (data : List UInt8) (isWord : IsWord .integerUnsigned data)
      (fits : literalValue data < 2 ^ 32)
  | name (id : WatId)

/-- A clause of parameters or locals. -/
inductive WatClause where
  | types (valueTypes : List WatValueType)
  | named (id : WatId) (type : WatValueType)

/-- `(type x)`, and behind it the parameters and the results. -/
structure WatTypeUse where
  index : WatIndex
  params : List WatClause
  results : List (List WatValueType)

structure WatFunc where
  id : Option WatId
  use : Option WatTypeUse
  locals : List WatClause

structure WatModule where
  id : Option WatId
  funcs : List WatFunc

/-! ### The lexemes -/

namespace Lexeme

def opening : Lexeme := ⟨.parenOpen, _, .parenOpen⟩

def closing : Lexeme := ⟨.parenClose, _, .parenClose⟩

/-- The keyword with an index in the table. -/
def keyword (index : ℕ) (name : String) (h : texTokPerfectHashKey[index]? = some name) : Lexeme :=
  ⟨.keyword index, ascii name, .word (.keyword h)⟩

end Lexeme

def WatValueType.lexeme : WatValueType → Lexeme
  | .i32 => .keyword 0 "i32" (by decide)
  | .i64 => .keyword 1 "i64" (by decide)
  | .f32 => .keyword 2 "f32" (by decide)
  | .f64 => .keyword 3 "f64" (by decide)

def ClauseKeyword.lexeme : ClauseKeyword → Lexeme
  | .param => .keyword 182 "param" (by decide)
  | .result => .keyword 183 "result" (by decide)
  | .local_ => .keyword 184 "local" (by decide)

def WatId.lexeme (id : WatId) : Lexeme := ⟨.identifier, id.data, .word id.isWord⟩

def WatIndex.lexeme : WatIndex → Lexeme
  | .number data isWord _ => ⟨.integerUnsigned, data, .word isWord⟩
  | .name id => id.lexeme

/-- An identifier that may be left out. -/
def idLexemes (id : Option WatId) : List Lexeme := id.toList.map WatId.lexeme

def typesLexemes (keyword : ClauseKeyword) (types : List WatValueType) : List Lexeme :=
  .opening :: keyword.lexeme :: (types.map WatValueType.lexeme ++ [.closing])

def WatClause.lexemes (keyword : ClauseKeyword) : WatClause → List Lexeme
  | .types valueTypes => typesLexemes keyword valueTypes
  | .named id type => [.opening, keyword.lexeme, id.lexeme, type.lexeme, .closing]

/-- The parameters and results behind a type clause. -/
def WatTypeUse.siblings (use : WatTypeUse) : List Lexeme :=
  use.params.flatMap (WatClause.lexemes .param) ++ use.results.flatMap (typesLexemes .result)

def WatTypeUse.lexemes (use : WatTypeUse) : List Lexeme :=
  .opening :: .keyword 179 "type" (by decide) :: use.index.lexeme :: .closing :: use.siblings

def useLexemes : Option WatTypeUse → List Lexeme
  | none => []
  | some use => use.lexemes

def WatFunc.lexemes (f : WatFunc) : List Lexeme :=
  .opening :: .keyword 180 "func" (by decide) :: (idLexemes f.id ++ (useLexemes f.use ++
    (f.locals.flatMap (WatClause.lexemes .local_) ++ [.closing])))

def WatModule.lexemes (m : WatModule) : List Lexeme :=
  .opening :: .keyword 193 "module" (by decide) :: (idLexemes m.id ++
    (m.funcs.flatMap WatFunc.lexemes ++ [.closing]))

/-! ### The syntax tree of a module, without its places in the text -/

def WatValueType.valueType : WatValueType → ValueType
  | .i32 => .i32
  | .i64 => .i64
  | .f32 => .f32
  | .f64 => .f64

def idData : Option WatId → List UInt8
  | none => []
  | some id => id.data

def WatClause.entries : WatClause → List TexNamedValueType
  | .types valueTypes => valueTypes.map fun type => ⟨[], type.valueType⟩
  | .named id type => [⟨id.data, type.valueType⟩]

def WatIndex.node : WatIndex → TexTypeUse
  | .number data _ _ => { index := UInt32.ofNat (literalValue data) }
  | .name id => { id := id.data }

def WatTypeUse.node (use : WatTypeUse) : TexTypeUse :=
  { use.index.node with
    inlinedType :=
      { params := use.params.flatMap WatClause.entries
        results := use.results.flatten.map WatValueType.valueType } }

def useNode : Option WatTypeUse → TexTypeUse
  | none => {}
  | some use => use.node

def WatFunc.node (f : WatFunc) : TexFunc :=
  { id := idData f.id, use := useNode f.use, locals := f.locals.flatMap WatClause.entries }

def WatModule.node (m : WatModule) : TexModule :=
  { id := idData m.id, funcs := m.funcs.map WatFunc.node }

def TexFunc.bare (f : TexFunc) : TexFunc := { f with range := {} }

def TexModule.bare (m : TexModule) : TexModule :=
  { m with range := {}, funcs := m.funcs.map TexFunc.bare }

/-- The text is parsed without an error of the parser or the tokenizer, to the syntax tree of
the module. -/
def ParsesTo (text : List UInt8) (file : String) (m : WatModule) : Prop :=
  ∃ q node, Outcome.Returns (fun fuel => texParParseModule fuel (texParOfText text file))
      (q, node) ∧ q.errors = [] ∧ q.tokenizer.errors = [] ∧ node.bare = m.node

/-- No parameters and results stand behind the type clause. -/
def WatTypeUse.Alone (use : WatTypeUse) : Prop := use.params = [] ∧ use.results = []

def WatFunc.Alone (f : WatFunc) : Prop := ∀ use ∈ f.use, use.Alone

/-! ### Tokens that spell lexemes -/

def Spells (tokens : List TexToken) (ls : List Lexeme) : Prop :=
  tokens.map (fun token => (token.kind, token.data)) = ls.map fun l => (l.kind, l.data)

theorem Spells.eq_nil (h : Spells tokens []) : tokens = [] := List.map_eq_nil_iff.mp h

theorem Spells.exists_cons {l : Lexeme} {ls : List Lexeme} (h : Spells tokens (l :: ls)) :
    ∃ token tokens', tokens = token :: tokens' ∧ token.kind = l.kind ∧ token.data = l.data ∧
      Spells tokens' ls := by
  obtain ⟨token, tokens', rfl, hfirst, hrest⟩ := List.map_eq_cons_iff.mp h
  obtain ⟨hkind, hdata⟩ := Prod.mk.inj hfirst
  exact ⟨token, tokens', rfl, hkind, hdata, hrest⟩

theorem Spells.exists_append {ls ls' : List Lexeme} (h : Spells tokens (ls ++ ls')) :
    ∃ tokens₁ tokens₂, tokens = tokens₁ ++ tokens₂ ∧ Spells tokens₁ ls ∧ Spells tokens₂ ls' := by
  rw [Spells, List.map_append] at h
  exact List.map_eq_append_iff.mp h

theorem spells_singleton {l : Lexeme} (h : Spells tokens [l]) :
    ∃ token, tokens = [token] ∧ token.kind = l.kind ∧ token.data = l.data := by
  obtain ⟨token, tokens', rfl, hkind, hdata, hrest⟩ := h.exists_cons
  exact ⟨token, by rw [hrest.eq_nil], hkind, hdata⟩

theorem WatValueType.isValueType (type : WatValueType) : IsValueType type.lexeme.kind := by
  cases type
  · exact Or.inl rfl
  · exact Or.inr (Or.inl rfl)
  · exact Or.inr (Or.inr (Or.inl rfl))
  · exact Or.inr (Or.inr (Or.inr rfl))

theorem WatValueType.valueTypeOf_kind (type : WatValueType) :
    valueTypeOf type.lexeme.kind = type.valueType := by
  cases type <;> rfl

theorem ClauseKeyword.lexeme_kind (keyword : ClauseKeyword) :
    keyword.lexeme.kind = keyword.kind := by
  cases keyword <;> rfl

theorem Spells.valueTypes {types : List WatValueType}
    (h : Spells tokens (types.map WatValueType.lexeme)) :
    (∀ token ∈ tokens, IsValueType token.kind) ∧
      tokens.map (fun token => (⟨[], valueTypeOf token.kind⟩ : TexNamedValueType)) =
        types.map fun type => ⟨[], type.valueType⟩ := by
  induction types generalizing tokens with
  | nil =>
    rw [h.eq_nil]
    exact ⟨by simp, rfl⟩
  | cons type types ih =>
    obtain ⟨token, tokens', rfl, hkind, -, hrest⟩ := h.exists_cons
    obtain ⟨hall, hmap⟩ := ih hrest
    refine ⟨List.forall_mem_cons.mpr ⟨hkind ▸ type.isValueType, hall⟩, ?_⟩
    rw [List.map_cons, List.map_cons, hmap, hkind, type.valueTypeOf_kind]

theorem Spells.texClause_types {keyword : ClauseKeyword} {types : List WatValueType}
    (h : Spells tokens (typesLexemes keyword types)) :
    TexClause keyword tokens (types.map fun type => ⟨[], type.valueType⟩) := by
  obtain ⟨opening, _, rfl, hopening, -, h⟩ := h.exists_cons
  obtain ⟨word, _, rfl, hword, -, h⟩ := h.exists_cons
  obtain ⟨typeTokens, _, rfl, htypes, h⟩ := h.exists_append
  obtain ⟨closing, rfl, hclosing, -⟩ := spells_singleton h
  obtain ⟨hall, hmap⟩ := htypes.valueTypes
  rw [← hmap]
  exact .types hopening (hword.trans keyword.lexeme_kind) hall hclosing

theorem Spells.texClause {keyword : ClauseKeyword} {clause : WatClause}
    (hkeyword : keyword ≠ .result) (h : Spells tokens (clause.lexemes keyword)) :
    TexClause keyword tokens clause.entries := by
  cases clause with
  | types valueTypes => exact h.texClause_types
  | named id type =>
    obtain ⟨opening, _, rfl, hopening, -, h⟩ := h.exists_cons
    obtain ⟨word, _, rfl, hword, -, h⟩ := h.exists_cons
    obtain ⟨name, _, rfl, hname, hdata, h⟩ := h.exists_cons
    obtain ⟨typeToken, _, rfl, htype, -, h⟩ := h.exists_cons
    obtain ⟨closing, rfl, hclosing, -⟩ := spells_singleton h
    have hentry : (⟨name.data, valueTypeOf typeToken.kind⟩ : TexNamedValueType) =
        ⟨id.data, type.valueType⟩ := by
      rw [hdata, htype, type.valueTypeOf_kind]
      rfl
    rw [WatClause.entries, ← hentry]
    exact .named hkeyword hopening (hword.trans keyword.lexeme_kind) hname
      (htype ▸ type.isValueType) hclosing

/-- The tokens of clauses. By induction on the clauses. -/
theorem Spells.texClauses {keyword : ClauseKeyword} {clauses : List WatClause}
    (hkeyword : keyword ≠ .result)
    (h : Spells tokens (clauses.flatMap (WatClause.lexemes keyword))) :
    TexClauses keyword tokens (clauses.flatMap WatClause.entries) := by
  induction clauses generalizing tokens with
  | nil =>
    rw [h.eq_nil]
    exact .nil
  | cons clause clauses ih =>
    obtain ⟨tokens₁, tokens₂, rfl, hclause, hclauses⟩ := h.exists_append
    exact .cons (hclause.texClause hkeyword) (ih hclauses)

/-! ### What stands in front -/

/-- The keyword of the form that the tokens start with. -/
def nextParenKind (tokens : List TexToken) : TexTokenKind :=
  if kindOf tokens = .parenOpen then kindOf tokens.tail else .invalid

theorem texParGetNextParenKind_eq (p : TexParser) :
    texParGetNextParenKind p = nextParenKind p.tokens := by
  rw [texParGetNextParenKind, currentToken_kind, peekToken_kind, nextParenKind]

theorem nextParenKind_closing {closing : TexToken} (h : closing.kind = .parenClose) :
    nextParenKind (closing :: rest) = .invalid := by
  rw [nextParenKind, if_neg]
  rw [kindOf, List.map_cons, List.headD_cons, h]
  simp

theorem nextParenKind_form {opening word : TexToken} (h : opening.kind = .parenOpen) :
    nextParenKind (opening :: word :: rest) = word.kind := by
  rw [nextParenKind, if_pos]
  · rfl
  · exact h

theorem noClause_of_nextParenKind {keyword : ClauseKeyword}
    (h : nextParenKind tokens ≠ keyword.kind) : NoClause keyword tokens := by
  rintro opening word rest rfl hopening hword
  exact h ((nextParenKind_form hopening).trans hword)

/-- Locals and the end of a function do not start with a type clause. -/
theorem Spells.nextParenKind_locals {locals : List WatClause} (rest : List TexToken)
    (h : Spells tokens (locals.flatMap (WatClause.lexemes .local_) ++ [.closing])) :
    nextParenKind (tokens ++ rest) ≠ .type ∧ kindOf (tokens ++ rest) ≠ .identifier := by
  rcases locals with _ | ⟨clause, clauses⟩
  · obtain ⟨closing, rfl, hclosing, -⟩ := spells_singleton h
    rw [List.singleton_append, nextParenKind_closing hclosing, kindOf, List.map_cons,
      List.headD_cons, hclosing]
    exact ⟨by simp, by simp [Lexeme.closing]⟩
  · obtain ⟨opening, word, body, rfl, hopening, hword⟩ : ∃ opening word body,
        tokens = opening :: word :: body ∧ opening.kind = .parenOpen ∧ word.kind = .local_ := by
      rcases clause with valueTypes | ⟨id, type⟩
      all_goals
        obtain ⟨opening, _, rfl, hopening, -, h⟩ := h.exists_cons
        obtain ⟨word, body, rfl, hword, -, h⟩ := h.exists_cons
        exact ⟨opening, word, body, rfl, hopening, hword⟩
    rw [List.cons_append, List.cons_append, nextParenKind_form hopening, hword, kindOf,
      List.map_cons, List.headD_cons, hopening]
    exact ⟨by simp, by simp⟩

/-- The first of the parameters and results. -/
theorem Spells.nextParenKind_siblings {use : WatTypeUse} (rest : List TexToken)
    (h : Spells tokens use.siblings) :
    (use.Alone ∧ tokens = []) ∨ (¬use.Alone ∧ kindOf (tokens ++ rest) = .parenOpen ∧
      nextParenKind (tokens ++ rest) ≠ .local_) := by
  have hform : ∀ {keyword : ClauseKeyword} {ls : List Lexeme}, keyword ≠ .local_ →
      Spells tokens (.opening :: keyword.lexeme :: ls) →
      kindOf (tokens ++ rest) = .parenOpen ∧ nextParenKind (tokens ++ rest) ≠ .local_ := by
    intro keyword ls hkeyword hls
    obtain ⟨opening, _, rfl, hopening, -, hls⟩ := hls.exists_cons
    obtain ⟨word, body, rfl, hword, -, -⟩ := hls.exists_cons
    refine ⟨hopening, ?_⟩
    rw [List.cons_append, List.cons_append, nextParenKind_form hopening, hword]
    cases keyword
    · simp [ClauseKeyword.lexeme, Lexeme.keyword]
    · simp [ClauseKeyword.lexeme, Lexeme.keyword]
    · exact absurd rfl hkeyword
  obtain ⟨index, params, results⟩ := use
  rcases params with _ | ⟨clause, clauses⟩
  · rcases results with _ | ⟨types, results⟩
    · exact Or.inl ⟨⟨rfl, rfl⟩, h.eq_nil⟩
    · exact Or.inr ⟨by simp [WatTypeUse.Alone], @hform .result _ (by simp) h⟩
  · refine Or.inr ⟨by simp [WatTypeUse.Alone], ?_⟩
    rcases clause with valueTypes | ⟨id, type⟩
    · exact @hform .param _ (by simp) h
    · exact @hform .param _ (by simp) h

/-! ### The parser on these tokens -/

theorem texParParseId_spells {id : Option WatId} (hid : Spells tokens (idLexemes id))
    (hrest : kindOf rest ≠ .identifier) (h : p.tokens = tokens ++ rest) :
    Passes p (texParParseId p).1 rest ∧ (texParParseId p).2 = idData id := by
  rcases id with _ | id
  · rw [hid.eq_nil, List.nil_append] at h
    rw [texParParseId, if_neg (by rwa [currentToken_kind, h])]
    exact ⟨⟨h, rfl⟩, rfl⟩
  · obtain ⟨token, rfl, hkind, hdata⟩ := spells_singleton hid
    have hcurrent := (currentToken_of_tokens h).2 _ _ rfl
    have hkind : token.kind = .identifier := hkind
    rw [texParParseId, hcurrent, if_pos hkind, hdata]
    exact ⟨passes_next h, rfl⟩

theorem texParTypeIndex_spells {index : WatIndex} {token : TexToken}
    (hkind : token.kind = index.lexeme.kind) (hdata : token.data = index.lexeme.data)
    (h : p.tokens = token :: rest) : texParTypeIndex p = .returned (p, index.node) := by
  have hcurrent := (currentToken_of_tokens h).2 _ _ rfl
  have hsound := p.current_sound.2
  rw [hcurrent] at hsound
  cases index with
  | number data isWord fits =>
    have hsmall := (texU32FromString_eq (hsound hkind)).1 (by rwa [hdata])
    rw [texParTypeIndex, hcurrent, hkind]
    simp only [WatIndex.lexeme]
    rw [hsmall, hdata]
    rfl
  | name id =>
    rw [texParTypeIndex, hcurrent, hkind]
    simp only [WatIndex.lexeme, WatId.lexeme]
    rw [hdata]
    rfl

/-- Right behind the index the type clause is closed, so that it has no parameters and
results. -/
theorem texParParseFuncTypeDecl_closing {closing : TexToken} (hclosing : closing.kind = .parenClose)
    (h : p.tokens = closing :: rest) : texParParseFuncTypeDecl p = (p, {}) := by
  have hnone : ∀ keyword : ClauseKeyword, texParGetNextParenKind p ≠ keyword.kind := by
    intro keyword
    rw [texParGetNextParenKind_eq, h, nextParenKind_closing hclosing]
    exact keyword.kind_ne.1.symm
  have hparams : texParParseNamedValueType .param p = (p, []) := by
    rw [texParParseNamedValueType, if_neg (hnone .param)]
  have hresults : texParParseValueTypes .result p = (p, []) := by
    rw [texParParseValueTypes, if_neg (hnone .result)]
  simp only [texParParseFuncTypeDecl, hparams, hresults]

/-- The type clause of a function, and what stands behind it. -/
def clauseNode : Option WatTypeUse → TexTypeUse
  | none => {}
  | some use => use.index.node

def siblings : Option WatTypeUse → List Lexeme
  | none => []
  | some use => use.siblings

/-- The parser passes over the type clause, and stops in front of the parameters and results. -/
theorem texParParseTypeUse_spells {use : Option WatTypeUse}
    (huse : Spells tokens (useLexemes use)) (hrest : nextParenKind rest ≠ .type)
    (h : p.tokens = tokens ++ rest) :
    ∃ q tokens', texParParseTypeUse p = .returned (q, clauseNode use) ∧
      Spells tokens' (siblings use) ∧ Passes p q (tokens' ++ rest) := by
  rcases use with _ | use
  · rw [huse.eq_nil, List.nil_append] at h
    rw [texParParseTypeUse, if_neg (by rwa [texParGetNextParenKind_eq, h])]
    exact ⟨p, [], rfl, rfl, h, rfl⟩
  · obtain ⟨opening, _, rfl, hopening, -, huse⟩ := huse.exists_cons
    obtain ⟨word, _, rfl, hword, -, huse⟩ := huse.exists_cons
    obtain ⟨index, _, rfl, hindex, hdata, huse⟩ := huse.exists_cons
    obtain ⟨closing, tokens', rfl, hclosing, -, huse⟩ := huse.exists_cons
    have hnext : texParGetNextParenKind p = .type := by
      rw [texParGetNextParenKind_eq, h, List.cons_append, List.cons_append,
        nextParenKind_form hopening]
      exact hword
    have hkinds : p.kinds = .parenOpen :: .type ::
        (index :: closing :: (tokens' ++ rest)).map TexToken.kind := by
      rw [TexParser.kinds, h, List.cons_append, List.cons_append, List.map_cons, List.map_cons,
        hopening, hword]
      rfl
    have hopened := passes_next (passes_next h).1
    have hclosed := passes_next hopened.1
    have hend := passes_texParParenKindEnd hclosing hclosed.1
    rw [texParParseTypeUse, if_pos hnext]
    simp only [texParParenKindBegin_of_kinds hkinds, if_true,
      texParTypeIndex_spells hindex hdata hopened.1, Outcome.returned_bind,
      texParParseFuncTypeDecl_closing hclosing hclosed.1, Outcome.pure_eq]
    refine ⟨_, tokens', ?_, huse, hend⟩
    obtain ⟨index, params, results⟩ := use
    cases index <;> rfl

theorem WatFunc.clauseNode_eq {f : WatFunc} (h : f.Alone) : clauseNode f.use = useNode f.use := by
  rcases huse : f.use with _ | ⟨index, params, results⟩
  · rfl
  · obtain ⟨rfl, rfl⟩ := h _ huse
    cases index <;> rfl

theorem errors_texParParenKindEnd (h : p.currentToken.kind ≠ .parenClose) :
    (texParParenKindEnd p).errors ≠ [] := by
  rw [texParParenKindEnd, texParExpectCurrent, if_neg h]
  exact TexGrammar.errors_ne_nil (advances_texParRecover 0 _)

theorem Spells.siblings_cases {f : WatFunc} (rest : List TexToken)
    (h : Spells tokens (siblings f.use)) :
    (f.Alone ∧ tokens = []) ∨ (¬f.Alone ∧ kindOf (tokens ++ rest) = .parenOpen ∧
      nextParenKind (tokens ++ rest) ≠ .local_) := by
  rcases huse : f.use with _ | use
  · rw [huse] at h
    exact Or.inl ⟨by simp [WatFunc.Alone, huse], h.eq_nil⟩
  · rw [huse] at h
    have halone : f.Alone ↔ use.Alone := by simp [WatFunc.Alone, huse]
    rw [halone]
    exact h.nextParenKind_siblings rest

/-- Behind the identifier of a function there is no second one. -/
theorem Spells.kindOf_use {use : Option WatTypeUse} (huse : Spells tokens (useLexemes use))
    (hrest : kindOf rest ≠ .identifier) : kindOf (tokens ++ rest) ≠ .identifier := by
  rcases use with _ | use
  · rwa [huse.eq_nil]
  · obtain ⟨opening, _, rfl, hopening, -, -⟩ := huse.exists_cons
    rw [List.cons_append, kindOf, List.map_cons, List.headD_cons, hopening]
    simp [Lexeme.opening]

/-- A function is passed over and gives its node, unless there is something behind its type
clause: then the end of the function is missed. -/
theorem texParParseFunc_spells {f : WatFunc} (hf : Spells tokens f.lexemes)
    (h : p.tokens = tokens ++ rest) :
    ∃ q node, texParParseFunc p = .returned (q, node) ∧
      (f.Alone → Passes p q rest ∧ node.bare = f.node) ∧ (¬f.Alone → q.errors ≠ []) := by
  obtain ⟨opening, _, rfl, hopening, -, hf⟩ := hf.exists_cons
  obtain ⟨word, _, rfl, hword, -, hf⟩ := hf.exists_cons
  obtain ⟨idTokens, _, rfl, hid, hf⟩ := hf.exists_append
  obtain ⟨useTokens, lastTokens, rfl, huse, hlast⟩ := hf.exists_append
  have hkinds : p.kinds = .parenOpen :: .func ::
      (idTokens ++ (useTokens ++ lastTokens) ++ rest).map TexToken.kind := by
    rw [TexParser.kinds, h, List.cons_append, List.cons_append, List.map_cons, List.map_cons,
      hopening, hword]
    rfl
  rw [List.cons_append, List.cons_append, List.append_assoc, List.append_assoc] at h
  have hopened := passes_next (passes_next h).1
  obtain ⟨htype, hname⟩ := hlast.nextParenKind_locals rest
  obtain ⟨hafterId, hidData⟩ := texParParseId_spells hid (huse.kindOf_use hname) hopened.1
  obtain ⟨r, siblingTokens, hparse, hsiblings, hafterUse⟩ :=
    texParParseTypeUse_spells huse htype hafterId.1
  simp only [texParParseFunc, current_of_kinds hkinds, peek_of_kinds hkinds, and_self, if_true,
    texParParenKindBegin_of_kinds hkinds, hparse, Outcome.returned_bind, Outcome.pure_eq]
  refine ⟨_, _, rfl, ?_⟩
  rcases hsiblings.siblings_cases (lastTokens ++ rest) with
    ⟨halone, rfl⟩ | ⟨halone, hopen, hlocal⟩
  · obtain ⟨localTokens, _, rfl, hlocals, hclosing⟩ := hlast.exists_append
    obtain ⟨closing, rfl, hclosing, -⟩ := spells_singleton hclosing
    have hnone : NoClause .local_ (closing :: rest) :=
      noClause_of_nextParenKind (by rw [nextParenKind_closing hclosing]; simp [ClauseKeyword.kind])
    have hlocals := hlocals.texClauses (by simp)
    rw [List.nil_append, List.append_assoc] at hafterUse
    obtain ⟨hpasses, hentries⟩ := texParParseNamedValueType_clauses hlocals hnone hafterUse.1
    obtain ⟨hend, herrors⟩ := passes_texParParenKindEnd hclosing hpasses.1
    refine ⟨fun _ => ⟨⟨hend, ?_⟩, ?_⟩, fun hnot => absurd halone hnot⟩
    · rw [herrors, hpasses.2, hafterUse.2, hafterId.2]
      rfl
    · rw [TexFunc.bare, hentries, hidData, WatFunc.clauseNode_eq halone]
      rfl
  · -- the loop over the locals stops in front of the parameters and results
    have hstop : texParParseNamedValueType .local_ r = (r, []) := by
      rw [texParParseNamedValueType, if_neg]
      rw [texParGetNextParenKind_eq, hafterUse.1]
      exact hlocal
    refine ⟨fun hyes => absurd hyes halone, fun _ => ?_⟩
    rw [hstop]
    refine errors_texParParenKindEnd ?_
    rw [currentToken_kind, hafterUse.1, hopen]
    simp

/-- The turn of the loop that parses a function. -/
theorem texParModuleField_spells {f : WatFunc} {node : TexFunc} (funcs : List TexFunc)
    (hf : Spells tokens f.lexemes) (h : p.tokens = tokens ++ rest)
    (hparse : texParParseFunc p = .returned (q, node)) :
    p.currentToken.kind = .parenOpen ∧
      texParModuleField p funcs = .returned (q, funcs ++ [node]) := by
  obtain ⟨opening, _, rfl, hopening, -, hf⟩ := hf.exists_cons
  obtain ⟨word, body, rfl, hword, -, -⟩ := hf.exists_cons
  have hcurrent := (currentToken_of_tokens h).2 _ _ rfl
  have hpeek : p.peekToken.kind = .func := by
    rw [peekToken_kind, h]
    exact hword
  refine ⟨by rw [hcurrent, hopening]; rfl, ?_⟩
  rw [texParModuleField, if_pos hpeek, hparse]
  rfl

/-- The loop over functions that stand alone gives their nodes. By induction on the functions,
with one turn of fuel for each and one to see the end. -/
theorem texParModuleLoop_spells {funcs : List WatFunc} {closing : TexToken} (out : List TexFunc)
    (hfuncs : Spells tokens (funcs.flatMap WatFunc.lexemes)) (hclosing : closing.kind = .parenClose)
    (halone : ∀ f ∈ funcs, f.Alone) (h : p.tokens = tokens ++ closing :: rest) :
    ∃ q nodes, texParModuleLoop (funcs.length + 1) p out = .returned (q, out ++ nodes) ∧
      Passes p q (closing :: rest) ∧ nodes.map TexFunc.bare = funcs.map WatFunc.node := by
  induction funcs generalizing p tokens out with
  | nil =>
    rw [hfuncs.eq_nil, List.nil_append] at h
    have hcurrent := (currentToken_of_tokens h).2 _ _ rfl
    refine ⟨p, [], ?_, ⟨h, rfl⟩, rfl⟩
    rw [texParModuleLoop, if_neg (by rw [hcurrent, hclosing]; simp), List.append_nil]
  | cons f funcs ih =>
    obtain ⟨hf, hfs⟩ := List.forall_mem_cons.mp halone
    obtain ⟨funcTokens, restTokens, rfl, hfunc, hrest⟩ := hfuncs.exists_append
    rw [List.append_assoc] at h
    obtain ⟨r, node, hparse, hpasses, -⟩ := texParParseFunc_spells hfunc h
    obtain ⟨hr, hnode⟩ := hpasses hf
    obtain ⟨q, nodes, hloop, hq, hnodes⟩ := ih (out ++ [node]) hrest hfs hr.1
    obtain ⟨hopen, hfield⟩ := texParModuleField_spells out hfunc h hparse
    refine ⟨q, node :: nodes, ?_, ⟨hq.1, hq.2.trans hr.2⟩, ?_⟩
    · rw [List.length_cons, texParModuleLoop, if_pos hopen, hfield, Outcome.returned_bind]
      rwa [List.append_assoc] at hloop
    · rw [List.map_cons, List.map_cons, hnode, hnodes]

/-- Without an error of the parser all functions stand alone. -/
theorem alone_of_texParModuleLoop {funcs : List WatFunc} {fuel : ℕ} {out out' : List TexFunc}
    (hfuncs : Spells tokens (funcs.flatMap WatFunc.lexemes)) (h : p.tokens = tokens ++ rest)
    (hloop : texParModuleLoop fuel p out = .returned (q, out')) (herrors : q.errors = []) :
    ∀ f ∈ funcs, f.Alone := by
  induction funcs generalizing p tokens out fuel with
  | nil => exact fun _ hmem => absurd hmem List.not_mem_nil
  | cons f funcs ih =>
    obtain ⟨funcTokens, restTokens, rfl, hfunc, hrest⟩ := hfuncs.exists_append
    rw [List.append_assoc] at h
    obtain ⟨r, node, hparse, hpasses, hmissed⟩ := texParParseFunc_spells hfunc h
    obtain ⟨hopen, hfield⟩ := texParModuleField_spells out hfunc h hparse
    rcases fuel with _ | fuel
    · cases hloop
    · rw [texParModuleLoop, if_pos hopen, hfield, Outcome.returned_bind] at hloop
      have hr := (advances_texParModuleLoop hloop).errors_eq_nil herrors
      have hf : f.Alone := by
        by_contra hnot
        exact hmissed hnot hr
      exact List.forall_mem_cons.mpr ⟨hf, ih hrest (hpasses hf).1.1 hloop⟩

/-- What the loop over the functions starts from, and what closes the module. -/
theorem Spells.module {m : WatModule} (hm : Spells p.tokens m.lexemes) :
    ∃ funcTokens closing, Spells funcTokens (m.funcs.flatMap WatFunc.lexemes) ∧
      closing.kind = .parenClose ∧
      texParParenKindBegin p .module = (texParNextToken (texParNextToken p), true) ∧
      Passes p (texParParseId (texParNextToken (texParNextToken p))).1
        (funcTokens ++ [closing]) ∧
      (texParParseId (texParNextToken (texParNextToken p))).2 = idData m.id := by
  obtain ⟨opening, _, htokens, hopening, -, hm⟩ := hm.exists_cons
  obtain ⟨word, _, rfl, hword, -, hm⟩ := hm.exists_cons
  obtain ⟨idTokens, _, rfl, hid, hm⟩ := hm.exists_append
  obtain ⟨funcTokens, _, rfl, hfuncs, hclosing⟩ := hm.exists_append
  obtain ⟨closing, rfl, hclosing, -⟩ := spells_singleton hclosing
  have hname : kindOf (funcTokens ++ [closing]) ≠ .identifier := by
    rcases hfs : m.funcs with _ | ⟨f, funcs⟩
    · rw [hfs] at hfuncs
      rw [hfuncs.eq_nil, List.nil_append, kindOf, List.map_cons, List.headD_cons, hclosing]
      simp [Lexeme.closing]
    · rw [hfs] at hfuncs
      obtain ⟨open', _, rfl, hopen', -, -⟩ := hfuncs.exists_cons
      rw [List.cons_append, kindOf, List.map_cons, List.headD_cons, hopen']
      simp [Lexeme.opening]
  have hopened := passes_next (passes_next htokens).1
  obtain ⟨hpasses, hidData⟩ := texParParseId_spells hid hname hopened.1
  have hkinds : p.kinds = .parenOpen :: .module ::
      (idTokens ++ (funcTokens ++ [closing])).map TexToken.kind := by
    rw [TexParser.kinds, htokens, List.map_cons, List.map_cons, hopening, hword]
    rfl
  exact ⟨funcTokens, closing, hfuncs, hclosing, texParParenKindBegin_of_kinds hkinds, hpasses,
    hidData⟩

/-- The tokens of a module whose functions stand alone give it, and the parser is at the end. -/
theorem texParParseModule_spells {m : WatModule} (hm : Spells p.tokens m.lexemes)
    (halone : ∀ f ∈ m.funcs, f.Alone) (hp : p.errors = []) :
    ∃ q node, texParParseModule (m.funcs.length + 1) p = .returned (q, node) ∧ q.errors = [] ∧
      q.currentToken.kind = .eof ∧ node.bare = m.node := by
  obtain ⟨funcTokens, closing, hfuncs, hclosing, hbegin, hafterId, hid⟩ := hm.module
  obtain ⟨r, nodes, hloop, hr, hnodes⟩ :=
    texParModuleLoop_spells [] hfuncs hclosing halone hafterId.1
  obtain ⟨hend, herrors⟩ := passes_texParParenKindEnd hclosing hr.1
  have heof := (currentToken_of_tokens hend).1 rfl
  have hexpect : texParExpectCurrent (texParParenKindEnd r) .eof =
      (texParParenKindEnd r, true) := by
    rw [texParExpectCurrent, if_pos heof]
  simp only [texParParseModule, hbegin, if_true, hloop, Outcome.returned_bind, Outcome.pure_eq,
    hexpect]
  refine ⟨_, _, rfl, ?_, heof, ?_⟩
  · rw [herrors, hr.2, hafterId.2, hp]
  · rw [TexModule.bare, hid, List.nil_append, hnodes]
    rfl

/-- Without an error of the parser all functions stand alone, and the parser is at the end. -/
theorem alone_of_texParParseModule {m : WatModule} {fuel : ℕ} {node : TexModule}
    (hm : Spells p.tokens m.lexemes) (hparse : texParParseModule fuel p = .returned (q, node))
    (herrors : q.errors = []) :
    (∀ f ∈ m.funcs, f.Alone) ∧ Advances p q ∧ q.currentToken.kind = .eof := by
  obtain ⟨funcTokens, closing, hfuncs, hclosing, hbegin, hafterId, -⟩ := hm.module
  simp only [texParParseModule, hbegin, if_true] at hparse
  obtain ⟨⟨r, nodes⟩, hloop, hrest⟩ := Outcome.bind_eq_returned.mp hparse
  obtain ⟨rfl, -⟩ := Prod.mk.inj (Outcome.returned.inj hrest)
  have hexpect := advances_texParExpectCurrent (texParParenKindEnd r) .eof
  have hend := hexpect.errors_eq_nil herrors
  have hr := (advances_texParParenKindEnd r).errors_eq_nil hend
  have heof : (texParParenKindEnd r).currentToken.kind = .eof := by
    by_contra hne
    rw [texParExpectCurrent, if_neg hne] at herrors
    exact TexGrammar.errors_ne_nil .refl herrors
  refine ⟨alone_of_texParModuleLoop hfuncs hafterId.1 hloop hr, ?_, ?_⟩
  · exact (((Advances.refl.next.next.trans (advances_texParParseId _)).trans
      (advances_texParModuleLoop hloop)).trans (advances_texParParenKindEnd r)).trans hexpect
  · rw [texParExpectCurrent, if_pos heof]
    exact heof

/-! ### What the tokenizer reports -/

theorem isInvalidUtf8_of_texTokReadCh {t : TexTokenizer}
    (h : ∀ e ∈ t.errors, e.isInvalidUtf8) : ∀ e ∈ (texTokReadCh t).errors, e.isInvalidUtf8 := by
  rw [texTokReadCh]
  split
  · exact h
  · dsimp only
    split
    · intro e he
      rcases List.mem_append.mp he with he | he
      · exact h e he
      · rw [List.mem_singleton.mp he]
        rfl
    · exact h

theorem Moves.isInvalidUtf8 {t u : TexTokenizer} (hmoves : Moves t u)
    (h : ∀ e ∈ t.errors, e.isInvalidUtf8) : ∀ e ∈ u.errors, e.isInvalidUtf8 := by
  induction hmoves with
  | refl => exact h
  | read _ ih => exact isInvalidUtf8_of_texTokReadCh ih

/-- The tokenizer only moves through a rendered text. -/
theorem Renders.drained {prev : Option Lexeme} {ls : List Lexeme} {text : List UInt8}
    {t : TexTokenizer} (h : Renders prev ls text) (ht : t.Placed) (hsettled : t.Settled)
    (hrest : t.rest = text) : ∃ u, Moves t u ∧ u.errors = t.drained hsettled := by
  induction h generalizing t with
  | last htail =>
    obtain ⟨hmoves, heof⟩ := texTokNext_trails htail ht hrest
    rw [TexTokenizer.drained, if_pos heof]
    exact ⟨_, hmoves, rfl⟩
  | @lexeme prev sep text l ls hsep htext ih =>
    obtain ⟨hmoves, hnext, hkind, -⟩ :=
      texTokNext_lexeme hsep.blanks htext.boundary htext.head_ne ht hrest
    have hne : (texTokNext t).2.kind ≠ .eof := hkind ▸ l.kind_ne_eof
    obtain ⟨u, hu, herrors⟩ := ih (hmoves.placed ht) (texTokNext_left t hsettled).1 hnext
    rw [TexTokenizer.drained, if_neg hne]
    exact ⟨u, hmoves.trans hu, herrors⟩

/-- Nothing is reported for a rendered text, unless it has the replacement character in it. -/
theorem Renders.drained_eq_nil_iff {ls : List Lexeme} {text : List UInt8}
    (h : Renders none ls text) (file : String) :
    (texTokInit text file).drained (settled_texTokInit text file) = [] ↔
      Utf8.runeError ∉ runes text := by
  obtain ⟨hplaced, hrest⟩ := placed_texTokInit text file
  obtain ⟨u, hmoves, herrors⟩ := h.drained hplaced (settled_texTokInit text file) hrest
  obtain ⟨rs, hreads, hreported⟩ := reported_iff text file
  have hrunes : ReadsRunes (text ++ []) rs [] := by rwa [List.append_nil]
  rw [← herrors] at hreported ⊢
  rw [hrunes.runes_eq, ← hreported]
  have hall := hmoves.isInvalidUtf8 (isInvalidUtf8_of_texTokReadCh (by simp))
  constructor
  · rintro hnil ⟨e, he, -⟩
    rw [hnil] at he
    exact absurd he List.not_mem_nil
  · intro hnone
    exact List.eq_nil_iff_forall_not_mem.mpr fun e he => hnone ⟨e, he, hall e he⟩

/-! ### Rendering and parsing -/

theorem Renders.spells {ls : List Lexeme} {text : List UInt8} (h : Renders none ls text)
    (file : String) : Spells (texParOfText text file).tokens ls := by
  obtain ⟨hplaced, hrest⟩ := placed_texTokInit text file
  rw [texParOfText, tokens_texParInit]
  exact h.tokens hplaced (settled_texTokInit text file) hrest

theorem ParsesTo.alone {m : WatModule} {text : List UInt8} {file : String}
    (h : Renders none m.lexemes text) (hparses : ParsesTo text file m) :
    (∀ f ∈ m.funcs, f.Alone) ∧ Utf8.runeError ∉ runes text := by
  obtain ⟨q, node, ⟨fuel, hparse⟩, herrors, htokenizer, -⟩ := hparses
  obtain ⟨halone, hadvances, heof⟩ := alone_of_texParParseModule (h.spells file) hparse herrors
  rw [← h.drained_eq_nil_iff file, ← drained_texParOfText, ← hadvances.drained_eq,
    ← drained_of_eof heof]
  exact ⟨halone, htokenizer⟩

theorem parsesTo_of_alone {m : WatModule} {text : List UInt8} {file : String}
    (h : Renders none m.lexemes text) (halone : ∀ f ∈ m.funcs, f.Alone)
    (hrunes : Utf8.runeError ∉ runes text) : ParsesTo text file m := by
  obtain ⟨q, node, hparse, herrors, heof, hnode⟩ :=
    texParParseModule_spells (h.spells file) halone rfl
  obtain ⟨-, hadvances, -⟩ := alone_of_texParParseModule (h.spells file) hparse herrors
  refine ⟨q, node, ⟨_, hparse⟩, herrors, ?_, hnode⟩
  rw [drained_of_eof heof, hadvances.drained_eq, drained_texParOfText, h.drained_eq_nil_iff]
  exact hrunes

/-- A rendered module is parsed back without an error exactly when its type uses are nothing but
type clauses and the text has no replacement character in it. -/
theorem parsesTo_iff (m : WatModule) {text : List UInt8} (h : Renders none m.lexemes text)
    (file : String) :
    ParsesTo text file m ↔
      (∀ f ∈ m.funcs, ∀ use ∈ f.use, use.params = [] ∧ use.results = []) ∧
        Utf8.runeError ∉ runes text :=
  ⟨fun hparses => hparses.alone h, fun ⟨halone, hrunes⟩ => parsesTo_of_alone h halone hrunes⟩

/-- The lexemes with one blank in front of each. -/
def spaced (ls : List Lexeme) : List UInt8 := ls.flatMap fun l => byteOf ' ' :: l.data

theorem renders_spaced (prev : Option Lexeme) (ls : List Lexeme) : Renders prev ls (spaced ls) := by
  induction ls generalizing prev with
  | nil => exact .last ⟨⟨[], [], rfl, .nil, Or.inl rfl⟩, fun _ _ _ => by simp [spaced]⟩
  | cons l ls ih =>
    have hsep : Separates prev [byteOf ' '] l :=
      ⟨.blank (by decide) .nil, fun _ _ _ _ => by simp, fun _ _ _ => by decide⟩
    exact .lexeme hsep (ih (some l))

def watNumber (digit : UInt8) (h : texTokIsDigit digit.toNat 10)
    (fits : literalValue [digit] < 2 ^ 32) : WatIndex :=
  .number [digit] (.unsigned (.decimal (.digit h))) fits

/-- `(module $m (func (type 7) (local $m i32) (local i64 f32)))`. -/
def localsModule : WatModule :=
  let id : WatId := ⟨ascii "$m", .identifier (s := ascii "m") (by decide) (by decide)⟩
  { id := some id
    funcs := [
      { id := none
        use := some ⟨watNumber (byteOf '7') (by decide) (by decide), [], []⟩
        locals := [.named id .i32, .types [.i64, .f32]] }] }

theorem parsesTo_iff_locals :
    ParsesTo (ascii " ( module $m ( func ( type 7 ) ( local $m i32 ) ( local i64 f32 ) ) )")
      "test.wat" localsModule := by
  have htext : ascii " ( module $m ( func ( type 7 ) ( local $m i32 ) ( local i64 f32 ) ) )" =
      spaced localsModule.lexemes := by decide +kernel
  rw [htext]
  refine (parsesTo_iff localsModule (renders_spaced none _) "test.wat").mpr ⟨?_, ?_⟩
  · simp [localsModule]
  · rw [← htext, runes_ascii (by decide +kernel)]
    decide +kernel

/-- `(module (func (type 0) (param i32)))`. -/
def paramModule : WatModule :=
  { id := none
    funcs := [
      { id := none
        use := some ⟨watNumber (byteOf '0') (by decide) (by decide), [.types [.i32]], []⟩
        locals := [] }] }

/-- A parameter behind the type clause is not parsed. -/
theorem not_parsesTo_param :
    Renders none paramModule.lexemes (ascii " ( module ( func ( type 0 ) ( param i32 ) ) )") ∧
      ¬ParsesTo (ascii " ( module ( func ( type 0 ) ( param i32 ) ) )") "test.wat"
        paramModule := by
  have htext : ascii " ( module ( func ( type 0 ) ( param i32 ) ) )" =
      spaced paramModule.lexemes := by decide +kernel
  rw [htext]
  refine ⟨renders_spaced none _, fun hparses => ?_⟩
  have halone := (hparses.alone (renders_spaced none _)).1 _ List.mem_cons_self _ rfl
  exact absurd halone.1 (by simp)

end Wasim
