import Mathlib.Data.List.TakeWhile
import Wasim.Binary.Wasm
import Wasim.Text.Tokens

/-!
# The parser of the text format

`wasim_text_parser.odin` and the syntax tree of `wasim_text_ast.odin`. The parser looks at two
tokens, the current one and the next. Its state carries what the tokenizer guarantees: nothing
but the end follows the end, and the two tokens are sound. So the state stands for the list
`TexParser.tokens` of the tokens from the current one on, and `tex_par_next_token` takes its
tail (`tokens_texParNextToken`). All loops end since this list gets shorter, except the one over
the fields of a module, which runs over fuel.
-/

namespace Wasim

/-! ### The syntax tree -/

structure TexRange where
  start : TexPosition := {}
  stop : TexPosition := {}
  deriving DecidableEq, Repr

structure TexNamedValueType where
  id : List UInt8 := []
  valueType : ValueType := .unset
  deriving DecidableEq, Repr

structure TexFuncType where
  params : List TexNamedValueType := []
  results : List ValueType := []
  deriving DecidableEq, Repr

structure TexTypeUse where
  index : UInt32 := 0
  id : List UInt8 := []
  inlinedType : TexFuncType := {}
  deriving DecidableEq, Repr

structure TexFunc where
  range : TexRange := {}
  id : List UInt8 := []
  use : TexTypeUse := {}
  locals : List TexNamedValueType := []
  deriving DecidableEq, Repr

structure TexModule where
  range : TexRange := {}
  id : List UInt8 := []
  funcs : List TexFunc := []
  deriving DecidableEq, Repr

/-! ### The state -/

structure TexParError where
  token : TexToken
  format : String
  args : List TexArg
  deriving DecidableEq, Repr

structure TexParser where
  tokenizer : TexTokenizer
  currentToken : TexToken := {}
  peekToken : TexToken := {}
  errors : List TexParError := []
  settled : tokenizer.Settled
  current_eof : currentToken.kind = .eof → peekToken.kind = .eof
  peek_eof : peekToken.kind = .eof → tokenizer.ch = none
  current_sound : currentToken.Sound
  peek_sound : peekToken.Sound

def texParErrorf (p : TexParser) (token : TexToken) (format : String) (args : List TexArg) :
    TexParser :=
  { p with errors := p.errors ++ [⟨token, format, args⟩] }

def texParErrorfCurrent (p : TexParser) (format : String) (args : List TexArg) : TexParser :=
  texParErrorf p p.currentToken format args

def texParErrorfPeek (p : TexParser) (format : String) (args : List TexArg) : TexParser :=
  texParErrorf p p.peekToken format args

def texParNextToken (p : TexParser) : TexParser :=
  { p with
    currentToken := p.peekToken
    tokenizer := (texTokNext p.tokenizer).1
    peekToken := (texTokNext p.tokenizer).2
    settled := (texTokNext_left p.tokenizer p.settled).1
    current_eof := fun h => (texTokNext_ended p.settled (p.peek_eof h)).1
    peek_eof := texTokNext_eof p.settled
    current_sound := p.peek_sound
    peek_sound := texTokNext_sound p.tokenizer }

def texParInit (tokenizer : TexTokenizer) (settled : tokenizer.Settled) : TexParser :=
  texParNextToken (texParNextToken
    { tokenizer := tokenizer
      settled := settled
      current_eof := by simp
      peek_eof := by simp
      current_sound := by simp [TexToken.Sound]
      peek_sound := by simp [TexToken.Sound] })

/-- The parser at the start of a text. -/
def texParOfText (input : List UInt8) (file : String) : TexParser :=
  texParInit (texTokInit input file) (settled_texTokInit input file)

/-! ### The tokens from the current one on -/

def TexParser.tokens (p : TexParser) : List TexToken :=
  (p.currentToken :: p.peekToken :: p.tokenizer.tokens p.settled).takeWhile (·.kind ≠ .eof)

/-- The peek token counts, whether or not it has been read already. -/
theorem takeWhile_tokens (p : TexParser) (token : TexToken) :
    (token :: p.tokenizer.tokens p.settled).takeWhile (·.kind ≠ .eof) =
      (token :: (texTokNext p.tokenizer).2 :: (texTokNext p.tokenizer).1.tokens
        (texTokNext_left p.tokenizer p.settled).1).takeWhile (·.kind ≠ .eof) := by
  rw [TexTokenizer.tokens.eq_1 p.tokenizer]
  split
  · rename_i hkind
    simp [List.takeWhile_cons, hkind]
  · rfl

@[simp]
theorem tokens_texParNextToken (p : TexParser) :
    (texParNextToken p).tokens = p.tokens.tail := by
  have hnext : (texParNextToken p).tokens =
      (p.peekToken :: p.tokenizer.tokens p.settled).takeWhile (·.kind ≠ .eof) :=
    (takeWhile_tokens p p.peekToken).symm
  rw [hnext, TexParser.tokens]
  by_cases hcurrent : p.currentToken.kind = .eof
  · simp [hcurrent, p.current_eof hcurrent]
  · simp [List.takeWhile_cons, hcurrent]

/-- The parser starts in front of all tokens. -/
theorem tokens_texParInit (tokenizer : TexTokenizer) (settled : tokenizer.Settled) :
    (texParInit tokenizer settled).tokens = tokenizer.tokens settled := by
  rw [texParInit, tokens_texParNextToken, tokens_texParNextToken, TexParser.tokens]
  simp only [List.takeWhile_cons, reduceCtorEq, ne_eq, not_false_eq_true, decide_true, if_true,
    List.tail_cons]
  exact List.takeWhile_eq_self_iff.mpr fun token hmem => by
    simpa using kind_ne_eof_of_mem_tokens hmem

/-- The kind in front of a list of tokens, where the end counts as a kind. -/
def kindOf (tokens : List TexToken) : TexTokenKind := (tokens.map TexToken.kind).headD .eof

theorem tokens_cons {p : TexParser} (h : p.currentToken.kind ≠ .eof) :
    p.tokens = p.currentToken :: p.tokens.tail := by
  rw [TexParser.tokens, List.takeWhile_cons]
  simp [h]

theorem tokens_eq_nil {p : TexParser} (h : p.currentToken.kind = .eof) : p.tokens = [] := by
  rw [TexParser.tokens, List.takeWhile_cons]
  simp [h]

/-- The current token is the first that is left, or the end. -/
theorem currentToken_of_tokens {p : TexParser} {rest : List TexToken} (h : p.tokens = rest) :
    (rest = [] → p.currentToken.kind = .eof) ∧
      ∀ token tokens, rest = token :: tokens → p.currentToken = token := by
  subst h
  by_cases heof : p.currentToken.kind = .eof
  · rw [tokens_eq_nil heof]
    exact ⟨fun _ => heof, nofun⟩
  · rw [tokens_cons heof]
    exact ⟨nofun, fun token tokens hcons => (List.cons.inj hcons).1⟩

theorem currentToken_kind (p : TexParser) : p.currentToken.kind = kindOf p.tokens := by
  by_cases h : p.currentToken.kind = .eof
  · rw [tokens_eq_nil h, h]
    rfl
  · rw [tokens_cons h]
    rfl

theorem peekToken_kind (p : TexParser) : p.peekToken.kind = kindOf p.tokens.tail := by
  rw [← tokens_texParNextToken]
  exact currentToken_kind (texParNextToken p)

theorem length_texParNextToken_le (p : TexParser) :
    (texParNextToken p).tokens.length ≤ p.tokens.length := by
  simp

theorem length_texParNextToken_lt {p : TexParser} (h : p.currentToken.kind ≠ .eof) :
    (texParNextToken p).tokens.length < p.tokens.length := by
  rw [tokens_texParNextToken, tokens_cons h]
  simp

/-! ### Small steps -/

def texParExpectCurrent (p : TexParser) (kind : TexTokenKind) : TexParser × Bool :=
  if p.currentToken.kind = kind then (p, true)
  else
    (texParErrorfCurrent p "expected %v, but got %v" [.kind kind, .kind p.currentToken.kind],
      false)

def texParParseValueType (p : TexParser) : TexParser × ValueType :=
  match p.currentToken.kind with
  | .i32 => (texParNextToken p, .i32)
  | .i64 => (texParNextToken p, .i64)
  | .f32 => (texParNextToken p, .f32)
  | .f64 => (texParNextToken p, .f64)
  | _ =>
    (texParNextToken (texParErrorfCurrent p "invalid value type %q" [.text p.currentToken.data]),
      .unset)

def texParGetNextParenKind (p : TexParser) : TexTokenKind :=
  if p.currentToken.kind = .parenOpen then p.peekToken.kind else .invalid

/-- The loop of `tex_par_attempt_recovery`: to behind the parenthesis that closes the form. -/
def texParRecover (depth : ℤ) (p : TexParser) : TexParser :=
  if p.currentToken.kind = .eof then p
  else if depth < 0 then p
  else
    let depth :=
      if p.currentToken.kind = .parenOpen then depth + 1
      else if p.currentToken.kind = .parenClose then depth - 1
      else depth
    texParRecover depth (texParNextToken p)
termination_by p.tokens.length
decreasing_by exact length_texParNextToken_lt ‹_›

def texParAttemptRecovery (p : TexParser) : TexParser := texParRecover 0 p

def texParParenKindBegin (p : TexParser) (kind : TexTokenKind) : TexParser × Bool :=
  if p.currentToken.kind = .parenOpen then
    if p.peekToken.kind = kind then (texParNextToken (texParNextToken p), true)
    else
      (texParAttemptRecovery (texParErrorfPeek p "expected %v but only got %v"
        [.kind kind, .kind p.currentToken.kind]), false)
  else
    (texParErrorfCurrent p "expected '(' but only got %v" [.kind p.currentToken.kind], false)

def texParParenKindEnd (p : TexParser) : TexParser :=
  let expected := texParExpectCurrent p .parenClose
  if expected.2 then texParNextToken expected.1 else texParAttemptRecovery expected.1

def texParParseId (p : TexParser) : TexParser × List UInt8 :=
  if p.currentToken.kind = .identifier then (texParNextToken p, p.currentToken.data) else (p, [])

/-! ### Lists of value types -/

/-- Value types up to the closing parenthesis or the end. -/
def texParValueTypesLoop (p : TexParser) : TexParser × List ValueType :=
  if p.currentToken.kind = .eof ∨ p.currentToken.kind = .parenClose then (p, [])
  else
    let first := texParParseValueType p
    let rest := texParValueTypesLoop first.1
    (rest.1, first.2 :: rest.2)
termination_by p.tokens.length
decreasing_by
  rename_i h
  have hlt := length_texParNextToken_lt fun heof => h (Or.inl heof)
  rw [texParParseValueType]
  split <;> exact hlt

theorem texParParseValueType_length_le (p : TexParser) :
    (texParParseValueType p).1.tokens.length ≤ p.tokens.length := by
  have hle := length_texParNextToken_le p
  rw [texParParseValueType]
  split <;> exact hle

theorem texParValueTypesLoop_length_le (p : TexParser) :
    (texParValueTypesLoop p).1.tokens.length ≤ p.tokens.length := by
  fun_induction texParValueTypesLoop p with
  | case1 p h => exact le_rfl
  | case2 p h first rest ih => exact ih.trans (texParParseValueType_length_le p)

theorem texParRecover_length_le (depth : ℤ) (p : TexParser) :
    (texParRecover depth p).tokens.length ≤ p.tokens.length := by
  fun_induction texParRecover depth p with
  | case1 => exact le_rfl
  | case2 => exact le_rfl
  | case3 depth p heof hdepth depth' ih => exact ih.trans (length_texParNextToken_le p)

theorem texParParenKindEnd_length_le (p : TexParser) :
    (texParParenKindEnd p).tokens.length ≤ p.tokens.length := by
  rw [texParParenKindEnd, texParExpectCurrent]
  split
  · exact length_texParNextToken_le p
  · exact texParRecover_length_le 0 _

/-- The kinds of clauses that hold value types. -/
inductive ClauseKeyword where
  | param
  | result
  | local_
  deriving DecidableEq, Repr

def ClauseKeyword.kind : ClauseKeyword → TexTokenKind
  | .param => .param
  | .result => .result
  | .local_ => .local_

/-- A clause that the loops have found is opened, and two tokens are consumed. -/
theorem texParParenKindBegin_clause {p : TexParser} {keyword : ClauseKeyword}
    (h : texParGetNextParenKind p = keyword.kind) :
    texParParenKindBegin p keyword.kind = (texParNextToken (texParNextToken p), true) ∧
      (texParNextToken (texParNextToken p)).tokens.length < p.tokens.length := by
  rw [texParGetNextParenKind] at h
  split at h
  · rename_i hopen
    rw [texParParenKindBegin, if_pos hopen, if_pos h]
    refine ⟨rfl, ?_⟩
    exact (length_texParNextToken_le _).trans_lt (length_texParNextToken_lt (by simp [hopen]))
  · cases keyword <;> cases h

/-- A clause with names, behind its keyword: one name and one value type, or value types
only. -/
def texParNamedClause (p : TexParser) : TexParser × List TexNamedValueType :=
  let (p, id) := texParParseId p
  if p.currentToken.kind ≠ .parenClose then
    let (p, valueType) := texParParseValueType p
    if id = [] then
      let rest := texParValueTypesLoop p
      (texParParenKindEnd rest.1,
        ⟨id, valueType⟩ :: rest.2.map fun valueType => ⟨id, valueType⟩)
    else (texParParenKindEnd p, [⟨id, valueType⟩])
  else (texParParenKindEnd p, [])

theorem texParParseId_length_le (p : TexParser) :
    (texParParseId p).1.tokens.length ≤ p.tokens.length := by
  rw [texParParseId]
  split
  · exact length_texParNextToken_le p
  · exact le_rfl

theorem texParNamedClause_length_le (p : TexParser) :
    (texParNamedClause p).1.tokens.length ≤ p.tokens.length := by
  have hid := texParParseId_length_le p
  have htype := texParParseValueType_length_le (texParParseId p).1
  simp only [texParNamedClause]
  split
  · split
    · exact (texParParenKindEnd_length_le _).trans
        ((texParValueTypesLoop_length_le _).trans (htype.trans hid))
    · exact (texParParenKindEnd_length_le _).trans (htype.trans hid)
  · exact (texParParenKindEnd_length_le _).trans hid

def texParParseNamedValueType (keyword : ClauseKeyword) (p : TexParser) :
    TexParser × List TexNamedValueType :=
  if texParGetNextParenKind p = keyword.kind then
    let opened := texParParenKindBegin p keyword.kind
    if opened.2 then
      let clause := texParNamedClause opened.1
      let rest := texParParseNamedValueType keyword clause.1
      (rest.1, clause.2 ++ rest.2)
    else texParParseNamedValueType keyword opened.1
  else (p, [])
termination_by p.tokens.length
decreasing_by
  · rename_i h _
    obtain ⟨hbegin, hlt⟩ := texParParenKindBegin_clause h
    refine (texParNamedClause_length_le _).trans_lt ?_
    rw [hbegin]
    exact hlt
  · rename_i h _
    obtain ⟨hbegin, hlt⟩ := texParParenKindBegin_clause h
    rw [hbegin]
    exact hlt

def texParParseValueTypes (keyword : ClauseKeyword) (p : TexParser) :
    TexParser × List ValueType :=
  if texParGetNextParenKind p = keyword.kind then
    let opened := texParParenKindBegin p keyword.kind
    if opened.2 then
      let clause := texParValueTypesLoop opened.1
      let rest := texParParseValueTypes keyword (texParParenKindEnd clause.1)
      (rest.1, clause.2 ++ rest.2)
    else texParParseValueTypes keyword opened.1
  else (p, [])
termination_by p.tokens.length
decreasing_by
  · rename_i h _
    obtain ⟨hbegin, hlt⟩ := texParParenKindBegin_clause h
    refine (texParParenKindEnd_length_le _).trans_lt
      ((texParValueTypesLoop_length_le _).trans_lt ?_)
    rw [hbegin]
    exact hlt
  · rename_i h _
    obtain ⟨hbegin, hlt⟩ := texParParenKindBegin_clause h
    rw [hbegin]
    exact hlt

/-! ### Functions and the module -/

def texParParseFuncTypeDecl (p : TexParser) : TexParser × TexFuncType :=
  let params := texParParseNamedValueType .param p
  let results := texParParseValueTypes .result params.1
  (results.1, ⟨params.2, results.2⟩)

/-- The index of a type clause. A token that is neither an identifier nor an unsigned integer
is passed over in silence. -/
def texParTypeIndex (p : TexParser) : Outcome (TexParser × TexTypeUse) :=
  match p.currentToken.kind with
  | .identifier => .returned (p, { id := p.currentToken.data })
  | .integerUnsigned => do
    let (index, err) ← texU32FromString p.currentToken.data
    if err = .numberToLarge then
      return (texParErrorfCurrent p "integer %q does not fit into an u32"
        [.text p.currentToken.data], { index := index })
    else return (p, { index := index })
  | _ => .returned (p, {})

def texParParseTypeUse (p : TexParser) : Outcome (TexParser × TexTypeUse) :=
  if texParGetNextParenKind p = .type then
    let opened := texParParenKindBegin p .type
    if opened.2 then do
      let (p, use) ← texParTypeIndex opened.1
      let decl := texParParseFuncTypeDecl (texParNextToken p)
      return (texParParenKindEnd decl.1, { use with inlinedType := decl.2 })
    else .crashed
  else .returned (p, {})

def texParParseFunc (p : TexParser) : Outcome (TexParser × TexFunc) :=
  if p.currentToken.kind = .parenOpen ∧ p.peekToken.kind = .func then
    let start := p.currentToken.position
    let opened := texParParenKindBegin p .func
    if opened.2 then do
      let (p, id) := texParParseId opened.1
      let (p, use) ← texParParseTypeUse p
      let (p, locals) := texParParseNamedValueType .local_ p
      return (texParParenKindEnd p, ⟨⟨start, p.currentToken.position⟩, id, use, locals⟩)
    else .returned (opened.1, { range := { start := start } })
  else .crashed

/-- One turn of the loop over the fields of a module. A field that is not a function is
reported, and nothing is consumed. -/
def texParModuleField (p : TexParser) (funcs : List TexFunc) :
    Outcome (TexParser × List TexFunc) :=
  if p.peekToken.kind = .func then do
    let (p, func) ← texParParseFunc p
    return (p, funcs ++ [func])
  else .returned (texParErrorfPeek p "invalid module field %v" [.kind p.peekToken.kind], funcs)

def texParModuleLoop : ℕ → TexParser → List TexFunc → Outcome (TexParser × List TexFunc)
  | 0, _, _ => .outOfFuel
  | fuel + 1, p, funcs =>
    if p.currentToken.kind = .parenOpen then do
      let (p, funcs) ← texParModuleField p funcs
      texParModuleLoop fuel p funcs
    else .returned (p, funcs)

def texParParseModule (fuel : ℕ) (p : TexParser) : Outcome (TexParser × TexModule) :=
  let start := p.currentToken.position
  let opened := texParParenKindBegin p .module
  if opened.2 then do
    let (p, id) := texParParseId opened.1
    let (p, funcs) ← texParModuleLoop fuel p []
    let stop := p.currentToken.position
    let p := (texParExpectCurrent (texParParenKindEnd p) .eof).1
    return (p, ⟨⟨start, stop⟩, id, funcs⟩)
  else .returned (opened.1, { range := { start := start } })

end Wasim
