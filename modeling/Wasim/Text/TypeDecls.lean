import Wasim.Library.LinkedList
import Wasim.Text.Grammar
import Wasim.Text.Tiling

/-!
# Type declarations

`tex_par_parse_func_type_decl` with the lists that it builds: parameters and results are nodes in
the arena of the parser, linked one by one with `list_push`. What is walked through from the first
node on is what the lists of the syntax tree hold (`texParParseFuncTypeDeclLists_eq`). On a list of
clauses of the grammar these are the entries of the clauses, and nothing is reported
(`texParParseFuncTypeDeclLists_clauses`).
-/

namespace Wasim

open TexGrammar (IsValueType ne_paren_of_isValueType)

variable {α : Type} {p : TexParser}

/-! ### Lists in the arena -/

/-- The nodes of an arena and a list of some of them. -/
structure TexList (α : Type) where
  nodes : List (ListNode α)
  list : LinkedList

namespace TexList

/-- `list_push` of a node that is pushed to the arena. -/
def push (l : TexList α) (value : α) : TexList α :=
  let pushed := LinkedList.push l.nodes l.list value
  ⟨pushed.1, pushed.2⟩

def toList (l : TexList α) : List α := l.list.toList l.nodes

def Represents (l : TexList α) (xs : List α) : Prop := l.list.Represents l.nodes xs

theorem Represents.push {l : TexList α} {xs : List α} (h : l.Represents xs) (value : α) :
    (l.push value).Represents (xs ++ [value]) := LinkedList.Represents.push h value

theorem represents_empty (nodes : List (ListNode α)) :
    TexList.Represents ⟨nodes, .empty⟩ [] := LinkedList.represents_empty nodes

theorem Represents.toList_eq {l : TexList α} {xs : List α} (h : l.Represents xs) :
    l.toList = xs := LinkedList.Represents.toList_eq h

theorem Represents.count_eq {l : TexList α} {xs : List α} (h : l.Represents xs) :
    l.list.count = xs.length := LinkedList.Represents.count_eq h

end TexList

/-- The loops over value types, each pushed as the node that is made of it. -/
def texParValueTypesList (node : ValueType → α) (p : TexParser) (l : TexList α) :
    TexParser × TexList α :=
  if p.currentToken.kind = .eof ∨ p.currentToken.kind = .parenClose then (p, l)
  else
    let first := texParParseValueType p
    texParValueTypesList node first.1 (l.push (node first.2))
termination_by p.tokens.length
decreasing_by
  rename_i h
  have hlt := length_texParNextToken_lt fun heof => h (Or.inl heof)
  rw [texParParseValueType]
  split <;> exact hlt

def texParNamedClauseList (p : TexParser) (l : TexList TexNamedValueType) :
    TexParser × TexList TexNamedValueType :=
  let (p, id) := texParParseId p
  if p.currentToken.kind ≠ .parenClose then
    let (p, valueType) := texParParseValueType p
    let l := l.push ⟨id, valueType⟩
    if id = [] then
      let rest := texParValueTypesList (⟨id, ·⟩) p l
      (texParParenKindEnd rest.1, rest.2)
    else (texParParenKindEnd p, l)
  else (texParParenKindEnd p, l)

theorem texParValueTypesList_eq (node : ValueType → α) (p : TexParser) (l : TexList α) :
    (texParValueTypesList node p l).1 = (texParValueTypesLoop p).1 ∧
      ∀ xs, l.Represents xs →
        (texParValueTypesList node p l).2.Represents
          (xs ++ (texParValueTypesLoop p).2.map node) := by
  fun_induction texParValueTypesList node p l with
  | case1 p l h =>
    rw [texParValueTypesLoop, if_pos h]
    exact ⟨rfl, fun xs hxs => by rwa [List.map_nil, List.append_nil]⟩
  | case2 p l h first ih =>
    rw [texParValueTypesLoop, if_neg h]
    refine ⟨ih.1, fun xs hxs => ?_⟩
    have hpushed := ih.2 _ (hxs.push (node first.2))
    rwa [List.append_assoc] at hpushed

theorem texParNamedClauseList_eq (p : TexParser) (l : TexList TexNamedValueType) :
    (texParNamedClauseList p l).1 = (texParNamedClause p).1 ∧
      ∀ xs, l.Represents xs →
        (texParNamedClauseList p l).2.Represents (xs ++ (texParNamedClause p).2) := by
  simp only [texParNamedClauseList, texParNamedClause]
  split
  · split
    · rename_i hid
      obtain ⟨hparser, hlist⟩ := texParValueTypesList_eq (⟨(texParParseId p).2, ·⟩)
        (texParParseValueType (texParParseId p).1).1
        (l.push ⟨(texParParseId p).2, (texParParseValueType (texParParseId p).1).2⟩)
      refine ⟨by rw [hparser], fun xs hxs => ?_⟩
      have hpushed := hlist _ (hxs.push _)
      rwa [List.append_assoc] at hpushed
    · exact ⟨rfl, fun xs hxs => hxs.push _⟩
  · exact ⟨rfl, fun xs hxs => by rwa [List.append_nil]⟩

def texParParseNamedValueTypeList (keyword : ClauseKeyword) (p : TexParser)
    (l : TexList TexNamedValueType) : TexParser × TexList TexNamedValueType :=
  if texParGetNextParenKind p = keyword.kind then
    let opened := texParParenKindBegin p keyword.kind
    if opened.2 then
      let clause := texParNamedClauseList opened.1 l
      texParParseNamedValueTypeList keyword clause.1 clause.2
    else texParParseNamedValueTypeList keyword opened.1 l
  else (p, l)
termination_by p.tokens.length
decreasing_by
  · rename_i h _
    obtain ⟨hbegin, hlt⟩ := texParParenKindBegin_clause h
    rw [(texParNamedClauseList_eq _ l).1, hbegin]
    exact (texParNamedClause_length_le _).trans_lt hlt
  · rename_i h _
    obtain ⟨hbegin, hlt⟩ := texParParenKindBegin_clause h
    rw [hbegin]
    exact hlt

def texParParseValueTypesList (keyword : ClauseKeyword) (p : TexParser) (l : TexList ValueType) :
    TexParser × TexList ValueType :=
  if texParGetNextParenKind p = keyword.kind then
    let opened := texParParenKindBegin p keyword.kind
    if opened.2 then
      let clause := texParValueTypesList id opened.1 l
      texParParseValueTypesList keyword (texParParenKindEnd clause.1) clause.2
    else texParParseValueTypesList keyword opened.1 l
  else (p, l)
termination_by p.tokens.length
decreasing_by
  · rename_i h _
    obtain ⟨hbegin, hlt⟩ := texParParenKindBegin_clause h
    rw [(texParValueTypesList_eq id _ l).1, hbegin]
    exact (texParParenKindEnd_length_le _).trans_lt
      ((texParValueTypesLoop_length_le _).trans_lt hlt)
  · rename_i h _
    obtain ⟨hbegin, hlt⟩ := texParParenKindBegin_clause h
    rw [hbegin]
    exact hlt

/-- The lists of a `Tex_Func_Type`, in an arena that holds the nodes it is given. -/
def texParParseFuncTypeDeclLists (p : TexParser) (params : List (ListNode TexNamedValueType))
    (results : List (ListNode ValueType)) :
    TexParser × TexList TexNamedValueType × TexList ValueType :=
  let params := texParParseNamedValueTypeList .param p ⟨params, .empty⟩
  let results := texParParseValueTypesList .result params.1 ⟨results, .empty⟩
  (results.1, params.2, results.2)

theorem texParParseNamedValueTypeList_eq (keyword : ClauseKeyword) (p : TexParser)
    (l : TexList TexNamedValueType) :
    (texParParseNamedValueTypeList keyword p l).1 = (texParParseNamedValueType keyword p).1 ∧
      ∀ xs, l.Represents xs → (texParParseNamedValueTypeList keyword p l).2.Represents
        (xs ++ (texParParseNamedValueType keyword p).2) := by
  fun_induction texParParseNamedValueTypeList keyword p l with
  | case1 p l hnext opened hopened clause ih =>
    obtain ⟨hparser, hlist⟩ := texParNamedClauseList_eq opened.1 l
    rw [texParParseNamedValueType, if_pos hnext]
    dsimp only
    rw [if_pos hopened, ← hparser]
    refine ⟨ih.1, fun xs hxs => ?_⟩
    have hclause := ih.2 _ (hlist xs hxs)
    rwa [List.append_assoc] at hclause
  | case2 p l hnext opened hopened ih =>
    rw [texParParseNamedValueType, if_pos hnext]
    dsimp only
    rw [if_neg hopened]
    exact ih
  | case3 p l hnext =>
    rw [texParParseNamedValueType, if_neg hnext]
    exact ⟨rfl, fun xs hxs => by rwa [List.append_nil]⟩

theorem texParParseValueTypesList_eq (keyword : ClauseKeyword) (p : TexParser)
    (l : TexList ValueType) :
    (texParParseValueTypesList keyword p l).1 = (texParParseValueTypes keyword p).1 ∧
      ∀ xs, l.Represents xs → (texParParseValueTypesList keyword p l).2.Represents
        (xs ++ (texParParseValueTypes keyword p).2) := by
  fun_induction texParParseValueTypesList keyword p l with
  | case1 p l hnext opened hopened clause ih =>
    obtain ⟨hparser, hlist⟩ := texParValueTypesList_eq id opened.1 l
    rw [texParParseValueTypes, if_pos hnext]
    dsimp only
    rw [if_pos hopened, ← hparser]
    refine ⟨ih.1, fun xs hxs => ?_⟩
    have hclause := ih.2 _ (hlist xs hxs)
    rwa [List.map_id, List.append_assoc] at hclause
  | case2 p l hnext opened hopened ih =>
    rw [texParParseValueTypes, if_pos hnext]
    dsimp only
    rw [if_neg hopened]
    exact ih
  | case3 p l hnext =>
    rw [texParParseValueTypes, if_neg hnext]
    exact ⟨rfl, fun xs hxs => by rwa [List.append_nil]⟩

/-- The lists in the arena stand for those of the syntax tree. -/
theorem texParParseFuncTypeDeclLists_eq (p : TexParser)
    (params : List (ListNode TexNamedValueType)) (results : List (ListNode ValueType)) :
    (texParParseFuncTypeDeclLists p params results).1 = (texParParseFuncTypeDecl p).1 ∧
      (texParParseFuncTypeDeclLists p params results).2.1.Represents
        (texParParseFuncTypeDecl p).2.params ∧
      (texParParseFuncTypeDeclLists p params results).2.2.Represents
        (texParParseFuncTypeDecl p).2.results := by
  obtain ⟨hparser, hparams⟩ := texParParseNamedValueTypeList_eq .param p ⟨params, .empty⟩
  obtain ⟨hparser', hresults⟩ := texParParseValueTypesList_eq .result
    (texParParseNamedValueTypeList .param p ⟨params, .empty⟩).1 ⟨results, .empty⟩
  have hparams := hparams [] (TexList.represents_empty params)
  have hresults := hresults [] (TexList.represents_empty results)
  rw [hparser] at hparser' hresults
  simp only [texParParseFuncTypeDeclLists, texParParseFuncTypeDecl, hparser]
  exact ⟨hparser', hparams, hresults⟩

/-! ### Clauses of the grammar -/

/-- The value type that a token stands for. -/
def valueTypeOf : TexTokenKind → ValueType
  | .i32 => .i32
  | .i64 => .i64
  | .f32 => .f32
  | .f64 => .f64
  | _ => .unset

/-- The tokens of a clause and its entries: value types, or a name and one value type. -/
inductive TexClause (keyword : ClauseKeyword) : List TexToken → List TexNamedValueType → Prop
  | types {opening word closing : TexToken} {types : List TexToken}
      (hopening : opening.kind = .parenOpen) (hword : word.kind = keyword.kind)
      (htypes : ∀ type ∈ types, IsValueType type.kind) (hclosing : closing.kind = .parenClose) :
      TexClause keyword (opening :: word :: (types ++ [closing]))
        (types.map fun type => ⟨[], valueTypeOf type.kind⟩)
  | named {opening word name type closing : TexToken} (hkeyword : keyword ≠ .result)
      (hopening : opening.kind = .parenOpen) (hword : word.kind = keyword.kind)
      (hname : name.kind = .identifier) (htype : IsValueType type.kind)
      (hclosing : closing.kind = .parenClose) :
      TexClause keyword [opening, word, name, type, closing]
        [⟨name.data, valueTypeOf type.kind⟩]

/-- Any number of clauses, with their entries one behind the other. -/
inductive TexClauses (keyword : ClauseKeyword) : List TexToken → List TexNamedValueType → Prop
  | nil : TexClauses keyword [] []
  | cons {clause clauses : List TexToken} {xs ys : List TexNamedValueType} :
      TexClause keyword clause xs → TexClauses keyword clauses ys →
      TexClauses keyword (clause ++ clauses) (xs ++ ys)

/-- The tokens do not start with a clause. -/
def NoClause (keyword : ClauseKeyword) (tokens : List TexToken) : Prop :=
  ∀ opening word rest, tokens = opening :: word :: rest → opening.kind = .parenOpen →
    word.kind ≠ keyword.kind

/-- The parser has gone on from `p` to `q`, in front of `rest`, without an error. -/
def Passes (p q : TexParser) (rest : List TexToken) : Prop :=
  q.tokens = rest ∧ q.errors = p.errors

theorem passes_next {token : TexToken} {rest : List TexToken} (h : p.tokens = token :: rest) :
    Passes p (texParNextToken p) rest := by
  refine ⟨?_, rfl⟩
  rw [tokens_texParNextToken, h, List.tail_cons]

theorem passes_texParParenKindEnd {closing : TexToken} {rest : List TexToken}
    (hclosing : closing.kind = .parenClose) (h : p.tokens = closing :: rest) :
    Passes p (texParParenKindEnd p) rest := by
  have hcurrent : p.currentToken.kind = .parenClose := by
    rw [(currentToken_of_tokens h).2 _ _ rfl, hclosing]
  simp only [texParParenKindEnd, texParExpectCurrent, if_pos hcurrent, if_true]
  exact passes_next h

theorem texParParseValueType_of_tokens {type : TexToken} {rest : List TexToken}
    (htype : IsValueType type.kind) (h : p.tokens = type :: rest) :
    texParParseValueType p = (texParNextToken p, valueTypeOf type.kind) := by
  have hcurrent := (currentToken_of_tokens h).2 _ _ rfl
  rcases htype with hkind | hkind | hkind | hkind
  all_goals
    rw [texParParseValueType, hcurrent, hkind]
    rfl

theorem texParValueTypesLoop_of_tokens {types : List TexToken} {closing : TexToken}
    {rest : List TexToken} (htypes : ∀ type ∈ types, IsValueType type.kind)
    (hclosing : closing.kind = .parenClose) (h : p.tokens = types ++ closing :: rest) :
    Passes p (texParValueTypesLoop p).1 (closing :: rest) ∧
      (texParValueTypesLoop p).2 = types.map fun type => valueTypeOf type.kind := by
  induction types generalizing p with
  | nil =>
    have hcurrent := (currentToken_of_tokens h).2 _ _ rfl
    rw [texParValueTypesLoop, if_pos (Or.inr (by rw [hcurrent, hclosing]))]
    exact ⟨⟨h, rfl⟩, rfl⟩
  | cons type types ih =>
    obtain ⟨htype, htypes⟩ := List.forall_mem_cons.mp htypes
    have hcurrent := (currentToken_of_tokens h).2 _ _ rfl
    have hgo : ¬(p.currentToken.kind = .eof ∨ p.currentToken.kind = .parenClose) := by
      rw [hcurrent]
      rcases htype with hkind | hkind | hkind | hkind <;> simp [hkind]
    obtain ⟨hpasses, hlist⟩ := ih htypes (passes_next h).1
    rw [texParValueTypesLoop, if_neg hgo]
    simp only [texParParseValueType_of_tokens htype h, hlist, List.map_cons]
    exact ⟨hpasses, trivial⟩

/-- A clause without a name. Its entries have none either. -/
theorem texParNamedClause_types {types : List TexToken} {closing : TexToken}
    {rest : List TexToken} (htypes : ∀ type ∈ types, IsValueType type.kind)
    (hclosing : closing.kind = .parenClose) (h : p.tokens = types ++ closing :: rest) :
    Passes p (texParNamedClause p).1 rest ∧
      (texParNamedClause p).2 = types.map fun type => ⟨[], valueTypeOf type.kind⟩ := by
  rcases types with _ | ⟨type, types⟩
  · have hcurrent := (currentToken_of_tokens h).2 _ _ rfl
    have hid : texParParseId p = (p, []) := by
      rw [texParParseId, if_neg (by rw [hcurrent, hclosing]; simp)]
    simp only [texParNamedClause, hid]
    rw [if_neg (by rw [hcurrent, hclosing]; simp)]
    exact ⟨passes_texParParenKindEnd hclosing h, rfl⟩
  · obtain ⟨htype, htypes⟩ := List.forall_mem_cons.mp htypes
    have hcurrent := (currentToken_of_tokens h).2 _ _ rfl
    have hid : texParParseId p = (p, []) := by
      rw [texParParseId, if_neg (hcurrent ▸ (ne_paren_of_isValueType htype).2.2)]
    have hgo : p.currentToken.kind ≠ .parenClose := hcurrent ▸ (ne_paren_of_isValueType htype).2.1
    obtain ⟨hloop, hlist⟩ := texParValueTypesLoop_of_tokens htypes hclosing (passes_next h).1
    obtain ⟨hend, herrors⟩ := passes_texParParenKindEnd hclosing hloop.1
    simp only [texParNamedClause, hid, if_pos hgo, texParParseValueType_of_tokens htype h,
      if_true, hlist]
    exact ⟨⟨hend, herrors.trans hloop.2⟩, by simp⟩

/-- A clause with a name has one entry, and the name is that of the token. -/
theorem texParNamedClause_named {name type closing : TexToken} {rest : List TexToken}
    (hname : name.kind = .identifier) (htype : IsValueType type.kind)
    (hclosing : closing.kind = .parenClose) (h : p.tokens = name :: type :: closing :: rest) :
    Passes p (texParNamedClause p).1 rest ∧
      (texParNamedClause p).2 = [⟨name.data, valueTypeOf type.kind⟩] := by
  have hcurrent := (currentToken_of_tokens h).2 _ _ rfl
  have hdata : name.data ≠ [] := by
    have hsound := p.current_sound.1
    rw [hcurrent] at hsound
    exact hsound hname
  have hid : texParParseId p = (texParNextToken p, name.data) := by
    rw [texParParseId, hcurrent, if_pos hname]
  have htokens := (passes_next h).1
  have hgo : (texParNextToken p).currentToken.kind ≠ .parenClose := by
    rw [(currentToken_of_tokens htokens).2 _ _ rfl]
    exact (ne_paren_of_isValueType htype).2.1
  simp only [texParNamedClause, hid, if_pos hgo, texParParseValueType_of_tokens htype htokens,
    if_neg hdata]
  exact ⟨passes_texParParenKindEnd hclosing (passes_next htokens).1, trivial⟩

theorem texParGetNextParenKind_of_noClause {keyword : ClauseKeyword}
    (h : NoClause keyword p.tokens) : texParGetNextParenKind p ≠ keyword.kind := by
  rw [ne_eq, texParGetNextParenKind_eq_iff p keyword.kind_ne]
  rintro ⟨kinds, hkinds⟩
  obtain ⟨opening, tokens, htokens, hopening, hrest⟩ := List.map_eq_cons_iff.mp hkinds
  obtain ⟨word, rest, rfl, hword, -⟩ := List.map_eq_cons_iff.mp hrest
  exact h opening word rest htokens hopening hword

/-- At a clause it is opened. -/
theorem begin_of_tokens {keyword : ClauseKeyword} {opening word : TexToken} {rest : List TexToken}
    (hopening : opening.kind = .parenOpen) (hword : word.kind = keyword.kind)
    (h : p.tokens = opening :: word :: rest) :
    texParGetNextParenKind p = keyword.kind ∧
      texParParenKindBegin p keyword.kind = (texParNextToken (texParNextToken p), true) ∧
      Passes p (texParNextToken (texParNextToken p)) rest := by
  have hkinds : p.kinds = .parenOpen :: keyword.kind :: rest.map TexToken.kind := by
    rw [TexParser.kinds, h, List.map_cons, List.map_cons, hopening, hword]
  exact ⟨(texParGetNextParenKind_eq_iff p keyword.kind_ne).mpr ⟨_, hkinds⟩,
    texParParenKindBegin_of_kinds hkinds, passes_next (passes_next h).1⟩

/-- The loop over clauses with names. By induction on the clauses. -/
theorem texParParseNamedValueType_clauses {keyword : ClauseKeyword} {clauses : List TexToken}
    {xs : List TexNamedValueType} {rest : List TexToken} (hclauses : TexClauses keyword clauses xs)
    (hrest : NoClause keyword rest) (h : p.tokens = clauses ++ rest) :
    Passes p (texParParseNamedValueType keyword p).1 rest ∧
      (texParParseNamedValueType keyword p).2 = xs := by
  induction hclauses generalizing p with
  | nil =>
    rw [texParParseNamedValueType, if_neg (texParGetNextParenKind_of_noClause (h ▸ hrest))]
    exact ⟨⟨h, rfl⟩, rfl⟩
  | @cons clause clauses xs ys hclause _ ih =>
    have hstep : ∀ {opening word : TexToken} {body : List TexToken},
        clause ++ (clauses ++ rest) = opening :: word :: body → opening.kind = .parenOpen →
        word.kind = keyword.kind →
        (∀ q : TexParser, q.tokens = body → Passes q (texParNamedClause q).1 (clauses ++ rest) ∧
          (texParNamedClause q).2 = xs) →
        Passes p (texParParseNamedValueType keyword p).1 rest ∧
          (texParParseNamedValueType keyword p).2 = xs ++ ys := by
      intro opening word body hbody hopening hword hclause
      rw [List.append_assoc, hbody] at h
      obtain ⟨hnext, hbegin, hopened⟩ := begin_of_tokens hopening hword h
      obtain ⟨hpasses, hentries⟩ := hclause _ hopened.1
      obtain ⟨hlast, hlist⟩ := ih hpasses.1
      rw [texParParseNamedValueType, if_pos hnext]
      simp only [hbegin, if_true, hentries, hlist]
      exact ⟨⟨hlast.1, hlast.2.trans (hpasses.2.trans hopened.2)⟩, trivial⟩
    rcases hclause with ⟨hopening, hword, htypes, hclosing⟩ |
      ⟨-, hopening, hword, hname, htype, hclosing⟩
    · refine hstep rfl hopening hword fun q hq => ?_
      exact texParNamedClause_types htypes hclosing (hq.trans (List.append_assoc _ [_] _))
    · exact hstep rfl hopening hword fun q hq => texParNamedClause_named hname htype hclosing hq

/-- The loop over results. -/
theorem texParParseValueTypes_clauses {clauses : List TexToken} {xs : List TexNamedValueType}
    {rest : List TexToken} (hclauses : TexClauses .result clauses xs)
    (hrest : NoClause .result rest) (h : p.tokens = clauses ++ rest) :
    Passes p (texParParseValueTypes .result p).1 rest ∧
      (texParParseValueTypes .result p).2 = xs.map TexNamedValueType.valueType := by
  induction hclauses generalizing p with
  | nil =>
    rw [texParParseValueTypes, if_neg (texParGetNextParenKind_of_noClause (h ▸ hrest))]
    exact ⟨⟨h, rfl⟩, rfl⟩
  | cons hclause _ ih =>
    rcases hclause with ⟨hopening, hword, htypes, hclosing⟩ | ⟨hkeyword, -, -, -, -, -⟩
    · simp only [List.cons_append, List.append_assoc] at h
      obtain ⟨hnext, hbegin, hopened⟩ := begin_of_tokens hopening hword h
      obtain ⟨hloop, hentries⟩ := texParValueTypesLoop_of_tokens htypes hclosing hopened.1
      obtain ⟨hclosed, herrors⟩ := passes_texParParenKindEnd hclosing hloop.1
      obtain ⟨hlast, hlist⟩ := ih hclosed
      rw [texParParseValueTypes, if_pos hnext]
      simp only [hbegin, if_true, hentries, hlist]
      exact ⟨⟨hlast.1, hlast.2.trans (herrors.trans (hloop.2.trans hopened.2))⟩, by simp⟩
    · exact absurd rfl hkeyword

/-- No parameters follow the results. -/
theorem TexClauses.noParam {clauses : List TexToken} {xs : List TexNamedValueType}
    {rest : List TexToken} (h : TexClauses .result clauses xs) (hrest : NoClause .param rest) :
    NoClause .param (clauses ++ rest) := by
  rcases h with _ | ⟨⟨-, hword, -, -⟩ | ⟨hkeyword, -, -, -, -, -⟩, -⟩
  · exact hrest
  · intro opening' word' rest' heq _
    simp only [List.cons_append, List.cons.injEq] at heq
    rw [← heq.2.1, hword]
    simp [ClauseKeyword.kind]
  · exact absurd rfl hkeyword

/-- Parameter clauses and then result clauses: nothing is reported, the lists in the arena hold
their entries in order, and the parser stands at the token behind them. -/
theorem texParParseFuncTypeDeclLists_clauses {params results rest : List TexToken}
    {xs ys : List TexNamedValueType} (hparams : TexClauses .param params xs)
    (hresults : TexClauses .result results ys) (hparam : NoClause .param rest)
    (hresult : NoClause .result rest) (h : p.tokens = params ++ (results ++ rest))
    (nodes : List (ListNode TexNamedValueType)) (nodes' : List (ListNode ValueType)) :
    ∃ q ps rs, texParParseFuncTypeDeclLists p nodes nodes' = (q, ps, rs) ∧
      q.errors = p.errors ∧ ps.toList = xs ∧ ps.list.count = xs.length ∧
      rs.toList = ys.map TexNamedValueType.valueType ∧ rs.list.count = ys.length ∧
      q.tokens = rest ∧ (rest = [] → q.currentToken.kind = .eof) ∧
      ∀ token tokens, rest = token :: tokens → q.currentToken = token := by
  obtain ⟨hpasses, hxs⟩ := texParParseNamedValueType_clauses hparams (hresults.noParam hparam) h
  obtain ⟨hlast, hys⟩ := texParParseValueTypes_clauses hresults hresult hpasses.1
  obtain ⟨hparser, hps, hrs⟩ := texParParseFuncTypeDeclLists_eq p nodes nodes'
  simp only [texParParseFuncTypeDecl, hxs, hys] at hparser hps hrs
  obtain ⟨hend, hcurrent⟩ := currentToken_of_tokens hlast.1
  generalize texParParseFuncTypeDeclLists p nodes nodes' = decl at hparser hps hrs ⊢
  obtain ⟨q, ps, rs⟩ := decl
  obtain rfl : q = _ := hparser
  refine ⟨_, ps, rs, rfl, hlast.2.trans hpasses.2, hps.toList_eq, hps.count_eq, hrs.toList_eq, ?_,
    hlast.1, hend, hcurrent⟩
  rw [hrs.count_eq, List.length_map]

/-- `(param $x i32) (param i64) (result f64))`. -/
def declToken : ℕ → TexToken :=
  texTokNth (texTokInit (ascii "(param $x i32) (param i64) (result f64))") "test.wat")

def declKinds : List TexTokenKind :=
  [.parenOpen, .param, .identifier, .i32, .parenClose, .parenOpen, .param, .i64, .parenClose,
    .parenOpen, .result, .f64, .parenClose, .parenClose]

theorem kinds_declToken :
    (List.range (declKinds.length + 1)).map (fun n => (declToken n).kind) =
      declKinds ++ [.eof] := by
  decide +kernel

theorem kind_declToken {n : ℕ} {kind : TexTokenKind}
    (h : (declKinds ++ [.eof])[n]? = some kind) : (declToken n).kind = kind :=
  kind_texTokNth_of_kinds kinds_declToken h

/-- The name stays with the parameter that it is given to. -/
theorem texParParseFuncTypeDeclLists_names :
    ∃ q ps rs, texParParseFuncTypeDeclLists
        (texParOfText (ascii "(param $x i32) (param i64) (result f64))") "test.wat") [] [] =
          (q, ps, rs) ∧
      q.errors = [] ∧ ps.toList = [⟨(declToken 2).data, .i32⟩, ⟨[], .i64⟩] ∧ ps.list.count = 2 ∧
      rs.toList = [.f64] ∧ rs.list.count = 1 ∧ q.tokens = [declToken 13] := by
  have htokens : (texParOfText (ascii "(param $x i32) (param i64) (result f64))")
      "test.wat").tokens = (List.range 14).map declToken := by
    rw [tokens_texParOfText]
    exact tokens_of_kinds _ kinds_declToken (by decide)
  have htype : ∀ {n : ℕ} {kind : TexTokenKind}, IsValueType kind →
      (declKinds ++ [.eof])[n]? = some kind → IsValueType (declToken n).kind := by
    intro n kind hkind hn
    rwa [kind_declToken hn]
  have hparams : TexClauses .param ((List.range 9).map declToken)
      [⟨(declToken 2).data, .i32⟩, ⟨[], .i64⟩] := by
    have hnamed : TexClause .param ((List.range 5).map declToken)
        [⟨(declToken 2).data, valueTypeOf (declToken 3).kind⟩] :=
      .named (by simp) (kind_declToken rfl) (kind_declToken rfl) (kind_declToken rfl)
        (htype (Or.inl rfl) rfl) (kind_declToken rfl)
    have htypes : TexClause .param (declToken 5 :: declToken 6 :: ([declToken 7] ++ [declToken 8]))
        [⟨[], valueTypeOf (declToken 7).kind⟩] :=
      .types (kind_declToken rfl) (kind_declToken rfl)
        (List.forall_mem_singleton.mpr (htype (Or.inr (Or.inl rfl)) rfl)) (kind_declToken rfl)
    rw [@kind_declToken 3 _ rfl] at hnamed
    rw [@kind_declToken 7 _ rfl] at htypes
    exact .cons hnamed (.cons htypes .nil)
  have hresults : TexClauses .result ((List.range' 9 4).map declToken) [⟨[], .f64⟩] := by
    have htypes : TexClause .result
        (declToken 9 :: declToken 10 :: ([declToken 11] ++ [declToken 12]))
        [⟨[], valueTypeOf (declToken 11).kind⟩] :=
      .types (kind_declToken rfl) (kind_declToken rfl)
        (List.forall_mem_singleton.mpr (htype (Or.inr (Or.inr (Or.inr rfl))) rfl))
        (kind_declToken rfl)
    rw [@kind_declToken 11 _ rfl] at htypes
    exact .cons htypes .nil
  have hrest : ∀ keyword, NoClause keyword [declToken 13] := by
    intro keyword opening word rest h
    simp at h
  obtain ⟨q, ps, rs, hdecl, herrors, hps, hcount, hrs, hcount', hend, -, -⟩ :=
    texParParseFuncTypeDeclLists_clauses hparams hresults (hrest _) (hrest _) htokens [] []
  exact ⟨q, ps, rs, hdecl, herrors, hps, hcount, hrs, hcount', hend⟩

end Wasim
