import Mathlib.Computability.Language
import Wasim.Text.Advances
import Wasim.Text.Fields

/-!
# What the parser accepts

The grammar of modules as languages over tokens. `module` is the grammar of the text format,
with the type use as a clause and the parameters and results behind it. What the parser accepts
without an error is the larger language `looseModule`: the token behind `type` is not looked at,
the parameters and results stand inside the type clause, and a clause may have a name and no
type (`texParParseModule_takes`). The two agree on a text exactly when it has no such place
(`module_iff_strictAt`).
-/

namespace Wasim

namespace TexGrammar

open scoped Computability

/-! ### The grammar of the text format -/

/-- One token with a property. -/
def token (P : TexToken → Prop) : Language TexToken := {tokens | ∃ t, tokens = [t] ∧ P t}

def ofKind (kind : TexTokenKind) : Language TexToken := token (·.kind = kind)

/-- A form in parentheses with a keyword in front. -/
def form (kind : TexTokenKind) (body : Language TexToken) : Language TexToken :=
  ofKind .parenOpen * (ofKind kind * (body * ofKind .parenClose))

def IsValueType (kind : TexTokenKind) : Prop :=
  kind = .i32 ∨ kind = .i64 ∨ kind = .f32 ∨ kind = .f64

def identifier : Language TexToken := ofKind .identifier

def valueType : Language TexToken := token fun t => IsValueType t.kind

/-- An identifier or an integer that fits into 32 bits. -/
def index : Language TexToken :=
  token fun t => t.kind = .identifier ∨ (t.kind = .integerUnsigned ∧ literalValue t.data < 2 ^ 32)

def namedClause (keyword : ClauseKeyword) : Language TexToken :=
  form keyword.kind (valueType∗ + identifier * valueType)

def resultClause : Language TexToken := form .result valueType∗

def typeUse : Language TexToken :=
  form .type index * ((namedClause .param)∗ * resultClause∗)

def func : Language TexToken :=
  form .func ((1 + identifier) * ((1 + typeUse) * (namedClause .local_)∗))

def module : Language TexToken := form .module ((1 + identifier) * func∗)

/-! ### What the parser takes -/

/-- The token behind `type`: an integer is checked, and anything else is passed over. -/
def looseIndex : Language TexToken :=
  token fun t => t.kind = .integerUnsigned → literalValue t.data < 2 ^ 32

def looseClause (keyword : ClauseKeyword) : Language TexToken :=
  form keyword.kind (valueType∗ + identifier * (1 + valueType))

def looseTypeUse : Language TexToken :=
  form .type (looseIndex * ((looseClause .param)∗ * resultClause∗))

def looseFunc : Language TexToken :=
  form .func ((1 + identifier) * ((1 + looseTypeUse) * (looseClause .local_)∗))

def looseModule : Language TexToken := form .module ((1 + identifier) * looseFunc∗)

theorem cons_mem_kstar {l : Language TexToken} {a b : List TexToken} (ha : a ∈ l) (hb : b ∈ l∗) :
    a ++ b ∈ l∗ := by
  rw [← Language.one_add_self_mul_kstar_eq_kstar]
  exact Or.inr (Language.append_mem_mul ha hb)

/-- From `p` to `q` the parser has taken tokens of the language. -/
def Takes (p q : TexParser) (l : Language TexToken) : Prop :=
  ∃ tokens ∈ l, p.tokens = tokens ++ q.tokens

variable {p q r : TexParser} {l m : Language TexToken}

theorem Takes.mul (hpq : Takes p q l) (hqr : Takes q r m) : Takes p r (l * m) := by
  obtain ⟨a, ha, hp⟩ := hpq
  obtain ⟨b, hb, hq⟩ := hqr
  exact ⟨a ++ b, Language.append_mem_mul ha hb, by rw [hp, hq, List.append_assoc]⟩

theorem Takes.inl (h : Takes p q l) : Takes p q (l + m) := by
  obtain ⟨a, ha, hp⟩ := h
  exact ⟨a, Or.inl ha, hp⟩

theorem Takes.inr (h : Takes p q m) : Takes p q (l + m) := by
  obtain ⟨a, ha, hp⟩ := h
  exact ⟨a, Or.inr ha, hp⟩

theorem Takes.kstar_cons (hpq : Takes p q l) (hqr : Takes q r l∗) : Takes p r l∗ := by
  obtain ⟨a, ha, hp⟩ := hpq
  obtain ⟨b, hb, hq⟩ := hqr
  exact ⟨a ++ b, cons_mem_kstar ha hb, by rw [hp, hq, List.append_assoc]⟩

theorem takes_one (p : TexParser) : Takes p p 1 := ⟨[], rfl, rfl⟩

theorem takes_kstar (p : TexParser) : Takes p p l∗ := ⟨[], Language.nil_mem_kstar l, rfl⟩

theorem takes_next {P : TexToken → Prop} (h : p.currentToken.kind ≠ .eof)
    (hP : P p.currentToken) : Takes p (texParNextToken p) (token P) :=
  ⟨[p.currentToken], ⟨_, rfl, hP⟩, by rw [tokens_texParNextToken]; exact tokens_cons h⟩

theorem takes_next_kind {kind : TexTokenKind} (hkind : kind ≠ .eof)
    (h : p.currentToken.kind = kind) : Takes p (texParNextToken p) (ofKind kind) :=
  takes_next (by rw [h]; exact hkind) h

/-- An error that has been reported stays. -/
theorem errors_ne_nil {token : TexToken} {format : String} {args : List TexArg}
    (h : Advances (texParErrorf p token format args) q) : q.errors ≠ [] := by
  intro hq
  have := h.errors_eq_nil hq
  simp [texParErrorf] at this

theorem texParParenKindEnd_takes (h : (texParParenKindEnd p).errors = []) :
    Takes p (texParParenKindEnd p) (ofKind .parenClose) := by
  rw [texParParenKindEnd, texParExpectCurrent] at h ⊢
  split at h
  · rename_i hclose
    rw [if_pos hclose]
    exact takes_next_kind (by simp) hclose
  · exact absurd h (errors_ne_nil (advances_texParRecover 0 _))

theorem texParParseValueType_takes (h : (texParParseValueType p).1.errors = []) :
    Takes p (texParParseValueType p).1 valueType := by
  rw [texParParseValueType] at h ⊢
  split at h
  all_goals rename_i hkind
  · exact takes_next (by simp [hkind]) (Or.inl hkind)
  · exact takes_next (by simp [hkind]) (Or.inr (Or.inl hkind))
  · exact takes_next (by simp [hkind]) (Or.inr (Or.inr (Or.inl hkind)))
  · exact takes_next (by simp [hkind]) (Or.inr (Or.inr (Or.inr hkind)))
  · exact absurd h (errors_ne_nil Advances.refl.next)

theorem texParValueTypesLoop_takes (h : (texParValueTypesLoop p).1.errors = []) :
    Takes p (texParValueTypesLoop p).1 valueType∗ := by
  fun_induction texParValueTypesLoop p with
  | case1 p _ => exact takes_kstar p
  | case2 p _ first rest ih =>
    have hfirst := (advances_texParValueTypesLoop first.1).errors_eq_nil h
    exact (texParParseValueType_takes hfirst).kstar_cons (ih h)

theorem texParNamedClause_takes (h : (texParNamedClause p).1.errors = []) :
    Takes p (texParNamedClause p).1
      ((valueType∗ + identifier * (1 + valueType)) * ofKind .parenClose) := by
  have hsound := p.current_sound.1
  simp only [texParNamedClause, texParParseId] at h ⊢
  by_cases hid : p.currentToken.kind = .identifier
  · have htakes := takes_next_kind (by simp) hid
    simp only [if_pos hid, if_neg (hsound hid)] at h ⊢
    split at h
    · rw [if_pos ‹_›]
      have hend := (advances_texParParenKindEnd _).errors_eq_nil h
      exact (htakes.mul (texParParseValueType_takes hend).inr).inr.mul (texParParenKindEnd_takes h)
    · rw [if_neg ‹_›]
      exact (htakes.mul (takes_one _).inl).inr.mul (texParParenKindEnd_takes h)
  · simp only [if_neg hid, if_true] at h ⊢
    split at h
    · rw [if_pos ‹_›]
      have hend := (advances_texParParenKindEnd _).errors_eq_nil h
      have hfirst := (advances_texParValueTypesLoop _).errors_eq_nil hend
      exact ((texParParseValueType_takes hfirst).kstar_cons
        (texParValueTypesLoop_takes hend)).inl.mul (texParParenKindEnd_takes h)
    · rw [if_neg ‹_›]
      exact (takes_kstar p).inl.mul (texParParenKindEnd_takes h)

/-- A clause that the loops have found is opened. -/
theorem takes_begin {keyword : ClauseKeyword} (h : texParGetNextParenKind p = keyword.kind) :
    texParParenKindBegin p keyword.kind = (texParNextToken (texParNextToken p), true) ∧
      Takes p (texParNextToken (texParNextToken p)) (ofKind .parenOpen * ofKind keyword.kind) := by
  obtain ⟨kinds, hkinds⟩ := (texParGetNextParenKind_eq_iff p keyword.kind_ne).mp h
  refine ⟨texParParenKindBegin_of_kinds hkinds, ?_⟩
  exact (takes_next_kind (by simp) (current_of_kinds hkinds)).mul
    (takes_next_kind keyword.kind_ne.2 (peek_of_kinds hkinds))

theorem texParParseNamedValueType_takes {keyword : ClauseKeyword}
    (h : (texParParseNamedValueType keyword p).1.errors = []) :
    Takes p (texParParseNamedValueType keyword p).1 (looseClause keyword)∗ := by
  fun_induction texParParseNamedValueType keyword p with
  | case1 p hnext opened hopened clause rest ih =>
    obtain ⟨hbegin, htakes⟩ := takes_begin hnext
    have hclause := (advances_texParParseNamedValueType keyword clause.1).errors_eq_nil h
    refine Takes.kstar_cons ?_ (ih h)
    have hbody := texParNamedClause_takes hclause
    simp only [opened, hbegin] at hbody
    have hform := htakes.mul hbody
    rw [mul_assoc] at hform
    simp only [clause, opened, hbegin]
    exact hform
  | case2 p hnext opened hopened ih =>
    exact absurd (by simp [opened, (takes_begin hnext).1]) hopened
  | case3 p _ => exact takes_kstar p

theorem texParParseValueTypes_takes (h : (texParParseValueTypes .result p).1.errors = []) :
    Takes p (texParParseValueTypes .result p).1 resultClause∗ := by
  fun_induction texParParseValueTypes .result p with
  | case1 p hnext opened hopened clause rest ih =>
    obtain ⟨hbegin, htakes⟩ := takes_begin hnext
    have hend := (advances_texParParseValueTypes .result _).errors_eq_nil h
    have hloop := (advances_texParParenKindEnd _).errors_eq_nil hend
    refine Takes.kstar_cons ?_ (ih h)
    have hbody := (texParValueTypesLoop_takes hloop).mul (texParParenKindEnd_takes hend)
    simp only [opened, hbegin] at hbody
    have hform := htakes.mul hbody
    rw [mul_assoc] at hform
    simp only [clause, opened, hbegin]
    exact hform
  | case2 p hnext opened hopened ih =>
    exact absurd (by simp [opened, (takes_begin hnext).1]) hopened
  | case3 p _ => exact takes_kstar p

theorem texParTypeIndex_checked {use : TexTypeUse}
    (h : texParTypeIndex p = .returned (q, use)) (herrors : q.errors = []) :
    q.tokens = p.tokens ∧
      (p.currentToken.kind = .integerUnsigned → literalValue p.currentToken.data < 2 ^ 32) := by
  rw [texParTypeIndex] at h
  split at h
  · rename_i hkind
    obtain ⟨rfl, -⟩ := Prod.mk.inj (Outcome.returned.inj h)
    exact ⟨rfl, by simp [hkind]⟩
  · rename_i hkind
    obtain ⟨hsmall, hlarge⟩ := texU32FromString_eq (p.current_sound.2 hkind)
    by_cases hvalue : literalValue p.currentToken.data < 2 ^ 32
    · rw [hsmall hvalue, Outcome.returned_bind] at h
      obtain ⟨rfl, -⟩ := Prod.mk.inj (Outcome.returned.inj h)
      exact ⟨rfl, fun _ => hvalue⟩
    · obtain ⟨wrapped, hwrapped⟩ := hlarge (not_lt.mp hvalue)
      rw [hwrapped, Outcome.returned_bind] at h
      obtain ⟨rfl, -⟩ := Prod.mk.inj (Outcome.returned.inj h)
      exact absurd herrors (errors_ne_nil .refl)
  · rename_i hkind
    obtain ⟨rfl, -⟩ := Prod.mk.inj (Outcome.returned.inj h)
    exact ⟨rfl, fun hunsigned => absurd hunsigned hkind⟩

theorem texParParseTypeUse_takes {use : TexTypeUse}
    (h : texParParseTypeUse p = .returned (q, use)) (herrors : q.errors = []) :
    Takes p q (1 + looseTypeUse) := by
  have htype : TexTokenKind.type ≠ .invalid ∧ TexTokenKind.type ≠ .eof := by simp
  have hiff := texParGetNextParenKind_eq_iff p htype
  simp only [texParParseTypeUse] at h
  split at h
  · rename_i hnext
    obtain ⟨kinds, hkinds⟩ := hiff.mp hnext
    rw [texParParenKindBegin_of_kinds hkinds] at h
    simp only [if_true] at h
    obtain ⟨⟨r, use'⟩, hindex, hrest⟩ := Outcome.bind_eq_returned.mp h
    obtain ⟨rfl, -⟩ := Prod.mk.inj (Outcome.returned.inj hrest)
    have hdecl := (advances_texParParenKindEnd _).errors_eq_nil herrors
    have hparams := (advances_texParParseValueTypes .result _).errors_eq_nil hdecl
    have hr : r.errors = [] :=
      (Advances.refl.next.trans (advances_texParParseNamedValueType .param _)).errors_eq_nil hparams
    obtain ⟨htokens, hchecked⟩ := texParTypeIndex_checked hindex hr
    have hopen := (takes_next_kind (by simp) (current_of_kinds hkinds)).mul
      (takes_next_kind (p := texParNextToken p) htype.2 (peek_of_kinds hkinds))
    have hbody := ((texParParseNamedValueType_takes hparams).mul
      (texParParseValueTypes_takes hdecl)).mul (texParParenKindEnd_takes herrors)
    -- at the end of the text the closing parenthesis would have been missed
    have hne : (texParNextToken (texParNextToken p)).currentToken.kind ≠ .eof := by
      intro heof
      obtain ⟨tokens, hmem, hsplit⟩ := hbody
      obtain ⟨a, -, b, ⟨t, rfl, -⟩, rfl⟩ := Language.mem_mul.mp hmem
      rw [tokens_texParNextToken, htokens, tokens_eq_nil heof] at hsplit
      simp at hsplit
    have hpassed : Takes (texParNextToken (texParNextToken p)) (texParNextToken r) looseIndex := by
      refine ⟨[(texParNextToken (texParNextToken p)).currentToken], ⟨_, rfl, hchecked⟩, ?_⟩
      rw [tokens_texParNextToken r, htokens]
      exact tokens_cons hne
    have hform := hopen.mul (hpassed.mul hbody)
    simp only [mul_assoc] at hform
    rw [looseTypeUse, form]
    simp only [mul_assoc]
    exact Takes.inr hform
  · obtain ⟨rfl, -⟩ := Prod.mk.inj (Outcome.returned.inj h)
    exact (takes_one p).inl

theorem texParParseId_takes (p : TexParser) : Takes p (texParParseId p).1 (1 + identifier) := by
  rw [texParParseId]
  split
  · rename_i hid
    exact (takes_next_kind (by simp) hid).inr
  · exact (takes_one p).inl

theorem texParParseFunc_takes {f : TexFunc} (h : texParParseFunc p = .returned (q, f))
    (herrors : q.errors = []) : Takes p q looseFunc := by
  simp only [texParParseFunc] at h
  split at h
  · rename_i hfunc
    have hbegin : texParParenKindBegin p .func = (texParNextToken (texParNextToken p), true) := by
      rw [texParParenKindBegin, if_pos hfunc.1, if_pos hfunc.2]
    rw [hbegin] at h
    simp only [if_true] at h
    obtain ⟨⟨r, use⟩, huse, hrest⟩ := Outcome.bind_eq_returned.mp h
    obtain ⟨rfl, -⟩ := Prod.mk.inj (Outcome.returned.inj hrest)
    have hlocals := (advances_texParParenKindEnd _).errors_eq_nil herrors
    have hr := (advances_texParParseNamedValueType .local_ r).errors_eq_nil hlocals
    have hopen := (takes_next_kind (by simp) hfunc.1).mul
      (takes_next_kind (p := texParNextToken p) (by simp) hfunc.2)
    have hform := (hopen.mul ((texParParseId_takes _).mul ((texParParseTypeUse_takes huse hr).mul
      (texParParseNamedValueType_takes hlocals)))).mul (texParParenKindEnd_takes herrors)
    simp only [mul_assoc] at hform
    rw [looseFunc, form]
    simp only [mul_assoc]
    exact hform
  · cases h

theorem texParModuleLoop_takes {fuel : ℕ} {funcs funcs' : List TexFunc}
    (h : texParModuleLoop fuel p funcs = .returned (q, funcs')) (herrors : q.errors = []) :
    Takes p q looseFunc∗ := by
  induction fuel generalizing p funcs with
  | zero => cases h
  | succ fuel ih =>
    rw [texParModuleLoop] at h
    split at h
    · obtain ⟨⟨r, funcs''⟩, hfield, hrest⟩ := Outcome.bind_eq_returned.mp h
      have hr := (advances_texParModuleLoop hrest).errors_eq_nil herrors
      rw [texParModuleField] at hfield
      split at hfield
      · obtain ⟨⟨r', f⟩, hfunc, hpair⟩ := Outcome.bind_eq_returned.mp hfield
        obtain ⟨rfl, -⟩ := Prod.mk.inj (Outcome.returned.inj hpair)
        exact (texParParseFunc_takes hfunc hr).kstar_cons (ih hrest)
      · -- a field that is not a function is reported
        obtain ⟨rfl, -⟩ := Prod.mk.inj (Outcome.returned.inj hfield)
        exact absurd hr (errors_ne_nil .refl)
    · obtain ⟨rfl, -⟩ := Prod.mk.inj (Outcome.returned.inj h)
      exact takes_kstar p

/-- Without an error the parser has taken a module of the loose grammar and is at the end. -/
theorem texParParseModule_takes {fuel : ℕ} {m : TexModule}
    (h : texParParseModule fuel p = .returned (q, m)) (herrors : q.errors = []) :
    p.tokens ∈ looseModule := by
  simp only [texParParseModule] at h
  split at h
  · rename_i hopened
    obtain ⟨kinds, hkinds⟩ := (texParParenKindBegin_eq_true_iff p (by simp)).mp hopened
    rw [texParParenKindBegin_of_kinds hkinds] at h
    obtain ⟨⟨r, funcs⟩, hloop, hrest⟩ := Outcome.bind_eq_returned.mp h
    obtain ⟨rfl, -⟩ := Prod.mk.inj (Outcome.returned.inj hrest)
    have hend := (advances_texParExpectCurrent _ _).errors_eq_nil herrors
    have hr := (advances_texParParenKindEnd r).errors_eq_nil hend
    have heof : (texParParenKindEnd r).currentToken.kind = .eof := by
      by_contra hne
      rw [texParExpectCurrent, if_neg hne] at herrors
      exact errors_ne_nil .refl herrors
    have hopen := (takes_next_kind (by simp) (current_of_kinds hkinds)).mul
      (takes_next_kind (p := texParNextToken p) (by simp) (peek_of_kinds hkinds))
    have hform := (hopen.mul ((texParParseId_takes _).mul (texParModuleLoop_takes hloop hr))).mul
      (texParParenKindEnd_takes hend)
    obtain ⟨tokens, hmem, hsplit⟩ := hform
    rw [tokens_eq_nil heof, List.append_nil] at hsplit
    rw [hsplit, looseModule, form]
    simp only [mul_assoc] at hmem ⊢
    exact hmem
  · rename_i hopened
    -- the opening of the module was reported
    obtain ⟨rfl, -⟩ := Prod.mk.inj (Outcome.returned.inj h)
    rw [texParParenKindBegin] at herrors hopened
    split at hopened
    · rename_i hopen
      rw [if_pos hopen] at herrors
      split at hopened
      · exact absurd rfl hopened
      · rename_i hpeek
        rw [if_neg hpeek] at herrors
        exact absurd herrors (errors_ne_nil (advances_texParRecover 0 _))
    · rename_i hopen
      rw [if_neg hopen] at herrors
      exact absurd herrors (errors_ne_nil .refl)

/-! ### Where the two grammars differ -/

/-- In front of this the parser takes nothing that the text format has not: a type clause is an
index in parentheses, and a clause with a name has a type. -/
def strictAt : List TexTokenKind → Bool
  | .parenOpen :: .type :: index :: .parenClose :: _ =>
    index = .identifier || index = .integerUnsigned
  | .parenOpen :: .type :: _ => false
  | .parenOpen :: .param :: .identifier :: .parenClose :: _ => false
  | .parenOpen :: .local_ :: .identifier :: .parenClose :: _ => false
  | _ => true

/-- The same in front of every token. -/
def strict : List TexTokenKind → Bool
  | [] => true
  | kind :: kinds => strictAt (kind :: kinds) && strict kinds

def kinds (tokens : List TexToken) : List TexTokenKind := tokens.map TexToken.kind

theorem kinds_append (a b : List TexToken) : kinds (a ++ b) = kinds a ++ kinds b :=
  List.map_append

theorem strict_of_append {a b : List TexTokenKind} (h : strict (a ++ b)) : strict b := by
  induction a with
  | nil => exact h
  | cons kind a ih =>
    rw [List.cons_append, strict, Bool.and_eq_true] at h
    exact ih h.2

theorem strict_cons {kind : TexTokenKind} (hkind : kind ≠ .parenOpen)
    (rest : List TexTokenKind) : strict (kind :: rest) = strict rest := by
  rw [strict, strictAt, Bool.true_and] <;> simp [hkind]

/-- At strict places the words of the first language are words of the second. -/
def Tightens (l l' : Language TexToken) : Prop :=
  ∀ a ∈ l, ∀ rest, strict (kinds a ++ rest) → a ∈ l'

theorem tightens_self (l : Language TexToken) : Tightens l l := fun _ ha _ _ => ha

theorem Tightens.mul {l l' m m' : Language TexToken} (hl : Tightens l l') (hm : Tightens m m') :
    Tightens (l * m) (l' * m') := by
  rintro _ ⟨a, ha, b, hb, rfl⟩ rest hrest
  dsimp only at hrest
  rw [kinds_append, List.append_assoc] at hrest
  exact Language.append_mem_mul (hl a ha _ hrest) (hm b hb rest (strict_of_append hrest))

theorem Tightens.add {l l' m m' : Language TexToken} (hl : Tightens l l') (hm : Tightens m m') :
    Tightens (l + m) (l' + m') := by
  rintro a (ha | ha) rest hrest
  · exact Or.inl (hl a ha rest hrest)
  · exact Or.inr (hm a ha rest hrest)

theorem Tightens.kstar {l l' : Language TexToken} (h : Tightens l l') : Tightens l∗ l'∗ := by
  rintro _ ⟨L, rfl, hL⟩
  induction L with
  | nil => exact fun _ _ => Language.nil_mem_kstar l'
  | cons a L ih =>
    intro rest hrest
    rw [List.flatten_cons, kinds_append, List.append_assoc] at hrest
    exact cons_mem_kstar (h a (hL a (by simp)) _ hrest)
      (ih (fun b hb => hL b (by simp [hb])) rest (strict_of_append hrest))

/-- The words of a language have no loose place in them. -/
def Keeps (l : Language TexToken) : Prop :=
  ∀ a ∈ l, ∀ rest, strict rest → strict (kinds a ++ rest)

theorem Keeps.one : Keeps 1 := by
  rintro _ rfl rest hrest
  exact hrest

theorem Keeps.mul {l m : Language TexToken} (hl : Keeps l) (hm : Keeps m) : Keeps (l * m) := by
  rintro _ ⟨a, ha, b, hb, rfl⟩ rest hrest
  dsimp only
  rw [kinds_append, List.append_assoc]
  exact hl a ha _ (hm b hb rest hrest)

theorem Keeps.add {l m : Language TexToken} (hl : Keeps l) (hm : Keeps m) : Keeps (l + m) := by
  rintro a (ha | ha)
  · exact hl a ha
  · exact hm a ha

theorem Keeps.kstar {l : Language TexToken} (h : Keeps l) : Keeps l∗ := by
  rintro _ ⟨L, rfl, hL⟩
  induction L with
  | nil => exact fun _ hrest => hrest
  | cons a L ih =>
    intro rest hrest
    rw [List.flatten_cons, kinds_append, List.append_assoc]
    exact h a (hL a (by simp)) _ (ih (fun b hb => hL b (by simp [hb])) rest hrest)

theorem Keeps.token {P : TexToken → Prop} (h : ∀ t, P t → t.kind ≠ .parenOpen) :
    Keeps (token P) := by
  rintro _ ⟨t, rfl, ht⟩ rest hrest
  rw [kinds, List.map_singleton, List.singleton_append, strict_cons (h t ht)]
  exact hrest

theorem Keeps.ofKind {kind : TexTokenKind} (h : kind ≠ .parenOpen) : Keeps (ofKind kind) :=
  Keeps.token fun t ht => by rw [ht]; exact h

theorem Keeps.form {kind : TexTokenKind} {body : Language TexToken}
    (hkind : kind ≠ .parenOpen ∧ kind ≠ .type ∧ kind ≠ .param ∧ kind ≠ .local_)
    (h : Keeps body) : Keeps (form kind body) := by
  rintro _ ⟨_, ⟨o, rfl, ho⟩, _, ⟨_, ⟨k, rfl, hk⟩, b, hb, rfl⟩, rfl⟩ rest hrest
  have hbody := h.mul (Keeps.ofKind (by simp)) b hb rest hrest
  simp only [kinds, List.map_cons, List.cons_append, List.nil_append] at hbody ⊢
  rw [strict, ho, hk, strict_cons hkind.1, hbody, Bool.and_true, strictAt]
  all_goals simp [hkind]

theorem mem_form {kind : TexTokenKind} {body : Language TexToken} {a : List TexToken} :
    a ∈ form kind body ↔ ∃ o k c : TexToken, ∃ b ∈ body, a = o :: k :: (b ++ [c]) ∧
      o.kind = .parenOpen ∧ k.kind = kind ∧ c.kind = .parenClose := by
  constructor
  · rintro ⟨_, ⟨o, rfl, ho⟩, _, ⟨_, ⟨k, rfl, hk⟩, _, ⟨b, hb, _, ⟨c, rfl, hc⟩, rfl⟩, rfl⟩, rfl⟩
    exact ⟨o, k, c, b, hb, rfl, ho, hk, hc⟩
  · rintro ⟨o, k, c, b, hb, rfl, ho, hk, hc⟩
    exact ⟨[o], ⟨o, rfl, ho⟩, _, ⟨[k], ⟨k, rfl, hk⟩, _, ⟨b, hb, [c], ⟨c, rfl, hc⟩, rfl⟩, rfl⟩, rfl⟩

theorem ne_paren_of_isValueType {kind : TexTokenKind} (h : IsValueType kind) :
    kind ≠ .parenOpen ∧ kind ≠ .parenClose ∧ kind ≠ .identifier := by
  rcases h with rfl | rfl | rfl | rfl <;> simp

theorem Keeps.valueTypes : Keeps valueType∗ :=
  (Keeps.token fun _ ht => (ne_paren_of_isValueType ht).1).kstar

/-- A list of value types is empty or starts with one. -/
theorem mem_valueTypes {a : List TexToken} (h : a ∈ valueType∗) :
    a = [] ∨ ∃ t b, a = t :: b ∧ IsValueType t.kind := by
  rw [← Language.one_add_self_mul_kstar_eq_kstar] at h
  rcases h with rfl | ⟨_, ⟨t, rfl, ht⟩, b, -, rfl⟩
  · exact Or.inl rfl
  · exact Or.inr ⟨t, b, rfl, ht⟩

/-- A form with a keyword keeps strictness if the place in front of it is strict. -/
theorem strict_form {o k : TexToken} {b : List TexToken} {rest : List TexTokenKind}
    (hk : k.kind ≠ .parenOpen)
    (hat : strictAt (o.kind :: k.kind :: (kinds b ++ rest))) (hb : strict (kinds b ++ rest)) :
    strict (kinds (o :: k :: b) ++ rest) := by
  simp only [kinds, List.map_cons, List.cons_append] at hat hb ⊢
  rw [strict, hat, strict_cons hk, hb, Bool.and_true]

theorem Keeps.namedClause {keyword : ClauseKeyword} (h : keyword ≠ .result) :
    Keeps (namedClause keyword) := by
  intro a ha rest hrest
  obtain ⟨o, k, c, b, hb, rfl, ho, hk, hc⟩ := mem_form.mp ha
  have hkeeps : Keeps (valueType∗ + identifier * valueType) :=
    Keeps.valueTypes.add ((Keeps.ofKind (by simp)).mul
      (Keeps.token fun _ ht => (ne_paren_of_isValueType ht).1))
  have hend : Keeps (TexGrammar.ofKind .parenClose) := Keeps.ofKind (by simp)
  have hbody : strict (kinds (b ++ [c]) ++ rest) :=
    hkeeps.mul hend _ (Language.append_mem_mul hb ⟨c, rfl, hc⟩) rest hrest
  refine strict_form (by rw [hk]; rcases keyword <;> simp [ClauseKeyword.kind]) ?_ hbody
  rw [ho, hk]
  rcases hb with hb | ⟨_, ⟨i, rfl, hi⟩, _, ⟨t, rfl, ht⟩, rfl⟩
  · rcases mem_valueTypes hb with rfl | ⟨t, b, rfl, ht⟩
    · rcases keyword <;> simp_all [kinds, strictAt, ClauseKeyword.kind]
    · have hne := ne_paren_of_isValueType ht
      rcases keyword <;> simp_all [kinds, strictAt, ClauseKeyword.kind]
  · have hne := ne_paren_of_isValueType ht
    rcases keyword <;> simp_all [kinds, strictAt, ClauseKeyword.kind]

theorem Keeps.typeUse : Keeps typeUse := by
  refine Keeps.mul ?_ ((Keeps.namedClause (by simp)).kstar.mul
    (Keeps.form (by simp) Keeps.valueTypes).kstar)
  intro a ha rest hrest
  obtain ⟨o, k, c, _, ⟨i, rfl, hi⟩, rfl, ho, hk, hc⟩ := mem_form.mp ha
  have hkind : i.kind = .identifier ∨ i.kind = .integerUnsigned := hi.imp_right And.left
  refine strict_form (by rw [hk]; simp) ?_ ?_
  · rcases hkind with hkind | hkind <;> simp [ho, hk, hc, hkind, kinds, strictAt]
  · have hclose : strict (c.kind :: rest) = strict rest := strict_cons (by simp [hc]) rest
    have hopen : i.kind ≠ .parenOpen := by rcases hkind with hkind | hkind <;> simp [hkind]
    simpa [kinds, strict_cons hopen, hclose] using hrest

theorem Keeps.module : Keeps module := by
  have hid : Keeps (1 + identifier) := Keeps.one.add (Keeps.ofKind (by simp))
  refine Keeps.form (by simp) (hid.mul (Keeps.kstar ?_))
  exact Keeps.form (by simp)
    (hid.mul ((Keeps.one.add Keeps.typeUse).mul (Keeps.namedClause (by simp)).kstar))

theorem Tightens.clause {keyword : ClauseKeyword} (h : keyword ≠ .result) :
    Tightens (looseClause keyword) (TexGrammar.namedClause keyword) := by
  intro a ha rest hrest
  obtain ⟨o, k, c, b, hb, rfl, ho, hk, hc⟩ := mem_form.mp ha
  refine mem_form.mpr ⟨o, k, c, b, ?_, rfl, ho, hk, hc⟩
  rcases hb with hb | ⟨_, ⟨i, rfl, hi⟩, b, hb, rfl⟩
  · exact Or.inl hb
  · rcases hb with rfl | hb
    · -- a name without a type is not strict
      rcases keyword <;> simp_all [kinds, strict, strictAt, ClauseKeyword.kind]
    · exact Or.inr (Language.append_mem_mul ⟨i, rfl, hi⟩ hb)

/-- A list of clauses is empty or starts with an opening parenthesis. -/
theorem mem_clauses {kind : TexTokenKind} {body : Language TexToken} {a : List TexToken}
    (h : a ∈ (form kind body)∗) : a = [] ∨ ∃ o b, a = o :: b ∧ o.kind = .parenOpen := by
  rw [← Language.one_add_self_mul_kstar_eq_kstar] at h
  rcases h with rfl | ⟨_, ha, b, -, rfl⟩
  · exact Or.inl rfl
  · obtain ⟨o, k, c, b', -, rfl, ho, -, -⟩ := mem_form.mp ha
    exact Or.inr ⟨o, _, rfl, ho⟩

theorem Tightens.typeUse : Tightens looseTypeUse TexGrammar.typeUse := by
  intro a ha rest hrest
  obtain ⟨o, k, c, _, ⟨_, ⟨i, rfl, hi⟩, _, ⟨ps, hps, rs, hrs, rfl⟩, rfl⟩, rfl, ho, hk, hc⟩ :=
    mem_form.mp ha
  -- behind the index there is the closing parenthesis
  have hempty : ps = [] ∧ rs = [] ∧ (i.kind = .identifier ∨ i.kind = .integerUnsigned) := by
    rcases mem_clauses hps with rfl | ⟨o', b, rfl, ho'⟩
    · rcases mem_clauses hrs with rfl | ⟨o', b, rfl, ho'⟩
      · simp only [kinds, strict, strictAt, List.append_nil, List.nil_append, List.map_cons,
          List.map_nil, List.cons_append, ho, hk, hc] at hrest
        simp only [Bool.and_eq_true, Bool.or_eq_true, decide_eq_true_eq] at hrest
        exact ⟨rfl, rfl, hrest.1⟩
      · simp [kinds, strict, strictAt, ho, hk, ho'] at hrest
    · simp [kinds, strict, strictAt, ho, hk, ho'] at hrest
  obtain ⟨rfl, rfl, hkind⟩ := hempty
  refine ⟨_, mem_form.mpr ⟨o, k, c, [i], ⟨i, rfl, ?_⟩, rfl, ho, hk, hc⟩, [],
    ⟨[], Language.nil_mem_kstar _, [], Language.nil_mem_kstar _, rfl⟩, by simp⟩
  rcases hkind with hkind | hkind
  · exact Or.inl hkind
  · exact Or.inr ⟨hkind, hi hkind⟩

theorem Tightens.form {kind : TexTokenKind} {l l' : Language TexToken} (h : Tightens l l') :
    Tightens (TexGrammar.form kind l) (TexGrammar.form kind l') :=
  (tightens_self _).mul ((tightens_self _).mul (h.mul (tightens_self _)))

theorem Tightens.module : Tightens looseModule TexGrammar.module :=
  ((tightens_self _).mul (((tightens_self _).mul
    (((tightens_self _).add Tightens.typeUse).mul
      (Tightens.clause (by simp)).kstar)).form.kstar)).form

/-- A module of the loose grammar is one of the text format exactly when all its places are
strict. -/
theorem mem_module_iff {tokens : List TexToken} (h : tokens ∈ looseModule) :
    tokens ∈ TexGrammar.module ↔ strict (kinds tokens) := by
  constructor
  · intro hmodule
    have hkeeps := Keeps.module tokens hmodule [] rfl
    rwa [List.append_nil] at hkeeps
  · intro hstrict
    exact Tightens.module tokens h [] (by rwa [List.append_nil])

end TexGrammar

/-- With this fuel the text is parsed without an error. -/
def acceptsWithin (fuel : ℕ) (input : List UInt8) (file : String) : Bool :=
  match texParParseModule fuel (texParOfText input file) with
  | .returned (q, _) => q.errors = [] && q.tokenizer.errors = []
  | _ => false

theorem exists_of_acceptsWithin (fuel : ℕ) (input : List UInt8) (file : String)
    (h : acceptsWithin fuel input file) :
    ∃ q m, Outcome.Returns (fun fuel => texParParseModule fuel (texParOfText input file)) (q, m) ∧
      q.errors = [] ∧ q.tokenizer.errors = [] := by
  rw [acceptsWithin] at h
  split at h
  · rename_i q m hresult
    simp only [Bool.and_eq_true, decide_eq_true_eq] at h
    exact ⟨q, m, ⟨fuel, hresult⟩, h⟩
  · cases h

/-- On a text that is parsed without an error the tokens form a module exactly when every type
clause is an index in parentheses and every name in a clause has a type. Only the errors of the
parser matter. -/
theorem texParParseModule_accepts_iff {input : List UInt8} {file : String} {q : TexParser}
    {m : TexModule}
    (hreturns : Outcome.Returns (fun fuel => texParParseModule fuel (texParOfText input file))
      (q, m)) (hparser : q.errors = []) :
    texTokens input file ∈ TexGrammar.module ↔
      TexGrammar.strict ((texTokens input file).map TexToken.kind) := by
  obtain ⟨fuel, hfuel⟩ := hreturns
  have hloose := TexGrammar.texParParseModule_takes hfuel hparser
  rw [texParOfText, tokens_texParInit] at hloose
  exact TexGrammar.mem_module_iff hloose

/-- A function with a type and named and unnamed locals. -/
theorem texParParseModule_accepts_locals :
    texTokens (ascii "(module (func $f (type 0) (local i32 i64) (local $x f32)))") "test.wat" ∈
      TexGrammar.module := by
  obtain ⟨q, m, hreturns, hparser, -⟩ := exists_of_acceptsWithin 3
    (ascii "(module (func $f (type 0) (local i32 i64) (local $x f32)))") "test.wat"
    (by decide +kernel)
  exact (texParParseModule_accepts_iff hreturns hparser).mpr (by decide +kernel)

/-- A keyword in the place of the type index is passed over in silence. -/
theorem texParParseModule_accepts_no_index :
    ∃ q m, Outcome.Returns (fun fuel => texParParseModule fuel
        (texParOfText (ascii "(module (func (type i32)))") "test.wat")) (q, m) ∧
      q.errors = [] ∧ q.tokenizer.errors = [] ∧
      texTokens (ascii "(module (func (type i32)))") "test.wat" ∉ TexGrammar.module := by
  obtain ⟨q, m, hreturns, hparser, htokenizer⟩ := exists_of_acceptsWithin 2
    (ascii "(module (func (type i32)))") "test.wat" (by decide +kernel)
  refine ⟨q, m, hreturns, hparser, htokenizer, ?_⟩
  obtain ⟨fuel, hfuel⟩ := hreturns
  have hloose := TexGrammar.texParParseModule_takes hfuel hparser
  rw [texParOfText, tokens_texParInit] at hloose
  rw [texTokens, TexGrammar.mem_module_iff hloose]
  decide +kernel

end Wasim
