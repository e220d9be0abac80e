import Wasim.Text.Advances
import Wasim.Text.Fields
import Wasim.Text.Tiling

/-!
# Recovery

Inside a function with balanced parentheses the parser knows how deep it is, as long as it reads
no parenthesis as an ordinary token. It does so in two places: the token behind `type` is taken
whatever it is, and value types are read up to the next closing parenthesis. `funcMisread` is the
number of opening minus that of closing parentheses read like this, and a function is left right
behind its own closing parenthesis exactly when this number is zero (`afterFunc_eq_iff`).

From this follows when no function is lost (`texParParseModule_recovers_iff`).
-/

namespace Wasim

/-! ### Levels -/

/-- The rest of a function, `level` forms deep in it, up to its closing parenthesis. -/
inductive Level : ℕ → List TexTokenKind → Prop
  | last : Level 0 [.parenClose]
  | close {level : ℕ} {kinds : List TexTokenKind} : Level level kinds →
      Level (level + 1) (.parenClose :: kinds)
  | open_ {level : ℕ} {kinds : List TexTokenKind} : Level (level + 1) kinds →
      Level level (.parenOpen :: kinds)
  | other {level : ℕ} {kind : TexTokenKind} {kinds : List TexTokenKind}
      (hopen : kind ≠ .parenOpen) (hclose : kind ≠ .parenClose) : Level level kinds →
      Level level (kind :: kinds)

section Levels

variable {level : ℕ} {kinds rest : List TexTokenKind}

theorem Level.ne_nil (h : Level level kinds) : kinds ≠ [] := by
  rcases h with _ | _ | _ | _ <;> simp

theorem Level.of_open (h : Level level (.parenOpen :: kinds)) : Level (level + 1) kinds := by
  generalize hlist : TexTokenKind.parenOpen :: kinds = list at h
  rcases h with _ | _ | h | ⟨hopen, -, -⟩
  · cases hlist
  · cases hlist
  · obtain ⟨-, rfl⟩ := List.cons.inj hlist
    exact h
  · exact absurd (List.cons.inj hlist).1.symm hopen

theorem Level.of_close (h : Level (level + 1) (.parenClose :: kinds)) : Level level kinds := by
  generalize hlist : TexTokenKind.parenClose :: kinds = list at h
  rcases h with _ | h | _ | ⟨-, hclose, -⟩
  · obtain ⟨-, rfl⟩ := List.cons.inj hlist
    exact h
  · cases hlist
  · exact absurd (List.cons.inj hlist).1.symm hclose

theorem Level.of_other {kind : TexTokenKind} (hopen : kind ≠ .parenOpen)
    (hclose : kind ≠ .parenClose) (h : Level level (kind :: kinds)) : Level level kinds := by
  generalize hlist : kind :: kinds = list at h
  rcases h with _ | _ | _ | ⟨-, -, h⟩
  · exact absurd (List.cons.inj hlist).1 hclose
  · exact absurd (List.cons.inj hlist).1 hclose
  · exact absurd (List.cons.inj hlist).1 hopen
  · obtain ⟨-, rfl⟩ := List.cons.inj hlist
    exact h

theorem closeForm_other {kind : TexTokenKind} (hopen : kind ≠ .parenOpen)
    (hclose : kind ≠ .parenClose) (depth : ℕ) (kinds : List TexTokenKind) :
    closeForm depth (kind :: kinds) = closeForm depth kinds := by
  rw [closeForm]
  · exact hopen
  · exact fun _ => hclose
  · exact fun _ _ => hclose

theorem length_closeForm_cons (depth : ℕ) (kind : TexTokenKind) (kinds : List TexTokenKind) :
    (closeForm depth (kind :: kinds)).length ≤ kinds.length := by
  by_cases hopen : kind = .parenOpen
  · subst hopen
    exact length_closeForm_le (depth + 1) kinds
  · by_cases hclose : kind = .parenClose
    · subst hclose
      rcases depth with _ | depth
      · exact le_rfl
      · exact length_closeForm_le depth kinds
    · rw [closeForm_other hopen hclose]
      exact length_closeForm_le depth kinds

theorem ClauseKeyword.kind_ne_paren (keyword : ClauseKeyword) :
    keyword.kind ≠ .parenOpen ∧ keyword.kind ≠ .parenClose := by
  rcases keyword <;> simp [ClauseKeyword.kind]

/-- What follows the function is not looked at. -/
theorem Level.closeForm_append {depth : ℕ} (h : Level level kinds) (hdepth : depth ≤ level)
    (rest : List TexTokenKind) :
    closeForm depth (kinds ++ rest) = closeForm depth kinds ++ rest := by
  induction h generalizing depth with
  | last =>
    obtain rfl := Nat.le_zero.mp hdepth
    rfl
  | close _ ih =>
    rcases depth with _ | depth
    · rfl
    · exact ih (Nat.le_of_succ_le_succ hdepth)
  | open_ _ ih => exact ih (Nat.succ_le_succ hdepth)
  | other hopen hclose _ ih =>
    rw [List.cons_append, closeForm_other hopen hclose, closeForm_other hopen hclose, ih hdepth]

theorem Level.closeForm_last (h : Level level kinds) : closeForm level kinds = [] := by
  induction h with
  | last => rfl
  | close _ ih => exact ih
  | open_ _ ih => exact ih
  | other hopen hclose _ ih => rw [closeForm_other hopen hclose, ih]

/-- Closing forms goes out by that many levels. -/
theorem Level.closeForm {depth : ℕ} {kinds : List TexTokenKind} {outer : ℕ}
    (h : Level outer kinds) (houter : outer = level + depth + 1) :
    Level level (closeForm depth kinds) := by
  induction h generalizing depth with
  | last => omega
  | @close outer kinds hkinds ih =>
    rcases depth with _ | depth
    · obtain rfl : outer = level := by omega
      exact hkinds
    · exact ih (by omega)
  | open_ _ ih => exact ih (by omega)
  | other hopen hclose _ ih =>
    rw [closeForm_other hopen hclose]
    exact ih houter

/-! ### Parentheses read as ordinary tokens -/

/-- The opening parentheses in a list of value types. -/
def typesMisread (kinds : List TexTokenKind) : ℕ :=
  (kinds.takeWhile (· ≠ .parenClose)).count .parenOpen

/-- The opening parentheses read as value types in a clause, from behind its keyword on. -/
def clauseMisread : ClauseKeyword → List TexTokenKind → ℕ
  | .result, kinds => typesMisread kinds
  | _, .identifier :: .parenOpen :: _ => 1
  | _, .identifier :: _ => 0
  | _, kinds => typesMisread kinds

def clausesMisread (keyword : ClauseKeyword) : List TexTokenKind → ℕ
  | .parenOpen :: kind :: kinds =>
    if kind = keyword.kind then
      clauseMisread keyword kinds + clausesMisread keyword (afterClause keyword kinds)
    else 0
  | _ => 0
termination_by kinds => kinds.length
decreasing_by
  have := length_afterClause_le keyword kinds
  simp only [List.length_cons]
  omega

/-- A parenthesis read as the index of a type. -/
def indexMisread : List TexTokenKind → ℤ
  | .parenOpen :: _ => 1
  | .parenClose :: _ => -1
  | _ => 0

def typeUseMisread : List TexTokenKind → ℤ
  | .parenOpen :: .type :: kinds =>
    indexMisread kinds + clausesMisread .param kinds.tail +
      clausesMisread .result (afterClauses .param kinds.tail)
  | _ => 0

/-- Opening minus closing parentheses that are read as a type index or as value types in a
function, from behind its keyword on. -/
def funcMisread (kinds : List TexTokenKind) : ℤ :=
  typeUseMisread (afterId kinds) + clausesMisread .local_ (afterTypeUse (afterId kinds))

theorem Level.afterTypes (h : Level (level + 1) kinds) :
    Level (level + typesMisread kinds) (afterTypes kinds) ∧
      ∀ rest, Wasim.afterTypes (kinds ++ rest) = Wasim.afterTypes kinds ++ rest ∧
        typesMisread (kinds ++ rest) = typesMisread kinds := by
  induction kinds generalizing level with
  | nil => exact absurd rfl h.ne_nil
  | cons kind kinds ih =>
    by_cases hclose : kind = .parenClose
    · subst hclose
      refine ⟨?_, fun rest => ⟨by simp [Wasim.afterTypes], by simp [typesMisread]⟩⟩
      have hkinds := h.of_close
      simpa [Wasim.afterTypes, typesMisread] using hkinds
    · have hafter : ∀ kinds, Wasim.afterTypes (kind :: kinds) = Wasim.afterTypes kinds := by
        intro kinds
        simp [Wasim.afterTypes, hclose]
      by_cases hopen : kind = .parenOpen
      · subst hopen
        have hmisread : ∀ kinds,
            typesMisread (.parenOpen :: kinds) = typesMisread kinds + 1 := by
          intro kinds
          simp [typesMisread]
        obtain ⟨hlevel, hrest⟩ := ih h.of_open
        rw [hafter, hmisread]
        refine ⟨by rwa [Nat.add_right_comm] at hlevel, fun rest => ?_⟩
        rw [List.cons_append, hafter, hmisread, (hrest rest).1, (hrest rest).2]
        exact ⟨rfl, rfl⟩
      · have hmisread : ∀ kinds, typesMisread (kind :: kinds) = typesMisread kinds := by
          intro kinds
          simp [typesMisread, hclose, hopen]
        obtain ⟨hlevel, hrest⟩ := ih (h.of_other hopen hclose)
        rw [hafter, hmisread]
        refine ⟨hlevel, fun rest => ?_⟩
        rw [List.cons_append, hafter, hmisread]
        exact hrest rest

theorem Level.afterClause (keyword : ClauseKeyword) (h : Level (level + 1) kinds) :
    Level (level + clauseMisread keyword kinds) (afterClause keyword kinds) ∧
      ∀ rest, Wasim.afterClause keyword (kinds ++ rest) =
          Wasim.afterClause keyword kinds ++ rest ∧
        clauseMisread keyword (kinds ++ rest) = clauseMisread keyword kinds := by
  by_cases hresult : keyword = .result
  · subst hresult
    simpa [Wasim.afterClause, clauseMisread] using h.afterTypes
  rcases kinds with _ | ⟨kind, kinds⟩
  · exact absurd rfl h.ne_nil
  by_cases hid : kind = .identifier
  · -- a name, and one token behind it
    subst hid
    have hbehind := h.of_other (by simp) (by simp)
    rcases kinds with _ | ⟨kind, kinds⟩
    · exact absurd rfl hbehind.ne_nil
    by_cases hclose : kind = .parenClose
    · subst hclose
      have hlevel := hbehind.of_close
      rcases keyword <;> simp_all [Wasim.afterClause, clauseMisread]
    · by_cases hopen : kind = .parenOpen
      · subst hopen
        have hinner := hbehind.of_open
        have hlevel : Level (level + 1) (Wasim.closeForm 0 kinds) := hinner.closeForm (by omega)
        have happend := hinner.closeForm_append (Nat.zero_le _)
        rcases keyword <;> simp_all [Wasim.afterClause, clauseMisread]
      · have hinner := hbehind.of_other hopen hclose
        have hlevel : Level level (Wasim.closeForm 0 kinds) := hinner.closeForm (by omega)
        have happend := hinner.closeForm_append (Nat.zero_le _)
        rcases keyword <;> simp_all [Wasim.afterClause, clauseMisread]
  · have htypes := h.afterTypes
    rcases keyword <;> simp_all [Wasim.afterClause, clauseMisread]

/-- Each clause goes in by the parentheses misread in it. -/
theorem Level.afterClauses (keyword : ClauseKeyword) (h : Level level kinds) :
    Level (level + clausesMisread keyword kinds) (afterClauses keyword kinds) ∧
      ∀ rest, Wasim.afterClauses keyword (kinds ++ rest) =
          Wasim.afterClauses keyword kinds ++ rest ∧
        clausesMisread keyword (kinds ++ rest) = clausesMisread keyword kinds := by
  induction kinds using clausesMisread.induct keyword generalizing level with
  | case1 kinds ih =>
    have hkeyword := keyword.kind_ne_paren
    have hinside := h.of_open.of_other hkeyword.1 hkeyword.2
    obtain ⟨hclause, hclauseRest⟩ := hinside.afterClause keyword
    obtain ⟨hclauses, hclausesRest⟩ := ih hclause
    refine ⟨?_, fun rest => ?_⟩
    · rw [clausesMisread, if_pos rfl, Wasim.afterClauses, if_pos rfl, ← Nat.add_assoc]
      exact hclauses
    · rw [List.cons_append, List.cons_append, Wasim.afterClauses, if_pos rfl,
        Wasim.afterClauses, if_pos rfl, clausesMisread, if_pos rfl, clausesMisread, if_pos rfl,
        (hclauseRest rest).1, (hclauseRest rest).2, (hclausesRest rest).1,
        (hclausesRest rest).2]
      exact ⟨rfl, rfl⟩
  | case2 kind kinds hkind =>
    refine ⟨?_, fun rest => ?_⟩
    · rw [clausesMisread, if_neg hkind, Wasim.afterClauses, if_neg hkind]
      exact h
    · rw [List.cons_append, List.cons_append, Wasim.afterClauses, if_neg hkind,
        Wasim.afterClauses, if_neg hkind, clausesMisread, if_neg hkind, clausesMisread,
        if_neg hkind]
      exact ⟨rfl, rfl⟩
  | case3 kinds hkinds =>
    -- a function does not end in an opening parenthesis
    have hopen : ∀ kinds', kinds ≠ .parenOpen :: kinds' := by
      rintro kinds' rfl
      rcases kinds' with _ | ⟨kind, kinds'⟩
      · exact h.of_open.ne_nil rfl
      · exact hkinds kind kinds' rfl
    have hother : ∀ rest kind kinds', kinds ++ rest ≠ .parenOpen :: kind :: kinds' := by
      intro rest kind kinds' heq
      obtain ⟨k, ks, rfl⟩ := List.exists_cons_of_ne_nil h.ne_nil
      exact hopen ks (by rw [(List.cons.inj heq).1])
    have hafter : ∀ rest, Wasim.afterClauses keyword (kinds ++ rest) = kinds ++ rest := by
      intro rest
      rw [Wasim.afterClauses]
      exact fun kind kinds' => hother rest kind kinds'
    have hmisread : ∀ rest, clausesMisread keyword (kinds ++ rest) = 0 := by
      intro rest
      rw [clausesMisread]
      exact fun kind kinds' => hother rest kind kinds'
    have hafterNil := hafter []
    have hmisreadNil := hmisread []
    rw [List.append_nil] at hafterNil hmisreadNil
    rw [hafterNil, hmisreadNil]
    exact ⟨h, fun rest => ⟨hafter rest, hmisread rest⟩⟩

theorem Level.afterId (h : Level level kinds) :
    Level level (afterId kinds) ∧
      ∀ rest, Wasim.afterId (kinds ++ rest) = Wasim.afterId kinds ++ rest := by
  rcases kinds with _ | ⟨kind, kinds⟩
  · exact absurd rfl h.ne_nil
  by_cases hid : kind = .identifier
  · subst hid
    exact ⟨h.of_other (by simp) (by simp), fun _ => rfl⟩
  · have hafter : ∀ kinds, Wasim.afterId (kind :: kinds) = kind :: kinds := by
      intro kinds
      rw [Wasim.afterId]
      rintro _ heq
      exact hid (List.cons.inj heq).1
    rw [hafter]
    exact ⟨h, fun rest => hafter (kinds ++ rest)⟩

/-- The token behind `type` is passed over at any level. -/
theorem Level.tail (h : Level 1 kinds) :
    ∃ inner : ℕ, (inner : ℤ) = 1 + indexMisread kinds ∧ Level inner kinds.tail ∧
      ∀ rest, (kinds ++ rest).tail = kinds.tail ++ rest ∧
        indexMisread (kinds ++ rest) = indexMisread kinds := by
  rcases kinds with _ | ⟨kind, kinds⟩
  · exact absurd rfl h.ne_nil
  by_cases hopen : kind = .parenOpen
  · subst hopen
    exact ⟨2, rfl, h.of_open, fun _ => ⟨rfl, rfl⟩⟩
  · by_cases hclose : kind = .parenClose
    · subst hclose
      exact ⟨0, rfl, h.of_close, fun _ => ⟨rfl, rfl⟩⟩
    · have hindex : ∀ kinds, indexMisread (kind :: kinds) = 0 := by
        intro kinds
        rw [indexMisread]
        · rintro _ heq
          exact hopen (List.cons.inj heq).1
        · rintro _ heq
          exact hclose (List.cons.inj heq).1
      exact ⟨1, by rw [hindex]; rfl, h.of_other hopen hclose,
        fun rest => ⟨rfl, by rw [List.cons_append, hindex, hindex]⟩⟩

/-- A type use goes in by the parentheses misread in it. If its own closing parenthesis was read
as the index, it takes the closing parenthesis of the function. -/
theorem Level.afterTypeUse (h : Level 0 kinds) :
    ((∃ inner : ℕ, (inner : ℤ) = typeUseMisread kinds ∧ Level inner (afterTypeUse kinds)) ∨
      (typeUseMisread kinds = -1 ∧ afterTypeUse kinds = [])) ∧
    ∀ rest, Wasim.afterTypeUse (kinds ++ rest) = Wasim.afterTypeUse kinds ++ rest ∧
      typeUseMisread (kinds ++ rest) = typeUseMisread kinds := by
  by_cases htype : ∃ body, kinds = .parenOpen :: .type :: body
  · obtain ⟨body, rfl⟩ := htype
    obtain ⟨inner, hinner, htail, htailRest⟩ := (h.of_open.of_other (by simp) (by simp)).tail
    obtain ⟨hparams, hparamsRest⟩ := htail.afterClauses .param
    obtain ⟨hresults, hresultsRest⟩ := hparams.afterClauses .result
    have hmisread : typeUseMisread (.parenOpen :: .type :: body) =
        indexMisread body + clausesMisread .param body.tail +
          clausesMisread .result (Wasim.afterClauses .param body.tail) := rfl
    refine ⟨?_, fun rest => ?_⟩
    · rcases hlevel : inner + clausesMisread .param body.tail +
        clausesMisread .result (Wasim.afterClauses .param body.tail) with _ | outer
      · rw [hlevel] at hresults
        exact Or.inr ⟨by omega, hresults.closeForm_last⟩
      · rw [hlevel] at hresults
        exact Or.inl ⟨outer, by omega, hresults.closeForm (by omega)⟩
    · have hclose := hresults.closeForm_append (Nat.zero_le _) rest
      simp only [List.cons_append, Wasim.afterTypeUse, typeUseMisread, (htailRest rest).1,
        (htailRest rest).2, (hparamsRest rest).1, (hparamsRest rest).2, (hresultsRest rest).1,
        (hresultsRest rest).2, hclose, and_self]
  · have hother : ∀ rest body, kinds ++ rest ≠ .parenOpen :: .type :: body := by
      intro rest body heq
      obtain ⟨kind, tail, rfl⟩ := List.exists_cons_of_ne_nil h.ne_nil
      obtain ⟨rfl, hbehind⟩ := List.cons.inj heq
      obtain ⟨kind, tail, rfl⟩ := List.exists_cons_of_ne_nil h.of_open.ne_nil
      obtain ⟨rfl, -⟩ := List.cons.inj hbehind
      exact htype ⟨tail, rfl⟩
    have hafter : ∀ rest, Wasim.afterTypeUse (kinds ++ rest) = kinds ++ rest := by
      intro rest
      rw [Wasim.afterTypeUse]
      exact fun body => hother rest body
    have hmisread : ∀ rest, typeUseMisread (kinds ++ rest) = 0 := by
      intro rest
      rw [typeUseMisread]
      exact fun body => hother rest body
    have hafterNil := hafter []
    have hmisreadNil := hmisread []
    rw [List.append_nil] at hafterNil hmisreadNil
    rw [hafterNil, hmisreadNil]
    exact ⟨Or.inl ⟨0, rfl, h⟩, fun rest => ⟨hafter rest, hmisread rest⟩⟩

/-- A function is left right behind its closing parenthesis exactly when the parentheses misread
in it cancel out. -/
theorem afterFunc_eq_iff (h : Level 0 kinds) {rest : List TexTokenKind} (hne : rest ≠ [])
    (hrest : ∀ tail, rest ≠ .parenOpen :: .local_ :: tail) :
    afterFunc (kinds ++ rest) = rest ↔ funcMisread kinds = 0 := by
  obtain ⟨hid, hidRest⟩ := h.afterId
  obtain ⟨huse, huseRest⟩ := hid.afterTypeUse
  rw [afterFunc, hidRest, (huseRest rest).1, funcMisread]
  rcases huse with ⟨inner, hinner, hlevel⟩ | ⟨hmisread, hnil⟩
  · obtain ⟨hlocals, hlocalsRest⟩ := hlevel.afterClauses .local_
    rw [(hlocalsRest rest).1, hlocals.closeForm_append (Nat.zero_le _), ← hinner]
    rcases hsum : inner + clausesMisread .local_ (afterTypeUse (afterId kinds)) with _ | outer
    · rw [hsum] at hlocals
      rw [hlocals.closeForm_last]
      exact iff_of_true rfl (by omega)
    · rw [hsum] at hlocals
      have hleft : Level outer (closeForm 0 _) := hlocals.closeForm rfl
      refine iff_of_false ?_ (by omega)
      rw [List.append_left_eq_self]
      exact hleft.ne_nil
  · -- the closing parenthesis of the function is gone, and one behind it is taken
    have hafter : afterClauses .local_ rest = rest := by
      refine afterClauses_of_kinds .local_ hrest
    have hzero : clausesMisread .local_ [] = 0 := by simp [clausesMisread]
    rw [hnil, List.nil_append, hafter, hmisread, hzero]
    refine iff_of_false ?_ (by omega)
    intro heq
    obtain ⟨kind, tail, rfl⟩ := List.exists_cons_of_ne_nil hne
    have hshorter := length_closeForm_cons 0 kind tail
    rw [heq] at hshorter
    simp at hshorter

end Levels

/-! ### Functions in a row -/

/-- Balanced parentheses. -/
inductive Balanced : List TexTokenKind → Prop
  | nil : Balanced []
  | other {kind : TexTokenKind} {kinds : List TexTokenKind} (hopen : kind ≠ .parenOpen)
      (hclose : kind ≠ .parenClose) : Balanced kinds → Balanced (kind :: kinds)
  | form {inner kinds : List TexTokenKind} : Balanced inner → Balanced kinds →
      Balanced (.parenOpen :: (inner ++ .parenClose :: kinds))

theorem Balanced.level {outer : ℕ} {kinds rest : List TexTokenKind} (hkinds : Balanced kinds)
    (hrest : Level outer rest) :
    Level outer (kinds ++ rest) := by
  induction hkinds generalizing outer rest with
  | nil => exact hrest
  | other hopen hclose _ ih => exact .other hopen hclose (ih hrest)
  | form _ _ ihInner ih =>
    rw [List.cons_append, List.append_assoc]
    exact .open_ (ihInner (.close (ih hrest)))

/-- The tokens of a function: `func` and any tokens with balanced parentheses, in parentheses. -/
structure FuncTokens where
  opening : TexToken
  keyword : TexToken
  body : List TexToken
  closing : TexToken
  opening_kind : opening.kind = .parenOpen
  keyword_kind : keyword.kind = .func
  closing_kind : closing.kind = .parenClose
  balanced : Balanced (body.map TexToken.kind)

namespace FuncTokens

def tokens (f : FuncTokens) : List TexToken := f.opening :: f.keyword :: (f.body ++ [f.closing])

/-- The kinds of the tokens behind the keyword. -/
def kinds (f : FuncTokens) : List TexTokenKind := f.body.map TexToken.kind ++ [.parenClose]

theorem kinds_tokens (f : FuncTokens) :
    f.tokens.map TexToken.kind = .parenOpen :: .func :: f.kinds := by
  simp [tokens, kinds, f.opening_kind, f.keyword_kind, f.closing_kind]

theorem level (f : FuncTokens) : Level 0 f.kinds := f.balanced.level .last

end FuncTokens

/-- No function but the last has misread parentheses that do not cancel out, and what the parser
takes for the end of the last one is not followed by an opening parenthesis. -/
def recovers : List FuncTokens → Bool
  | [] => true
  | [f] => (afterFunc (f.kinds ++ [.parenClose])).head? ≠ some .parenOpen
  | f :: g :: fs => funcMisread f.kinds = 0 && recovers (g :: fs)

theorem range_start_texParParseFunc {p q : TexParser} {func : TexFunc}
    (h : texParParseFunc p = .returned (q, func)) : func.range.start = p.currentToken.position := by
  rw [texParParseFunc] at h
  split at h
  · dsimp only at h
    split at h
    · obtain ⟨⟨p', use⟩, -, hreturn⟩ := Outcome.bind_eq_returned.mp h
      obtain ⟨-, rfl⟩ := Prod.mk.inj (Outcome.returned.inj hreturn)
      rfl
    · obtain ⟨-, rfl⟩ := Prod.mk.inj (Outcome.returned.inj h)
      rfl
  · cases h

theorem texParModuleLoop_funcs {fuel : ℕ} {p q : TexParser} {funcs out : List TexFunc}
    (h : texParModuleLoop fuel p funcs = .returned (q, out)) : funcs <+: out := by
  induction fuel generalizing p funcs with
  | zero => cases h
  | succ fuel ih =>
    rw [texParModuleLoop] at h
    split at h
    · obtain ⟨⟨p', funcs'⟩, hfield, hloop⟩ := Outcome.bind_eq_returned.mp h
      refine List.IsPrefix.trans ?_ (ih hloop)
      rw [texParModuleField] at hfield
      split at hfield
      · obtain ⟨⟨p'', func⟩, -, hreturn⟩ := Outcome.bind_eq_returned.mp hfield
        obtain ⟨-, rfl⟩ := Prod.mk.inj (Outcome.returned.inj hreturn)
        exact List.prefix_append _ _
      · obtain ⟨-, rfl⟩ := Prod.mk.inj (Outcome.returned.inj hfield)
        exact List.prefix_rfl
    · obtain ⟨-, rfl⟩ := Prod.mk.inj (Outcome.returned.inj h)
      exact List.prefix_rfl

/-- The loop goes on at an opening parenthesis, and returns only if a function starts there. -/
theorem texParModuleLoop_open {fuel : ℕ} {p r : TexParser} {funcs out : List TexFunc}
    (hopen : p.currentToken.kind = .parenOpen)
    (h : texParModuleLoop fuel p funcs = .returned (r, out)) :
    ∃ fuel q func, texParParseFunc p = .returned (q, func) ∧
      texParModuleLoop fuel q (funcs ++ [func]) = .returned (r, out) := by
  have honly : onlyFuncs p.kinds := onlyFuncs_of_texParModuleLoop (by rw [h]; simp)
  rcases fuel with _ | fuel
  · cases h
  rw [texParModuleLoop, if_pos hopen, texParModuleField] at h
  split at h
  · obtain ⟨⟨p', funcs'⟩, hfield, hloop⟩ := Outcome.bind_eq_returned.mp h
    obtain ⟨⟨q, func⟩, hparse, hreturn⟩ := Outcome.bind_eq_returned.mp hfield
    obtain ⟨rfl, rfl⟩ := Prod.mk.inj (Outcome.returned.inj hreturn)
    exact ⟨fuel, q, func, hparse, hloop⟩
  · rename_i hfunc
    rw [kinds_of_current (by simp) hopen, onlyFuncs] at honly
    · cases honly
    · intro kinds hkinds
      exact hfunc (by rw [peekToken_kind_eq, hkinds, List.headD_cons])

/-- Some run of the loop ends with functions that start at the positions `starts`. -/
def LoopStarts (p : TexParser) (funcs : List TexFunc) (starts : List TexPosition) : Prop :=
  ∃ fuel q out, texParModuleLoop fuel p funcs = .returned (q, out) ∧
    out.map (fun func => func.range.start) = starts

theorem loopStarts_of_closed {p : TexParser} (hopen : p.currentToken.kind ≠ .parenOpen)
    (funcs : List TexFunc) (starts : List TexPosition) :
    LoopStarts p funcs starts ↔ funcs.map (fun func => func.range.start) = starts := by
  constructor
  · rintro ⟨fuel, q, out, hloop, hstarts⟩
    rcases fuel with _ | fuel
    · cases hloop
    rw [texParModuleLoop, if_neg hopen] at hloop
    obtain ⟨-, rfl⟩ := Prod.mk.inj (Outcome.returned.inj hloop)
    exact hstarts
  · intro hstarts
    exact ⟨1, p, funcs, by rw [texParModuleLoop, if_neg hopen], hstarts⟩

theorem loopStarts_of_func {p q : TexParser} {func : TexFunc} {kinds : List TexTokenKind}
    (hkinds : p.kinds = .parenOpen :: .func :: kinds)
    (hparse : texParParseFunc p = .returned (q, func)) (funcs : List TexFunc)
    (starts : List TexPosition) :
    LoopStarts p funcs starts ↔ LoopStarts q (funcs ++ [func]) starts := by
  constructor
  · rintro ⟨fuel, r, out, hloop, hstarts⟩
    obtain ⟨fuel, q', func', hparse', hrest⟩ :=
      texParModuleLoop_open (current_of_kinds hkinds) hloop
    rw [hparse] at hparse'
    obtain ⟨rfl, rfl⟩ := Prod.mk.inj (Outcome.returned.inj hparse')
    exact ⟨fuel, r, out, hrest, hstarts⟩
  · rintro ⟨fuel, r, out, hloop, hstarts⟩
    refine ⟨fuel + 1, r, out, ?_, hstarts⟩
    rw [texParModuleLoop, if_pos (current_of_kinds hkinds), texParModuleField,
      if_pos (peek_of_kinds hkinds), hparse]
    exact hloop

/-- Whoever goes on at an opening parenthesis finds a function there. -/
theorem LoopStarts.next {p : TexParser} {funcs : List TexFunc} {starts : List TexPosition}
    (hopen : p.currentToken.kind = .parenOpen) (h : LoopStarts p funcs starts) :
    funcs.map (fun func => func.range.start) ++ [p.currentToken.position] <+: starts := by
  obtain ⟨fuel, r, out, hloop, rfl⟩ := h
  obtain ⟨fuel, q, func, hparse, hrest⟩ := texParModuleLoop_open hopen hloop
  have hprefix := (texParModuleLoop_funcs hrest).map fun func => func.range.start
  rwa [List.map_append, List.map_singleton, range_start_texParParseFunc hparse] at hprefix

theorem suffix_eq_of_nodup {α β : Type} {f : α → β} {a b : α} {s t : List α}
    (hnodup : ((b :: t).map f).Nodup) (hsuffix : a :: s <:+ b :: t) (hab : f a = f b) :
    a :: s = b :: t := by
  rcases List.suffix_cons_iff.mp hsuffix with heq | hsuffix
  · exact heq
  · have hmem : f a ∈ t.map f := List.mem_map_of_mem (hsuffix.mem List.mem_cons_self)
    rw [hab] at hmem
    exact absurd hmem (List.nodup_cons.mp hnodup).1

/-- A list with distinct marks is cut at one place by the mark of the first element. -/
theorem suffix_unique {α β : Type} {f : α → β} {a b : α} {l s t : List α}
    (hnodup : (l.map f).Nodup) (hs : a :: s <:+ l) (ht : b :: t <:+ l) (hab : f a = f b) :
    a :: s = b :: t := by
  rcases List.suffix_or_suffix_of_suffix hs ht with hsuffix | hsuffix
  · exact suffix_eq_of_nodup (hnodup.sublist (ht.map f).sublist) hsuffix hab
  · exact (suffix_eq_of_nodup (hnodup.sublist (hs.map f).sublist) hsuffix hab.symm).symm

theorem kinds_of_funcTokens {f : FuncTokens} {fs : List FuncTokens} {p : TexParser}
    {closing : TexToken} (h : p.tokens = (f :: fs).flatMap FuncTokens.tokens ++ [closing]) :
    p.kinds = .parenOpen :: .func ::
      (f.kinds ++ (fs.flatMap FuncTokens.tokens ++ [closing]).map TexToken.kind) := by
  rw [TexParser.kinds, h, List.flatMap_cons, List.append_assoc, List.map_append, f.kinds_tokens]
  rfl

theorem suffix_of_funcTokens {f : FuncTokens} {fs : List FuncTokens} {p : TexParser}
    {closing : TexToken} (h : p.tokens = (f :: fs).flatMap FuncTokens.tokens ++ [closing]) :
    fs.flatMap FuncTokens.tokens ++ [closing] <:+ p.tokens := by
  rw [h, List.flatMap_cons, List.append_assoc]
  exact List.suffix_append _ _

/-- The parser is left in front of the next function exactly when the misread parentheses cancel
out. -/
theorem FuncTokens.funcMisread_eq_zero_iff {f g : FuncTokens} {fs : List FuncTokens}
    {p q : TexParser} {closing : TexToken} {func : TexFunc}
    (htokens : p.tokens = (f :: g :: fs).flatMap FuncTokens.tokens ++ [closing])
    (hparse : texParParseFunc p = .returned (q, func)) :
    funcMisread f.kinds = 0 ↔ q.tokens = (g :: fs).flatMap FuncTokens.tokens ++ [closing] := by
  obtain ⟨q', func', hparse', hq⟩ := texParParseFunc_returned (kinds_of_funcTokens htokens)
  rw [hparse] at hparse'
  obtain ⟨rfl, rfl⟩ := Prod.mk.inj (Outcome.returned.inj hparse')
  have hrest : ((g :: fs).flatMap FuncTokens.tokens ++ [closing]).map TexToken.kind =
      .parenOpen :: .func ::
        (g.kinds ++ (fs.flatMap FuncTokens.tokens ++ [closing]).map TexToken.kind) := by
    rw [List.flatMap_cons, List.append_assoc, List.map_append, g.kinds_tokens]
    rfl
  have hne : ((g :: fs).flatMap FuncTokens.tokens ++ [closing]).map TexToken.kind ≠ [] := by
    rw [hrest]
    exact List.cons_ne_nil _ _
  rw [← afterFunc_eq_iff f.level hne (by rw [hrest]; simp), ← hq]
  constructor
  · intro hkinds
    have hlength := congrArg List.length hkinds
    rw [TexParser.kinds, List.length_map, List.length_map] at hlength
    exact (List.suffix_of_suffix_length_le (advances_texParParseFunc hparse).tokens_suffix
      (suffix_of_funcTokens htokens) hlength.le).eq_of_length hlength
  · intro heq
    rw [TexParser.kinds, heq]

/-- The functions of the module start where they should exactly when the parser recovers. By
induction on the functions, over the states in front of them. -/
theorem loopStarts_iff (fs : List FuncTokens) {p : TexParser} {closing : TexToken}
    (hclosing : closing.kind = .parenClose)
    (htokens : p.tokens = fs.flatMap FuncTokens.tokens ++ [closing])
    (hnodup : (p.tokens.map TexToken.position).Nodup) (funcs : List TexFunc) :
    LoopStarts p funcs (funcs.map (fun func => func.range.start) ++
      fs.map fun f => f.opening.position) ↔ recovers fs := by
  induction fs generalizing p funcs with
  | nil =>
    have hclosed : p.currentToken.kind ≠ .parenOpen := by
      rw [currentToken_kind_eq, TexParser.kinds, htokens]
      simp [hclosing]
    rw [loopStarts_of_closed hclosed]
    simp [recovers]
  | cons f fs ih =>
    have hkinds := kinds_of_funcTokens htokens
    have hcurrent : p.currentToken = f.opening := by
      have hcons := tokens_cons (p := p) (by rw [current_of_kinds hkinds]; simp)
      rw [htokens] at hcons
      exact (List.cons.inj hcons).1.symm
    obtain ⟨q, func, hparse, hq⟩ := texParParseFunc_returned hkinds
    have hstart := range_start_texParParseFunc hparse
    rw [hcurrent] at hstart
    have hsuffix := (advances_texParParseFunc hparse).tokens_suffix
    have hstarts : ∀ starts, funcs.map (fun func => func.range.start) ++
        f.opening.position :: starts =
          (funcs ++ [func]).map (fun func => func.range.start) ++ starts := by
      intro starts
      rw [List.map_append, List.map_singleton, hstart, List.append_assoc, List.singleton_append]
    rw [loopStarts_of_func hkinds hparse, List.map_cons, hstarts]
    rcases fs with _ | ⟨g, fs⟩
    · have hafter : q.kinds = afterFunc (f.kinds ++ [.parenClose]) := by
        rw [hq, ← hclosing]
        rfl
      rw [recovers, decide_eq_true_iff, ← hafter, List.map_nil, List.append_nil]
      by_cases hopen : q.currentToken.kind = .parenOpen
      · refine iff_of_false (fun h => ?_) ?_
        · have hlength := (h.next hopen).length_le
          simp at hlength
        · rw [kinds_of_current (by simp) hopen]
          simp
      · refine iff_of_true ((loopStarts_of_closed hopen _ _).mpr rfl) ?_
        intro hhead
        obtain ⟨tail, htail⟩ := List.head?_eq_some_iff.mp hhead
        exact hopen (current_of_kinds htail)
    · rw [recovers, Bool.and_eq_true, decide_eq_true_iff,
        FuncTokens.funcMisread_eq_zero_iff htokens hparse]
      by_cases hland : q.tokens = (g :: fs).flatMap FuncTokens.tokens ++ [closing]
      · rw [ih hland (hnodup.sublist (hsuffix.map _).sublist)]
        exact (and_iff_right hland).symm
      · -- the next function would have to start elsewhere
        refine iff_of_false (fun h => hland ?_) fun h => hland h.1
        by_cases hopen : q.currentToken.kind = .parenOpen
        · have hnext := (List.prefix_append_right_inj _).mp (h.next hopen)
          have hposition := (List.cons_prefix_cons.mp hnext).1
          rw [tokens_cons (p := q) (by rw [hopen]; simp)] at hsuffix ⊢
          exact suffix_unique hnodup hsuffix (suffix_of_funcTokens htokens) hposition
        · have hlength := congrArg List.length ((loopStarts_of_closed hopen _ _).mp h)
          simp at hlength

theorem nodup_position_texTokens (input : List UInt8) (file : String) :
    ((texTokens input file).map TexToken.position).Nodup := by
  obtain ⟨-, -, -, hpairwise⟩ := texTokens_tile input file
  rw [List.Nodup, List.pairwise_map]
  refine hpairwise.imp fun hpos heq => ?_
  rw [heq] at hpos
  exact lt_irrefl _ hpos.1

/-- The functions of a module come from the loop, which starts right behind the keyword. -/
theorem returns_iff_loopStarts {p : TexParser} {opening keyword closing : TexToken}
    {fs : List FuncTokens}
    (htokens : p.tokens = opening :: keyword :: (fs.flatMap FuncTokens.tokens ++ [closing]))
    (hopening : opening.kind = .parenOpen) (hkeyword : keyword.kind = .module)
    (hclosing : closing.kind = .parenClose) (starts : List TexPosition) :
    (∃ q m, Outcome.Returns (fun fuel => texParParseModule fuel p) (q, m) ∧
      m.funcs.map (fun func => func.range.start) = starts) ↔
    LoopStarts (texParNextToken (texParNextToken p)) [] starts := by
  have hkinds : p.kinds = .parenOpen :: .module ::
      (fs.flatMap FuncTokens.tokens ++ [closing]).map TexToken.kind := by
    rw [TexParser.kinds, htokens, List.map_cons, List.map_cons, hopening, hkeyword]
  have hbegin := texParParenKindBegin_of_kinds hkinds
  -- there is no name between the keyword and the first function
  have hid : texParParseId (texParNextToken (texParNextToken p)) =
      (texParNextToken (texParNextToken p), []) := by
    rw [texParParseId, if_neg]
    rw [currentToken_kind_eq, kinds_texParNextToken, kinds_texParNextToken, hkinds]
    rcases fs with _ | ⟨f, fs⟩
    · simp [hclosing]
    · simp [FuncTokens.tokens, f.opening_kind]
  simp only [Outcome.Returns, texParParseModule, hbegin, hid, if_true]
  constructor
  · rintro ⟨q, m, ⟨fuel, hresult⟩, hstarts⟩
    obtain ⟨⟨r, funcs⟩, hloop, hreturn⟩ := Outcome.bind_eq_returned.mp hresult
    obtain ⟨-, rfl⟩ := Prod.mk.inj (Outcome.returned.inj hreturn)
    exact ⟨fuel, r, funcs, hloop, hstarts⟩
  · rintro ⟨fuel, r, funcs, hloop, hstarts⟩
    exact ⟨_, _, ⟨fuel, by rw [hloop]; rfl⟩, hstarts⟩

/-- The functions of a text, from the loop on. -/
theorem loopStarts_texParOfText {input : List UInt8} {file : String}
    {opening keyword closing : TexToken} {fs : List FuncTokens}
    (htokens : texTokens input file =
      opening :: keyword :: (fs.flatMap FuncTokens.tokens ++ [closing]))
    (hclosing : closing.kind = .parenClose) :
    LoopStarts (texParNextToken (texParNextToken (texParOfText input file))) []
      (fs.map fun f => f.opening.position) ↔ recovers fs := by
  have hinside : (texParNextToken (texParNextToken (texParOfText input file))).tokens =
      fs.flatMap FuncTokens.tokens ++ [closing] := by
    rw [tokens_texParNextToken, tokens_texParNextToken, tokens_texParOfText, htokens]
    rfl
  have hnodup := nodup_position_texTokens input file
  rw [htokens, List.map_cons, List.map_cons, List.nodup_cons, List.nodup_cons, ← hinside] at hnodup
  exact loopStarts_iff fs hclosing hinside hnodup.2.2 []

/-- On every text that is a module of functions with balanced parentheses, whatever else is in
them, each function is parsed from its opening parenthesis on and there are no more functions
exactly when the parser recovers from the errors in them. -/
theorem texParParseModule_recovers_iff {input : List UInt8} {file : String}
    {opening keyword closing : TexToken} {fs : List FuncTokens}
    (htokens : texTokens input file =
      opening :: keyword :: (fs.flatMap FuncTokens.tokens ++ [closing]))
    (hopening : opening.kind = .parenOpen) (hkeyword : keyword.kind = .module)
    (hclosing : closing.kind = .parenClose) :
    (∃ q m, Outcome.Returns (fun fuel => texParParseModule fuel (texParOfText input file)) (q, m) ∧
      m.funcs.map (fun func => func.range.start) = fs.map fun f => f.opening.position) ↔
    recovers fs := by
  rw [returns_iff_loopStarts ((tokens_texParOfText input file).trans htokens) hopening hkeyword
    hclosing]
  exact loopStarts_texParOfText htokens hclosing

/-- `(module (func (param i32) i32) (func))`: a parameter outside of a type use, and a stray
type. -/
def strayToken : ℕ → TexToken :=
  texTokNth (texTokInit (ascii "(module (func (param i32) i32) (func))") "test.wat")

def strayKinds : List TexTokenKind :=
  [.parenOpen, .module, .parenOpen, .func, .parenOpen, .param, .i32, .parenClose, .i32,
    .parenClose, .parenOpen, .func, .parenClose, .parenClose]

theorem kinds_strayToken :
    (List.range (strayKinds.length + 1)).map (fun n => (strayToken n).kind) =
      strayKinds ++ [.eof] := by
  decide +kernel

theorem kind_strayToken {n : ℕ} {kind : TexTokenKind}
    (h : (strayKinds ++ [.eof])[n]? = some kind) : (strayToken n).kind = kind :=
  kind_texTokNth_of_kinds kinds_strayToken h

theorem balanced_strayToken : Balanced ([strayToken 4, strayToken 5, strayToken 6, strayToken 7,
    strayToken 8].map TexToken.kind) := by
  have hkinds :
      [strayToken 4, strayToken 5, strayToken 6, strayToken 7, strayToken 8].map TexToken.kind =
        .parenOpen :: ([.param, .i32] ++ .parenClose :: [.i32]) := by
    simp only [List.map_cons, List.map_nil, @kind_strayToken 4 _ rfl, @kind_strayToken 5 _ rfl,
      @kind_strayToken 6 _ rfl, @kind_strayToken 7 _ rfl, @kind_strayToken 8 _ rfl]
    rfl
  rw [hkinds]
  exact .form (.other (by decide) (by decide) (.other (by decide) (by decide) .nil))
    (.other (by decide) (by decide) .nil)

def strayFuncs : List FuncTokens :=
  [⟨strayToken 2, strayToken 3, [strayToken 4, strayToken 5, strayToken 6, strayToken 7,
      strayToken 8], strayToken 9, kind_strayToken rfl, kind_strayToken rfl, kind_strayToken rfl,
      balanced_strayToken⟩,
    ⟨strayToken 10, strayToken 11, [], strayToken 12, kind_strayToken rfl, kind_strayToken rfl,
      kind_strayToken rfl, .nil⟩]

/-- Both are recovered from. -/
theorem texParParseModule_recovers_stray :
    ∃ q m, Outcome.Returns (fun fuel => texParParseModule fuel
        (texParOfText (ascii "(module (func (param i32) i32) (func))") "test.wat")) (q, m) ∧
      m.funcs.map (fun func => func.range.start) =
        strayFuncs.map fun f => f.opening.position := by
  have htokens : texTokens (ascii "(module (func (param i32) i32) (func))") "test.wat" =
      strayToken 0 :: strayToken 1 ::
        (strayFuncs.flatMap FuncTokens.tokens ++ [strayToken 13]) :=
    tokens_of_kinds _ kinds_strayToken (by decide)
  have hrecovers : recovers strayFuncs := by
    simp only [recovers, strayFuncs, FuncTokens.kinds, List.map_cons, List.map_nil,
      @kind_strayToken 4 _ rfl, @kind_strayToken 5 _ rfl, @kind_strayToken 6 _ rfl,
      @kind_strayToken 7 _ rfl, @kind_strayToken 8 _ rfl]
    decide +kernel
  exact (texParParseModule_recovers_iff htokens (kind_strayToken rfl) (kind_strayToken rfl)
    (kind_strayToken rfl)).mpr hrecovers

/-- `(module (func (local (i32))) (func))`: a type in parentheses. -/
def lostToken : ℕ → TexToken :=
  texTokNth (texTokInit (ascii "(module (func (local (i32))) (func))") "test.wat")

def lostKinds : List TexTokenKind :=
  [.parenOpen, .module, .parenOpen, .func, .parenOpen, .local_, .parenOpen, .i32, .parenClose,
    .parenClose, .parenClose, .parenOpen, .func, .parenClose, .parenClose]

theorem kinds_lostToken :
    (List.range (lostKinds.length + 1)).map (fun n => (lostToken n).kind) =
      lostKinds ++ [.eof] := by
  decide +kernel

theorem kind_lostToken {n : ℕ} {kind : TexTokenKind}
    (h : (lostKinds ++ [.eof])[n]? = some kind) : (lostToken n).kind = kind :=
  kind_texTokNth_of_kinds kinds_lostToken h

theorem balanced_lostToken : Balanced ([lostToken 4, lostToken 5, lostToken 6, lostToken 7,
    lostToken 8, lostToken 9].map TexToken.kind) := by
  have hkinds : [lostToken 4, lostToken 5, lostToken 6, lostToken 7, lostToken 8,
      lostToken 9].map TexToken.kind = .parenOpen ::
        (.local_ :: .parenOpen :: ([.i32] ++ .parenClose :: []) ++ .parenClose :: []) := by
    simp only [List.map_cons, List.map_nil, @kind_lostToken 4 _ rfl, @kind_lostToken 5 _ rfl,
      @kind_lostToken 6 _ rfl, @kind_lostToken 7 _ rfl, @kind_lostToken 8 _ rfl,
      @kind_lostToken 9 _ rfl]
    rfl
  rw [hkinds]
  exact .form (.other (by decide) (by decide)
    (.form (.other (by decide) (by decide) .nil) .nil)) .nil

def lostFuncs : List FuncTokens :=
  [⟨lostToken 2, lostToken 3, [lostToken 4, lostToken 5, lostToken 6, lostToken 7, lostToken 8,
      lostToken 9], lostToken 10, kind_lostToken rfl, kind_lostToken rfl, kind_lostToken rfl,
      balanced_lostToken⟩,
    ⟨lostToken 11, lostToken 12, [], lostToken 13, kind_lostToken rfl, kind_lostToken rfl,
      kind_lostToken rfl, .nil⟩]

/-- The opening parenthesis in front of the type is read as a type, so the function ends too
early, and the one behind it is lost. -/
theorem texParParseModule_loses_function :
    texTokens (ascii "(module (func (local (i32))) (func))") "test.wat" =
      lostToken 0 :: lostToken 1 :: (lostFuncs.flatMap FuncTokens.tokens ++ [lostToken 14]) ∧
    (lostToken 0).kind = .parenOpen ∧ (lostToken 1).kind = .module ∧
    (lostToken 14).kind = .parenClose ∧
    ¬∃ q m, Outcome.Returns (fun fuel => texParParseModule fuel
        (texParOfText (ascii "(module (func (local (i32))) (func))") "test.wat")) (q, m) ∧
      m.funcs.map (fun func => func.range.start) = lostFuncs.map fun f => f.opening.position := by
  have htokens : texTokens (ascii "(module (func (local (i32))) (func))") "test.wat" =
      lostToken 0 :: lostToken 1 :: (lostFuncs.flatMap FuncTokens.tokens ++ [lostToken 14]) :=
    tokens_of_kinds _ kinds_lostToken (by decide)
  have hopening : (lostToken 0).kind = .parenOpen := kind_lostToken rfl
  have hkeyword : (lostToken 1).kind = .module := kind_lostToken rfl
  have hclosing : (lostToken 14).kind = .parenClose := kind_lostToken rfl
  refine ⟨htokens, hopening, hkeyword, hclosing, ?_⟩
  rw [returns_iff_loopStarts ((tokens_texParOfText _ _).trans htokens) hopening hkeyword hclosing,
    loopStarts_texParOfText htokens hclosing]
  simp only [recovers, lostFuncs, FuncTokens.kinds, List.map_cons, List.map_nil,
    @kind_lostToken 4 _ rfl, @kind_lostToken 5 _ rfl, @kind_lostToken 6 _ rfl,
    @kind_lostToken 7 _ rfl, @kind_lostToken 8 _ rfl, @kind_lostToken 9 _ rfl]
  decide +kernel

end Wasim
