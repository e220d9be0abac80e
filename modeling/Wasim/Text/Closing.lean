import Wasim.Text.Recovery

/-!
# Closing a form

`tex_par_paren_kind_end` at any token of a form. Where the form is closed at all, the tokens up
to its closing parenthesis have balanced parentheses (`Level.split`), and the depth counter of the
recovery ends right behind that parenthesis (`texParParenKindEnd_closes`).
-/

namespace Wasim

/-- The front of the rest of a function up to the parenthesis that closes the innermost form is
balanced. -/
theorem Level.split {level : ℕ} {kinds : List TexTokenKind} (h : Level level kinds) :
    ∃ body rest, Balanced body ∧ kinds = body ++ .parenClose :: rest ∧
      (level = 0 → rest = []) ∧ ∀ outer, level = outer + 1 → Level outer rest := by
  induction hlength : kinds.length using Nat.strong_induction_on generalizing level kinds with
  | _ n ih =>
    subst hlength
    rcases h with _ | @⟨outer, kinds, hkinds⟩ | @⟨_, kinds, hkinds⟩ |
      @⟨_, kind, kinds, hopen, hclose, hkinds⟩
    · exact ⟨[], [], .nil, rfl, fun _ => rfl, fun _ houter => by omega⟩
    · refine ⟨[], kinds, .nil, rfl, fun hzero => by omega, fun outer' houter => ?_⟩
      obtain rfl := Nat.succ.inj houter
      exact hkinds
    · -- the form that is opened here, and then what is behind it
      obtain ⟨inner, behind, hinner, rfl, -, hbehind⟩ := ih _ (by simp) hkinds rfl
      obtain ⟨body, rest, hbody, rfl, hzero, houter⟩ :=
        ih _ (by simp only [List.length_cons, List.length_append]; omega) (hbehind _ rfl) rfl
      exact ⟨.parenOpen :: (inner ++ .parenClose :: body), rest, .form hinner hbody, by simp,
        hzero, houter⟩
    · obtain ⟨body, rest, hbody, rfl, hzero, houter⟩ := ih _ (by simp) hkinds rfl
      exact ⟨kind :: body, rest, .other hopen hclose hbody, rfl, hzero, houter⟩

/-- Forms that are not closed run to the end of the tokens. -/
theorem closeForm_eq_nil_or (depth : ℕ) (kinds : List TexTokenKind) :
    closeForm depth kinds = [] ∨
      ∃ front, Level depth front ∧ kinds = front ++ closeForm depth kinds := by
  fun_induction closeForm depth kinds with
  | case1 => exact Or.inl rfl
  | case2 depth kinds ih =>
    rcases ih with hnil | ⟨front, hfront, hkinds⟩
    · exact Or.inl hnil
    · exact Or.inr ⟨.parenOpen :: front, .open_ hfront, congrArg (.parenOpen :: ·) hkinds⟩
  | case3 kinds => exact Or.inr ⟨[.parenClose], .last, rfl⟩
  | case4 depth kinds ih =>
    rcases ih with hnil | ⟨front, hfront, hkinds⟩
    · exact Or.inl hnil
    · exact Or.inr ⟨.parenClose :: front, .close hfront, congrArg (.parenClose :: ·) hkinds⟩
  | case5 depth kind kinds hopen hlast hclose ih =>
    rcases ih with hnil | ⟨front, hfront, hkinds⟩
    · exact Or.inl hnil
    · refine Or.inr ⟨kind :: front, .other hopen ?_ hfront, congrArg (kind :: ·) hkinds⟩
      rcases depth with _ | depth
      · exact hlast rfl
      · exact hclose depth rfl

/-- Behind the closing parenthesis of a balanced front. -/
theorem Balanced.closeForm {body : List TexTokenKind} (h : Balanced body)
    (rest : List TexTokenKind) : closeForm 0 (body ++ .parenClose :: rest) = rest := by
  have hlevel : Level 0 (body ++ [.parenClose]) := h.level .last
  have happend := hlevel.closeForm_append le_rfl rest
  rw [hlevel.closeForm_last, List.append_assoc] at happend
  exact happend

/-- A balanced front does not start with a closing parenthesis. -/
theorem Balanced.head_ne {kind : TexTokenKind} {body : List TexTokenKind}
    (h : Balanced (kind :: body)) : kind ≠ .parenClose := by
  generalize hlist : kind :: body = list at h
  rcases h with _ | ⟨-, hclose, -⟩ | _
  · cases hlist
  · rw [(List.cons.inj hlist).1]
    exact hclose
  · rw [(List.cons.inj hlist).1]
    simp

theorem errors_texParRecover (depth : ℤ) (p : TexParser) :
    (texParRecover depth p).errors = p.errors := by
  fun_induction texParRecover depth p with
  | case1 => rfl
  | case2 => rfl
  | case3 depth p _ _ _ ih => exact ih

/-- A form with a matching closing parenthesis is left right behind it, with an error exactly when
the current token was another one. A form without is left at the end. -/
theorem texParParenKindEnd_closes (p : TexParser) :
    (∀ body closing rest, p.tokens = body ++ closing :: rest →
      Balanced (body.map TexToken.kind) → closing.kind = .parenClose →
      (texParParenKindEnd p).tokens = rest ∧
      (rest = [] → (texParParenKindEnd p).currentToken.kind = .eof) ∧
      (∀ token tokens, rest = token :: tokens → (texParParenKindEnd p).currentToken = token) ∧
      (body = [] → (texParParenKindEnd p).errors = p.errors) ∧
      (body ≠ [] → ∃ error, (texParParenKindEnd p).errors = p.errors ++ [error])) ∧
    ((∀ body closing rest, p.tokens = body ++ closing :: rest →
      Balanced (body.map TexToken.kind) → closing.kind ≠ .parenClose) →
      (texParParenKindEnd p).tokens = [] ∧ (texParParenKindEnd p).currentToken.kind = .eof ∧
      ∃ error, (texParParenKindEnd p).errors = p.errors ++ [error]) := by
  have hkinds := kinds_texParParenKindEnd p
  have hsuffix := (advances_texParParenKindEnd p).tokens_suffix
  have hreport : p.currentToken.kind ≠ .parenClose →
      ∃ error, (texParParenKindEnd p).errors = p.errors ++ [error] := by
    intro hclose
    simp only [texParParenKindEnd, texParExpectCurrent, if_neg hclose, Bool.false_eq_true,
      if_false, texParAttemptRecovery, errors_texParRecover]
    exact ⟨_, rfl⟩
  refine ⟨fun body closing rest htokens hbody hclosing => ?_, fun hopen => ?_⟩
  · have hfront : p.kinds = body.map TexToken.kind ++ .parenClose :: rest.map TexToken.kind := by
      rw [TexParser.kinds, htokens, List.map_append, List.map_cons, hclosing]
    have hrest : (texParParenKindEnd p).tokens = rest := by
      rw [hfront, hbody.closeForm] at hkinds
      have hlength := congrArg List.length hkinds
      rw [TexParser.kinds, List.length_map, List.length_map] at hlength
      refine (List.suffix_of_suffix_length_le hsuffix ?_ hlength.le).eq_of_length hlength
      rw [htokens]
      exact (List.suffix_cons _ _).trans (List.suffix_append _ _)
    obtain ⟨hend, hcurrent⟩ := currentToken_of_tokens hrest
    refine ⟨hrest, hend, hcurrent, ?_, ?_⟩
    · rintro rfl
      simp only [texParParenKindEnd, texParExpectCurrent, if_pos (current_of_kinds hfront), if_true]
      rfl
    · intro hne
      obtain ⟨token, body, rfl⟩ := List.exists_cons_of_ne_nil hne
      refine hreport ?_
      rw [current_of_kinds hfront]
      exact hbody.head_ne
  · have hnil : (texParParenKindEnd p).tokens = [] := by
      rcases closeForm_eq_nil_or 0 p.kinds with hnil | ⟨front, hfront, hsplit⟩
      · rw [hnil] at hkinds
        exact List.map_eq_nil_iff.mp hkinds
      · -- the closing parenthesis of the front would be a matching one
        obtain ⟨body, behind, hbody, rfl, hbehind, -⟩ := hfront.split
        rw [hbehind rfl, TexParser.kinds, List.append_assoc] at hsplit
        obtain ⟨a, b, htokens, ha, hb⟩ := List.map_eq_append_iff.mp hsplit
        obtain ⟨closing, rest, rfl, hclosing, -⟩ := List.map_eq_cons_iff.mp hb
        exact absurd hclosing (hopen a closing rest htokens (ha ▸ hbody))
    refine ⟨hnil, (currentToken_of_tokens hnil).1 rfl, hreport fun hclose => ?_⟩
    have hfirst := tokens_cons (p := p) (by rw [hclose]; simp)
    exact hopen [] _ _ hfirst .nil hclose

end Wasim
