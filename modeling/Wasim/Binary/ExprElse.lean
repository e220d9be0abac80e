import Wasim.Binary.ExprClose

/-!
# The branches marked unreachable

The `switch` of `bin_read_instructions_until` marks its cases `.Else` and `.End` unreachable. An
`end` leaves every loop, but an `else` leaves only the loop over the first branch of an `if`:
anywhere else it runs into its case, and the reader aborts. The bytes decide which
(`straysElse`); `binReadExpr_unreachable_iff` is the result.
-/

namespace Wasim

open BinReadCtx

/-- The scan of `closes`, asked another question: whether an `else` stands outside the first
branch of an `if` before the expression is closed or the bytes run out. -/
def straysElse : List Frame → List UInt8 → Bool
  | [], _ => false
  | _ :: _, [] => false
  | f :: fs, op :: bs =>
    match switchCase op with
    | .endOp => straysElse fs bs
    | .elseOp =>
      match f with
      | .body => true
      | .thenBranch => straysElse (.body :: fs) bs
    | .block =>
      have := length_after_le readBlockType_reports bs
      if succeeds readBlockType bs then straysElse (.body :: f :: fs) (after readBlockType bs)
      else straysElse (f :: fs) (after readBlockType bs)
    | .ifOp =>
      have := length_after_le readBlockType_reports bs
      if succeeds readBlockType bs then
        straysElse (.thenBranch :: f :: fs) (after readBlockType bs)
      else straysElse (f :: fs) (after readBlockType bs)
    | case =>
      have := length_skipImmediates_le case bs
      straysElse (f :: fs) (skipImmediates case bs)
termination_by _ bs => bs.length
decreasing_by all_goals simp only [List.length_cons]; omega

theorem isScan_straysElse : IsScan straysElse where
  nil f fs := straysElse.eq_def (f :: fs) []
  cons f fs op bs := straysElse.eq_def (f :: fs) (op :: bs)

namespace Turn

/-- The turn enters a branch of the `switch` that the source marks unreachable. -/
def Unreachable (t : Turn) : Prop :=
  t.opcode ∉ t.frame.until_ ∧
    (switchCase t.opcode = .elseOp ∨ switchCase t.opcode = .endOp)

/-- The loop entered by this turn aborts. -/
def Crashes (t : Turn) : Prop :=
  ∃ fuel, binReadInstructionsLoop fuel t.frame.until_ t.st = .crashed

theorem nestedUntil_eq_crashed {fuel : ℕ} {c : BinReadCtx} {ib : BinInstructionBuilder}
    {u : List InstructionOpcode} : nestedUntil fuel c ib u = .crashed ↔
      binReadInstructionsLoop fuel u (enterUntil c ib) = .crashed := by
  rw [nestedUntil, leaveUntil_map, Outcome.bind_eq_crashed]
  simp

theorem Unreachable.crashes {t : Turn} (h : t.Unreachable) : t.Crashes := by
  refine ⟨1, ?_⟩
  rw [t.loop_succ h.1, binReadTurn]
  rcases h.2 with hcase | hcase <;> rw [hcase] <;> rfl

/-- A crash goes back to the turn before. -/
theorem Crashes.of_next {t t' : Turn} (hnext : t.Next t') (h : t'.Crashes) : t.Crashes := by
  obtain ⟨m, hm⟩ := h
  cases hnext with
  | @again fuel st hop hturn =>
    have hturn' : binReadTurn (nestedUntil (max fuel m)) t.opcode t.inst t.start =
        .returned st :=
      ((binReadTurn_le (nestedUntil_le (Nat.le_max_left _ _)) _ _ _).resolve_left
        (by simp [hturn])).symm.trans hturn
    refine ⟨max fuel m + 1, ?_⟩
    rw [t.loop_succ hop, hturn', Outcome.returned_bind]
    exact ((binReadInstructionsLoop_stable _ _).eq_of_ne (Nat.le_max_right _ _)
      (by simp [hm])).trans hm
  | block hop hcase hok =>
    refine ⟨m + 1, ?_⟩
    rw [t.loop_succ hop, Outcome.bind_eq_crashed]
    simp only [binReadTurn, hcase, binReadBlock, binReadBlockType_fst, hok, if_true, header_eq]
    exact .inl (Outcome.bind_eq_crashed.mpr (.inl (nestedUntil_eq_crashed.mpr hm)))
  | ifThen hop hcase hok =>
    refine ⟨m + 1, ?_⟩
    rw [t.loop_succ hop, Outcome.bind_eq_crashed]
    simp only [binReadTurn, hcase, binReadIf, binReadBlockType_fst, hok, if_true, header_eq]
    exact .inl (Outcome.bind_eq_crashed.mpr (.inl (nestedUntil_eq_crashed.mpr hm)))
  | @ifElse fuel body hop hcase hok hbody helse =>
    have hbody' : nestedUntil (max fuel m) (readBlockType t.start.ctx).ctx t.header
        Frame.thenBranch.until_ = .returned body :=
      ((nestedUntil_le (Nat.le_max_left fuel m) _ _ _).resolve_left (by simp [hbody])).symm.trans
        hbody
    have hels := ((binReadInstructionsLoop_stable _ _).eq_of_ne (Nat.le_max_right fuel m)
      (by simp [hm])).trans hm
    refine ⟨max fuel m + 1, ?_⟩
    rw [t.loop_succ hop, Outcome.bind_eq_crashed]
    simp only [binReadTurn, hcase, binReadIf, binReadBlockType_fst, hok, if_true, header_eq]
    refine .inl (Outcome.bind_eq_crashed.mpr (.inr ⟨body, hbody', ?_⟩))
    rw [if_pos (nestedUntil_break (f := .thenBranch) hbody).2, if_pos helse]
    exact Outcome.bind_eq_crashed.mpr (.inl (nestedUntil_eq_crashed.mpr hels))

theorem Crashes.of_reach {t t' : Turn} (hreach : Relation.ReflTransGen Next t t')
    (h : t'.Crashes) : t.Crashes := by
  induction hreach using Relation.ReflTransGen.head_induction_on with
  | refl => exact h
  | head hnext _ ih => exact .of_next hnext ih

/-- A crash comes from an unreachable branch, here or in a turn to come. -/
theorem Crashes.exists_unreachable {t : Turn} (h : t.Crashes) :
    ∃ t', Relation.ReflTransGen Next t t' ∧ t'.Unreachable := by
  obtain ⟨n, hn⟩ := h
  induction n generalizing t with
  | zero => cases hn
  | succ n ih =>
    have hnested : ∀ {t' : Turn}, t.Next t' →
        binReadInstructionsLoop n t'.frame.until_ t'.st = .crashed →
        ∃ t'', Relation.ReflTransGen Next t t'' ∧ t''.Unreachable := by
      intro t' hnext hcrash
      obtain ⟨t'', hreach, hun⟩ := ih hcrash
      exact ⟨t'', .head hnext hreach, hun⟩
    by_cases hop : t.opcode ∈ t.frame.until_
    · rw [binReadInstructionsLoop] at hn
      exact absurd (hn.symm.trans (if_pos hop)) (by simp)
    rw [t.loop_succ hop, Outcome.bind_eq_crashed] at hn
    rcases hn with hturn | ⟨st, hst, hloop⟩
    · rcases (switchCase t.opcode).flat_or with hflat | hcase | hcase | hcase | hcase
      · obtain ⟨st, hst, -⟩ := binReadTurn_skips hflat (nestedUntil n) t.inst t.start
        exact absurd (hturn.symm.trans hst) (by simp)
      · simp only [binReadTurn, hcase, binReadBlock, binReadBlockType_fst, header_eq] at hturn
        split at hturn
        · rename_i hok
          rw [Outcome.bind_eq_crashed] at hturn
          rcases hturn with hbody | ⟨_, _, hrest⟩
          · exact hnested (.block hop hcase hok) (nestedUntil_eq_crashed.mp hbody)
          · cases hrest
        · cases hturn
      · simp only [binReadTurn, hcase, binReadIf, binReadBlockType_fst, header_eq] at hturn
        split at hturn
        · rename_i hok
          rw [Outcome.bind_eq_crashed] at hturn
          rcases hturn with hbody | ⟨body, hbody, hrest⟩
          · exact hnested (.ifThen hop hcase hok) (nestedUntil_eq_crashed.mp hbody)
          · rw [if_pos (nestedUntil_break (f := .thenBranch) hbody).2] at hrest
            split at hrest
            · rename_i helse
              rw [Outcome.bind_eq_crashed] at hrest
              rcases hrest with hels | ⟨_, _, hrest⟩
              · exact hnested (.ifElse hop hcase hok hbody helse) (nestedUntil_eq_crashed.mp hels)
              · cases hrest
            · cases hrest
        · cases hturn
      · exact ⟨t, .refl, hop, .inl hcase⟩
      · exact ⟨t, .refl, hop, .inr hcase⟩
    · exact hnested (.again hop hst) hloop

/-- The loop of the expression reader aborts exactly if an `else` strays. -/
theorem crashes_first_iff (c : BinReadCtx) :
    (first c).Crashes ↔ straysElse [.body] c.rest = true := by
  have hsettles := fun fuel =>
    binReadInstructionsLoop_settles isScan_straysElse fuel .body [] (enterUntil c binExprBuilder)
  constructor
  · rintro ⟨fuel, hfuel⟩
    have hs := hsettles fuel
    rw [show binReadInstructionsLoop fuel Frame.body.until_ (enterUntil c binExprBuilder) =
      .crashed from hfuel] at hs
    exact hs
  · intro hstray
    have hs := hsettles (c.rest.length + 1)
    refine ⟨c.rest.length + 1, ?_⟩
    cases hloop : binReadInstructionsLoop (c.rest.length + 1) Frame.body.until_
      (enterUntil c binExprBuilder) with
    | crashed => exact hloop
    | returned r =>
      have hbreak := (binReadInstructionsLoop_break (by decide) hloop).1
      obtain hend : r.breakOpcode = Opcode.endOp := by simpa [Frame.until_] using hbreak
      rw [hloop] at hs
      have hclosed : straysElse (openBehind r.breakOpcode []) r.ctx.rest = true :=
        Eq.trans hs hstray
      rw [hend, straysElse.eq_def] at hclosed
      cases hclosed
    | outOfFuel =>
      rw [hloop] at hs
      have hfalse : straysElse [.body] c.rest = false := hs (Nat.lt_succ_self _)
      rw [hstray] at hfalse
      cases hfalse

end Turn

/-- **The unreachable branches.** No turn of the expression reader, at any depth of the
recursion, enters the case of `.Else` or `.End`, if and only if no `else` stands outside the
first branch of an `if` before the expression is closed or the bytes run out. -/
theorem binReadExpr_unreachable_iff (c : BinReadCtx) :
    (∀ t, Relation.ReflTransGen Turn.Next (Turn.first c) t → ¬t.Unreachable) ↔
      straysElse [.body] c.rest = false := by
  rw [← Bool.not_eq_true, ← Turn.crashes_first_iff]
  constructor
  · intro h hcrash
    obtain ⟨t, hreach, hun⟩ := hcrash.exists_unreachable
    exact h t hreach hun
  · intro h t hreach hun
    exact h (hun.crashes.of_reach hreach)

/-- An expression that starts with an `else`. -/
theorem binReadExpr_reaches_unreachable :
    ¬∀ (c : BinReadCtx) (t : Turn), Relation.ReflTransGen Turn.Next (Turn.first c) t →
      ¬t.Unreachable := by
  intro h
  have hstray := (binReadExpr_unreachable_iff { data := [0x05, 0x0B] }).mp (h _)
  have helse : switchCase 0x05 = .elseOp := by decide
  rw [show ({ data := [0x05, 0x0B] } : BinReadCtx).rest = [0x05, 0x0B] from rfl,
    straysElse.eq_def] at hstray
  simp only [helse] at hstray
  cases hstray

end Wasim
