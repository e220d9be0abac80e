import Wasim.Binary.ReaderSpec

/-!
# Runs of the expression reader

Facts about every run of the loop, whatever the bytes: more fuel changes no answer, the
context only moves forward, and a loop that returns was left by an opcode of its `until` list
that was really read.

The proofs follow the two layers of the definition: a turn is described under a hypothesis on
the nested calls, and the loop is an induction over the fuel.
-/

namespace Wasim

open BinReadCtx

/-- The nested calls of a turn, as a parameter. -/
abbrev NestedUntil :=
  BinReadCtx → BinInstructionBuilder → List InstructionOpcode → Outcome UntilResult

/-! ### Fuel -/

theorem leaveUntil_map (x : Outcome UntilResult) :
    (leaveUntil <$> x) = x >>= fun r => .returned (leaveUntil r) := rfl

section Fuel

variable {until₁ until₂ : NestedUntil} (h : ∀ c ib u, until₁ c ib u ≤ until₂ c ib u)

include h

theorem binReadBlock_le (inst : ℕ) (st : LoopState) :
    binReadBlock until₁ inst st ≤ binReadBlock until₂ inst st := by
  unfold binReadBlock
  dsimp only
  split
  · exact Outcome.bind_le_bind (h _ _ _) fun _ => Outcome.le_refl _
  · exact Outcome.le_refl _

theorem binReadIf_le (inst : ℕ) (st : LoopState) :
    binReadIf until₁ inst st ≤ binReadIf until₂ inst st := by
  unfold binReadIf
  dsimp only
  split
  · refine Outcome.bind_le_bind (h _ _ _) fun body => ?_
    split
    · split
      · exact Outcome.bind_le_bind (h _ _ _) fun _ => Outcome.le_refl _
      · exact Outcome.le_refl _
    · exact Outcome.le_refl _
  · exact Outcome.le_refl _

theorem binReadTurn_le (opcode : InstructionOpcode) (inst : ℕ) (st : LoopState) :
    binReadTurn until₁ opcode inst st ≤ binReadTurn until₂ opcode inst st := by
  unfold binReadTurn
  split
  case h_4 => exact binReadBlock_le h inst st
  case h_5 => exact binReadIf_le h inst st
  all_goals exact Outcome.le_refl _

end Fuel

theorem binReadInstructionsLoop_stable (u : List InstructionOpcode) (st : LoopState) :
    Outcome.Stable fun fuel => binReadInstructionsLoop fuel u st := by
  intro fuel
  induction fuel generalizing u st with
  | zero => exact Outcome.outOfFuel_le _
  | succ fuel ih =>
    dsimp only
    rw [binReadInstructionsLoop, binReadInstructionsLoop]
    dsimp only
    split
    · exact Outcome.le_refl _
    · refine Outcome.bind_le_bind (binReadTurn_le (fun c ib v => ?_) _ _ _) fun st => ih u st
      rw [leaveUntil_map, leaveUntil_map]
      exact Outcome.bind_le_bind (ih v _) fun _ => Outcome.le_refl _

theorem binReadInstructionsUntil_stable (c : BinReadCtx) (ib : BinInstructionBuilder)
    (u : List InstructionOpcode) :
    Outcome.Stable fun fuel => binReadInstructionsUntil fuel c ib u := fun fuel =>
  Outcome.bind_le_bind (binReadInstructionsLoop_stable u _ fuel) fun _ => Outcome.le_refl _

theorem binReadExpr_stable (c : BinReadCtx) : Outcome.Stable fun fuel => binReadExpr fuel c :=
  fun fuel => Outcome.bind_le_bind (binReadInstructionsUntil_stable c _ _ fuel) fun _ =>
    Outcome.le_refl _

/-! ### The context moves forward -/

theorem binReadBlockType_reports (c : BinReadCtx) (ib : BinInstructionBuilder) :
    Reports c (binReadBlockType c ib).1 := by
  have hb := binReadByte_reports c
  unfold binReadBlockType
  dsimp only
  split
  · rename_i hok
    split
    · exact hb.seq hok (Reports.success (n := 0) (Nat.zero_le _))
    · dsimp only
      exact hb.seq hok ((binReadValidateEnum_reports _ _ _ _ _).map _)
  · rename_i hok
    exact hb.fail (by simpa using hok) _

theorem binReadBrTable_advances {inst : ℕ} {st st' : LoopState}
    (h : binReadBrTable inst st = .returned st') : st.ctx.Advances st'.ctx := by
  unfold binReadBrTable at h
  rw [Outcome.bind_eq_returned] at h
  obtain ⟨labels, hlabels, h⟩ := h
  have hl := binReadVec_reports (reportsAll_returned binReadU32Leb_reports) _ _ hlabels
  split at h
  · obtain rfl := Outcome.returned.inj h
    exact hl.advances.trans (binReadU32Leb_reports _).advances
  · obtain rfl := Outcome.returned.inj h
    exact hl.advances

theorem binReadCallIndirect_advances (inst : ℕ) (st : LoopState) :
    st.ctx.Advances (binReadCallIndirect inst st).ctx := by
  have hi := (binReadU32Leb_reports st.ctx).advances
  unfold binReadCallIndirect
  dsimp only
  split
  · have hb := (binReadByte_reports (binReadU32Leb st.ctx).ctx).advances
    split
    · exact hi.trans (hb.trans (advances_binErrorf _ _ _ _))
    · exact hi.trans hb
  · exact hi

theorem binReadMemarg_advances (inst : ℕ) (st : LoopState) :
    st.ctx.Advances (binReadMemarg inst st).ctx := by
  have ha := (binReadU32Leb_reports st.ctx).advances
  have ho := (binReadU32Leb_reports (binReadU32Leb st.ctx).ctx).advances
  unfold binReadMemarg
  dsimp only
  split
  · split
    · exact ha.trans ho
    · exact ha.trans ho
  · exact ha

theorem binReadMemory_advances (st : LoopState) :
    st.ctx.Advances (binReadMemory st).ctx := by
  have hb := (binReadByte_reports st.ctx).advances
  unfold binReadMemory
  dsimp only
  split
  · exact hb.trans (advances_binErrorf _ _ _ _)
  · exact hb

theorem binStoreConstant_ctx (inst : ℕ) (st : LoopState) (r : ReadResult UInt64) :
    (binStoreConstant inst st r).ctx = r.ctx := by
  unfold binStoreConstant
  split <;> rfl

section Nested

variable {nested : NestedUntil}
  (hn : ∀ {c ib u r}, nested c ib u = .returned r → c.Advances r.ctx)

include hn

theorem binReadBlock_advances {inst : ℕ} {st st' : LoopState}
    (h : binReadBlock nested inst st = .returned st') : st.ctx.Advances st'.ctx := by
  have ht := (binReadBlockType_reports st.ctx st.ib).advances
  unfold binReadBlock at h
  dsimp only at h
  split at h
  · rw [Outcome.bind_eq_returned] at h
    obtain ⟨body, hbody, h⟩ := h
    obtain rfl := Outcome.returned.inj h
    exact ht.trans (hn hbody)
  · obtain rfl := Outcome.returned.inj h
    exact ht

theorem binReadIf_advances {inst : ℕ} {st st' : LoopState}
    (h : binReadIf nested inst st = .returned st') : st.ctx.Advances st'.ctx := by
  have ht := (binReadBlockType_reports st.ctx st.ib).advances
  unfold binReadIf at h
  dsimp only at h
  split at h
  · rw [Outcome.bind_eq_returned] at h
    obtain ⟨body, hbody, h⟩ := h
    have hb := ht.trans (hn hbody)
    split at h
    · split at h
      · rw [Outcome.bind_eq_returned] at h
        obtain ⟨els, hels, h⟩ := h
        obtain rfl := Outcome.returned.inj h
        exact hb.trans (hn hels)
      · obtain rfl := Outcome.returned.inj h
        exact hb
    · obtain rfl := Outcome.returned.inj h
      exact hb
  · obtain rfl := Outcome.returned.inj h
    exact ht

theorem binReadTurn_advances {opcode : InstructionOpcode} {inst : ℕ} {st st' : LoopState}
    (h : binReadTurn nested opcode inst st = .returned st') : st.ctx.Advances st'.ctx := by
  unfold binReadTurn at h
  split at h
  case h_1 => cases h
  case h_2 => cases h
  case h_4 => exact binReadBlock_advances hn h
  case h_5 => exact binReadIf_advances hn h
  case h_7 => exact binReadBrTable_advances h
  all_goals obtain rfl := Outcome.returned.inj h
  · exact Advances.refl _
  · exact (binReadU32Leb_reports st.ctx).advances
  · exact binReadCallIndirect_advances inst st
  · exact binReadMemarg_advances inst st
  · exact binReadMemory_advances st
  · exact (binReadI32Leb_reports st.ctx).advances
  · rw [binStoreConstant_ctx]
    exact (binReadI64Leb_reports st.ctx).advances
  · exact (binReadU32_reports st.ctx).advances
  · rw [binStoreConstant_ctx]
    exact (binReadU64_reports st.ctx).advances
  · exact advances_binErrorf _ _ _ _

end Nested

theorem binReadInstructionsLoop_advances {fuel : ℕ} {u : List InstructionOpcode}
    {st : LoopState} {r : UntilResult} (h : binReadInstructionsLoop fuel u st = .returned r) :
    st.ctx.Advances r.ctx := by
  induction fuel generalizing u st r with
  | zero => cases h
  | succ fuel ih =>
    have ho := (binReadByte_reports st.ctx).advances
    rw [binReadInstructionsLoop] at h
    dsimp only at h
    split at h
    · obtain rfl := Outcome.returned.inj h
      exact ho
    · rw [Outcome.bind_eq_returned] at h
      obtain ⟨st', hturn, h⟩ := h
      refine ho.trans ((binReadTurn_advances ?_ hturn).trans (ih h))
      intro c ib v s hs
      rw [leaveUntil_map, Outcome.bind_eq_returned] at hs
      obtain ⟨s', hs', hs⟩ := hs
      obtain rfl := Outcome.returned.inj hs
      have hadv : (enterUntil c ib).ctx.Advances s'.ctx := ih hs'
      exact hadv

/-- A loop that returned was left by an opcode of its list that was really read. -/
theorem binReadInstructionsLoop_break {fuel : ℕ} {u : List InstructionOpcode}
    {st : LoopState} {r : UntilResult} (hu : Opcode.unreachable ∉ u)
    (h : binReadInstructionsLoop fuel u st = .returned r) : r.breakOpcode ∈ u ∧ r.ok = true := by
  induction fuel generalizing st with
  | zero => cases h
  | succ fuel ih =>
    rw [binReadInstructionsLoop] at h
    dsimp only at h
    split at h
    · rename_i hmem
      obtain rfl := Outcome.returned.inj h
      refine ⟨hmem, binReadByte_ok_iff.mpr fun hnil => hu ?_⟩
      rwa [binReadOpcode, (binReadByte_nil hnil).1] at hmem
    · rw [Outcome.bind_eq_returned] at h
      obtain ⟨st', -, h⟩ := h
      exact ih h

end Wasim
