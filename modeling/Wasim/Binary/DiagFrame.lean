import Wasim.Binary.Sections

/-!
# Readers do not look at earlier diagnostics

What a reader returns and pushes does not depend on the diagnostics its context already
holds: called with more of them in front, it does the same and leaves them in front. A lane
that reads several sections one after the other therefore ends up with the diagnostics of
each, as if each had been read with a fresh context.
-/

namespace Wasim

variable {α β : Type}

/-- The context with earlier diagnostics in front. -/
def BinReadCtx.under (c : BinReadCtx) (ds : List BinDiagnostic) : BinReadCtx :=
  { c with diags := ds ++ c.diags }

namespace BinReadCtx

variable (c : BinReadCtx) (ds : List BinDiagnostic)

@[simp]
theorem under_data : (c.under ds).data = c.data := rfl

@[simp]
theorem under_curr : (c.under ds).curr = c.curr := rfl

@[simp]
theorem under_base : (c.under ds).base = c.base := rfl

@[simp]
theorem rest_under : (c.under ds).rest = c.rest := rfl

@[simp]
theorem advance_under (n : ℕ) : (c.under ds).advance n = (c.advance n).under ds := rfl

@[simp]
theorem binReaderAnchor_under : binReaderAbsolutePos (c.under ds) = binReaderAbsolutePos c := rfl

@[simp]
theorem binReaderAnchorRange_under (anchor : ℕ) :
    binReaderAnchorRange (c.under ds) anchor = binReaderAnchorRange c anchor := rfl

@[simp]
theorem binReaderDataLeft_under : binReaderDataLeft (c.under ds) = binReaderDataLeft c := rfl

@[simp]
theorem binErrorf_under (range : BinByteRange) (format : String) (args : List FmtArg) :
    binErrorf (c.under ds) range format args = (binErrorf c range format args).under ds := by
  simp [binErrorf, under]

@[simp]
theorem binReaderSetScope_under (base : ℕ) (data : List UInt8) :
    binReaderSetScope (c.under ds) base data = (binReaderSetScope c base data).under ds := rfl

end BinReadCtx

/-- The result with earlier diagnostics in front. -/
def ReadResult.under (r : ReadResult α) (ds : List BinDiagnostic) : ReadResult α :=
  ⟨r.value, r.ok, r.ctx.under ds⟩

namespace ReadResult

@[simp]
theorem under_value (r : ReadResult α) (ds : List BinDiagnostic) :
    (r.under ds).value = r.value := rfl

@[simp]
theorem under_ok (r : ReadResult α) (ds : List BinDiagnostic) : (r.under ds).ok = r.ok := rfl

@[simp]
theorem under_ctx (r : ReadResult α) (ds : List BinDiagnostic) :
    (r.under ds).ctx = r.ctx.under ds := rfl

@[simp]
theorem map_under (r : ReadResult α) (ds : List BinDiagnostic) (f : α → β) :
    (r.under ds).map f = (r.map f).under ds := rfl

@[simp]
theorem mk_under (a : α) (ok : Bool) (c : BinReadCtx) (ds : List BinDiagnostic) :
    (⟨a, ok, c.under ds⟩ : ReadResult α) = under ⟨a, ok, c⟩ ds := rfl

end ReadResult

/-- Earlier diagnostics make no difference to a reader. -/
def DiagsFrame (read : BinReadCtx → ReadResult α) : Prop :=
  ∀ c ds, read (c.under ds) = (read c).under ds

/-- Earlier diagnostics make no difference to a reader that need not return. -/
def DiagsFrameProc (read : BinReadCtx → Outcome (ReadResult α)) : Prop :=
  ∀ c ds, read (c.under ds) = (·.under ds) <$> read c

theorem DiagsFrame.map {read : BinReadCtx → ReadResult α} (h : DiagsFrame read) (f : α → β) :
    DiagsFrame fun c => (read c).map f := fun c ds => by simp [h c ds]

theorem DiagsFrame.andThen {read : BinReadCtx → ReadResult α} (h : DiagsFrame read)
    {f : α → BinReadCtx → ReadResult α} (hf : ∀ a, DiagsFrame (f a)) :
    DiagsFrame fun c => (read c).andThen f := by
  intro c ds
  simp only [ReadResult.andThen, h c ds, ReadResult.under_ok, ReadResult.under_value,
    ReadResult.under_ctx, hf _ _ ds]
  split <;> rfl

theorem DiagsFrame.proc {read : BinReadCtx → ReadResult α} (h : DiagsFrame read) :
    DiagsFrameProc fun c => .returned (read c) := fun c ds => congrArg Outcome.returned (h c ds)

/-! ### Readers without an expression -/

theorem binReadBytes_frame (count : ℕ) : DiagsFrame fun c => binReadBytes c count := by
  intro c ds
  simp only [binReadBytes, BinReadCtx.binReaderDataLeft_under, BinReadCtx.under_data,
    BinReadCtx.under_curr, BinReadCtx.advance_under, BinReadCtx.binErrorf_under, binReaderAnchor,
    BinReadCtx.binReaderAnchor_under]
  split <;> rfl

theorem binReadT_frame (size : ℕ) : DiagsFrame fun c => binReadT c size := by
  intro c ds
  simp only [binReadT, binReadBytes_frame size c ds]
  rfl

theorem binReadByte_frame : DiagsFrame binReadByte := by
  intro c ds
  simp only [binReadByte, BinReadCtx.binReaderDataLeft_under, BinReadCtx.under_data,
    BinReadCtx.under_curr, BinReadCtx.advance_under, BinReadCtx.binErrorf_under, binReaderAnchor,
    BinReadCtx.binReaderAnchor_under, BinReadCtx.binReaderAnchorRange_under]
  split <;> rfl

theorem binReadUXXLeb_frame (bits : ℕ) (tName : String) :
    DiagsFrame (binReadUXXLeb bits tName) := by
  intro c ds
  simp only [binReadUXXLeb, BinReadCtx.rest_under, BinReadCtx.advance_under,
    BinReadCtx.binErrorf_under, binReaderAnchor, BinReadCtx.binReaderAnchor_under,
    BinReadCtx.binReaderAnchorRange_under]
  split
  · split
    · split <;> rfl
    · rfl
  · rfl
  · rfl

theorem binReadIXXLeb_frame (bits : ℕ) (tName : String) :
    DiagsFrame (binReadIXXLeb bits tName) := by
  intro c ds
  simp only [binReadIXXLeb, BinReadCtx.rest_under, BinReadCtx.advance_under,
    BinReadCtx.binErrorf_under, binReaderAnchor, BinReadCtx.binReaderAnchor_under,
    BinReadCtx.binReaderAnchorRange_under]
  split
  · split
    · split <;> rfl
    · rfl
  · rfl
  · rfl

theorem binReadU32Leb_frame : DiagsFrame binReadU32Leb := (binReadUXXLeb_frame 32 "u32").map _

theorem binReadValidateEnum_frame {T : Type} (E : ByteEnum T) (tName : String) (anchor : ℕ)
    (input : UInt8) : DiagsFrame fun c => binReadValidateEnum E tName c anchor input := by
  intro c ds
  simp only [binReadValidateEnum, BinReadCtx.binErrorf_under,
    BinReadCtx.binReaderAnchorRange_under]
  split <;> rfl

theorem binReadByteAsEnum_frame {T : Type} (E : ByteEnum T) (tName : String) :
    DiagsFrame (binReadByteAsEnum E tName) := by
  intro c ds
  simp only [binReadByteAsEnum, binReadByte_frame c ds, ReadResult.under_ok,
    ReadResult.under_value, ReadResult.under_ctx, binReaderAnchor,
    BinReadCtx.binReaderAnchor_under, binReadValidateEnum_frame E tName _ _ _ ds]
  split <;> rfl

theorem binReadName_frame : DiagsFrame binReadName := by
  intro c ds
  simp only [binReadName, binReadU32Leb_frame c ds, ReadResult.under_ok, ReadResult.under_value,
    ReadResult.under_ctx, binReadBytes_frame _ _ ds]
  split <;> rfl

theorem binReadLimits_frame : DiagsFrame binReadLimits := by
  refine ((binReadByteAsEnum_frame _ _).map _).andThen fun limits => ?_
  refine (binReadU32Leb_frame.map _).andThen fun limits c ds => ?_
  split
  · exact (binReadU32Leb_frame.map _) c ds
  · rfl

theorem binReadValueType_frame : DiagsFrame binReadValueType := binReadByteAsEnum_frame _ _

theorem binReadElementType_frame : DiagsFrame binReadElementType := by
  intro c ds
  simp only [binReadElementType, binReadByte_frame c ds, ReadResult.under_ok,
    ReadResult.under_value, ReadResult.under_ctx, binReaderAnchor,
    BinReadCtx.binReaderAnchor_under, BinReadCtx.binErrorf_under,
    BinReadCtx.binReaderAnchorRange_under]
  split
  · split <;> rfl
  · rfl

theorem binReadTableType_frame : DiagsFrame binReadTableType :=
  (binReadElementType_frame.map _).andThen fun _ => binReadLimits_frame.map _

theorem binReadB8_frame : DiagsFrame binReadB8 := (binReadT_frame 1).map _

theorem binReadGlobalType_frame : DiagsFrame binReadGlobalType :=
  (binReadValueType_frame.map _).andThen fun _ => binReadB8_frame.map _

theorem binReadImportDesc_frame (kind : ExternalKind) : DiagsFrame (binReadImportDesc kind) := by
  cases kind
  · exact binReadU32Leb_frame.map _
  · exact binReadTableType_frame.map _
  · exact binReadLimits_frame.map _
  · exact binReadGlobalType_frame.map _

theorem binReadImport_frame : DiagsFrame binReadImport :=
  (((binReadName_frame.map _).andThen fun _ => binReadName_frame.map _).andThen
    fun _ => (binReadByteAsEnum_frame _ _).map _).andThen
    fun _ => (binReadImportDesc_frame _).map _

theorem binReadExport_frame : DiagsFrame binReadExport :=
  (binReadName_frame.map _).andThen fun _ =>
  ((binReadByteAsEnum_frame _ _).map _).andThen fun _ => binReadU32Leb_frame.map _

theorem binReadCodeStructure_frame : DiagsFrame binReadCodeStructure := by
  intro c ds
  simp only [binReadCodeStructure, binReadU32Leb_frame c ds, ReadResult.under_ok,
    ReadResult.under_value, ReadResult.under_ctx, BinReadCtx.binReaderAnchor_under,
    binReadBytes_frame _ _ ds]
  split <;> rfl

theorem binReadLocal_frame : DiagsFrame binReadLocal := by
  intro c ds
  simp only [binReadLocal, binReadU32Leb_frame c ds, ReadResult.under_ok,
    ReadResult.under_value, ReadResult.under_ctx, binReadValueType_frame _ ds]
  split <;> rfl

/-! ### Vectors and entries with an expression -/

/-- A reader that goes on after one that need not return. -/
theorem DiagsFrameProc.bind {read : BinReadCtx → Outcome (ReadResult α)}
    (h : DiagsFrameProc read) {f : ReadResult α → Outcome (ReadResult β)}
    (hf : ∀ r ds, f (r.under ds) = (·.under ds) <$> f r) :
    DiagsFrameProc fun c => read c >>= f := by
  intro c ds
  simp only [h c ds]
  cases read c with
  | returned r => exact hf r ds
  | crashed => rfl
  | outOfFuel => rfl

theorem DiagsFrameProc.map {read : BinReadCtx → Outcome (ReadResult α)}
    (h : DiagsFrameProc read) (f : α → β) : DiagsFrameProc fun c => (·.map f) <$> read c :=
  h.bind fun _ _ => rfl

theorem binReadVecLoop_frame (zero : α) {parse : BinReadCtx → Outcome (ReadResult α)}
    (h : DiagsFrameProc parse) (n : ℕ) : DiagsFrameProc (binReadVecLoop zero parse n) := by
  induction n with
  | zero => exact fun _ _ => rfl
  | succ n ih =>
    refine h.bind fun entry ds => ?_
    obtain ⟨value, ok, c⟩ := entry
    cases ok with
    | true => exact ih.map _ _ ds
    | false => rfl

theorem binReadVec_frame (zero : α) {parse : BinReadCtx → Outcome (ReadResult α)}
    (h : DiagsFrameProc parse) : DiagsFrameProc (binReadVec zero parse) := by
  intro c ds
  simp only [binReadVec, binReadU32Leb_frame c ds, ReadResult.under_ok, ReadResult.under_value,
    ReadResult.under_ctx]
  split
  · exact binReadVecLoop_frame zero h _ _ ds
  · rfl

theorem binReadFuncType_frame : DiagsFrameProc binReadFuncType := by
  intro c ds
  have hvec := binReadVec_frame ValueType.unset binReadValueType_frame.proc
  simp only [binReadFuncType, binReadByte_frame c ds, ReadResult.under_ok,
    ReadResult.under_value, ReadResult.under_ctx, binReaderAnchor,
    BinReadCtx.binReaderAnchor_under, BinReadCtx.binErrorf_under,
    BinReadCtx.binReaderAnchorRange_under]
  split
  · split
    · refine hvec.bind (fun args ds => ?_) _ ds
      obtain ⟨value, ok, c⟩ := args
      cases ok with
      | true => exact hvec.map _ _ ds
      | false => rfl
    · rfl
  · rfl

/-! ### Expressions -/

def LoopState.under (st : LoopState) (ds : List BinDiagnostic) : LoopState :=
  { st with ctx := st.ctx.under ds }

def UntilResult.under (r : UntilResult) (ds : List BinDiagnostic) : UntilResult :=
  { r with ctx := r.ctx.under ds }

theorem binReadBlockType_under (c : BinReadCtx) (ib : BinInstructionBuilder)
    (ds : List BinDiagnostic) :
    binReadBlockType (c.under ds) ib =
      ((binReadBlockType c ib).1.under ds, (binReadBlockType c ib).2) := by
  simp only [binReadBlockType, binReadByte_frame c ds, ReadResult.under_ok,
    ReadResult.under_value, ReadResult.under_ctx, binReaderAnchor,
    BinReadCtx.binReaderAnchor_under, binReadValidateEnum_frame _ _ _ _ _ ds]
  split
  · split <;> rfl
  · rfl

theorem binReadBrTable_under (inst : ℕ) (st : LoopState) (ds : List BinDiagnostic) :
    binReadBrTable inst (st.under ds) = (·.under ds) <$> binReadBrTable inst st := by
  have hvec := binReadVec_frame (0 : UInt32) binReadU32Leb_frame.proc
  simp only [binReadBrTable, LoopState.under, binReadU32Leb_frame st.ctx ds,
    ReadResult.under_ok, ReadResult.under_value, hvec st.ctx ds]
  cases binReadVec 0 (fun c => Outcome.returned (binReadU32Leb c)) st.ctx with
  | returned labels =>
    obtain ⟨value, ok, c⟩ := labels
    cases ok with
    | true =>
      simp only [Outcome.map_returned, Outcome.returned_bind, if_true, ReadResult.under_ok,
        ReadResult.under_value, ReadResult.under_ctx, binReadU32Leb_frame c ds]
      rfl
    | false => rfl
  | crashed => rfl
  | outOfFuel => rfl

theorem binReadCallIndirect_under (inst : ℕ) (st : LoopState) (ds : List BinDiagnostic) :
    binReadCallIndirect inst (st.under ds) = (binReadCallIndirect inst st).under ds := by
  simp only [binReadCallIndirect, LoopState.under, binReadU32Leb_frame st.ctx ds,
    ReadResult.under_ok, ReadResult.under_value, ReadResult.under_ctx, binReadByte_frame _ ds,
    binReaderAnchor, BinReadCtx.binReaderAnchor_under, BinReadCtx.binErrorf_under,
    BinReadCtx.binReaderAnchorRange_under]
  split
  · split <;> rfl
  · rfl

theorem binReadMemarg_under (inst : ℕ) (st : LoopState) (ds : List BinDiagnostic) :
    binReadMemarg inst (st.under ds) = (binReadMemarg inst st).under ds := by
  simp only [binReadMemarg, LoopState.under, binReadU32Leb_frame _ ds,
    ReadResult.under_ok, ReadResult.under_value, ReadResult.under_ctx]
  split
  · split <;> rfl
  · rfl

theorem binReadMemory_under (st : LoopState) (ds : List BinDiagnostic) :
    binReadMemory (st.under ds) = (binReadMemory st).under ds := by
  simp only [binReadMemory, LoopState.under, binReadByte_frame _ ds, ReadResult.under_value,
    ReadResult.under_ctx, BinReadCtx.binErrorf_under, BinReadCtx.binReaderAnchorRange_under]
  split <;> rfl

theorem binStoreExtra_under {read : BinReadCtx → ReadResult UInt32} (h : DiagsFrame read)
    (inst : ℕ) (st : LoopState) (ds : List BinDiagnostic) :
    binStoreExtra inst (st.under ds) (read (st.under ds).ctx) =
      (binStoreExtra inst st (read st.ctx)).under ds := by
  rw [show read (st.under ds).ctx = (read st.ctx).under ds from h st.ctx ds]
  rfl

theorem binStoreConstant_under {read : BinReadCtx → ReadResult UInt64} (h : DiagsFrame read)
    (inst : ℕ) (st : LoopState) (ds : List BinDiagnostic) :
    binStoreConstant inst (st.under ds) (read (st.under ds).ctx) =
      (binStoreConstant inst st (read st.ctx)).under ds := by
  rw [show read (st.under ds).ctx = (read st.ctx).under ds from h st.ctx ds]
  obtain ⟨value, ok, c⟩ := read st.ctx
  cases ok <;> rfl

section Turn

variable {u : BinReadCtx → BinInstructionBuilder → List InstructionOpcode → Outcome UntilResult}
  (hu : ∀ c ib ops ds, u (c.under ds) ib ops = (·.under ds) <$> u c ib ops)
include hu

theorem binReadBlock_under (inst : ℕ) (st : LoopState) (ds : List BinDiagnostic) :
    binReadBlock u inst (st.under ds) = (·.under ds) <$> binReadBlock u inst st := by
  simp only [binReadBlock, LoopState.under, binReadBlockType_under, ReadResult.under_ok,
    ReadResult.under_value, ReadResult.under_ctx, hu]
  split
  · cases u _ _ _ <;> rfl
  · rfl

theorem binReadIf_under (inst : ℕ) (st : LoopState) (ds : List BinDiagnostic) :
    binReadIf u inst (st.under ds) = (·.under ds) <$> binReadIf u inst st := by
  simp only [binReadIf, LoopState.under, binReadBlockType_under, ReadResult.under_ok,
    ReadResult.under_value, ReadResult.under_ctx, hu]
  split
  · cases u _ _ _ with
    | returned body =>
      obtain ⟨breakOpcode, ok, c, ib⟩ := body
      cases ok with
      | true =>
        simp only [Outcome.map_returned, Outcome.returned_bind, if_true, UntilResult.under, hu]
        split
        · cases u _ _ _ <;> rfl
        · rfl
      | false => rfl
    | crashed => rfl
    | outOfFuel => rfl
  · rfl

theorem binReadTurn_under (opcode : InstructionOpcode) (inst : ℕ) (st : LoopState)
    (ds : List BinDiagnostic) :
    binReadTurn u opcode inst (st.under ds) = (·.under ds) <$> binReadTurn u opcode inst st := by
  rw [binReadTurn, binReadTurn]
  split
  · rfl
  · rfl
  · rfl
  · exact binReadBlock_under hu inst st ds
  · exact binReadIf_under hu inst st ds
  · exact congrArg Outcome.returned (binStoreExtra_under binReadU32Leb_frame inst st ds)
  · exact binReadBrTable_under inst st ds
  · exact congrArg Outcome.returned (binReadCallIndirect_under inst st ds)
  · exact congrArg Outcome.returned (binReadMemarg_under inst st ds)
  · exact congrArg Outcome.returned (binReadMemory_under st ds)
  · exact congrArg Outcome.returned
      (binStoreExtra_under ((binReadIXXLeb_frame 32 "i32").map _) inst st ds)
  · exact congrArg Outcome.returned
      (binStoreConstant_under ((binReadIXXLeb_frame 64 "i64").map _) inst st ds)
  · exact congrArg Outcome.returned
      (binStoreExtra_under ((binReadT_frame 4).map _) inst st ds)
  · exact congrArg Outcome.returned
      (binStoreConstant_under ((binReadT_frame 8).map _) inst st ds)
  · simp only [LoopState.under, BinReadCtx.binErrorf_under,
      BinReadCtx.binReaderAnchorRange_under]
    rfl

end Turn

theorem leaveUntil_under (x : Outcome UntilResult) (ds : List BinDiagnostic) :
    leaveUntil <$> ((·.under ds) <$> x) = (·.under ds) <$> (leaveUntil <$> x) := by
  cases x <;> rfl

/-- Earlier diagnostics make no difference to the loop. -/
theorem binReadInstructionsLoop_under (fuel : ℕ) (ops : List InstructionOpcode) (st : LoopState)
    (ds : List BinDiagnostic) :
    binReadInstructionsLoop fuel ops (st.under ds) =
      (·.under ds) <$> binReadInstructionsLoop fuel ops st := by
  induction fuel generalizing ops st ds with
  | zero => rfl
  | succ fuel ih =>
    have hop : binReadOpcode (st.under ds).ctx = (binReadOpcode st.ctx).under ds :=
      binReadByte_frame st.ctx ds
    simp only [binReadInstructionsLoop, hop, ReadResult.under_value]
    by_cases hbreak : (binReadOpcode st.ctx).value ∈ ops
    · simp only [if_pos hbreak]
      rfl
    · simp only [if_neg hbreak]
      have hturn := binReadTurn_under (u := fun ctx ib u =>
          leaveUntil <$> binReadInstructionsLoop fuel u (enterUntil ctx ib))
        (fun c ib ops ds => by
          rw [show enterUntil (c.under ds) ib = (enterUntil c ib).under ds from rfl, ih,
            leaveUntil_under])
        (binReadOpcode st.ctx).value (binIbPush st.ib (binReadOpcode st.ctx).value).2
        ⟨(binReadOpcode st.ctx).ctx, (binIbPush st.ib (binReadOpcode st.ctx).value).1,
          st.anchor⟩ ds
      refine (congrArg (· >>= binReadInstructionsLoop fuel ops) hturn).trans ?_
      cases binReadTurn (fun ctx ib u =>
          leaveUntil <$> binReadInstructionsLoop fuel u (enterUntil ctx ib))
        (binReadOpcode st.ctx).value (binIbPush st.ib (binReadOpcode st.ctx).value).2
        ⟨(binReadOpcode st.ctx).ctx, (binIbPush st.ib (binReadOpcode st.ctx).value).1,
          st.anchor⟩ with
      | returned st' => exact ih ops st' ds
      | crashed => rfl
      | outOfFuel => rfl

theorem binReadExpr_frame (fuel : ℕ) : DiagsFrameProc (binReadExpr fuel) := by
  intro c ds
  have h : binReadInstructionsUntil fuel (c.under ds) binExprBuilder [Opcode.endOp] =
      (·.under ds) <$> binReadInstructionsUntil fuel c binExprBuilder [Opcode.endOp] := by
    rw [binReadInstructionsUntil, binReadInstructionsUntil, ← leaveUntil_under,
      ← binReadInstructionsLoop_under]
    rfl
  rw [binReadExpr, h, binReadExpr]
  cases binReadInstructionsUntil fuel c binExprBuilder [Opcode.endOp] <;> rfl

/-! ### Entries, sections and bodies -/

theorem DiagsFrameProc.thenProc {read : BinReadCtx → Outcome (ReadResult α)}
    (h : DiagsFrameProc read) {f : α → BinReadCtx → Outcome (ReadResult α)}
    (hf : ∀ a, DiagsFrameProc (f a)) :
    DiagsFrameProc fun c => read c >>= fun r => r.thenProc f := by
  refine h.bind fun r ds => ?_
  obtain ⟨value, ok, c⟩ := r
  cases ok with
  | true => exact hf value c ds
  | false => rfl

theorem binReadGlobal_frame (fuel : ℕ) : DiagsFrameProc (binReadGlobal fuel) := by
  have hhead := (binReadValueType_frame.map fun type => ({ type := type } : Global)).andThen
    fun global => binReadB8_frame.map fun mutable => { global with mutable := mutable }
  exact hhead.proc.thenProc fun global =>
    (binReadExpr_frame fuel).map fun expr => { global with expr := expr }

theorem binReadElement_frame (fuel : ℕ) : DiagsFrameProc (binReadElement fuel) := by
  have hhead := (binReadU32Leb_frame.map fun index => ({ index := index } : Element)).proc
  have hexpr := hhead.thenProc fun element =>
    (binReadExpr_frame fuel).map fun expr => { element with expr := expr }
  exact hexpr.thenProc fun element =>
    (binReadVec_frame _ binReadU32Leb_frame.proc).map fun init => { element with init := init }

theorem binReadData_frame (fuel : ℕ) : DiagsFrameProc (binReadData fuel) := by
  have hhead := (binReadU32Leb_frame.map fun index => ({ index := index } : Data)).proc
  have hexpr := hhead.thenProc fun data =>
    (binReadExpr_frame fuel).map fun expr => { data with expr := expr }
  have hinit : ∀ data : Data, DiagsFrame fun ctx =>
      if (binReadU32Leb ctx).ok then
        (binReadBytes (binReadU32Leb ctx).ctx (binReadU32Leb ctx).value.toNat).map
          fun init => { data with init := init }
      else ⟨data, false, (binReadU32Leb ctx).ctx⟩ := by
    intro data c ds
    simp only [binReadU32Leb_frame c ds]
    obtain ⟨value, ok, c⟩ := binReadU32Leb c
    cases ok with
    | true => exact (binReadBytes_frame value.toNat).map _ c ds
    | false => rfl
  exact hexpr.thenProc fun data => (hinit data).proc

theorem binReadCode_frame (fuel : ℕ) (binCode : BinCode) :
    DiagsFrameProc fun c => binReadCode fuel c binCode := by
  intro c ds
  refine (binReadVec_frame _ binReadLocal_frame.proc).bind (fun r ds => ?_)
    (binReaderSetScope c binCode.pos binCode.data) ds
  obtain ⟨locals, ok, c⟩ := r
  cases ok with
  | true =>
    exact ((binReadExpr_frame fuel).map
      fun expr => ({ locals := locals, expr := expr } : Code)) c ds
  | false => rfl

theorem binReadSection_frame (fuel : ℕ) (kind : BinSectionKind) :
    DiagsFrameProc fun c => binReadSection fuel c kind := by
  cases kind with
  | custom => exact fun _ _ => rfl
  | type => exact (binReadVec_frame _ binReadFuncType_frame).map _
  | «import» => exact (binReadVec_frame _ binReadImport_frame.proc).map _
  | function => exact (binReadVec_frame _ binReadU32Leb_frame.proc).map _
  | table => exact (binReadVec_frame _ binReadTableType_frame.proc).map _
  | memory => exact (binReadVec_frame _ binReadLimits_frame.proc).map _
  | global => exact (binReadVec_frame _ (binReadGlobal_frame fuel)).map _
  | «export» => exact (binReadVec_frame _ binReadExport_frame.proc).map _
  | start => exact (binReadU32Leb_frame.map _).proc
  | element => exact (binReadVec_frame _ (binReadElement_frame fuel)).map _
  | code => exact fun _ _ => rfl
  | data => exact (binReadVec_frame _ (binReadData_frame fuel)).map _

theorem binReadCodeSectionStructure_frame : DiagsFrameProc binReadCodeSectionStructure :=
  binReadVec_frame _ binReadCodeStructure_frame.proc

end Wasim
