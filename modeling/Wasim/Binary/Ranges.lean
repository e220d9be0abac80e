import Wasim.Binary.Scan
import Wasim.Binary.ExprRun

/-!
# Where diagnostics point

A reader called at `c` stays inside its data (`BinReadCtx.Stays`): it moves forward in it, and
every diagnostic it pushes has a range inside it, counted from the base of the context. The
bounds are those of the scope, so a range is a range of the file as far as the base is right.

The `anchor` of the instruction loop is the one position that outlives a reader, so the turns
of the loop carry it as an invariant (`LoopState.Anchored`).
-/

namespace Wasim

variable {α β : Type}

namespace BinReadCtx

/-- A range inside the data of the context, as offsets in the file. -/
def Covers (c : BinReadCtx) (range : BinByteRange) : Prop :=
  c.base ≤ range.start ∧ range.start ≤ range.stop ∧ range.stop ≤ c.base + c.data.length

/-- From `c` to `d` a reader moved forward, and its diagnostics lie inside the data. -/
structure Stays (c d : BinReadCtx) : Prop where
  advances : c.Advances d
  covers : c.curr ≤ c.data.length → ∀ x ∈ d.diags, x ∈ c.diags ∨ c.Covers x.range

theorem Covers.of_advances {c d : BinReadCtx} (h : c.Advances d) {range : BinByteRange}
    (hr : d.Covers range) : c.Covers range := by
  rwa [Covers, h.base, h.data] at hr

@[refl]
theorem Stays.refl (c : BinReadCtx) : c.Stays c := ⟨.refl c, fun _ _ hx => Or.inl hx⟩

theorem Stays.trans {c d e : BinReadCtx} (h : c.Stays d) (k : d.Stays e) : c.Stays e where
  advances := h.advances.trans k.advances
  covers := fun hc x hx => by
    have hd : d.curr ≤ d.data.length := by
      rw [h.advances.data]
      exact h.advances.bound hc
    rcases k.covers hd x hx with hx | hx
    · exact h.covers hc x hx
    · exact Or.inr (hx.of_advances h.advances)

theorem stays_advance (c : BinReadCtx) {n : ℕ} (h : n ≤ c.rest.length) :
    c.Stays (c.advance n) :=
  ⟨advances_advance c h, fun _ _ hx => Or.inl hx⟩

theorem stays_binErrorf {c : BinReadCtx} {range : BinByteRange}
    (h : c.curr ≤ c.data.length → c.Covers range) (format : String) (args : List FmtArg) :
    c.Stays (binErrorf c range format args) where
  advances := advances_binErrorf c _ _ _
  covers := fun hc x hx => by
    rcases List.mem_append.mp hx with hx | hx
    · exact Or.inl hx
    · obtain rfl := List.mem_singleton.mp hx
      exact Or.inr (h hc)

theorem covers_binReaderAnchorRange {c : BinReadCtx} {anchor : ℕ} (hbase : c.base ≤ anchor)
    (hpos : anchor ≤ binReaderAbsolutePos c) (hc : c.curr ≤ c.data.length) :
    c.Covers (binReaderAnchorRange c anchor) :=
  ⟨hbase, hpos, Nat.add_le_add_left hc _⟩

/-- A diagnostic from the position before a reader to the one behind it. -/
theorem Stays.errorf {c d : BinReadCtx} (h : c.Stays d) (format : String)
    (args : List FmtArg) :
    c.Stays (binErrorf d (binReaderAnchorRange d (binReaderAnchor c)) format args) := by
  refine h.trans (stays_binErrorf (covers_binReaderAnchorRange ?_ ?_) format args)
  · rw [h.advances.base]
    exact Nat.le_add_right _ _
  · simp only [binReaderAnchor, binReaderAbsolutePos, h.advances.base]
    exact Nat.add_le_add_left h.advances.curr _

/-- A diagnostic at the position of the context. -/
theorem stays_errorf_here (c : BinReadCtx) (format : String) (args : List FmtArg) :
    c.Stays (binErrorf c (binReaderAnchorRange c (binReaderAnchor c)) format args) :=
  (Stays.refl c).errorf format args

theorem Stays.andThen {c : BinReadCtx} {r : ReadResult α}
    {f : α → BinReadCtx → ReadResult α} (hr : c.Stays r.ctx)
    (hf : ∀ a (d : BinReadCtx), d.Stays (f a d).ctx) : c.Stays (r.andThen f).ctx := by
  rw [ReadResult.andThen]
  split
  · exact hr.trans (hf _ _)
  · exact hr

end BinReadCtx

open BinReadCtx

/-! ### The primitive readers -/

theorem binReadBytes_stays (c : BinReadCtx) (count : ℕ) : c.Stays (binReadBytes c count).ctx := by
  unfold binReadBytes
  dsimp only
  split
  · rename_i h
    exact stays_advance c (by rwa [length_rest])
  · refine stays_binErrorf (fun hc => ⟨?_, ?_, ?_⟩) _ _
    · exact Nat.le_add_right _ _
    · exact Nat.le_add_right _ _
    · simp only [binReaderAnchor, binReaderAbsolutePos, binReaderDataLeft]
      omega

theorem binReadB8_stays (c : BinReadCtx) : c.Stays (binReadB8 c).ctx := binReadBytes_stays c 1

theorem binReadU32_stays (c : BinReadCtx) : c.Stays (binReadU32 c).ctx := binReadBytes_stays c 4

theorem binReadU64_stays (c : BinReadCtx) : c.Stays (binReadU64 c).ctx := binReadBytes_stays c 8

theorem binReadByte_stays (c : BinReadCtx) : c.Stays (binReadByte c).ctx := by
  unfold binReadByte
  dsimp only
  split
  · rename_i h
    exact stays_advance c (by rwa [length_rest])
  · exact stays_errorf_here c _ _

theorem binReadUXXLeb_stays (bits : ℕ) (tName : String) (c : BinReadCtx) :
    c.Stays (binReadUXXLeb bits tName c).ctx := by
  unfold binReadUXXLeb
  dsimp only
  split
  · rename_i value size hdec
    obtain ⟨cs, rest, hrest, -, rfl⟩ := Leb128.decodeUnsigned_sound hdec
    split
    · split
      · exact stays_advance c (by rw [hrest, List.length_append]; omega)
      · exact stays_errorf_here c _ _
    · exact stays_errorf_here c _ _
  · exact stays_errorf_here c _ _
  · exact stays_errorf_here c _ _

theorem binReadIXXLeb_stays (bits : ℕ) (tName : String) (c : BinReadCtx) :
    c.Stays (binReadIXXLeb bits tName c).ctx := by
  unfold binReadIXXLeb
  dsimp only
  split
  · rename_i value size hdec
    obtain ⟨cs, rest, hrest, -, rfl⟩ := Leb128.decodeSigned_sound hdec
    split
    · split
      · exact stays_advance c (by rw [hrest, List.length_append]; omega)
      · exact stays_errorf_here c _ _
    · exact stays_errorf_here c _ _
  · exact stays_errorf_here c _ _
  · exact stays_errorf_here c _ _

theorem binReadU32Leb_stays (c : BinReadCtx) : c.Stays (binReadU32Leb c).ctx :=
  binReadUXXLeb_stays 32 "u32" c

/-- The byte of the enum was read at `c`, where the anchor is. -/
theorem binReadValidateEnum_stays {T : Type} (E : ByteEnum T) (tName : String)
    {c d : BinReadCtx} (h : c.Stays d) (input : UInt8) :
    c.Stays (binReadValidateEnum E tName d (binReaderAnchor c) input).ctx := by
  unfold binReadValidateEnum
  split
  · exact h
  · exact h.errorf _ _

theorem binReadByteAsEnum_stays {T : Type} (E : ByteEnum T) (tName : String) (c : BinReadCtx) :
    c.Stays (binReadByteAsEnum E tName c).ctx := by
  unfold binReadByteAsEnum
  dsimp only
  split
  · exact binReadValidateEnum_stays E tName (binReadByte_stays c) _
  · exact binReadByte_stays c

/-! ### Entries without an expression -/

theorem binReadName_stays (c : BinReadCtx) : c.Stays (binReadName c).ctx := by
  unfold binReadName
  dsimp only
  split
  · exact (binReadU32Leb_stays c).trans (binReadBytes_stays _ _)
  · exact binReadU32Leb_stays c

theorem binReadLimits_stays (c : BinReadCtx) : c.Stays (binReadLimits c).ctx := by
  refine Stays.andThen (binReadByteAsEnum_stays limitsKindEnum _ c) fun limits d => ?_
  refine Stays.andThen (binReadU32Leb_stays d) fun limits d => ?_
  split
  · exact binReadU32Leb_stays d
  · exact Stays.refl d

theorem binReadValueType_stays (c : BinReadCtx) : c.Stays (binReadValueType c).ctx :=
  binReadByteAsEnum_stays _ _ c

theorem binReadElementType_stays (c : BinReadCtx) : c.Stays (binReadElementType c).ctx := by
  have hb := binReadByte_stays c
  unfold binReadElementType
  dsimp only
  split
  · split
    · exact hb
    · exact hb.errorf _ _
  · exact hb

theorem binReadTableType_stays (c : BinReadCtx) : c.Stays (binReadTableType c).ctx :=
  Stays.andThen (binReadElementType_stays c) fun _ d => binReadLimits_stays d

theorem binReadGlobalType_stays (c : BinReadCtx) : c.Stays (binReadGlobalType c).ctx :=
  Stays.andThen (binReadValueType_stays c) fun _ d => binReadB8_stays d

theorem binReadImportDesc_stays (kind : ExternalKind) (c : BinReadCtx) :
    c.Stays (binReadImportDesc kind c).ctx := by
  cases kind with
  | func => exact binReadU32Leb_stays c
  | table => exact binReadTableType_stays c
  | mem => exact binReadLimits_stays c
  | global => exact binReadGlobalType_stays c

theorem binReadImport_stays (c : BinReadCtx) : c.Stays (binReadImport c).ctx := by
  refine Stays.andThen (Stays.andThen (Stays.andThen ?_ ?_) ?_) ?_
  · exact binReadName_stays c
  · exact fun _ d => binReadName_stays d
  · exact fun _ d => binReadByteAsEnum_stays externalKindEnum _ d
  · exact fun _ d => binReadImportDesc_stays _ d

theorem binReadExport_stays (c : BinReadCtx) : c.Stays (binReadExport c).ctx := by
  refine Stays.andThen (binReadName_stays c) fun _ d => ?_
  refine Stays.andThen (binReadByteAsEnum_stays externalKindEnum _ d) fun _ d => ?_
  exact binReadU32Leb_stays d

theorem binReadCodeStructure_stays (c : BinReadCtx) : c.Stays (binReadCodeStructure c).ctx := by
  unfold binReadCodeStructure
  dsimp only
  split
  · exact (binReadU32Leb_stays c).trans (binReadBytes_stays _ _)
  · exact binReadU32Leb_stays c

theorem binReadLocal_stays (c : BinReadCtx) : c.Stays (binReadLocal c).ctx := by
  unfold binReadLocal
  dsimp only
  split
  · exact (binReadU32Leb_stays c).trans (binReadValueType_stays _)
  · exact binReadU32Leb_stays c

/-! ### Vectors -/

/-- A reader that need not return stays inside its data when it does. -/
def StaysAll (parse : BinReadCtx → Outcome (ReadResult α)) : Prop :=
  ∀ ⦃c r⦄, parse c = .returned r → c.Stays r.ctx

theorem staysAll_returned {f : BinReadCtx → ReadResult α}
    (h : ∀ c : BinReadCtx, c.Stays (f c).ctx) :
    StaysAll fun c => .returned (f c) := by
  intro c r hr
  obtain rfl := Outcome.returned.inj hr
  exact h c

theorem StaysAll.map {parse : BinReadCtx → Outcome (ReadResult α)} (h : StaysAll parse)
    (f : α → β) : StaysAll fun c => ReadResult.map f <$> parse c := by
  intro c r hr
  obtain ⟨s, hs, hr⟩ := Outcome.bind_eq_returned.mp hr
  obtain rfl := Outcome.returned.inj hr
  have hstays : c.Stays s.ctx := h hs
  exact hstays

theorem Stays.thenProc {c : BinReadCtx} {r s : ReadResult α}
    {f : α → BinReadCtx → Outcome (ReadResult α)} (hr : c.Stays r.ctx)
    (hf : ∀ a, StaysAll (f a)) (h : r.thenProc f = .returned s) : c.Stays s.ctx := by
  rw [ReadResult.thenProc] at h
  split at h
  · exact hr.trans (hf _ h)
  · obtain rfl := Outcome.returned.inj h
    exact hr

theorem binReadVecLoop_stays {zero : α} {parse : BinReadCtx → Outcome (ReadResult α)}
    (h : StaysAll parse) (n : ℕ) : StaysAll (binReadVecLoop zero parse n) := by
  induction n with
  | zero =>
    intro c r hr
    obtain rfl := Outcome.returned.inj hr
    exact Stays.refl c
  | succ n ih =>
    intro c r hr
    rw [binReadVecLoop, Outcome.bind_eq_returned] at hr
    obtain ⟨entry, hentry, hr⟩ := hr
    have he : c.Stays entry.ctx := h hentry
    split at hr
    · rw [Outcome.bind_eq_returned] at hr
      obtain ⟨more, hmore, hr⟩ := hr
      obtain rfl := Outcome.returned.inj hr
      have hm : entry.ctx.Stays more.ctx := ih hmore
      exact he.trans hm
    · obtain rfl := Outcome.returned.inj hr
      exact he

theorem binReadVec_stays {zero : α} {parse : BinReadCtx → Outcome (ReadResult α)}
    (h : StaysAll parse) : StaysAll (binReadVec zero parse) := by
  intro c r hr
  have hs := binReadU32Leb_stays c
  unfold binReadVec at hr
  dsimp only at hr
  split at hr
  · exact hs.trans (binReadVecLoop_stays h _ hr)
  · obtain rfl := Outcome.returned.inj hr
    exact hs

theorem binReadFuncType_stays : StaysAll binReadFuncType := by
  intro c r hr
  have hvec : StaysAll (binReadVec ValueType.unset fun c => .returned (binReadValueType c)) :=
    binReadVec_stays (staysAll_returned binReadValueType_stays)
  have hb := binReadByte_stays c
  unfold binReadFuncType at hr
  dsimp only at hr
  split at hr
  · split at hr
    · rw [Outcome.bind_eq_returned] at hr
      obtain ⟨args, hargs, hr⟩ := hr
      have ha := hb.trans (hvec hargs)
      split at hr
      · rw [Outcome.bind_eq_returned] at hr
        obtain ⟨rets, hrets, hr⟩ := hr
        obtain rfl := Outcome.returned.inj hr
        have hrets' : args.ctx.Stays rets.ctx := hvec hrets
        exact ha.trans hrets'
      · obtain rfl := Outcome.returned.inj hr
        exact ha
    · obtain rfl := Outcome.returned.inj hr
      exact hb.errorf _ _
  · obtain rfl := Outcome.returned.inj hr
    exact hb

/-! ### Expressions -/

theorem binReadBlockType_stays (c : BinReadCtx) (ib : BinInstructionBuilder) :
    c.Stays (binReadBlockType c ib).1.ctx := by
  have hb := binReadByte_stays c
  unfold binReadBlockType
  dsimp only
  split
  · split
    · exact hb
    · exact binReadValidateEnum_stays valueTypeEnum _ hb _
  · exact hb

/-- The anchor of the loop is a position the reader has passed. -/
def LoopState.Anchored (st : LoopState) : Prop :=
  st.ctx.base ≤ st.anchor ∧ st.anchor ≤ binReaderAbsolutePos st.ctx

theorem LoopState.Anchored.advances {st : LoopState} (h : st.Anchored) {d : BinReadCtx}
    (hd : st.ctx.Advances d) (ib : BinInstructionBuilder) :
    LoopState.Anchored ⟨d, ib, st.anchor⟩ := by
  obtain ⟨hbase, hpos⟩ := h
  have hcurr := hd.curr
  simp only [Anchored, binReaderAbsolutePos, hd.base] at hbase hpos ⊢
  exact ⟨hbase, by omega⟩

/-- What a turn does: it stays inside the data, and leaves the anchor behind the reader. -/
structure LoopState.Stays (st st' : LoopState) : Prop where
  ctx : st.ctx.Stays st'.ctx
  anchored : st'.Anchored

/-- A turn that leaves the anchor as it is. -/
theorem LoopState.Anchored.stays {st : LoopState} (h : st.Anchored) {d : BinReadCtx}
    (hd : st.ctx.Stays d) (ib : BinInstructionBuilder) : st.Stays ⟨d, ib, st.anchor⟩ :=
  ⟨hd, h.advances hd.advances ib⟩

/-- A diagnostic from the anchor of the loop to a position behind it. -/
theorem LoopState.Anchored.errorf {st : LoopState} (h : st.Anchored) {d : BinReadCtx}
    (hd : st.ctx.Stays d) (format : String) (args : List FmtArg) :
    st.ctx.Stays (binErrorf d (binReaderAnchorRange d st.anchor) format args) := by
  obtain ⟨hbase, hpos⟩ := h.advances hd.advances st.ib
  exact hd.trans (stays_binErrorf (covers_binReaderAnchorRange hbase hpos) format args)

theorem binReadBrTable_stays {inst : ℕ} {st st' : LoopState} (hst : st.Anchored)
    (h : binReadBrTable inst st = .returned st') : st.Stays st' := by
  unfold binReadBrTable at h
  rw [Outcome.bind_eq_returned] at h
  obtain ⟨labels, hlabels, h⟩ := h
  have hl : st.ctx.Stays labels.ctx :=
    binReadVec_stays (staysAll_returned binReadU32Leb_stays) hlabels
  split at h
  · obtain rfl := Outcome.returned.inj h
    exact hst.stays (hl.trans (binReadU32Leb_stays _)) _
  · obtain rfl := Outcome.returned.inj h
    exact hst.stays hl _

theorem binReadCallIndirect_stays (inst : ℕ) {st : LoopState} (hst : st.Anchored) :
    st.Stays (binReadCallIndirect inst st) := by
  have hi := binReadU32Leb_stays st.ctx
  unfold binReadCallIndirect
  dsimp only
  split
  · -- the anchor moves to the position behind the index
    have hb := binReadByte_stays (binReadU32Leb st.ctx).ctx
    have hmoved : LoopState.Anchored ⟨(binReadU32Leb st.ctx).ctx, st.ib,
        binReaderAnchor (binReadU32Leb st.ctx).ctx⟩ := ⟨Nat.le_add_right _ _, le_rfl⟩
    split
    · have he := hb.errorf
        "call_indirect second number is not 0x00, which is not supported in WASM Core 1" []
      exact ⟨hi.trans he, hmoved.advances he.advances _⟩
    · exact ⟨hi.trans hb, hmoved.advances hb.advances _⟩
  · exact hst.stays hi _

theorem binReadMemarg_stays (inst : ℕ) {st : LoopState} (hst : st.Anchored) :
    st.Stays (binReadMemarg inst st) := by
  have ha := binReadU32Leb_stays st.ctx
  have ho := ha.trans (binReadU32Leb_stays (binReadU32Leb st.ctx).ctx)
  unfold binReadMemarg
  dsimp only
  split
  · split
    · exact hst.stays ho _
    · exact hst.stays ho _
  · exact hst.stays ha _

theorem binReadMemory_stays {st : LoopState} (hst : st.Anchored) :
    st.Stays (binReadMemory st) := by
  have hb := binReadByte_stays st.ctx
  unfold binReadMemory
  dsimp only
  split
  · exact hst.stays (hst.errorf hb _ _) _
  · exact hst.stays hb _

theorem binStoreConstant_stays (inst : ℕ) {st : LoopState} (hst : st.Anchored)
    {r : ReadResult UInt64} (hr : st.ctx.Stays r.ctx) :
    st.Stays (binStoreConstant inst st r) := by
  unfold binStoreConstant
  split
  · exact hst.stays hr _
  · exact hst.stays hr _

section NestedStays

variable {nested : NestedUntil}
  (hn : ∀ {c ib u r}, nested c ib u = .returned r → c.Stays r.ctx)

include hn

theorem binReadBlock_stays {inst : ℕ} {st st' : LoopState} (hst : st.Anchored)
    (h : binReadBlock nested inst st = .returned st') : st.Stays st' := by
  have ht := binReadBlockType_stays st.ctx st.ib
  unfold binReadBlock at h
  dsimp only at h
  split at h
  · rw [Outcome.bind_eq_returned] at h
    obtain ⟨body, hbody, h⟩ := h
    obtain rfl := Outcome.returned.inj h
    exact hst.stays (ht.trans (hn hbody)) _
  · obtain rfl := Outcome.returned.inj h
    exact hst.stays ht _

theorem binReadIf_stays {inst : ℕ} {st st' : LoopState} (hst : st.Anchored)
    (h : binReadIf nested inst st = .returned st') : st.Stays st' := by
  have ht := binReadBlockType_stays st.ctx st.ib
  unfold binReadIf at h
  dsimp only at h
  split at h
  · rw [Outcome.bind_eq_returned] at h
    obtain ⟨body, hbody, h⟩ := h
    have hb := ht.trans (hn hbody)
    split at h
    · split at h
      · rw [Outcome.bind_eq_returned] at h
        obtain ⟨els, hels, h⟩ := h
        obtain rfl := Outcome.returned.inj h
        exact hst.stays (hb.trans (hn hels)) _
      · obtain rfl := Outcome.returned.inj h
        exact hst.stays hb _
    · obtain rfl := Outcome.returned.inj h
      exact hst.stays hb _
  · obtain rfl := Outcome.returned.inj h
    exact hst.stays ht _

theorem binReadTurn_stays {opcode : InstructionOpcode} {inst : ℕ} {st st' : LoopState}
    (hst : st.Anchored) (h : binReadTurn nested opcode inst st = .returned st') :
    st.Stays st' := by
  unfold binReadTurn at h
  split at h
  case h_1 => cases h
  case h_2 => cases h
  case h_4 => exact binReadBlock_stays hn hst h
  case h_5 => exact binReadIf_stays hn hst h
  case h_7 => exact binReadBrTable_stays hst h
  all_goals obtain rfl := Outcome.returned.inj h
  · exact ⟨Stays.refl _, hst⟩
  · exact hst.stays (binReadU32Leb_stays st.ctx) _
  · exact binReadCallIndirect_stays inst hst
  · exact binReadMemarg_stays inst hst
  · exact binReadMemory_stays hst
  · exact hst.stays (binReadIXXLeb_stays 32 "i32" st.ctx) _
  · exact binStoreConstant_stays inst hst (binReadIXXLeb_stays 64 "i64" st.ctx)
  · exact hst.stays (binReadU32_stays st.ctx) _
  · exact binStoreConstant_stays inst hst (binReadU64_stays st.ctx)
  · exact hst.stays (hst.errorf (Stays.refl _) _ _) _

end NestedStays

theorem enterUntil_anchored (c : BinReadCtx) (ib : BinInstructionBuilder) :
    (enterUntil c ib).Anchored := ⟨Nat.le_add_right _ _, le_rfl⟩

theorem binReadInstructionsLoop_stays {fuel : ℕ} {u : List InstructionOpcode}
    {st : LoopState} {r : UntilResult} (hst : st.Anchored)
    (h : binReadInstructionsLoop fuel u st = .returned r) : st.ctx.Stays r.ctx := by
  induction fuel generalizing u st r with
  | zero => cases h
  | succ fuel ih =>
    have ho := binReadByte_stays st.ctx
    rw [binReadInstructionsLoop] at h
    dsimp only at h
    split at h
    · obtain rfl := Outcome.returned.inj h
      exact ho
    · rw [Outcome.bind_eq_returned] at h
      obtain ⟨st', hturn, h⟩ := h
      have hst' := binReadTurn_stays (fun {c ib v s} hs => ?_) (hst.advances ho.advances _) hturn
      · exact ho.trans (hst'.ctx.trans (ih hst'.anchored h))
      · -- a nested call starts from an anchor of its own
        rw [leaveUntil_map, Outcome.bind_eq_returned] at hs
        obtain ⟨s', hs', hs⟩ := hs
        obtain rfl := Outcome.returned.inj hs
        have hstays : (enterUntil c ib).ctx.Stays s'.ctx := ih (enterUntil_anchored c ib) hs'
        exact hstays

theorem binReadExpr_stays (fuel : ℕ) : StaysAll (binReadExpr fuel) := by
  intro c r hr
  obtain ⟨s, hs, hr⟩ := Outcome.bind_eq_returned.mp hr
  obtain rfl := Outcome.returned.inj hr
  obtain ⟨s', hs', hs⟩ := Outcome.bind_eq_returned.mp hs
  obtain rfl := Outcome.returned.inj hs
  have hloop : c.Stays s'.ctx :=
    binReadInstructionsLoop_stays (enterUntil_anchored c binExprBuilder) hs'
  exact hloop

/-! ### Entries with an expression -/

theorem binReadGlobal_stays (fuel : ℕ) : StaysAll (binReadGlobal fuel) := by
  intro c r hr
  refine Stays.thenProc ?_ (fun _ => (binReadExpr_stays fuel).map _) hr
  exact Stays.andThen (binReadValueType_stays c) fun _ d => binReadB8_stays d

theorem binReadElement_stays (fuel : ℕ) : StaysAll (binReadElement fuel) := by
  intro c r hr
  obtain ⟨element, helement, hr⟩ := Outcome.bind_eq_returned.mp hr
  have he : c.Stays element.ctx :=
    Stays.thenProc (binReadU32Leb_stays c) (fun _ => (binReadExpr_stays fuel).map _) helement
  refine Stays.thenProc he (fun _ => ?_) hr
  exact (binReadVec_stays (staysAll_returned binReadU32Leb_stays)).map _

theorem binReadData_stays (fuel : ℕ) : StaysAll (binReadData fuel) := by
  intro c r hr
  obtain ⟨data, hdata, hr⟩ := Outcome.bind_eq_returned.mp hr
  have hd : c.Stays data.ctx :=
    Stays.thenProc (binReadU32Leb_stays c) (fun _ => (binReadExpr_stays fuel).map _) hdata
  refine Stays.thenProc hd (fun _ d s hs => ?_) hr
  obtain rfl := Outcome.returned.inj hs
  split
  · exact (binReadU32Leb_stays d).trans (binReadBytes_stays _ _)
  · exact binReadU32Leb_stays d

/-- A body is read in the scope of its bytes. -/
theorem binReadCode_stays {fuel : ℕ} {c : BinReadCtx} {binCode : BinCode} {r : ReadResult Code}
    (h : binReadCode fuel c binCode = .returned r) :
    (binReaderSetScope c binCode.pos binCode.data).Stays r.ctx := by
  obtain ⟨locals, hlocals, h⟩ := Outcome.bind_eq_returned.mp h
  refine Stays.thenProc ?_ (fun _ => (binReadExpr_stays fuel).map _) h
  exact binReadVec_stays (staysAll_returned binReadLocal_stays) hlocals

/-! ### Sections and the scan -/

theorem binReadSection_stays (fuel : ℕ) (kind : BinSectionKind) :
    StaysAll fun c => binReadSection fuel c kind := by
  cases kind with
  | custom => exact staysAll_returned Stays.refl
  | type => exact (binReadVec_stays binReadFuncType_stays).map _
  | «import» => exact (binReadVec_stays (staysAll_returned binReadImport_stays)).map _
  | function => exact (binReadVec_stays (staysAll_returned binReadU32Leb_stays)).map _
  | table => exact (binReadVec_stays (staysAll_returned binReadTableType_stays)).map _
  | memory => exact (binReadVec_stays (staysAll_returned binReadLimits_stays)).map _
  | global => exact (binReadVec_stays (binReadGlobal_stays fuel)).map _
  | «export» => exact (binReadVec_stays (staysAll_returned binReadExport_stays)).map _
  | start => exact staysAll_returned binReadU32Leb_stays
  | element => exact (binReadVec_stays (binReadElement_stays fuel)).map _
  | data => exact (binReadVec_stays (binReadData_stays fuel)).map _
  | code =>
    intro c r h
    cases h

theorem binReadCodeSectionStructure_stays : StaysAll binReadCodeSectionStructure :=
  binReadVec_stays (staysAll_returned binReadCodeStructure_stays)

theorem binScanSection_stays (c : BinReadCtx) : c.Stays (binScanSection c).ctx := by
  have hk := binReadB8_stays c
  unfold binScanSection
  dsimp only
  split
  · split
    · have hs := hk.trans (binReadU32Leb_stays (binReadB8 c).ctx)
      split
      · exact hs.trans (binReadBytes_stays _ _)
      · exact hs
    · exact hk.errorf _ _
  · exact hk

theorem binScanSections_stays (c : BinReadCtx) (sections : List BinSection) :
    c.Stays (binScanSections c sections).ctx := by
  fun_induction binScanSections c sections with
  | case1 c sections _ _ ih => exact (binScanSection_stays c).trans ih
  | case2 c sections _ _ => exact binScanSection_stays c
  | case3 c sections _ => exact Stays.refl c

theorem binScanModule_stays (c : BinReadCtx) : c.Stays (binScanModule c).ctx := by
  refine Stays.andThen (Stays.andThen ?_ fun m d => ?_) fun m d => ?_
  · have hm := binReadU32_stays c
    unfold binScanMagic
    dsimp only
    split
    · exact hm.errorf _ _
    · exact hm
  · have hv := binReadU32_stays d
    unfold binScanVersion
    dsimp only
    split
    · exact hv.errorf _ _
    · exact hv
  · have hs := binScanSections_stays d []
    unfold binScanCollect
    dsimp only
    split
    · exact hs
    · exact hs

end Wasim
