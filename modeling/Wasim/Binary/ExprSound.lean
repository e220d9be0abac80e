import Wasim.Binary.ExprClose

/-!
# What the expression reader accepts in silence

The other direction of `Layout`: a run of the loop that pushes no diagnostic has read an
encoding (`binReadInstructionsLoop_sound`). With `loopReads_of_encodes` this settles when the
expression reader reports something: exactly when the bytes do not start with an expression
of the binary format (`binReadExpr_quiet_iff`).
-/

namespace Wasim

open BinReadCtx

/-- The bytes start with an expression of the format. -/
def StartsWithExpr (bs : List UInt8) : Prop :=
  ∃ is b rest, Encoding.expr is b ∧ bs = b ++ rest

/-! ### One turn -/

/-- A reader that pushed nothing has read an encoding. -/
theorem Accepts.of_quiet {α : Type} {E : Encoding α} {read : BinReadCtx → ReadResult α}
    (h : Accepts E read) {c : BinReadCtx} (hr : Reports c (read c))
    (hq : (read c).ctx.diags = c.diags) :
    ∃ bs, E (read c).value bs ∧ c.rest = bs ++ (read c).ctx.rest := by
  obtain ⟨bs, rest, hrest, he, hctx⟩ := h (hr.ok_iff.mpr hq)
  exact ⟨bs, he, by rw [hctx, rest_advance_of_eq hrest, hrest]⟩

theorem binReadByte_of_quiet {c : BinReadCtx} (hq : (binReadByte c).ctx.diags = c.diags) :
    c.rest = (binReadByte c).value :: (binReadByte c).ctx.rest := by
  rcases h : c.rest with _ | ⟨b, rest⟩
  · have hok := (binReadByte_reports c).ok_iff.mpr hq
    exact absurd h (binReadByte_ok_iff.mp hok)
  · rw [binReadByte_cons h, rest_advance_one h]

theorem binReadMemarg_sound {inst : ℕ} {st : LoopState}
    (hq : (binReadMemarg inst st).ctx.diags = st.ctx.diags) :
    ∃ align offset as os, Encoding.u32 align as ∧ Encoding.u32 offset os ∧
      st.ctx.rest = as ++ (os ++ (binReadMemarg inst st).ctx.rest) := by
  have ha := binReadU32Leb_reports st.ctx
  have ho := binReadU32Leb_reports (binReadU32Leb st.ctx).ctx
  have hctx : (binReadMemarg inst st).ctx =
      if (binReadU32Leb st.ctx).ok then (binReadU32Leb (binReadU32Leb st.ctx).ctx).ctx
      else (binReadU32Leb st.ctx).ctx := by
    unfold binReadMemarg
    dsimp only
    split
    · split <;> rfl
    · rfl
  rw [hctx] at hq ⊢
  by_cases hok : (binReadU32Leb st.ctx).ok = true
  · rw [if_pos hok] at hq ⊢
    obtain ⟨hqa, hqo⟩ := (ha.advances.diags_eq_iff ho.advances).mp hq
    obtain ⟨as, hea, hresta⟩ := binReadU32Leb_accepts.of_quiet ha hqa
    obtain ⟨os, heo, hresto⟩ := binReadU32Leb_accepts.of_quiet ho hqo
    exact ⟨_, _, as, os, hea, heo, by rw [hresta, hresto]⟩
  · rw [if_neg hok] at hq
    exact absurd (ha.ok_iff.mpr hq) hok

/-- A byte that must be zero: nothing was pushed only if it is. -/
theorem zeroByte_of_quiet {c : BinReadCtx} {range : BinByteRange} {text : String}
    (hq : (if (binReadByte c).value ≠ 0 then binErrorf (binReadByte c).ctx range text []
      else (binReadByte c).ctx).diags = c.diags) :
    c.rest = 0x00 :: (if (binReadByte c).value ≠ 0 then binErrorf (binReadByte c).ctx range text []
      else (binReadByte c).ctx).rest := by
  have hb := (binReadByte_reports c).advances
  by_cases hzero : (binReadByte c).value ≠ 0
  · rw [if_pos hzero] at hq
    exact absurd ((hb.diags_eq_iff (advances_binErrorf _ range text [])).mp hq).2 (by simp)
  · rw [if_neg hzero] at hq ⊢
    have hrest := binReadByte_of_quiet hq
    rwa [not_not.mp hzero] at hrest

theorem binReadCallIndirect_sound {inst : ℕ} {st : LoopState}
    (hq : (binReadCallIndirect inst st).ctx.diags = st.ctx.diags) :
    ∃ x bs, Encoding.u32 x bs ∧
      st.ctx.rest = bs ++ 0x00 :: (binReadCallIndirect inst st).ctx.rest := by
  have hx := binReadU32Leb_reports st.ctx
  unfold binReadCallIndirect at hq ⊢
  dsimp only at hq ⊢
  by_cases hok : (binReadU32Leb st.ctx).ok = true
  · rw [if_pos hok] at hq ⊢
    dsimp only at hq ⊢
    have hqx := hx.ok_iff.mp hok
    obtain ⟨bs, hex, hrestx⟩ := binReadU32Leb_accepts.of_quiet hx hqx
    rw [← hqx] at hq
    have hzero := zeroByte_of_quiet hq
    exact ⟨_, bs, hex, by rw [← hzero]; exact hrestx⟩
  · rw [if_neg hok] at hq
    exact absurd (hx.ok_iff.mpr hq) hok

theorem binReadBrTable_sound {inst : ℕ} {st st' : LoopState}
    (h : binReadBrTable inst st = .returned st') (hq : st'.ctx.diags = st.ctx.diags) :
    ∃ labels default bs ds, Encoding.vec Encoding.u32 labels bs ∧ Encoding.u32 default ds ∧
      st.ctx.rest = bs ++ (ds ++ st'.ctx.rest) := by
  have hl := binReadLabels_reports st.ctx
  have hd := binReadU32Leb_reports (binReadLabels st.ctx).ctx
  unfold binReadBrTable at h
  simp only [binReadVec_labels, Outcome.returned_bind] at h
  by_cases hok : (binReadLabels st.ctx).ok = true
  · rw [if_pos hok] at h
    obtain rfl := Outcome.returned.inj h
    obtain ⟨hql, hqd⟩ := (hl.advances.diags_eq_iff hd.advances).mp hq
    obtain ⟨bs, rest, hrest, hel, hctx⟩ := binReadVec_accepts binReadU32Leb_accepts.proc
      (binReadVec_labels st.ctx) hok
    obtain ⟨ds, hed, hrestd⟩ := binReadU32Leb_accepts.of_quiet hd hqd
    refine ⟨_, _, bs, ds, hel, hed, ?_⟩
    rw [← hrestd, hctx, rest_advance_of_eq hrest, hrest]
  · rw [if_neg hok] at h
    obtain rfl := Outcome.returned.inj h
    exact absurd (hl.ok_iff.mpr hq) hok

theorem binReadTurn_sound {op : InstructionOpcode} (hflat : (switchCase op).Flat)
    {nested : NestedUntil} {inst : ℕ} {st st' : LoopState}
    (h : binReadTurn nested op inst st = .returned st') (hq : st'.ctx.diags = st.ctx.diags) :
    ∃ i b, PlainInstr.Encodes i (op :: b) ∧ st.ctx.rest = b ++ st'.ctx.rest := by
  obtain ⟨hblock, hif, helse, hend⟩ := hflat
  have hspec := switchCase_spec op
  unfold binReadTurn at h
  cases hcase : switchCase op with
  | block => exact absurd hcase hblock
  | ifOp => exact absurd hcase hif
  | elseOp => exact absurd hcase helse
  | endOp => exact absurd hcase hend
  | nothing =>
    rw [hcase] at h
    obtain rfl := Outcome.returned.inj h
    exact ⟨.nullary op, [], .nullary (hspec.1.mp hcase), rfl⟩
  | invalid =>
    rw [hcase] at h
    obtain rfl := Outcome.returned.inj h
    exact absurd hq (by simp)
  | index =>
    rw [hcase] at h
    obtain rfl := Outcome.returned.inj h
    obtain ⟨bs, he, hrest⟩ := binReadU32Leb_accepts.of_quiet (binReadU32Leb_reports _) hq
    exact ⟨.index op _, bs, .index (hspec.2.1.mp hcase) he, hrest⟩
  | memarg =>
    rw [hcase] at h
    obtain rfl := Outcome.returned.inj h
    obtain ⟨align, offset, as, os, hea, heo, hrest⟩ := binReadMemarg_sound hq
    exact ⟨.memarg op align offset, as ++ os, .memarg (hspec.2.2.1.mp hcase) hea heo,
      by rw [List.append_assoc]; exact hrest⟩
  | memory =>
    rw [hcase] at h
    obtain rfl := Outcome.returned.inj h
    exact ⟨.memory op, [0x00], .memory (hspec.2.2.2.1.mp hcase), zeroByte_of_quiet hq⟩
  | callIndirect =>
    obtain rfl : op = 0x11 := hspec.2.2.2.2.2.2.2.2.2.1.mp hcase
    obtain rfl := Outcome.returned.inj h
    obtain ⟨x, bs, hex, hrest⟩ := binReadCallIndirect_sound hq
    exact ⟨.callIndirect x, bs ++ [0x00], .callIndirect hex,
      by rw [List.append_assoc]; exact hrest⟩
  | brTable =>
    obtain rfl : op = 0x0E := hspec.2.2.2.2.2.2.2.2.1.mp hcase
    obtain ⟨labels, default, bs, ds, hel, hed, hrest⟩ := binReadBrTable_sound h hq
    exact ⟨.brTable labels default, bs ++ ds, .brTable hel hed,
      by rw [List.append_assoc]; exact hrest⟩
  | i32Const =>
    obtain rfl : op = 0x41 := hspec.2.2.2.2.2.2.2.2.2.2.1.mp hcase
    obtain rfl := Outcome.returned.inj h
    obtain ⟨bs, he, hrest⟩ := (binReadIXXLeb_accepts 32 "i32").of_quiet
      (binReadI32Leb_reports _) hq
    exact ⟨.i32Const _, bs, .i32Const he, hrest⟩
  | i64Const =>
    obtain rfl : op = 0x42 := hspec.2.2.2.2.2.2.2.2.2.2.2.1.mp hcase
    obtain rfl := Outcome.returned.inj h
    rw [binStoreConstant_ctx] at hq ⊢
    obtain ⟨bs, he, hrest⟩ := (binReadIXXLeb_accepts 64 "i64").of_quiet
      (binReadI64Leb_reports _) hq
    exact ⟨.i64Const _, bs, .i64Const he, hrest⟩
  | f32Const =>
    obtain rfl : op = 0x43 := hspec.2.2.2.2.2.2.2.2.2.2.2.2.1.mp hcase
    obtain rfl := Outcome.returned.inj h
    obtain ⟨bs, rfl, hrest⟩ := binReadU32_accepts.of_quiet (binReadU32_reports _) hq
    exact ⟨.f32Const _, _, .f32Const _, hrest⟩
  | f64Const =>
    obtain rfl : op = 0x44 := hspec.2.2.2.2.2.2.2.2.2.2.2.2.2.mp hcase
    obtain rfl := Outcome.returned.inj h
    rw [binStoreConstant_ctx] at hq ⊢
    obtain ⟨bs, rfl, hrest⟩ := binReadU64_accepts.of_quiet (binReadU64_reports _) hq
    exact ⟨.f64Const _, _, .f64Const _, hrest⟩

theorem readBlockType_sound {c : BinReadCtx} (hq : (readBlockType c).ctx.diags = c.diags) :
    ∃ type t, EncodesBlockType type t ∧ c.rest = t :: (readBlockType c).ctx.rest := by
  have hb := binReadByte_reports c
  have hok := (readBlockType_reports c).ok_iff.mpr hq
  unfold readBlockType binReadBlockType at hq hok ⊢
  dsimp only at hq hok ⊢
  by_cases hbyte : (binReadByte c).ok = true
  · have hrest := binReadByte_of_quiet (hb.ok_iff.mp hbyte)
    rw [if_pos hbyte] at hok ⊢
    by_cases hnone : (binReadByte c).value = 0x40
    · rw [if_pos hnone]
      exact ⟨none, 0x40, .none, by rw [← hnone]; exact hrest⟩
    · rw [if_neg hnone] at hok ⊢
      unfold binReadValidateEnum at hok ⊢
      split at hok
      · rename_i hrange
        obtain ⟨hto, hne⟩ := toByte_valueTypeEnum _ hrange
        rw [if_pos hrange]
        exact ⟨some _, _, .some hne, by rw [hto]; exact hrest⟩
      · cases hok
  · rw [if_neg hbyte] at hok
    cases hok

/-- A nested call that pushes nothing has read a sequence and the opcode that closes it. -/
def SoundNested (nested : NestedUntil) : Prop :=
  ∀ (f : Frame) (c : BinReadCtx) (ib : BinInstructionBuilder) (r : UntilResult),
    nested c ib f.until_ = .returned r → r.ctx.diags = c.diags →
    ∃ is b, Instrs.Encodes is b ∧ c.rest = b ++ r.breakOpcode :: r.ctx.rest

section Nested

variable {fuel : ℕ} (hn : SoundNested (nestedUntil fuel))

include hn

theorem binReadBlock_sound {inst : ℕ} {st st' : LoopState}
    (h : binReadBlock (nestedUntil fuel) inst st = .returned st')
    (hq : st'.ctx.diags = st.ctx.diags) :
    ∃ type t body b, EncodesBlockType type t ∧ Instrs.Encodes body b ∧
      st.ctx.rest = t :: (b ++ 0x0B :: st'.ctx.rest) := by
  have ht := readBlockType_reports st.ctx
  unfold binReadBlock at h
  simp only [binReadBlockType_fst] at h
  by_cases hok : (readBlockType st.ctx).ok = true
  · rw [if_pos hok, Outcome.bind_eq_returned] at h
    obtain ⟨body, hbody, h⟩ := h
    obtain rfl := Outcome.returned.inj h
    obtain ⟨hqt, hqb⟩ := (ht.advances.diags_eq_iff (nestedUntil_advances hbody)).mp hq
    obtain ⟨type, t, htype, hrest⟩ := readBlockType_sound hqt
    obtain ⟨is, b, he, hrestb⟩ := hn .body _ _ _ hbody hqb
    obtain ⟨hbreak, -⟩ := nestedUntil_break (f := .body) hbody
    obtain hend : body.breakOpcode = 0x0B := by
      simpa [Frame.until_, Opcode.endOp] using hbreak
    rw [hend] at hrestb
    exact ⟨type, t, is, b, htype, he, by rw [hrest, hrestb]⟩
  · rw [if_neg hok] at h
    obtain rfl := Outcome.returned.inj h
    exact absurd (ht.ok_iff.mpr hq) hok

theorem binReadIf_sound {inst : ℕ} {st st' : LoopState}
    (h : binReadIf (nestedUntil fuel) inst st = .returned st')
    (hq : st'.ctx.diags = st.ctx.diags) :
    ∃ type t body b, EncodesBlockType type t ∧ Instrs.Encodes body b ∧
      (st.ctx.rest = t :: (b ++ 0x0B :: st'.ctx.rest) ∨
        ∃ els e, Instrs.Encodes els e ∧
          st.ctx.rest = t :: (b ++ 0x05 :: (e ++ 0x0B :: st'.ctx.rest))) := by
  have ht := readBlockType_reports st.ctx
  unfold binReadIf at h
  simp only [binReadBlockType_fst] at h
  by_cases hok : (readBlockType st.ctx).ok = true
  · rw [if_pos hok, Outcome.bind_eq_returned] at h
    obtain ⟨body, hbody, h⟩ := h
    obtain ⟨hbreak, hbok⟩ := nestedUntil_break (f := .thenBranch) hbody
    have hadvb := ht.advances.trans (nestedUntil_advances hbody)
    rw [if_pos hbok] at h
    split at h
    · rename_i helse
      rw [Outcome.bind_eq_returned] at h
      obtain ⟨els, hels, h⟩ := h
      obtain rfl := Outcome.returned.inj h
      obtain ⟨hqtb, hqe⟩ := (hadvb.diags_eq_iff (nestedUntil_advances hels)).mp hq
      obtain ⟨hqt, hqb⟩ := (ht.advances.diags_eq_iff (nestedUntil_advances hbody)).mp hqtb
      obtain ⟨type, t, htype, hrest⟩ := readBlockType_sound hqt
      obtain ⟨is, b, he, hrestb⟩ := hn .thenBranch _ _ _ hbody hqb
      obtain ⟨is', e, he', hreste⟩ := hn .body _ _ _ hels hqe
      obtain ⟨hbreak', -⟩ := nestedUntil_break (f := .body) hels
      obtain hend : els.breakOpcode = 0x0B := by
        simpa [Frame.until_, Opcode.endOp] using hbreak'
      rw [hend] at hreste
      refine ⟨type, t, is, b, htype, he, .inr ⟨is', e, he', ?_⟩⟩
      rw [hrest, hrestb, helse, hreste]
      rfl
    · rename_i helse
      obtain rfl := Outcome.returned.inj h
      obtain ⟨hqt, hqb⟩ := (ht.advances.diags_eq_iff (nestedUntil_advances hbody)).mp hq
      obtain ⟨type, t, htype, hrest⟩ := readBlockType_sound hqt
      obtain ⟨is, b, he, hrestb⟩ := hn .thenBranch _ _ _ hbody hqb
      have hend : body.breakOpcode = 0x0B := by
        have hor : body.breakOpcode = 0x0B ∨ body.breakOpcode = 0x05 := by
          simpa [Frame.until_, Opcode.endOp, Opcode.elseOp] using hbreak
        exact hor.resolve_right helse
      rw [hend] at hrestb
      exact ⟨type, t, is, b, htype, he, .inl (by rw [hrest, hrestb])⟩
  · rw [if_neg hok] at h
    obtain rfl := Outcome.returned.inj h
    exact absurd (ht.ok_iff.mpr hq) hok

end Nested

/-! ### The loop -/

/-- A run of the loop that pushes nothing has read a sequence and the opcode that closes it. -/
theorem binReadInstructionsLoop_sound {fuel : ℕ} {f : Frame} {st : LoopState} {r : UntilResult}
    (h : binReadInstructionsLoop fuel f.until_ st = .returned r)
    (hq : r.ctx.diags = st.ctx.diags) :
    ∃ is b, Instrs.Encodes is b ∧ st.ctx.rest = b ++ r.breakOpcode :: r.ctx.rest := by
  induction fuel generalizing f st r with
  | zero => cases h
  | succ fuel ih =>
    have hn : SoundNested (nestedUntil fuel) := by
      intro f c ib r hr hq
      rw [nestedUntil, leaveUntil_map, Outcome.bind_eq_returned] at hr
      obtain ⟨r', hr', h⟩ := hr
      obtain rfl := Outcome.returned.inj h
      exact ih hr' hq
    have hbyte := (binReadByte_reports st.ctx).advances
    rw [binReadInstructionsLoop] at h
    dsimp only at h
    rw [binReadOpcode] at h
    split at h
    · obtain rfl := Outcome.returned.inj h
      exact ⟨.nil, [], .nil, binReadByte_of_quiet hq⟩
    · rw [Outcome.bind_eq_returned] at h
      obtain ⟨st', hturn, h⟩ := h
      have hadvt := binReadTurn_advances (@nestedUntil_advances fuel) hturn
      have hadvl := binReadInstructionsLoop_advances h
      obtain ⟨hqt, hql⟩ := ((hbyte.trans hadvt).diags_eq_iff hadvl).mp hq
      obtain ⟨hqb, hqt⟩ := (hbyte.diags_eq_iff hadvt).mp hqt
      obtain ⟨is, r', he, hrest'⟩ := ih h hql
      have hrest := binReadByte_of_quiet hqb
      obtain ⟨op, hop⟩ : ∃ op, op = (binReadByte st.ctx).value := ⟨_, rfl⟩
      rw [← hop] at hturn hrest
      rcases (switchCase op).flat_or with hflat | hcase | hcase | hcase | hcase
      · obtain ⟨i, b, hei, hresti⟩ := binReadTurn_sound hflat hturn hqt
        refine ⟨.plain i is, (op :: b) ++ r', .plain hei he, ?_⟩
        rw [hrest, hresti, hrest']
        simp
      · rw [binReadTurn, hcase] at hturn
        obtain ⟨type, t, body, b, htype, heb, hrestb⟩ := binReadBlock_sound hn hturn hqt
        obtain ⟨isLoop, rfl⟩ : ∃ isLoop, op = blockOp isLoop := by
          rcases (switchCase_spec op).2.2.2.2.1.mp hcase with rfl | rfl
          · exact ⟨false, rfl⟩
          · exact ⟨true, rfl⟩
        refine ⟨.block isLoop type body is, _, .block htype heb he, ?_⟩
        rw [hrest, hrestb, hrest']
        simp
      · rw [binReadTurn, hcase] at hturn
        obtain rfl : op = 0x04 := (switchCase_spec op).2.2.2.2.2.1.mp hcase
        obtain ⟨type, t, body, b, htype, heb, hrestb | ⟨els, e, hee, hrestb⟩⟩ :=
          binReadIf_sound hn hturn hqt
        · refine ⟨.ifThen type body is, _, .ifThen htype heb he, ?_⟩
          rw [hrest, hrestb, hrest']
          simp
        · refine ⟨.ifElse type body els is, _, .ifElse htype heb hee he, ?_⟩
          rw [hrest, hrestb, hrest']
          simp
      · rw [binReadTurn, hcase] at hturn
        cases hturn
      · rw [binReadTurn, hcase] at hturn
        cases hturn

/-- The bytes start with a sequence that an opcode of the construct `f` closes. -/
def StartsWithBody (f : Frame) (bs : List UInt8) : Prop :=
  ∃ is b op rest, Instrs.Encodes is b ∧ op ∈ f.until_ ∧ bs = b ++ op :: rest

theorem startsWithBody_iff (bs : List UInt8) : StartsWithBody .body bs ↔ StartsWithExpr bs := by
  constructor
  · rintro ⟨is, b, op, rest, he, hop, rfl⟩
    obtain rfl : op = 0x0B := by simpa [Frame.until_, Opcode.endOp] using hop
    exact ⟨is, b ++ [0x0B], rest, ⟨b, he, rfl⟩, by simp⟩
  · rintro ⟨is, -, rest, ⟨b, he, rfl⟩, rfl⟩
    exact ⟨is, b, 0x0B, rest, he, by simp [Frame.until_, Opcode.endOp], by simp⟩

/-- A call pushes nothing exactly on a sequence that is closed. -/
theorem nestedUntil_quiet_iff {fuel : ℕ} {f : Frame} {c : BinReadCtx}
    {ib : BinInstructionBuilder} {r : UntilResult}
    (h : nestedUntil fuel c ib f.until_ = .returned r) :
    r.ctx.diags = c.diags ↔ StartsWithBody f c.rest := by
  constructor
  · intro hq
    have hbreak := (nestedUntil_break h).1
    rw [nestedUntil, leaveUntil_map, Outcome.bind_eq_returned] at h
    obtain ⟨r', hr', h⟩ := h
    obtain rfl := Outcome.returned.inj h
    obtain ⟨is, b, he, hrest⟩ := binReadInstructionsLoop_sound hr' hq
    exact ⟨is, b, _, _, he, hbreak, hrest⟩
  · rintro ⟨is, b, op, rest, he, hop, hrest⟩
    obtain ⟨n, ib', hn, -⟩ := (loopReads_of_encodes he).nested (u := f.until_)
      (by cases f <;> decide) hop ib hrest
    have hstable : Outcome.Stable fun k => nestedUntil k c ib f.until_ :=
      fun k => nestedUntil_le k.le_succ _ _ _
    obtain rfl := Outcome.Returns.unique hstable ⟨fuel, h⟩ ⟨n, hn⟩
    rfl

/-- The expression reader pushes nothing exactly on an expression of the format. -/
theorem binReadExpr_quiet_iff {fuel : ℕ} {c : BinReadCtx} {r : ReadResult Expr}
    (h : binReadExpr fuel c = .returned r) :
    r.ctx.diags = c.diags ↔ StartsWithExpr c.rest := by
  rw [binReadExpr, Outcome.bind_eq_returned] at h
  obtain ⟨r', hr', h⟩ := h
  obtain rfl := Outcome.returned.inj h
  rw [← startsWithBody_iff]
  exact nestedUntil_quiet_iff (f := .body) hr'

end Wasim
