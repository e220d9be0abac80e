import Wasim.Binary.ExprLog

/-!
# The flat form of an instruction sequence

Which instructions and which extra bytes the expression reader writes for a sequence, as a
function of the tree: `Instrs.flat` and `Instrs.payload`. The main result is that decoding an
encoding writes exactly these (`binReadExpr_encodes`), for every encoding of the sequence and
whatever follows it.

The loop is described one instruction at a time: on the encoding of an instruction a turn of
the loop ends in the same loop, with less fuel, behind the encoding.

The tree also says where the arrays grow. If no nested body outgrows a chunk that was there when it
was entered (`Instrs.Fits`), then the log of the reader fits.
-/

namespace Wasim

open BinReadCtx

/-! ### Opcodes and the cases of the switch -/

instance : DecidablePred NullaryOp := fun _ => inferInstanceAs (Decidable (_ ∨ _))

instance : DecidablePred IndexOp := fun _ => inferInstanceAs (Decidable (_ ∨ _))

instance : DecidablePred MemargOp := fun _ => inferInstanceAs (Decidable (_ ∧ _))

instance : DecidablePred MemoryOp := fun _ => inferInstanceAs (Decidable (_ ∨ _))

/-- The `switch` sorts the opcodes as the format does. -/
theorem switchCase_spec : ∀ op : InstructionOpcode,
    (switchCase op = .nothing ↔ NullaryOp op) ∧ (switchCase op = .index ↔ IndexOp op) ∧
    (switchCase op = .memarg ↔ MemargOp op) ∧ (switchCase op = .memory ↔ MemoryOp op) ∧
    (switchCase op = .block ↔ op = 0x02 ∨ op = 0x03) ∧ (switchCase op = .ifOp ↔ op = 0x04) ∧
    (switchCase op = .elseOp ↔ op = 0x05) ∧ (switchCase op = .endOp ↔ op = 0x0B) ∧
    (switchCase op = .brTable ↔ op = 0x0E) ∧ (switchCase op = .callIndirect ↔ op = 0x11) ∧
    (switchCase op = .i32Const ↔ op = 0x41) ∧ (switchCase op = .i64Const ↔ op = 0x42) ∧
    (switchCase op = .f32Const ↔ op = 0x43) ∧ (switchCase op = .f64Const ↔ op = 0x44) :=
  forall_byte (by decide +kernel)

/-- The opcodes that can close an instruction sequence. -/
def closers : List InstructionOpcode := [Opcode.endOp, Opcode.elseOp]

theorem not_mem_of_switchCase {op : InstructionOpcode} {u : List InstructionOpcode}
    (hu : u ⊆ closers) (hend : switchCase op ≠ .endOp) (helse : switchCase op ≠ .elseOp) :
    op ∉ u := by
  intro hmem
  have hop : op = Opcode.endOp ∨ op = Opcode.elseOp := by simpa [closers] using hu hmem
  rcases hop with rfl | rfl
  · exact hend rfl
  · exact helse rfl

/-! ### The layout -/

namespace PlainInstr

def opcode : PlainInstr → InstructionOpcode
  | nullary op => op
  | index op _ => op
  | brTable _ _ => 0x0E
  | callIndirect _ => 0x11
  | memarg op _ _ => op
  | memory op => op
  | i32Const _ => 0x41
  | i64Const _ => 0x42
  | f32Const _ => 0x43
  | f64Const _ => 0x44

/-- The extra bytes of an instruction. -/
def payload : PlainInstr → List UInt8
  | brTable labels default =>
    le32 (UInt32.ofNat labels.length) ++ labels.flatMap le32 ++ le32 default
  | memarg _ align offset => le32 align ++ le32 offset
  | i64Const v => le64 (UInt64.ofInt v)
  | f64Const bits => le64 bits
  | _ => []

/-- The field `extra` of an instruction whose extra bytes start at `offset`. -/
def extra (i : PlainInstr) (offset : ℕ) : UInt32 :=
  match i with
  | nullary _ => 0
  | index _ x => x
  | brTable _ _ => UInt32.ofNat offset
  | callIndirect x => x
  | memarg _ _ _ => UInt32.ofNat offset
  | memory _ => 0
  | i32Const v => UInt32.ofInt v
  | i64Const _ => UInt32.ofNat offset
  | f32Const bits => bits
  | f64Const _ => UInt32.ofNat offset

end PlainInstr

/-- A block type in the extra bytes: a count and that many value types. -/
def blockTypeBytes (type : Option ValueType) : List UInt8 :=
  UInt8.ofNat type.toList.length :: type.toList.map ValueType.toByte

namespace Instrs

/-- The number of instructions written for a sequence, the `else` and `end` inside it
included. -/
def size : Instrs → ℕ
  | nil => 0
  | plain _ rest => 1 + rest.size
  | block _ _ body rest => body.size + 2 + rest.size
  | ifThen _ body rest => body.size + 2 + rest.size
  | ifElse _ body elseBody rest => body.size + elseBody.size + 3 + rest.size

/-- The number of extra bytes written for a sequence. -/
def payloadSize : Instrs → ℕ
  | nil => 0
  | plain i rest => i.payload.length + rest.payloadSize
  | block _ type body rest =>
    (blockTypeBytes type).length + body.payloadSize + 4 + rest.payloadSize
  | ifThen type body rest =>
    (blockTypeBytes type).length + body.payloadSize + 8 + rest.payloadSize
  | ifElse type body elseBody rest =>
    (blockTypeBytes type).length + body.payloadSize + 4 + elseBody.payloadSize + 4 +
      rest.payloadSize

/-- The extra bytes of a sequence whose first instruction gets the index `pos`. The two halves
of a control instruction's record stand around the bytes of its body. -/
def payload : Instrs → ℕ → List UInt8
  | nil, _ => []
  | plain i rest, pos => i.payload ++ rest.payload (pos + 1)
  | block _ type body rest, pos =>
    blockTypeBytes type ++ (body.payload (pos + 1) ++ (le32 (UInt32.ofNat (pos + 1)) ++
      rest.payload (pos + body.size + 2)))
  | ifThen type body rest, pos =>
    blockTypeBytes type ++ (body.payload (pos + 1) ++ (le32 (UInt32.ofNat (pos + 1)) ++
      (le32 0 ++ rest.payload (pos + body.size + 2))))
  | ifElse type body elseBody rest, pos =>
    blockTypeBytes type ++ (body.payload (pos + 1) ++ (le32 (UInt32.ofNat (pos + 1)) ++
      (elseBody.payload (pos + body.size + 2) ++ (le32 (UInt32.ofNat (pos + body.size + 2)) ++
        rest.payload (pos + body.size + elseBody.size + 3)))))

/-- The instructions of a sequence whose extra bytes start at `offset`. -/
def flat : Instrs → ℕ → List Instruction
  | nil, _ => []
  | plain i rest, offset =>
    ⟨i.opcode, i.extra offset⟩ :: rest.flat (offset + i.payload.length)
  | block isLoop type body rest, offset =>
    ⟨blockOp isLoop, UInt32.ofNat offset⟩ ::
      (body.flat (offset + (blockTypeBytes type).length) ++ ⟨0x0B, 0⟩ ::
        rest.flat (offset + (blockTypeBytes type).length + body.payloadSize + 4))
  | ifThen type body rest, offset =>
    ⟨0x04, UInt32.ofNat offset⟩ ::
      (body.flat (offset + (blockTypeBytes type).length) ++ ⟨0x0B, 0⟩ ::
        rest.flat (offset + (blockTypeBytes type).length + body.payloadSize + 8))
  | ifElse type body elseBody rest, offset =>
    ⟨0x04, UInt32.ofNat offset⟩ ::
      (body.flat (offset + (blockTypeBytes type).length) ++ ⟨0x05, 0⟩ ::
        (elseBody.flat (offset + (blockTypeBytes type).length + body.payloadSize + 4) ++
          ⟨0x0B, 0⟩ :: rest.flat (offset + (blockTypeBytes type).length + body.payloadSize + 4 +
            elseBody.payloadSize + 4)))

@[simp]
theorem length_flat (is : Instrs) (offset : ℕ) : (is.flat offset).length = is.size := by
  induction is generalizing offset with
  | nil => rfl
  | plain i rest ih => simp [flat, size, ih]; omega
  | block l t body rest ihb ihr => simp [flat, size, ihb, ihr]; omega
  | ifThen t body rest ihb ihr => simp [flat, size, ihb, ihr]; omega
  | ifElse t body els rest ihb ihe ihr => simp [flat, size, ihb, ihe, ihr]; omega

@[simp]
theorem length_payload (is : Instrs) (pos : ℕ) : (is.payload pos).length = is.payloadSize := by
  induction is generalizing pos with
  | nil => rfl
  | plain i rest ih => simp [payload, payloadSize, ih]
  | block l t body rest ihb ihr => simp [payload, payloadSize, ihb, ihr, le32]; omega
  | ifThen t body rest ihb ihr => simp [payload, payloadSize, ihb, ihr, le32]; omega
  | ifElse t body els rest ihb ihe ihr =>
    simp [payload, payloadSize, ihb, ihe, ihr, le32]
    omega

end Instrs

/-- A body whose first instruction gets the index `pos` and whose extra bytes start at `offset`,
with the instruction that closes it: no chunk begins there. -/
def Instrs.Within (li le : ChunkLengths) (body : Instrs) (pos offset : ℕ) : Prop :=
  li.Within pos (body.size + 1) ∧ le.Within offset body.payloadSize

/-- No chunk begins in a body of a sequence, at any depth. -/
def Instrs.Fits (li le : ChunkLengths) : Instrs → ℕ → ℕ → Prop
  | nil, _, _ => True
  | plain i rest, pos, offset => rest.Fits li le (pos + 1) (offset + i.payload.length)
  | block _ type body rest, pos, offset =>
    let inner := offset + (blockTypeBytes type).length
    (body.Within li le (pos + 1) inner ∧ body.Fits li le (pos + 1) inner) ∧
      rest.Fits li le (pos + body.size + 2) (inner + body.payloadSize + 4)
  | ifThen type body rest, pos, offset =>
    let inner := offset + (blockTypeBytes type).length
    (body.Within li le (pos + 1) inner ∧ body.Fits li le (pos + 1) inner) ∧
      rest.Fits li le (pos + body.size + 2) (inner + body.payloadSize + 8)
  | ifElse type body elseBody rest, pos, offset =>
    let inner := offset + (blockTypeBytes type).length
    let pos' := pos + body.size + 2
    let inner' := inner + body.payloadSize + 4
    ((body.Within li le (pos + 1) inner ∧ body.Fits li le (pos + 1) inner) ∧
      elseBody.Within li le pos' inner' ∧ elseBody.Fits li le pos' inner') ∧
      rest.Fits li le (pos + body.size + elseBody.size + 3) (inner' + elseBody.payloadSize + 4)

/-- The expression written for an instruction sequence. -/
def Expr.ofInstrs (is : Instrs) : Expr where
  instructions := {} :: (is.flat 1 ++ [⟨0x0B, 0⟩])
  extras := 0 :: is.payload 1

/-! ### What a builder has gained -/

/-- `ib'` has the instructions `is` and the extra bytes `es` more than `ib`. -/
structure BinInstructionBuilder.Appends (ib : BinInstructionBuilder) (is : List Instruction)
    (es : List UInt8) (ib' : BinInstructionBuilder) : Prop where
  instructions : ib'.instructions = ib.instructions ++ is
  extras : ib'.extras = ib.extras ++ es

open BinInstructionBuilder

theorem BinInstructionBuilder.Appends.trans {ib ib' ib'' : BinInstructionBuilder}
    {is is' : List Instruction} {es es' : List UInt8} (h : ib.Appends is es ib')
    (k : ib'.Appends is' es' ib'') : ib.Appends (is ++ is') (es ++ es') ib'' :=
  ⟨by rw [k.instructions, h.instructions, List.append_assoc],
    by rw [k.extras, h.extras, List.append_assoc]⟩

theorem BinInstructionBuilder.Appends.length_instructions {ib ib' : BinInstructionBuilder}
    {is : List Instruction} {es : List UInt8} (h : ib.Appends is es ib') :
    ib'.instructions.length = ib.instructions.length + is.length := by
  rw [h.instructions, List.length_append]

theorem BinInstructionBuilder.Appends.length_extras {ib ib' : BinInstructionBuilder}
    {is : List Instruction} {es : List UInt8} (h : ib.Appends is es ib') :
    ib'.extras.length = ib.extras.length + es.length := by
  rw [h.extras, List.length_append]

theorem appends_log (ib : BinInstructionBuilder) (e : TempEvent) :
    ib.Appends [] [] (ib.log e) := by
  constructor <;> simp [log]

theorem appends_binIbPush (ib : BinInstructionBuilder) (op : InstructionOpcode) :
    ib.Appends [⟨op, 0⟩] [] (binIbPush ib op).1 := by
  constructor <;> simp [binIbPush]

theorem appends_binIbPushExtraBytes (ib : BinInstructionBuilder) (bytes : List UInt8) :
    ib.Appends [] bytes (binIbPushExtraBytes ib bytes).1 := by
  constructor <;> simp [binIbPushExtraBytes]

theorem appends_binIbPushExtraBlockType (ib : BinInstructionBuilder) (type : Option ValueType) :
    ib.Appends [] (blockTypeBytes type) (binIbPushExtraBlockType ib type.toList).1 := by
  have h := (appends_binIbPushExtraBytes ib [UInt8.ofNat type.toList.length]).trans
    (appends_binIbPushExtraBytes _ (type.toList.map ValueType.toByte))
  exact h

/-- Writing the field `extra` of the instruction that was pushed last. -/
theorem BinInstructionBuilder.Appends.setExtra {ib ib' : BinInstructionBuilder} {i : Instruction}
    {es : List UInt8} (h : ib.Appends [i] es ib') (extra : UInt32) :
    ib.Appends [{ i with extra := extra }] es (ib'.setExtra ib.instructions.length extra) := by
  refine ⟨?_, h.extras⟩
  rw [BinInstructionBuilder.setExtra, h.instructions]
  simp [List.modify_eq_take_drop]

/-! ### One turn on the encoding of an instruction -/

/-- A turn that does not leave the loop. -/
theorem binReadInstructionsLoop_turn {fuel : ℕ} {u : List InstructionOpcode} {st st' : LoopState}
    {op : InstructionOpcode} {rest : List UInt8} (hrest : st.ctx.rest = op :: rest)
    (hop : op ∉ u)
    (hturn : binReadTurn
      (fun c ib v => leaveUntil <$> binReadInstructionsLoop fuel v (enterUntil c ib)) op
      st.ib.instructions.length ⟨st.ctx.advance 1, (binIbPush st.ib op).1, st.anchor⟩ =
        .returned st') :
    binReadInstructionsLoop (fuel + 1) u st = binReadInstructionsLoop fuel u st' := by
  rw [binReadInstructionsLoop]
  dsimp only
  rw [binReadOpcode, binReadByte_cons hrest, if_neg hop]
  dsimp only
  rw [show (binIbPush st.ib op).2 = st.ib.instructions.length from rfl, hturn,
    Outcome.returned_bind]

/-- A turn that leaves the loop. -/
theorem binReadInstructionsLoop_leave {fuel : ℕ} {u : List InstructionOpcode} {st : LoopState}
    {op : InstructionOpcode} {rest : List UInt8} (hrest : st.ctx.rest = op :: rest)
    (hop : op ∈ u) :
    binReadInstructionsLoop (fuel + 1) u st =
      .returned ⟨op, true, st.ctx.advance 1, (binIbPush st.ib op).1⟩ := by
  rw [binReadInstructionsLoop]
  dsimp only
  rw [binReadOpcode, binReadByte_cons hrest, if_pos hop]

/-- What a turn has done on the encoding of an instruction: it has read the `n` bytes of the
immediates, and the builder has gained one instruction and its extra bytes over `ib`. -/
structure LoopState.Wrote (ib : BinInstructionBuilder) (st st' : LoopState) (n : ℕ)
    (inst : Instruction) (es : List UInt8) : Prop where
  ctx : st'.ctx = st.ctx.advance n
  ib : ib.Appends [inst] es st'.ib

section Wrote

variable {ib : BinInstructionBuilder} {op : InstructionOpcode} {s : LoopState}
  {rest : List UInt8} (hp : ib.Appends [⟨op, 0⟩] [] s.ib)

include hp

theorem binStoreExtra_wrote {n : ℕ} {r : ReadResult UInt32} {x : UInt32}
    (hr : r = ⟨x, true, s.ctx.advance n⟩) :
    LoopState.Wrote ib s (binStoreExtra ib.instructions.length s r) n ⟨op, x⟩ [] := by
  subst hr
  exact ⟨rfl, hp.setExtra x⟩

theorem binStoreConstant_wrote {n : ℕ} {r : ReadResult UInt64} {x : UInt64}
    (hr : r = ⟨x, true, s.ctx.advance n⟩) :
    LoopState.Wrote ib s (binStoreConstant ib.instructions.length s r) n
      ⟨op, UInt32.ofNat ib.extras.length⟩ (le64 x) := by
  subst hr
  have hlen : s.ib.extras.length = ib.extras.length := by simpa using hp.length_extras
  refine ⟨rfl, ?_⟩
  rw [← hlen]
  exact (hp.trans (appends_binIbPushExtraBytes s.ib (le64 x))).setExtra _

theorem binReadMemarg_wrote {align offset : UInt32} {as os : List UInt8}
    (ha : Encoding.u32 align as) (ho : Encoding.u32 offset os)
    (hrest : s.ctx.rest = as ++ (os ++ rest)) :
    LoopState.Wrote ib s (binReadMemarg ib.instructions.length s) (as ++ os).length
      ⟨op, UInt32.ofNat ib.extras.length⟩ (le32 align ++ le32 offset) := by
  have hlen : s.ib.extras.length = ib.extras.length := by simpa using hp.length_extras
  have hra := binReadU32Leb_reads ha hrest
  have hro := binReadU32Leb_reads ho (rest_advance_of_eq hrest)
  unfold binReadMemarg
  simp only [hra, hro, if_true]
  refine ⟨by rw [advance_advance, List.length_append], ?_⟩
  rw [← hlen]
  exact ((hp.trans (appends_binIbPushExtraBytes s.ib (le32 align))).setExtra _).trans
    (appends_binIbPushExtraBytes _ (le32 offset))

theorem binReadCallIndirect_wrote {x : UInt32} {bs : List UInt8} (hx : Encoding.u32 x bs)
    (hrest : s.ctx.rest = bs ++ (0x00 :: rest)) :
    LoopState.Wrote ib s (binReadCallIndirect ib.instructions.length s) (bs ++ [0x00]).length
      ⟨op, x⟩ [] := by
  have hrx := binReadU32Leb_reads hx hrest
  have hrb := binReadByte_cons (rest_advance_of_eq hrest)
  unfold binReadCallIndirect
  simp only [hrx, hrb, if_true, ne_eq, not_true_eq_false, if_false]
  exact ⟨by rw [advance_advance]; simp, hp.setExtra x⟩

theorem binReadMemory_wrote (hrest : s.ctx.rest = 0x00 :: rest) :
    LoopState.Wrote ib s (binReadMemory s) 1 ⟨op, 0⟩ [] := by
  unfold binReadMemory
  simp only [binReadByte_cons hrest, ne_eq, not_true_eq_false, if_false]
  exact ⟨rfl, hp⟩

theorem binReadBrTable_wrote {labels : List UInt32} {default : UInt32} {bs ds : List UInt8}
    (hl : Encoding.vec Encoding.u32 labels bs) (hd : Encoding.u32 default ds)
    (hrest : s.ctx.rest = bs ++ (ds ++ rest)) :
    ∃ s', binReadBrTable ib.instructions.length s = .returned s' ∧
      LoopState.Wrote ib s s' (bs ++ ds).length ⟨op, UInt32.ofNat ib.extras.length⟩
        (PlainInstr.brTable labels default).payload := by
  have hvec := binReadVec_reads 0 binReadU32Leb_reads.proc hl hrest
  have hdef := binReadU32Leb_reads hd (rest_advance_of_eq hrest)
  unfold binReadBrTable
  simp only [hvec, Outcome.returned_bind, hdef, if_true, Outcome.pure_eq]
  refine ⟨_, rfl, by simp only [advance_advance, List.length_append], ?_⟩
  -- the allocation of the labels changes neither array
  have halloc : ∀ b : Bool, ib.Appends [⟨op, 0⟩] []
      (if b then s.ib.log (.alloc (4 * (binReadU32Leb s.ctx).value.toNat) 4) else s.ib) := by
    intro b
    cases b
    · exact hp
    · exact hp.trans (appends_log _ _)
  have hlen : ∀ ib' : BinInstructionBuilder, ib.Appends [⟨op, 0⟩] [] ib' →
      ib'.extras.length = ib.extras.length := fun _ h => by simpa using h.length_extras
  rw [← hlen _ (halloc (binReadU32Leb s.ctx).ok), PlainInstr.payload]
  exact ((((halloc _).trans (appends_binIbPushExtraBytes _
    (le32 (UInt32.ofNat labels.length)))).setExtra _).trans
    (appends_binIbPushExtraBytes _ (labels.flatMap le32))).trans
    (appends_binIbPushExtraBytes _ (le32 default))

end Wrote

/-- No plain instruction closes a sequence. -/
theorem PlainInstr.opcode_not_mem_closers {i : PlainInstr} {b : List UInt8} (hi : i.Encodes b) :
    i.opcode ∉ closers := by
  have hsub : closers ⊆ closers := List.Subset.refl _
  cases hi with
  | @nullary op h =>
    have hc : switchCase op = .nothing := (switchCase_spec op).1.mpr h
    exact not_mem_of_switchCase hsub (by simp [opcode, hc]) (by simp [opcode, hc])
  | @index op x bs h hx =>
    have hc : switchCase op = .index := (switchCase_spec op).2.1.mpr h
    exact not_mem_of_switchCase hsub (by simp [opcode, hc]) (by simp [opcode, hc])
  | @memarg op align offset as os h ha ho =>
    have hc : switchCase op = .memarg := (switchCase_spec op).2.2.1.mpr h
    exact not_mem_of_switchCase hsub (by simp [opcode, hc]) (by simp [opcode, hc])
  | @memory op h =>
    have hc : switchCase op = .memory := (switchCase_spec op).2.2.2.1.mpr h
    exact not_mem_of_switchCase hsub (by simp [opcode, hc]) (by simp [opcode, hc])
  | brTable => simp [opcode, closers, Opcode.endOp, Opcode.elseOp]
  | callIndirect => simp [opcode, closers, Opcode.endOp, Opcode.elseOp]
  | i32Const => simp [opcode, closers, Opcode.endOp, Opcode.elseOp]
  | i64Const => simp [opcode, closers, Opcode.endOp, Opcode.elseOp]
  | f32Const => simp [opcode, closers, Opcode.endOp, Opcode.elseOp]
  | f64Const => simp [opcode, closers, Opcode.endOp, Opcode.elseOp]

/-- The `switch` on the encoding of a plain instruction. -/
theorem binReadTurn_plain {i : PlainInstr} {b : List UInt8} (hi : i.Encodes b)
    (nested : NestedUntil) {st : LoopState} {rest : List UInt8} (hrest : st.ctx.rest = b ++ rest) :
    ∃ bs st', b = i.opcode :: bs ∧
      binReadTurn nested i.opcode st.ib.instructions.length
        ⟨st.ctx.advance 1, (binIbPush st.ib i.opcode).1, st.anchor⟩ = .returned st' ∧
      LoopState.Wrote st.ib ⟨st.ctx.advance 1, (binIbPush st.ib i.opcode).1, st.anchor⟩ st'
        bs.length ⟨i.opcode, i.extra st.ib.extras.length⟩ i.payload := by
  have hp := appends_binIbPush st.ib i.opcode
  cases hi with
  | @nullary op h =>
    have hc : switchCase op = .nothing := (switchCase_spec op).1.mpr h
    exact ⟨[], ⟨st.ctx.advance 1, (binIbPush st.ib op).1, st.anchor⟩, rfl,
      by simp only [binReadTurn, PlainInstr.opcode, hc], rfl, hp⟩
  | @index op x bs h hx =>
    have hc : switchCase op = .index := (switchCase_spec op).2.1.mpr h
    have hread := binReadU32Leb_reads hx (rest_advance_of_eq (b := [op]) hrest)
    exact ⟨bs, _, rfl, by simp only [binReadTurn, PlainInstr.opcode, hc]; rfl,
      binStoreExtra_wrote hp hread⟩
  | @brTable labels default bs ds hl hd =>
    have hrest1 : (st.ctx.advance 1).rest = bs ++ (ds ++ rest) := by
      simpa using rest_advance_of_eq (b := [0x0E]) hrest
    obtain ⟨st', hst', hw⟩ := binReadBrTable_wrote
      (s := ⟨st.ctx.advance 1, (binIbPush st.ib 0x0E).1, st.anchor⟩) hp hl hd hrest1
    exact ⟨bs ++ ds, st', rfl, hst', hw⟩
  | @callIndirect x bs hx =>
    have hrest1 : (st.ctx.advance 1).rest = bs ++ (0x00 :: rest) := by
      simpa using rest_advance_of_eq (b := [0x11]) hrest
    exact ⟨bs ++ [0x00], _, rfl, rfl, binReadCallIndirect_wrote hp hx hrest1⟩
  | @memarg op align offset as os h ha ho =>
    have hc : switchCase op = .memarg := (switchCase_spec op).2.2.1.mpr h
    have hrest1 : (st.ctx.advance 1).rest = as ++ (os ++ rest) := by
      simpa using rest_advance_of_eq (b := [op]) hrest
    exact ⟨as ++ os, _, rfl, by simp only [binReadTurn, PlainInstr.opcode, hc],
      binReadMemarg_wrote hp ha ho hrest1⟩
  | @memory op h =>
    have hc : switchCase op = .memory := (switchCase_spec op).2.2.2.1.mpr h
    have hrest1 : (st.ctx.advance 1).rest = 0x00 :: rest := by
      simpa using rest_advance_of_eq (b := [op]) hrest
    exact ⟨[0x00], _, rfl, by simp only [binReadTurn, PlainInstr.opcode, hc],
      binReadMemory_wrote hp hrest1⟩
  | @i32Const v bs hv =>
    have hread := binReadIXXLeb_reads 32 (by omega) "i32" hv
      (rest_advance_of_eq (b := [0x41]) hrest)
    exact ⟨bs, _, rfl, rfl,
      binStoreExtra_wrote hp (congrArg (ReadResult.map UInt32.ofInt) hread)⟩
  | @i64Const v bs hv =>
    have hread := binReadIXXLeb_reads 64 (by omega) "i64" hv
      (rest_advance_of_eq (b := [0x42]) hrest)
    exact ⟨bs, _, rfl, rfl,
      binStoreConstant_wrote hp (congrArg (ReadResult.map UInt64.ofInt) hread)⟩
  | f32Const bits =>
    have hread := binReadU32_reads (a := bits) rfl (rest_advance_of_eq (b := [0x43]) hrest)
    exact ⟨le32 bits, _, rfl, rfl, binStoreExtra_wrote hp hread⟩
  | f64Const bits =>
    have hread := binReadU64_reads (a := bits) rfl (rest_advance_of_eq (b := [0x44]) hrest)
    exact ⟨le64 bits, _, rfl, rfl, binStoreConstant_wrote hp hread⟩

/-! ### A sequence -/

/-- The nested call as a turn with `fuel` left makes it. -/
def nestedUntil (fuel : ℕ) : NestedUntil := fun c ib v =>
  leaveUntil <$> binReadInstructionsLoop fuel v (enterUntil c ib)

theorem nestedUntil_le {m n : ℕ} (h : m ≤ n) (c : BinReadCtx) (ib : BinInstructionBuilder)
    (v : List InstructionOpcode) : nestedUntil m c ib v ≤ nestedUntil n c ib v :=
  Outcome.bind_le_bind ((binReadInstructionsLoop_stable v _).le h) fun _ => Outcome.le_refl _

/-- What the loop returns behind a turn, it returns before it. -/
theorem returns_of_turn {u : List InstructionOpcode} {st st' : LoopState} {fuel : ℕ}
    {op : InstructionOpcode} {rest : List UInt8} (hrest : st.ctx.rest = op :: rest)
    (hop : op ∉ u)
    (hturn : binReadTurn (nestedUntil fuel) op st.ib.instructions.length
      ⟨st.ctx.advance 1, (binIbPush st.ib op).1, st.anchor⟩ = .returned st')
    {r : UntilResult} (hr : Outcome.Returns (fun n => binReadInstructionsLoop n u st') r) :
    Outcome.Returns (fun n => binReadInstructionsLoop n u st) r := by
  obtain ⟨m, hm⟩ := hr
  have hle := binReadTurn_le (nestedUntil_le (Nat.le_max_left fuel m)) op
    st.ib.instructions.length ⟨st.ctx.advance 1, (binIbPush st.ib op).1, st.anchor⟩
  have hturn' := Outcome.eq_of_le hle (by simp [hturn])
  rw [hturn] at hturn'
  refine ⟨max fuel m + 1, ?_⟩
  dsimp only at hm ⊢
  rw [binReadInstructionsLoop_turn hrest hop hturn'.symm, ← hm]
  exact (binReadInstructionsLoop_stable u st').eq_of_ne (Nat.le_max_right fuel m)
    (by simp [hm])

/-- On the encoding `b` of the sequence `is` the loop comes to stand behind `b`, and has
written the flat form of `is`. What it has logged fits if `is` does. -/
def LoopReads (is : Instrs) (b : List UInt8) : Prop :=
  ∀ u : List InstructionOpcode, u ⊆ closers → ∀ (st : LoopState) (rest : List UInt8),
    st.ctx.rest = b ++ rest →
    ∃ st' : LoopState,
      (∀ r, Outcome.Returns (fun n => binReadInstructionsLoop n u st') r →
        Outcome.Returns (fun n => binReadInstructionsLoop n u st) r) ∧
      st'.ctx = st.ctx.advance b.length ∧
      st.ib.Appends (is.flat st.ib.extras.length) (is.payload st.ib.instructions.length) st'.ib ∧
      ∀ li le marks, st.ib.Fits li le marks →
        is.Fits li le st.ib.instructions.length st.ib.extras.length → st'.ib.Fits li le marks

/-- A call of the loop on a sequence and the opcode that closes it. The builder `ib'` is the one at
the end of the guard. -/
theorem LoopReads.nested {is : Instrs} {b : List UInt8} (h : LoopReads is b)
    {u : List InstructionOpcode} (hu : u ⊆ closers) {o : InstructionOpcode} (hop : o ∈ u)
    {c : BinReadCtx} (ib : BinInstructionBuilder) {rest : List UInt8}
    (hrest : c.rest = b ++ o :: rest) :
    ∃ (n : ℕ) (ib' : BinInstructionBuilder), nestedUntil n c ib u =
        .returned ⟨o, true, c.advance (b.length + 1), ib'.log .guardEnd⟩ ∧
      ib.Appends (is.flat ib.extras.length ++ [⟨o, 0⟩]) (is.payload ib.instructions.length)
        (ib'.log .guardEnd) ∧
      ∀ li le marks, ib.Fits li le marks →
        is.Fits li le ib.instructions.length ib.extras.length →
        ib'.Fits li le ((ib.instructions.length, ib.extras.length) :: marks) := by
  obtain ⟨st', hret, hctx, hib, hfits⟩ := h u hu (enterUntil c ib) (o :: rest) hrest
  have hrest' : st'.ctx.rest = o :: rest := hctx ▸ rest_advance_of_eq hrest
  obtain ⟨n, hn⟩ := hret _ ⟨1, binReadInstructionsLoop_leave hrest' hop⟩
  dsimp only at hn
  refine ⟨n, (binIbPush st'.ib o).1, ?_, ?_, fun li le marks hlog his => ?_⟩
  · rw [nestedUntil, hn, leaveUntil_map, Outcome.returned_bind, leaveUntil, hctx]
    simp [enterUntil, advance_advance]
  · have hall := (((appends_log ib .guardBegin).trans hib).trans
      (appends_binIbPush st'.ib o)).trans (appends_log _ .guardEnd)
    simpa [enterUntil, BinInstructionBuilder.log] using hall
  · exact (Fits.writes _).push (hfits li le _ (hlog.enterUntil c) his) o

/-- The call closes its guard on what fits if the sequence does. -/
theorem BinInstructionBuilder.Fits.close {li le : ChunkLengths} {marks : List (ℕ × ℕ)}
    {is : Instrs} {ib ib' : BinInstructionBuilder} {o : InstructionOpcode}
    (hib : ib.Appends (is.flat ib.extras.length ++ [⟨o, 0⟩])
      (is.payload ib.instructions.length) (ib'.log .guardEnd))
    (h : ib'.Fits li le ((ib.instructions.length, ib.extras.length) :: marks))
    (his : is.Within li le ib.instructions.length ib.extras.length) :
    (ib'.log .guardEnd).Fits li le marks := by
  have hinstructions : ib'.instructions.length = _ := hib.length_instructions
  have hextras : ib'.extras.length = _ := hib.length_extras
  rw [List.length_append, Instrs.length_flat, List.length_singleton] at hinstructions
  rw [Instrs.length_payload] at hextras
  refine h.guardEnd ?_ ?_
  · rw [hinstructions, Nat.add_sub_cancel_left]
    exact his.1
  · rw [hextras, Nat.add_sub_cancel_left]
    exact his.2

/-- A turn on the opcode `op` and the bytes `bs` behind it writes `insts` and `es`, which may
depend on where the two arrays stand. What it logs fits under `fits`. -/
def TurnReads (op : InstructionOpcode) (bs : List UInt8) (insts : ℕ → List Instruction)
    (es : ℕ → List UInt8) (fits : ChunkLengths → ChunkLengths → ℕ → ℕ → Prop) : Prop :=
  ∀ (st : LoopState) (rest : List UInt8), st.ctx.rest = (op :: bs) ++ rest →
    ∃ (fuel : ℕ) (st' : LoopState),
      binReadTurn (nestedUntil fuel) op st.ib.instructions.length
        ⟨st.ctx.advance 1, (binIbPush st.ib op).1, st.anchor⟩ = .returned st' ∧
      st'.ctx = st.ctx.advance (bs.length + 1) ∧
      st.ib.Appends (insts st.ib.extras.length) (es st.ib.instructions.length) st'.ib ∧
      ∀ li le marks, st.ib.Fits li le marks →
        fits li le st.ib.instructions.length st.ib.extras.length → st'.ib.Fits li le marks

/-- A turn, then the rest of the sequence. -/
theorem TurnReads.loopReads {op : InstructionOpcode} {bs r : List UInt8}
    {insts : ℕ → List Instruction} {es : ℕ → List UInt8} {tail s : Instrs}
    {fits : ChunkLengths → ChunkLengths → ℕ → ℕ → Prop}
    (ht : TurnReads op bs insts es fits) (hop : op ∉ closers) (hr : LoopReads tail r)
    (hflat : ∀ offset pos, s.flat offset = insts offset ++ tail.flat (offset + (es pos).length))
    (hpayload : ∀ offset pos,
      s.payload pos = es pos ++ tail.payload (pos + (insts offset).length))
    (hfits : ∀ li le pos offset, s.Fits li le pos offset → fits li le pos offset ∧
      tail.Fits li le (pos + (insts offset).length) (offset + (es pos).length)) :
    LoopReads s ((op :: bs) ++ r) := by
  intro u hu st rest hrest
  rw [List.append_assoc] at hrest
  obtain ⟨fuel, st₁, hturn, hctx₁, hib₁, hfits₁⟩ := ht st _ hrest
  have hrest₁ : st₁.ctx.rest = r ++ rest := hctx₁ ▸ rest_advance_of_eq hrest
  obtain ⟨st₂, hret, hctx₂, hib₂, hfits₂⟩ := hr u hu st₁ rest hrest₁
  refine ⟨st₂, fun x hx => ?_, ?_, ?_, fun li le marks hlog hs => ?_⟩
  · exact returns_of_turn hrest (fun hmem => hop (hu hmem)) hturn (hret x hx)
  · rw [hctx₂, hctx₁, advance_advance, List.length_append, List.length_cons]
  · have hall := hib₁.trans hib₂
    rw [hib₁.length_extras, hib₁.length_instructions, ← hflat, ← hpayload] at hall
    exact hall
  · obtain ⟨hturn, htail⟩ := hfits li le _ _ hs
    rw [← hib₁.length_instructions, ← hib₁.length_extras] at htail
    exact hfits₂ li le marks (hfits₁ li le marks hlog hturn) htail

theorem turnReads_plain {i : PlainInstr} {b : List UInt8} (hi : i.Encodes b) :
    ∃ bs, b = i.opcode :: bs ∧
      TurnReads i.opcode bs (fun offset => [⟨i.opcode, i.extra offset⟩]) (fun _ => i.payload)
        fun _ _ _ _ => True := by
  obtain ⟨bs, hb⟩ : ∃ bs, b = i.opcode :: bs := by
    cases hi <;> exact ⟨_, rfl⟩
  refine ⟨bs, hb, fun st rest hrest => ?_⟩
  rw [← hb] at hrest
  obtain ⟨bs', st', hb', hturn, hw⟩ := binReadTurn_plain hi (nestedUntil 0) hrest
  obtain rfl : bs' = bs := by rw [hb] at hb'; exact (List.cons.inj hb').2.symm
  refine ⟨0, st', hturn, ?_, hw.ib, fun li le marks hlog _ => ?_⟩
  · rw [hw.ctx, advance_advance, Nat.add_comm]
  · -- without fuel no nested call returns
    have hwrites : KeptByWrites (Fits li le marks) := Fits.writes marks
    exact binReadTurn_keeps hwrites (fun _ hnested => by cases hnested) (hwrites.push hlog _) hturn

theorem binReadBlockType_reads {type : Option ValueType} {t : UInt8}
    (ht : EncodesBlockType type t) {c : BinReadCtx} (ib : BinInstructionBuilder)
    {rest : List UInt8} (hrest : c.rest = t :: rest) :
    ∃ ib', binReadBlockType c ib = (⟨type.toList, true, c.advance 1⟩, ib') ∧
      ib.Appends [] [] ib' := by
  unfold binReadBlockType
  simp only [binReadByte_cons hrest, if_true]
  cases ht with
  | none => exact ⟨ib, by simp, ⟨(List.append_nil _).symm, (List.append_nil _).symm⟩⟩
  | @some t h =>
    obtain ⟨hmin, hmax, hof⟩ := valueTypeEnum_toByte h
    have hne : t.toByte ≠ 0x40 := by cases t <;> simp_all [ValueType.toByte]
    simp only [if_neg hne, binReadValidateEnum, if_pos (And.intro hmin hmax), hof]
    exact ⟨_, rfl, appends_log _ _⟩

/-- The record of a control instruction that is written before its body: the block type, at
the offset that goes to the field `extra`. -/
theorem appends_header (ib ib' : BinInstructionBuilder) (op : InstructionOpcode)
    (type : Option ValueType) (h : (binIbPush ib op).1.Appends [] [] ib') :
    ib.Appends [⟨op, UInt32.ofNat ib.extras.length⟩] (blockTypeBytes type)
      ((binIbPushExtraBlockType ib' type.toList).1.setExtra ib.instructions.length
        (binIbPushExtraBlockType ib' type.toList).2) := by
  have hpush := (appends_binIbPush ib op).trans h
  have hlen : ib'.extras.length = ib.extras.length := by simpa using hpush.length_extras
  have hpos : (binIbPushExtraBlockType ib' type.toList).2 = UInt32.ofNat ib.extras.length := by
    rw [← hlen]; rfl
  rw [hpos]
  simpa using (hpush.trans (appends_binIbPushExtraBlockType ib' type)).setExtra _

/-- The record before the body fits as what was there before. -/
theorem BinInstructionBuilder.Fits.header {li le : ChunkLengths} {marks : List (ℕ × ℕ)}
    {ib ib' : BinInstructionBuilder} (h : ib.Fits li le marks) {op : InstructionOpcode}
    {c : BinReadCtx} {r : ReadResult (List ValueType)}
    (htype : binReadBlockType c (binIbPush ib op).1 = (r, ib')) (inst : ℕ)
    (types : List ValueType) :
    ((binIbPushExtraBlockType ib' types).1.setExtra inst
      (binIbPushExtraBlockType ib' types).2).Fits li le marks := by
  have hwrites : KeptByWrites (Fits li le marks) := Fits.writes marks
  obtain rfl : (binReadBlockType c (binIbPush ib op).1).2 = ib' := congrArg Prod.snd htype
  exact header_keeps hwrites (hwrites.push h op) c inst types

theorem turnReads_block (isLoop : Bool) {type : Option ValueType} {body : Instrs} {t : UInt8}
    {b : List UInt8} (ht : EncodesBlockType type t) (hb : LoopReads body b) :
    TurnReads (blockOp isLoop) (t :: (b ++ [0x0B]))
      (fun offset => ⟨blockOp isLoop, UInt32.ofNat offset⟩ ::
        (body.flat (offset + (blockTypeBytes type).length) ++ [⟨0x0B, 0⟩]))
      (fun pos => blockTypeBytes type ++ (body.payload (pos + 1) ++
        le32 (UInt32.ofNat (pos + 1))))
      fun li le pos offset =>
        body.Within li le (pos + 1) (offset + (blockTypeBytes type).length) ∧
          body.Fits li le (pos + 1) (offset + (blockTypeBytes type).length) := by
  intro st rest hrest
  have hrest₁ : (st.ctx.advance 1).rest = t :: (b ++ 0x0B :: rest) := by
    simpa using rest_advance_of_eq (b := [blockOp isLoop]) hrest
  have hrest₂ : (st.ctx.advance 2).rest = b ++ 0x0B :: rest := by
    simpa using rest_advance_of_eq (b := [blockOp isLoop, t]) (r := b ++ 0x0B :: rest)
      (by simpa using hrest)
  obtain ⟨ib₁, htype, hib₁⟩ := binReadBlockType_reads ht
    (binIbPush st.ib (blockOp isLoop)).1 hrest₁
  have hhead := appends_header st.ib ib₁ (blockOp isLoop) type hib₁
  obtain ⟨fuel, ib₂, hnested, hib₂, hfits⟩ := hb.nested (u := [Opcode.endOp]) (by decide)
    (o := Opcode.endOp) (by decide)
    ((binIbPushExtraBlockType ib₁ type.toList).1.setExtra st.ib.instructions.length
      (binIbPushExtraBlockType ib₁ type.toList).2) hrest₂
  refine ⟨fuel, ⟨st.ctx.advance 2 |>.advance (b.length + 1),
    (binIbPushExtraU32 (ib₂.log .guardEnd) (UInt32.ofNat st.ib.instructions.length + 1)).1,
    st.anchor⟩, ?_, ?_, ?_, fun li le marks hlog hbody => ?_⟩
  · have hcase : switchCase (blockOp isLoop) = .block := by cases isLoop <;> rfl
    simp only [binReadTurn, hcase, binReadBlock, htype, if_true, advance_advance] at hnested ⊢
    rw [hnested, Outcome.returned_bind]
    rfl
  · rw [advance_advance, show 2 + (b.length + 1) = (t :: (b ++ [0x0B])).length + 1 by
      simp only [List.length_cons, List.length_append, List.length_nil]; omega]
  · have hall := (hhead.trans hib₂).trans (appends_binIbPushExtraBytes (ib₂.log .guardEnd)
      (le32 (UInt32.ofNat st.ib.instructions.length + 1)))
    rw [hhead.length_extras, hhead.length_instructions] at hall
    simpa [binIbPushExtraU32, List.append_assoc, Opcode.endOp] using hall
  · obtain ⟨hwithin, hbody⟩ := hbody
    rw [← List.length_singleton, ← hhead.length_instructions, ← hhead.length_extras]
      at hwithin hbody
    exact (Fits.writes _).pushExtraBytes
      ((hfits li le marks (hlog.header htype _ _) hbody).close hib₂ hwithin) _

/-- The part of an `if` up to the call on its body. -/
theorem binReadTurn_if {type : Option ValueType} {t : UInt8} {st : LoopState} {r : List UInt8}
    (ht : EncodesBlockType type t) (hrest : st.ctx.rest = 0x04 :: t :: r) :
    ∃ ib₁, st.ib.Appends [⟨0x04, UInt32.ofNat st.ib.extras.length⟩] (blockTypeBytes type) ib₁ ∧
      (∀ li le marks, st.ib.Fits li le marks → ib₁.Fits li le marks) ∧
      (st.ctx.advance 2).rest = r ∧
      ∀ nested : NestedUntil,
        binReadTurn nested 0x04 st.ib.instructions.length
          ⟨st.ctx.advance 1, (binIbPush st.ib 0x04).1, st.anchor⟩ =
        (nested (st.ctx.advance 2) ib₁ [Opcode.endOp, Opcode.elseOp] >>= fun body =>
          let ib := (binIbPushExtraU32 body.ib (UInt32.ofNat st.ib.instructions.length + 1)).1
          if body.ok then
            if body.breakOpcode = Opcode.elseOp then do
              let elseBody ← nested body.ctx ib [Opcode.endOp]
              return ⟨elseBody.ctx,
                (binIbPushExtraU32 elseBody.ib (UInt32.ofNat ib.instructions.length)).1, st.anchor⟩
            else return ⟨body.ctx, (binIbPushExtraU32 ib 0).1, st.anchor⟩
          else return ⟨body.ctx, ib, st.anchor⟩) := by
  have hrest₁ : (st.ctx.advance 1).rest = t :: r := by
    simpa using rest_advance_of_eq (b := [0x04]) hrest
  obtain ⟨ib₁, htype, hib₁⟩ := binReadBlockType_reads ht (binIbPush st.ib 0x04).1 hrest₁
  have hcase : switchCase 0x04 = .ifOp := rfl
  refine ⟨_, appends_header st.ib ib₁ 0x04 type hib₁,
    fun li le marks hlog => hlog.header htype _ _, ?_, fun nested => ?_⟩
  · simpa using rest_advance_of_eq (b := [0x04, t]) hrest
  · simp only [binReadTurn, hcase, binReadIf, htype, if_true, advance_advance]

theorem turnReads_ifThen {type : Option ValueType} {body : Instrs} {t : UInt8} {b : List UInt8}
    (ht : EncodesBlockType type t) (hb : LoopReads body b) :
    TurnReads 0x04 (t :: (b ++ [0x0B]))
      (fun offset => ⟨0x04, UInt32.ofNat offset⟩ ::
        (body.flat (offset + (blockTypeBytes type).length) ++ [⟨0x0B, 0⟩]))
      (fun pos => blockTypeBytes type ++ (body.payload (pos + 1) ++
        (le32 (UInt32.ofNat (pos + 1)) ++ le32 0)))
      fun li le pos offset =>
        body.Within li le (pos + 1) (offset + (blockTypeBytes type).length) ∧
          body.Fits li le (pos + 1) (offset + (blockTypeBytes type).length) := by
  intro st rest hrest
  obtain ⟨ib₁, hhead, hheader, hrest₂, hturn⟩ := binReadTurn_if ht (r := b ++ 0x0B :: rest)
    (by simpa using hrest)
  obtain ⟨fuel, ib₂, hnested, hib₂, hfits⟩ := hb.nested (u := [Opcode.endOp, Opcode.elseOp])
    (by decide) (o := Opcode.endOp) (by decide) ib₁ hrest₂
  refine ⟨fuel, _, by rw [hturn, hnested, Outcome.returned_bind]; rfl, ?_, ?_,
    fun li le marks hlog hbody => ?_⟩
  · rw [advance_advance, show 2 + (b.length + 1) = (t :: (b ++ [0x0B])).length + 1 by
      simp only [List.length_cons, List.length_append, List.length_nil]; omega]
  · have hall := ((hhead.trans hib₂).trans (appends_binIbPushExtraBytes (ib₂.log .guardEnd)
      (le32 (UInt32.ofNat st.ib.instructions.length + 1)))).trans
      (appends_binIbPushExtraBytes _ (le32 0))
    rw [hhead.length_extras, hhead.length_instructions] at hall
    simpa [binIbPushExtraU32, List.append_assoc, Opcode.endOp] using hall
  · obtain ⟨hwithin, hbody⟩ := hbody
    rw [← List.length_singleton, ← hhead.length_instructions, ← hhead.length_extras]
      at hwithin hbody
    have hend := (hfits li le marks (hheader li le marks hlog) hbody).close hib₂ hwithin
    exact (Fits.writes _).pushExtraBytes ((Fits.writes _).pushExtraBytes hend _) _

theorem turnReads_ifElse {type : Option ValueType} {body els : Instrs} {t : UInt8}
    {b e : List UInt8} (ht : EncodesBlockType type t) (hb : LoopReads body b)
    (he : LoopReads els e) :
    TurnReads 0x04 (t :: (b ++ 0x05 :: (e ++ [0x0B])))
      (fun offset => ⟨0x04, UInt32.ofNat offset⟩ ::
        (body.flat (offset + (blockTypeBytes type).length) ++ ⟨0x05, 0⟩ ::
          (els.flat (offset + (blockTypeBytes type).length + body.payloadSize + 4) ++
            [⟨0x0B, 0⟩])))
      (fun pos => blockTypeBytes type ++ (body.payload (pos + 1) ++
        (le32 (UInt32.ofNat (pos + 1)) ++ (els.payload (pos + body.size + 2) ++
          le32 (UInt32.ofNat (pos + body.size + 2))))))
      fun li le pos offset =>
        (body.Within li le (pos + 1) (offset + (blockTypeBytes type).length) ∧
          body.Fits li le (pos + 1) (offset + (blockTypeBytes type).length)) ∧
        els.Within li le (pos + body.size + 2)
          (offset + (blockTypeBytes type).length + body.payloadSize + 4) ∧
        els.Fits li le (pos + body.size + 2)
          (offset + (blockTypeBytes type).length + body.payloadSize + 4) := by
  intro st rest hrest
  obtain ⟨ib₁, hhead, hheader, hrest₂, hturn⟩ := binReadTurn_if ht
    (r := b ++ 0x05 :: (e ++ 0x0B :: rest)) (by simpa using hrest)
  obtain ⟨fuel, ib₂, hnested, hib₂, hfits⟩ := hb.nested (u := [Opcode.endOp, Opcode.elseOp])
    (by decide) (o := Opcode.elseOp) (by decide) ib₁ hrest₂
  obtain ⟨ib₃, hib₃⟩ : ∃ ib₃, ib₃ = (binIbPushExtraU32 (ib₂.log .guardEnd)
      (UInt32.ofNat st.ib.instructions.length + 1)).1 := ⟨_, rfl⟩
  have hthen : st.ib.Appends _ _ ib₃ := hib₃ ▸ (hhead.trans hib₂).trans
    (appends_binIbPushExtraBytes (ib₂.log .guardEnd)
      (le32 (UInt32.ofNat st.ib.instructions.length + 1)))
  have hrest₃ : (st.ctx.advance 2 |>.advance (b.length + 1)).rest = e ++ Opcode.endOp :: rest := by
    have h : (st.ctx.advance 2).rest = (b ++ [0x05]) ++ (e ++ Opcode.endOp :: rest) := by
      rw [hrest₂, List.append_assoc, List.singleton_append]
      rfl
    simpa using rest_advance_of_eq h
  obtain ⟨fuel', ib₄, hnested', hib₄, hfits'⟩ := he.nested (u := [Opcode.endOp]) (by decide)
    (o := Opcode.endOp) (by decide) ib₃ hrest₃
  have hlen : ib₃.instructions.length = st.ib.instructions.length + body.size + 2 := by
    rw [hthen.length_instructions]
    simp [Nat.add_assoc]
  have hoff : ib₃.extras.length =
      st.ib.extras.length + (blockTypeBytes type).length + body.payloadSize + 4 := by
    rw [hthen.length_extras]
    simp [le32]; omega
  -- both calls return at the larger of the two fuels
  have hle := Outcome.eq_of_le (nestedUntil_le (Nat.le_max_left fuel fuel') (st.ctx.advance 2) ib₁
    [Opcode.endOp, Opcode.elseOp]) (by simp [hnested])
  have hle' := Outcome.eq_of_le (nestedUntil_le (Nat.le_max_right fuel fuel')
    (st.ctx.advance 2 |>.advance (b.length + 1)) ib₃ [Opcode.endOp]) (by simp only [hnested']; simp)
  refine ⟨max fuel fuel', ⟨(st.ctx.advance 2 |>.advance (b.length + 1)).advance (e.length + 1),
    (binIbPushExtraU32 (ib₄.log .guardEnd) (UInt32.ofNat ib₃.instructions.length)).1, st.anchor⟩,
    ?_, ?_, ?_, fun li le marks hlog hbodies => ?_⟩
  · rw [hturn, ← hle, hnested, Outcome.returned_bind]
    simp only [if_true, ← hib₃]
    rw [← hle', hnested', Outcome.returned_bind]
    rfl
  · rw [advance_advance, advance_advance, show 2 + (b.length + 1 + (e.length + 1)) =
      (t :: (b ++ 0x05 :: (e ++ [0x0B]))).length + 1 by
      simp only [List.length_cons, List.length_append, List.length_nil]; omega]
  · have hall := (hthen.trans hib₄).trans (appends_binIbPushExtraBytes (ib₄.log .guardEnd)
      (le32 (UInt32.ofNat ib₃.instructions.length)))
    rw [hhead.length_extras, hhead.length_instructions, hlen, hoff] at hall
    simpa [binIbPushExtraU32, List.append_assoc, Opcode.endOp, Opcode.elseOp, hlen] using hall
  · obtain ⟨⟨hwithin, hbody⟩, hwithin', hels⟩ := hbodies
    rw [← List.length_singleton, ← hhead.length_instructions, ← hhead.length_extras]
      at hwithin hbody
    rw [← hlen, ← hoff] at hwithin' hels
    have hend := (hfits li le marks (hheader li le marks hlog) hbody).close hib₂ hwithin
    have hfits₃ : ib₃.Fits li le marks := hib₃ ▸ (Fits.writes _).pushExtraBytes hend _
    exact (Fits.writes _).pushExtraBytes
      ((hfits' li le marks hfits₃ hels).close hib₄ hwithin') _

/-- The loop on the encoding of a sequence. -/
theorem loopReads_of_encodes {is : Instrs} {b : List UInt8} (he : is.Encodes b) :
    LoopReads is b := by
  induction he with
  | nil =>
    intro u hu st rest hrest
    exact ⟨st, fun r hr => hr, rfl, ⟨(List.append_nil _).symm, (List.append_nil _).symm⟩,
      fun _ _ _ hlog _ => hlog⟩
  | @plain i tail b r hi hr ih =>
    obtain ⟨bs, rfl, hturn⟩ := turnReads_plain hi
    exact hturn.loopReads (PlainInstr.opcode_not_mem_closers hi) ih
      (fun _ _ => rfl) (fun _ _ => rfl) (fun _ _ _ _ hfits => ⟨trivial, hfits⟩)
  | @block isLoop type body tail t b r ht hb hr ihb ihr =>
    have h := (turnReads_block isLoop ht ihb).loopReads
      (s := .block isLoop type body tail) (by cases isLoop <;> decide) ihr
      (fun offset pos => ?_) (fun offset pos => ?_) (fun li le pos offset hfits => ?_)
    · simpa [List.append_assoc] using h
    · simp [Instrs.flat, le32, Nat.add_assoc]
    · simp [Instrs.payload, Nat.add_assoc]
    · exact ⟨hfits.1, by simpa [le32, Nat.add_assoc] using hfits.2⟩
  | @ifThen type body tail t b r ht hb hr ihb ihr =>
    have h := (turnReads_ifThen ht ihb).loopReads (s := .ifThen type body tail)
      (by decide) ihr (fun offset pos => ?_) (fun offset pos => ?_)
      (fun li le pos offset hfits => ?_)
    · simpa [List.append_assoc] using h
    · simp [Instrs.flat, le32, Nat.add_assoc]
    · simp [Instrs.payload, Nat.add_assoc]
    · exact ⟨hfits.1, by simpa [le32, Nat.add_assoc] using hfits.2⟩
  | @ifElse type body els tail t b e r ht hb he hr ihb ihe ihr =>
    have h := (turnReads_ifElse ht ihb ihe).loopReads (s := .ifElse type body els tail)
      (by decide) ihr (fun offset pos => ?_) (fun offset pos => ?_)
      (fun li le pos offset hfits => ?_)
    · simpa [List.append_assoc] using h
    · simp [Instrs.flat, le32, Nat.add_assoc]
    · simp [Instrs.payload, Nat.add_assoc]
    · exact ⟨hfits.1, by simpa [le32, Nat.add_assoc] using hfits.2⟩

/-- The call of the loop for an expression. -/
theorem binReadInstructionsUntil_encodes {is : Instrs} {bs : List UInt8}
    (he : Encoding.expr is bs) {c : BinReadCtx} {rest : List UInt8} (hrest : c.rest = bs ++ rest) :
    ∃ (fuel : ℕ) (ib : BinInstructionBuilder),
      binReadInstructionsUntil fuel c binExprBuilder [Opcode.endOp] =
        .returned ⟨Opcode.endOp, true, c.advance bs.length, ib.log .guardEnd⟩ ∧
      (⟨ib.instructions, ib.extras⟩ : Expr) = Expr.ofInstrs is ∧
      ∀ li le, is.Fits li le 1 1 → OpsFit li le {} ib.ops := by
  obtain ⟨b, hb, rfl⟩ := he
  rw [List.append_assoc, List.singleton_append] at hrest
  obtain ⟨fuel, ib, hnested, hib, hfits⟩ := (loopReads_of_encodes hb).nested (u := [Opcode.endOp])
    (by decide) (o := Opcode.endOp) (by decide) binExprBuilder hrest
  refine ⟨fuel, ib, ?_, ?_, fun li le his => ?_⟩
  · rw [binReadInstructionsUntil, ← nestedUntil, hnested, List.length_append,
      List.length_singleton]
  · exact congrArg₂ Expr.mk hib.instructions hib.extras
  · exact (hfits li le [(0, 0)] ⟨⟨trivial, trivial, trivial, trivial⟩, rfl⟩ his).ops

/-- **The expression reader on an encoding.** Whatever follows the encoding of an instruction
sequence, the reader returns its flat form and stands behind it. -/
theorem binReadExpr_encodes {is : Instrs} {bs : List UInt8} (he : Encoding.expr is bs)
    {c : BinReadCtx} {rest : List UInt8} (hrest : c.rest = bs ++ rest) :
    Outcome.Returns (fun fuel => binReadExpr fuel c)
      ⟨Expr.ofInstrs is, false, c.advance bs.length⟩ := by
  obtain ⟨fuel, ib, huntil, hexpr, -⟩ := binReadInstructionsUntil_encodes he hrest
  refine ⟨fuel, ?_⟩
  dsimp only
  rw [binReadExpr, huntil, Outcome.returned_bind, Outcome.pure_eq, ← hexpr]
  rfl

end Wasim
