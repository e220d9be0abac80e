import Wasim.Binary.Reader

/-!
# The expression reader

`wasim_binary_expr.odin`: a recursive reader that turns the bytes of an expression into two
flat arrays, the instructions and their extra bytes. The arrays grow while the reader runs;
they are plain growable arrays here, and a pointer to a pushed instruction is its index. The
source has a `xar.Array(Instruction, 6)` of 17 chunks and a `xar.Array(byte, 8)` of 9 chunks, so
what is said of the lists is said of expressions with up to 2^22 instructions and 2^16 extra
bytes. A longer one aborts the program.

The loop of `bin_read_instructions_until` has no bound of its own, so it runs over fuel: one
unit for each turn, shared with the nested calls. A turn reads an opcode, pushes it, leaves
the loop if the opcode is in `until`, and otherwise runs the `switch` (`binReadTurn`).

Every operation on the temp arena of the thread is also written to a log
(`BinInstructionBuilder.temp`): the guards, the allocations, and the writes to the arrays,
whose memory comes from the same arena. Nothing in the reader reads the log. What the arrays hold
when they are copied out of the arena follows from it, and it need not be what was pushed.
-/

namespace Wasim

/-- An operation of a run on the temp arena of its thread. -/
inductive TempEvent where
  | guardBegin
  | guardEnd
  | alloc (size align : ℕ)
  | pushInstruction (inst : Instruction)
  | setExtra (inst : ℕ) (extra : UInt32)
  | pushExtras (bytes : List UInt8)
  deriving DecidableEq, Repr

structure BinInstructionBuilder where
  instructions : List Instruction := []
  extras : List UInt8 := []
  temp : List TempEvent := []
  deriving DecidableEq, Repr

/-! ### The instruction builder -/

def BinInstructionBuilder.log (ib : BinInstructionBuilder) (e : TempEvent) :
    BinInstructionBuilder :=
  { ib with temp := ib.temp ++ [e] }

/-- Push an instruction; the index is the pointer to it, and as a `u32` its position. -/
def binIbPush (ib : BinInstructionBuilder) (opcode : InstructionOpcode) :
    BinInstructionBuilder × ℕ :=
  ({ ib with
      instructions := ib.instructions ++ [{ opcode := opcode }]
      temp := ib.temp ++ [.pushInstruction { opcode := opcode }] },
    ib.instructions.length)

/-- `inst.extra = extra` for the instruction at index `inst`. -/
def BinInstructionBuilder.setExtra (ib : BinInstructionBuilder) (inst : ℕ) (extra : UInt32) :
    BinInstructionBuilder :=
  { ib with
    instructions := ib.instructions.modify inst fun i => { i with extra := extra }
    temp := ib.temp ++ [.setExtra inst extra] }

def binIbPushExtraBytes (ib : BinInstructionBuilder) (bytes : List UInt8) :
    BinInstructionBuilder × UInt32 :=
  ({ ib with extras := ib.extras ++ bytes, temp := ib.temp ++ [.pushExtras bytes] },
    UInt32.ofNat ib.extras.length)

def le32 (v : UInt32) : List UInt8 := LittleEndian.bytes 4 v.toNat

def le64 (v : UInt64) : List UInt8 := LittleEndian.bytes 8 v.toNat

def binIbPushExtraU32 (ib : BinInstructionBuilder) (value : UInt32) :
    BinInstructionBuilder × UInt32 :=
  binIbPushExtraBytes ib (le32 value)

def binIbPushExtraU64 (ib : BinInstructionBuilder) (value : UInt64) :
    BinInstructionBuilder × UInt32 :=
  binIbPushExtraBytes ib (le64 value)

def binIbPushExtraBlockType (ib : BinInstructionBuilder) (valueTypes : List ValueType) :
    BinInstructionBuilder × UInt32 :=
  let (ib, pos) := binIbPushExtraBytes ib [UInt8.ofNat valueTypes.length]
  ((binIbPushExtraBytes ib (valueTypes.map ValueType.toByte)).1, pos)

/-! ### One turn of the loop -/

/-- The state of a turn: the context, the builder, and the `anchor` of the procedure. -/
structure LoopState where
  ctx : BinReadCtx
  ib : BinInstructionBuilder
  anchor : ℕ
  deriving DecidableEq, Repr

/-- What `bin_read_instructions_until` hands back. -/
structure UntilResult where
  breakOpcode : InstructionOpcode
  ok : Bool
  ctx : BinReadCtx
  ib : BinInstructionBuilder
  deriving DecidableEq, Repr

/-- The block type goes to the temp arena, one byte, unless it is empty. -/
def binReadBlockType (ctx : BinReadCtx) (ib : BinInstructionBuilder) :
    ReadResult (List ValueType) × BinInstructionBuilder :=
  let anchor := binReaderAnchor ctx
  let blockTypeByte := binReadByte ctx
  if blockTypeByte.ok then
    if blockTypeByte.value = 0x40 then (⟨[], true, blockTypeByte.ctx⟩, ib)
    else
      ((binReadValidateEnum valueTypeEnum "value type" blockTypeByte.ctx anchor
        blockTypeByte.value).map fun type => [type], ib.log (.alloc 1 1))
  else (⟨[], false, blockTypeByte.ctx⟩, ib)

def binReadOpcode (ctx : BinReadCtx) : ReadResult InstructionOpcode := binReadByte ctx

/-- The cases of the `switch` over the opcode. -/
inductive SwitchCase where
  | elseOp
  | endOp
  | nothing
  | block
  | ifOp
  | index
  | brTable
  | callIndirect
  | memarg
  | memory
  | i32Const
  | i64Const
  | f32Const
  | f64Const
  | invalid
  deriving DecidableEq, Repr

def switchCase (op : InstructionOpcode) : SwitchCase :=
  if op = Opcode.elseOp then .elseOp
  else if op = Opcode.endOp then .endOp
  else if op = Opcode.unreachable ∨ op = Opcode.nop then .nothing
  else if op = Opcode.block ∨ op = Opcode.loop then .block
  else if op = Opcode.ifOp then .ifOp
  else if op = Opcode.br ∨ op = Opcode.brIf then .index
  else if op = Opcode.brTable then .brTable
  else if op = Opcode.returnOp then .nothing
  else if op = Opcode.call then .index
  else if op = Opcode.callIndirect then .callIndirect
  else if op = Opcode.drop ∨ op = Opcode.select then .nothing
  else if Opcode.localGet ≤ op ∧ op ≤ Opcode.globalSet then .index
  else if Opcode.i32Load ≤ op ∧ op ≤ Opcode.i64Store32 then .memarg
  else if Opcode.memorySize ≤ op ∧ op ≤ Opcode.memoryGrow then .memory
  else if op = Opcode.i32Const then .i32Const
  else if op = Opcode.i64Const then .i64Const
  else if op = Opcode.f32Const then .f32Const
  else if op = Opcode.f64Const then .f64Const
  else if Opcode.i32Eqz ≤ op ∧ op ≤ Opcode.f64ReinterpretI64 then .nothing
  else .invalid

/-- A `br_table`: the labels go through the temp arena, then count, labels and default label
to the extra bytes. -/
def binReadBrTable (inst : ℕ) (st : LoopState) : Outcome LoopState := do
  let size := binReadU32Leb st.ctx
  -- the vector is allocated as soon as its size is known
  let ib := if size.ok then st.ib.log (.alloc (4 * size.value.toNat) 4) else st.ib
  let labels ← binReadVec 0 (fun c => .returned (binReadU32Leb c)) st.ctx
  if labels.ok then
    let (ib, extra) := binIbPushExtraU32 ib (UInt32.ofNat labels.value.length)
    let ib := (binIbPushExtraBytes (ib.setExtra inst extra) (labels.value.flatMap le32)).1
    let defaultLabel := binReadU32Leb labels.ctx
    let ib := if defaultLabel.ok then (binIbPushExtraU32 ib defaultLabel.value).1 else ib
    return { st with ctx := defaultLabel.ctx, ib := ib }
  else return { st with ctx := labels.ctx, ib := ib }

def binReadCallIndirect (inst : ℕ) (st : LoopState) : LoopState :=
  let index := binReadU32Leb st.ctx
  let ib := st.ib.setExtra inst index.value
  if index.ok then
    let anchor := binReaderAnchor index.ctx
    let extraUseless := binReadByte index.ctx
    let ctx :=
      if extraUseless.value ≠ 0 then
        binErrorf extraUseless.ctx (binReaderAnchorRange extraUseless.ctx anchor)
          "call_indirect second number is not 0x00, which is not supported in WASM Core 1" []
      else extraUseless.ctx
    ⟨ctx, ib, anchor⟩
  else { st with ctx := index.ctx, ib := ib }

def binReadMemarg (inst : ℕ) (st : LoopState) : LoopState :=
  let align := binReadU32Leb st.ctx
  if align.ok then
    let offset := binReadU32Leb align.ctx
    if offset.ok then
      let (ib, extra) := binIbPushExtraU32 st.ib align.value
      { st with
        ctx := offset.ctx
        ib := (binIbPushExtraU32 (ib.setExtra inst extra) offset.value).1 }
    else { st with ctx := offset.ctx }
  else { st with ctx := align.ctx }

def binReadMemory (st : LoopState) : LoopState :=
  let extraUseless := binReadByte st.ctx
  let ctx :=
    if extraUseless.value ≠ 0 then
      binErrorf extraUseless.ctx (binReaderAnchorRange extraUseless.ctx st.anchor)
        "memory.size/memory.grow first number is not 0x00, which is not supported in WASM Core 1"
        []
    else extraUseless.ctx
  { st with ctx := ctx }

/-- An immediate of 32 bits, stored in the instruction itself. -/
def binStoreExtra (inst : ℕ) (st : LoopState) (r : ReadResult UInt32) : LoopState :=
  { st with ctx := r.ctx, ib := st.ib.setExtra inst r.value }

/-- An immediate of 64 bits, stored in the extra bytes. -/
def binStoreConstant (inst : ℕ) (st : LoopState) (r : ReadResult UInt64) : LoopState :=
  if r.ok then
    let (ib, extra) := binIbPushExtraU64 st.ib r.value
    { st with ctx := r.ctx, ib := ib.setExtra inst extra }
  else { st with ctx := r.ctx }

/-- A `block` or `loop`; `until` is the nested call. -/
def binReadBlock
    (until_ : BinReadCtx → BinInstructionBuilder → List InstructionOpcode → Outcome UntilResult)
    (inst : ℕ) (st : LoopState) : Outcome LoopState := do
  let (blockType, ib) := binReadBlockType st.ctx st.ib
  if blockType.ok then
    let (ib, extra) := binIbPushExtraBlockType ib blockType.value
    let body ← until_ blockType.ctx (ib.setExtra inst extra) [Opcode.endOp]
    return { st with ctx := body.ctx, ib := (binIbPushExtraU32 body.ib (UInt32.ofNat inst + 1)).1 }
  else return { st with ctx := blockType.ctx, ib := ib }

/-- An `if`, with or without `else`. -/
def binReadIf
    (until_ : BinReadCtx → BinInstructionBuilder → List InstructionOpcode → Outcome UntilResult)
    (inst : ℕ) (st : LoopState) : Outcome LoopState := do
  let (blockType, ib) := binReadBlockType st.ctx st.ib
  if blockType.ok then
    let (ib, extra) := binIbPushExtraBlockType ib blockType.value
    let body ← until_ blockType.ctx (ib.setExtra inst extra) [Opcode.endOp, Opcode.elseOp]
    let ib := (binIbPushExtraU32 body.ib (UInt32.ofNat inst + 1)).1
    if body.ok then
      let ifLastPos := ib.instructions.length
      if body.breakOpcode = Opcode.elseOp then
        let elseBody ← until_ body.ctx ib [Opcode.endOp]
        return { st with
          ctx := elseBody.ctx
          ib := (binIbPushExtraU32 elseBody.ib (UInt32.ofNat ifLastPos)).1 }
      else return { st with ctx := body.ctx, ib := (binIbPushExtraU32 ib 0).1 }
    else return { st with ctx := body.ctx, ib := ib }
  else return { st with ctx := blockType.ctx, ib := ib }

/-- The `switch` of a turn, for the opcode of the instruction at index `inst`. -/
def binReadTurn
    (until_ : BinReadCtx → BinInstructionBuilder → List InstructionOpcode → Outcome UntilResult)
    (opcode : InstructionOpcode) (inst : ℕ) (st : LoopState) : Outcome LoopState :=
  match switchCase opcode with
  | .elseOp => .crashed
  | .endOp => .crashed
  | .nothing => .returned st
  | .block => binReadBlock until_ inst st
  | .ifOp => binReadIf until_ inst st
  | .index => .returned (binStoreExtra inst st (binReadU32Leb st.ctx))
  | .brTable => binReadBrTable inst st
  | .callIndirect => .returned (binReadCallIndirect inst st)
  | .memarg => .returned (binReadMemarg inst st)
  | .memory => .returned (binReadMemory st)
  | .i32Const => .returned (binStoreExtra inst st ((binReadI32Leb st.ctx).map UInt32.ofInt))
  | .i64Const => .returned (binStoreConstant inst st ((binReadI64Leb st.ctx).map UInt64.ofInt))
  | .f32Const => .returned (binStoreExtra inst st (binReadU32 st.ctx))
  | .f64Const => .returned (binStoreConstant inst st (binReadU64 st.ctx))
  | .invalid =>
    .returned { st with
      ctx := binErrorf st.ctx (binReaderAnchorRange st.ctx st.anchor) "invalid opcode %v"
        [.int opcode.toNat] }

/-! ### The loop -/

/-- On entry the procedure opens its own guard on the temp arena. -/
def enterUntil (ctx : BinReadCtx) (ib : BinInstructionBuilder) : LoopState :=
  ⟨ctx, ib.log .guardBegin, binReaderAnchor ctx⟩

/-- On return the guard is closed. -/
def leaveUntil (r : UntilResult) : UntilResult := { r with ib := r.ib.log .guardEnd }

/-- The `for` loop of `bin_read_instructions_until`. A failed read of an opcode does not leave
it: the zero value is the opcode `unreachable`. -/
def binReadInstructionsLoop :
    ℕ → List InstructionOpcode → LoopState → Outcome UntilResult
  | 0, _, _ => .outOfFuel
  | fuel + 1, until_, st =>
    let opcode := binReadOpcode st.ctx
    let (ib, inst) := binIbPush st.ib opcode.value
    if opcode.value ∈ until_ then .returned ⟨opcode.value, opcode.ok, opcode.ctx, ib⟩
    else do
      let st ← binReadTurn
        (fun ctx ib u => leaveUntil <$> binReadInstructionsLoop fuel u (enterUntil ctx ib))
        opcode.value inst { st with ctx := opcode.ctx, ib := ib }
      binReadInstructionsLoop fuel until_ st

def binReadInstructionsUntil (fuel : ℕ) (ctx : BinReadCtx) (ib : BinInstructionBuilder)
    (until_ : List InstructionOpcode) : Outcome UntilResult :=
  leaveUntil <$> binReadInstructionsLoop fuel until_ (enterUntil ctx ib)

/-- The builder `bin_read_expr` starts from: its guard, the sentinel instruction and the
sentinel byte. -/
def binExprBuilder : BinInstructionBuilder where
  instructions := [{}]
  extras := [0]
  temp := [.guardBegin, .pushInstruction {}, .pushExtras [0]]

/-- The named result `ok` is never assigned, the result of the call is dropped. -/
def binReadExpr (fuel : ℕ) (ctx : BinReadCtx) : Outcome (ReadResult Expr) := do
  let r ← binReadInstructionsUntil fuel ctx binExprBuilder [Opcode.endOp]
  return ⟨⟨r.ib.instructions, r.ib.extras⟩, false, r.ctx⟩

end Wasim
