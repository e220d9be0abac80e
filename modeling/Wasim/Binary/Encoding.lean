import Wasim.Binary.Expr

/-!
# The binary format

The WebAssembly 1.0 binary format, as far as the readers are held to it: which byte strings
encode a value. An encoding is a relation, since a LEB128 number may be padded. Nothing here
mentions a reader.

An instruction sequence is a tree: `Instrs` is a list whose cells are a plain instruction, a
`block` or `loop` with its body, an `if`, or an `if` with an `else`.
-/

namespace Wasim

/-- Which byte strings encode a value. -/
abbrev Encoding (α : Type) := α → List UInt8 → Prop

namespace Encoding

variable {α : Type}

/-- An unsigned integer of `bits` bits: at most `⌈bits / 7⌉` bytes of LEB128. -/
def unsigned (bits : ℕ) : Encoding ℕ := fun v bs =>
  Leb128.Unsigned bs v ∧ bs.length ≤ (bits + 6) / 7 ∧ v < 2 ^ bits

/-- A signed integer of `bits` bits. -/
def signed (bits : ℕ) : Encoding ℤ := fun v bs =>
  Leb128.Signed bs v ∧ bs.length ≤ (bits + 6) / 7 ∧ -2 ^ (bits - 1) ≤ v ∧ v < 2 ^ (bits - 1)

def u32 : Encoding UInt32 := fun v bs => unsigned 32 v.toNat bs

/-- The entries one after the other. -/
inductive All (E : Encoding α) : List α → List UInt8 → Prop
  | nil : All E [] []
  | cons {a : α} {as : List α} {b r : List UInt8} (ha : E a b) (has : All E as r) :
      All E (a :: as) (b ++ r)

/-- A vector: its length, then its entries. -/
def vec (E : Encoding α) : Encoding (List α) := fun as bs =>
  ∃ n es, unsigned 32 as.length n ∧ All E as es ∧ bs = n ++ es

/-- A value type is one byte; `unset` has no encoding. -/
def valueType : Encoding ValueType := fun t bs => t ≠ .unset ∧ bs = [t.toByte]

/-- A group of locals of one type: how many, and the type. -/
def locals : Encoding Local := fun l bs =>
  ∃ n t, u32 l.repeat n ∧ valueType l.type t ∧ bs = n ++ t

end Encoding

/-! ### Instructions -/

/-- Opcodes without an immediate. -/
def NullaryOp (op : InstructionOpcode) : Prop :=
  op = 0x00 ∨ op = 0x01 ∨ op = 0x0F ∨ op = 0x1A ∨ op = 0x1B ∨ 0x45 ≤ op ∧ op ≤ 0xBF

/-- Opcodes whose immediate is one index: `br`, `br_if`, `call`, and the instructions on
locals and globals. -/
def IndexOp (op : InstructionOpcode) : Prop :=
  op = 0x0C ∨ op = 0x0D ∨ op = 0x10 ∨ 0x20 ≤ op ∧ op ≤ 0x24

/-- Loads and stores. -/
def MemargOp (op : InstructionOpcode) : Prop := 0x28 ≤ op ∧ op ≤ 0x3E

/-- `memory.size` and `memory.grow`. -/
def MemoryOp (op : InstructionOpcode) : Prop := op = 0x3F ∨ op = 0x40

/-- An instruction that contains no other instruction. -/
inductive PlainInstr where
  | nullary (op : InstructionOpcode)
  | index (op : InstructionOpcode) (x : UInt32)
  | brTable (labels : List UInt32) (default : UInt32)
  | callIndirect (x : UInt32)
  | memarg (op : InstructionOpcode) (align offset : UInt32)
  | memory (op : InstructionOpcode)
  | i32Const (v : ℤ)
  | i64Const (v : ℤ)
  | f32Const (bits : UInt32)
  | f64Const (bits : UInt64)

/-- The encoding of a plain instruction. A constructor applied to an opcode that is not of
its kind, or to a constant out of range, has none. -/
inductive PlainInstr.Encodes : Encoding PlainInstr
  | nullary {op : InstructionOpcode} (h : NullaryOp op) : Encodes (.nullary op) [op]
  | index {op : InstructionOpcode} {x : UInt32} {bs : List UInt8} (h : IndexOp op)
      (hx : Encoding.u32 x bs) : Encodes (.index op x) (op :: bs)
  | brTable {labels : List UInt32} {default : UInt32} {bs ds : List UInt8}
      (hl : Encoding.vec Encoding.u32 labels bs) (hd : Encoding.u32 default ds) :
      Encodes (.brTable labels default) (0x0E :: (bs ++ ds))
  | callIndirect {x : UInt32} {bs : List UInt8} (hx : Encoding.u32 x bs) :
      Encodes (.callIndirect x) (0x11 :: (bs ++ [0x00]))
  | memarg {op : InstructionOpcode} {align offset : UInt32} {as os : List UInt8}
      (h : MemargOp op) (ha : Encoding.u32 align as) (ho : Encoding.u32 offset os) :
      Encodes (.memarg op align offset) (op :: (as ++ os))
  | memory {op : InstructionOpcode} (h : MemoryOp op) : Encodes (.memory op) [op, 0x00]
  | i32Const {v : ℤ} {bs : List UInt8} (hv : Encoding.signed 32 v bs) :
      Encodes (.i32Const v) (0x41 :: bs)
  | i64Const {v : ℤ} {bs : List UInt8} (hv : Encoding.signed 64 v bs) :
      Encodes (.i64Const v) (0x42 :: bs)
  | f32Const (bits : UInt32) : Encodes (.f32Const bits) (0x43 :: le32 bits)
  | f64Const (bits : UInt64) : Encodes (.f64Const bits) (0x44 :: le64 bits)

/-- Instruction sequences. -/
inductive Instrs where
  | nil
  | plain (i : PlainInstr) (rest : Instrs)
  | block (isLoop : Bool) (type : Option ValueType) (body rest : Instrs)
  | ifThen (type : Option ValueType) (body rest : Instrs)
  | ifElse (type : Option ValueType) (body elseBody rest : Instrs)

/-- `block` or `loop`. -/
def blockOp (isLoop : Bool) : InstructionOpcode := if isLoop then 0x03 else 0x02

/-- A block type is one byte: `0x40` for none, or a value type. -/
inductive EncodesBlockType : Option ValueType → UInt8 → Prop
  | none : EncodesBlockType none 0x40
  | some {t : ValueType} (h : t ≠ .unset) : EncodesBlockType (some t) t.toByte

inductive Instrs.Encodes : Encoding Instrs
  | nil : Encodes .nil []
  | plain {i : PlainInstr} {rest : Instrs} {b r : List UInt8} (hi : i.Encodes b)
      (hr : Encodes rest r) : Encodes (.plain i rest) (b ++ r)
  | block {isLoop : Bool} {type : Option ValueType} {body rest : Instrs} {t : UInt8}
      {b r : List UInt8} (ht : EncodesBlockType type t) (hb : Encodes body b)
      (hr : Encodes rest r) :
      Encodes (.block isLoop type body rest) (blockOp isLoop :: t :: (b ++ 0x0B :: r))
  | ifThen {type : Option ValueType} {body rest : Instrs} {t : UInt8} {b r : List UInt8}
      (ht : EncodesBlockType type t) (hb : Encodes body b) (hr : Encodes rest r) :
      Encodes (.ifThen type body rest) (0x04 :: t :: (b ++ 0x0B :: r))
  | ifElse {type : Option ValueType} {body elseBody rest : Instrs} {t : UInt8}
      {b e r : List UInt8} (ht : EncodesBlockType type t) (hb : Encodes body b)
      (he : Encodes elseBody e) (hr : Encodes rest r) :
      Encodes (.ifElse type body elseBody rest)
        (0x04 :: t :: (b ++ 0x05 :: (e ++ 0x0B :: r)))

/-- An expression is an instruction sequence closed by `end`. -/
def Encoding.expr : Encoding Instrs := fun is bs => ∃ b, is.Encodes b ∧ bs = b ++ [0x0B]

end Wasim
