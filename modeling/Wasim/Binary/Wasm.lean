import Mathlib.Data.UInt

/-!
# The decoded module

The data model of a decoded WebAssembly 1.0 module. Strings and slices are lists, a name is
the list of its bytes, and the fixed-width integers keep their width.

The source's enums are bytes, and memory that no reader has filled holds the byte zero. For
`Value_Type` and `Element_Type` zero is not a member, so those two types have one constructor
more (`unset`) for it; `Instruction_Opcode` is a cast of an unchecked byte and stays one.
-/

namespace Wasim

inductive LimitsKind where
  | unlimited
  | limited
  deriving DecidableEq, Repr

structure Limits where
  kind : LimitsKind := .unlimited
  min : UInt32 := 0
  max : UInt32 := 0
  deriving DecidableEq, Repr

inductive ValueType where
  | i32
  | i64
  | f32
  | f64
  | unset
  deriving DecidableEq, Repr

/-- The byte a value type is stored as. -/
def ValueType.toByte : ValueType → UInt8
  | i32 => 0x7F
  | i64 => 0x7E
  | f32 => 0x7D
  | f64 => 0x7C
  | unset => 0x00

structure FunctionType where
  args : List ValueType := []
  rets : List ValueType := []
  deriving DecidableEq, Repr

inductive ExternalKind where
  | func
  | table
  | mem
  | global
  deriving DecidableEq, Repr

inductive ElementType where
  | funcRef
  | unset
  deriving DecidableEq, Repr

structure TableType where
  elementType : ElementType := .unset
  limits : Limits := {}
  deriving DecidableEq, Repr

/-- `mutable` is a `b8`: the byte as it stands in the file. -/
structure GlobalType where
  mutable : UInt8 := 0
  type : ValueType := .unset
  deriving DecidableEq, Repr

abbrev Memory := Limits

/-- The raw union of an import: what is imported, by kind. -/
inductive ImportDesc where
  | typeIndex (index : UInt32)
  | tableType (type : TableType)
  | memType (type : Memory)
  | globalType (type : GlobalType)
  deriving DecidableEq, Repr

structure Import where
  kind : ExternalKind := .func
  module : List UInt8 := []
  name : List UInt8 := []
  desc : ImportDesc := .typeIndex 0
  deriving DecidableEq, Repr

abbrev TypeIndex := UInt32

/-- `repeat` locals of one type. -/
structure Local where
  type : ValueType := .unset
  «repeat» : UInt32 := 0
  deriving DecidableEq, Repr

/-! ### Instructions -/

abbrev InstructionOpcode := UInt8

namespace Opcode

def unreachable : InstructionOpcode := 0x00
def nop : InstructionOpcode := 0x01
def block : InstructionOpcode := 0x02
def loop : InstructionOpcode := 0x03
def ifOp : InstructionOpcode := 0x04
def elseOp : InstructionOpcode := 0x05
def endOp : InstructionOpcode := 0x0B
def br : InstructionOpcode := 0x0C
def brIf : InstructionOpcode := 0x0D
def brTable : InstructionOpcode := 0x0E
def returnOp : InstructionOpcode := 0x0F
def call : InstructionOpcode := 0x10
def callIndirect : InstructionOpcode := 0x11
def drop : InstructionOpcode := 0x1A
def select : InstructionOpcode := 0x1B
def localGet : InstructionOpcode := 0x20
def globalSet : InstructionOpcode := 0x24
def i32Load : InstructionOpcode := 0x28
def i64Store32 : InstructionOpcode := 0x3E
def memorySize : InstructionOpcode := 0x3F
def memoryGrow : InstructionOpcode := 0x40
def i32Const : InstructionOpcode := 0x41
def i64Const : InstructionOpcode := 0x42
def f32Const : InstructionOpcode := 0x43
def f64Const : InstructionOpcode := 0x44
def i32Eqz : InstructionOpcode := 0x45
def f64ReinterpretI64 : InstructionOpcode := 0xBF

end Opcode

/-- `extra` holds the immediate itself or the position of its bytes in `Expr.extras`. -/
structure Instruction where
  opcode : InstructionOpcode := 0
  extra : UInt32 := 0
  deriving DecidableEq, Repr

/-- The instructions start at index 1; index 0 is a sentinel, and so is the first byte of
`extras`. -/
structure Expr where
  instructions : List Instruction := []
  extras : List UInt8 := []
  deriving DecidableEq, Repr

structure Global where
  mutable : UInt8 := 0
  type : ValueType := .unset
  expr : Expr := {}
  deriving DecidableEq, Repr

structure Export where
  kind : ExternalKind := .func
  name : List UInt8 := []
  index : UInt32 := 0
  deriving DecidableEq, Repr

structure Element where
  index : UInt32 := 0
  expr : Expr := {}
  init : List UInt32 := []
  deriving DecidableEq, Repr

structure Code where
  locals : List Local := []
  expr : Expr := {}
  deriving DecidableEq, Repr

structure Data where
  index : UInt32 := 0
  expr : Expr := {}
  init : List UInt8 := []
  deriving DecidableEq, Repr

structure Module where
  version : UInt32 := 0
  types : List FunctionType := []
  tables : List TableType := []
  imps : List Import := []
  functions : List TypeIndex := []
  memory : List Memory := []
  globals : List Global := []
  exports : List Export := []
  start : UInt32 := 0
  elements : List Element := []
  codes : List Code := []
  datas : List Data := []
  deriving DecidableEq, Repr

end Wasim
