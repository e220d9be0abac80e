import Wasim.Library.Outcome
import Wasim.Library.Leb128
import Wasim.Library.Bytes
import Wasim.Binary.Wasm

/-!
# The reader context and the primitive readers

`wasim_binary.odin`, up to the readers of a single entry that holds no expression. A reader
takes the context, and hands back its value, its `ok` flag and the context it leaves
(`ReadResult`). The source's readers have named results: a value that is only partly filled
when a read fails is returned as it stands, with `ok = false`. Two combinators carry that
idiom: `ReadResult.map` is an assignment `result.field, ok = read(ctx)`, and
`ReadResult.andThen` the block `if ok { ... }` after it.

Offsets are natural numbers (the source's `int`s are never negative here), slices are lists,
and the arena a value is allocated from is left out: it holds no data a reader reads back.
-/

namespace Wasim

/-! ### Diagnostics and the context -/

structure BinByteRange where
  start : ℕ
  stop : ℕ
  deriving DecidableEq, Repr

/-- An argument of a format string. -/
inductive FmtArg where
  | int (value : ℤ)
  | name (text : String)
  deriving DecidableEq, Repr

/-- The text of a diagnostic, as the format string and its arguments. -/
structure BinError where
  format : String
  args : List FmtArg
  deriving DecidableEq, Repr

structure BinDiagnostic where
  error : BinError
  range : BinByteRange
  deriving DecidableEq, Repr

/-- `base` is the offset of `data` in the file and `curr` the position inside `data`; `diags`
lists the diagnostics in the order they were pushed. -/
structure BinReadCtx where
  base : ℕ := 0
  curr : ℕ := 0
  data : List UInt8 := []
  diags : List BinDiagnostic := []
  deriving DecidableEq, Repr

def binReaderSetScope (ctx : BinReadCtx) (base : ℕ) (data : List UInt8) : BinReadCtx :=
  { ctx with base := base, curr := 0, data := data }

def binErrorf (ctx : BinReadCtx) (range : BinByteRange) (format : String)
    (args : List FmtArg) : BinReadCtx :=
  { ctx with diags := ctx.diags ++ [⟨⟨format, args⟩, range⟩] }

def binReaderAbsolutePos (ctx : BinReadCtx) : ℕ := ctx.base + ctx.curr

abbrev binReaderAnchor := binReaderAbsolutePos

def binReaderAnchorRange (ctx : BinReadCtx) (anchor : ℕ) : BinByteRange :=
  ⟨anchor, binReaderAnchor ctx⟩

def binReaderDataLeft (ctx : BinReadCtx) : ℕ := ctx.data.length - ctx.curr

/-- The bytes still to be read, `ctx.data[ctx.curr:]`. -/
def BinReadCtx.rest (ctx : BinReadCtx) : List UInt8 := ctx.data.drop ctx.curr

/-- The context after `n` more bytes. -/
def BinReadCtx.advance (ctx : BinReadCtx) (n : ℕ) : BinReadCtx :=
  { ctx with curr := ctx.curr + n }

/-! ### Results -/

/-- What a reader hands back. -/
structure ReadResult (α : Type) where
  value : α
  ok : Bool
  ctx : BinReadCtx
  deriving DecidableEq, Repr

namespace ReadResult

variable {α β : Type}

/-- The value stored away by `f`, whether or not the read succeeded. -/
def map (f : α → β) (r : ReadResult α) : ReadResult β := ⟨f r.value, r.ok, r.ctx⟩

/-- `if ok { ... }`: carry on from the value so far only after a successful read. -/
def andThen (r : ReadResult α) (f : α → BinReadCtx → ReadResult α) : ReadResult α :=
  if r.ok then f r.value r.ctx else r

@[simp]
theorem map_value (f : α → β) (r : ReadResult α) : (r.map f).value = f r.value := rfl

@[simp]
theorem map_ok (f : α → β) (r : ReadResult α) : (r.map f).ok = r.ok := rfl

@[simp]
theorem map_ctx (f : α → β) (r : ReadResult α) : (r.map f).ctx = r.ctx := rfl

end ReadResult

/-! ### Bytes -/

def binReadBytes (ctx : BinReadCtx) (count : ℕ) : ReadResult (List UInt8) :=
  let start := binReaderAnchor ctx
  let dataLeft := binReaderDataLeft ctx
  if count ≤ dataLeft then
    ⟨(ctx.data.drop ctx.curr).take count, true, ctx.advance count⟩
  else
    ⟨[], false, binErrorf ctx ⟨start, start + dataLeft⟩ "missing %v bytes"
      [.int (count - dataLeft)]⟩

/-- `bin_read_t` at the unsigned type of `size` bytes. -/
def binReadT (ctx : BinReadCtx) (size : ℕ) : ReadResult ℕ :=
  let data := binReadBytes ctx size
  ⟨if data.ok then LittleEndian.value data.value else 0, data.ok, data.ctx⟩

def binReadU32 (ctx : BinReadCtx) : ReadResult UInt32 := (binReadT ctx 4).map UInt32.ofNat

def binReadU64 (ctx : BinReadCtx) : ReadResult UInt64 := (binReadT ctx 8).map UInt64.ofNat

/-- `bin_read_t` at a one-byte type. -/
def binReadB8 (ctx : BinReadCtx) : ReadResult UInt8 := (binReadT ctx 1).map UInt8.ofNat

def binReadByte (ctx : BinReadCtx) : ReadResult UInt8 :=
  let start := binReaderAnchor ctx
  if 1 ≤ binReaderDataLeft ctx then
    ⟨ctx.data.getD ctx.curr 0, true, ctx.advance 1⟩
  else
    ⟨0, false, binErrorf ctx (binReaderAnchorRange ctx start) "missing byte" []⟩

/-! ### LEB128 integers -/

/-- `MAX_BYTES`: the bytes a LEB128 number of `bits` bits may take. -/
def lebMaxBytes (bits : ℕ) : ℕ := (bits + 6) / 7

/-- `bin_read_iXX_leb` at the signed type `tName` of `bits` bits. -/
def binReadIXXLeb (bits : ℕ) (tName : String) (ctx : BinReadCtx) : ReadResult ℤ :=
  let start := binReaderAnchor ctx
  let here := binReaderAnchorRange ctx start
  let max : ℤ := 2 ^ (bits - 1) - 1
  let min : ℤ := -2 ^ (bits - 1)
  match Leb128.decodeSigned ctx.rest with
  | .ok (value, size) =>
    if size ≤ lebMaxBytes bits then
      if min ≤ value ∧ value ≤ max then ⟨value, true, ctx.advance size⟩
      else
        ⟨0, false, binErrorf ctx here
          "LEB %[0]v has value that does not fit into a %[0]v: MIN(%v) <= %v <= MAX(%v)"
          [.name tName, .int min, .int value, .int max]⟩
    else
      ⟨0, false, binErrorf ctx here "LEB has to many bytes for a %v: %v <= %v"
        [.name tName, .int size, .int (lebMaxBytes bits)]⟩
  | .error .bufferTooSmall =>
    ⟨0, false, binErrorf ctx here "missing bytes for LEB %v" [.name tName]⟩
  | .error .valueTooLarge =>
    ⟨0, false, binErrorf ctx here "LEB to large to even fit into a i128" []⟩

/-- `bin_read_uXX_leb` at the unsigned type `tName` of `bits` bits. -/
def binReadUXXLeb (bits : ℕ) (tName : String) (ctx : BinReadCtx) : ReadResult ℕ :=
  let start := binReaderAnchor ctx
  let here := binReaderAnchorRange ctx start
  let max : ℕ := 2 ^ bits - 1
  match Leb128.decodeUnsigned ctx.rest with
  | .ok (value, size) =>
    if size ≤ lebMaxBytes bits then
      if value ≤ max then ⟨value, true, ctx.advance size⟩
      else
        ⟨0, false, binErrorf ctx here
          "LEB %[0]v has value to large to fit into a %[0]v: %v <= %v"
          [.name tName, .int value, .int max]⟩
    else
      ⟨0, false, binErrorf ctx here "LEB has to many bytes for a %v: %v <= %v"
        [.name tName, .int size, .int (lebMaxBytes bits)]⟩
  | .error .bufferTooSmall =>
    ⟨0, false, binErrorf ctx here "missing bytes for LEB %v" [.name tName]⟩
  | .error .valueTooLarge =>
    ⟨0, false, binErrorf ctx here "LEB to large to even fit into a u128" []⟩

def binReadU32Leb (ctx : BinReadCtx) : ReadResult UInt32 :=
  (binReadUXXLeb 32 "u32" ctx).map UInt32.ofNat

def binReadI32Leb (ctx : BinReadCtx) : ReadResult ℤ := binReadIXXLeb 32 "i32" ctx

def binReadU64Leb (ctx : BinReadCtx) : ReadResult UInt64 :=
  (binReadUXXLeb 64 "u64" ctx).map UInt64.ofNat

def binReadI64Leb (ctx : BinReadCtx) : ReadResult ℤ := binReadIXXLeb 64 "i64" ctx

/-! ### Enums -/

/-- A source enum of byte size: its least and greatest member with their names, the member a
byte in between stands for, and the value of zeroed memory. -/
structure ByteEnum (T : Type) where
  min : UInt8
  max : UInt8
  minName : String
  maxName : String
  ofByte : UInt8 → T
  zero : T

def limitsKindEnum : ByteEnum LimitsKind where
  min := 0
  max := 1
  minName := "Unlimited"
  maxName := "Limited"
  ofByte b := if b = 0 then .unlimited else .limited
  zero := .unlimited

def valueTypeEnum : ByteEnum ValueType where
  min := 0x7C
  max := 0x7F
  minName := "F64"
  maxName := "I32"
  ofByte b := if b = 0x7F then .i32 else if b = 0x7E then .i64 else if b = 0x7D then .f32 else .f64
  zero := .unset

def externalKindEnum : ByteEnum ExternalKind where
  min := 0
  max := 3
  minName := "Func"
  maxName := "Global"
  ofByte b := if b = 0 then .func else if b = 1 then .table else if b = 2 then .mem else .global
  zero := .func

def binReadValidateEnum {T : Type} (E : ByteEnum T) (tName : String) (ctx : BinReadCtx)
    (anchor : ℕ) (input : UInt8) : ReadResult T :=
  if E.min ≤ input ∧ input ≤ E.max then ⟨E.ofByte input, true, ctx⟩
  else
    ⟨E.zero, false, binErrorf ctx (binReaderAnchorRange ctx anchor)
      ("invalid " ++ tName ++ " %v: %v(0) <= %v(%v)")
      [.int input.toNat, .name E.minName, .name E.maxName, .int E.max.toNat]⟩

def binReadByteAsEnum {T : Type} (E : ByteEnum T) (tName : String) (ctx : BinReadCtx) :
    ReadResult T :=
  let anchor := binReaderAnchor ctx
  let tByte := binReadByte ctx
  if tByte.ok then binReadValidateEnum E tName tByte.ctx anchor tByte.value
  else ⟨E.zero, false, tByte.ctx⟩

/-! ### Entries without an expression -/

def binReadName (ctx : BinReadCtx) : ReadResult (List UInt8) :=
  let size := binReadU32Leb ctx
  if size.ok then binReadBytes size.ctx size.value.toNat else ⟨[], false, size.ctx⟩

def binReadLimits (ctx : BinReadCtx) : ReadResult Limits :=
  ((binReadByteAsEnum limitsKindEnum "limits kind" ctx).map fun kind =>
    ({ kind := kind } : Limits)).andThen fun limits ctx =>
  ((binReadU32Leb ctx).map fun min => { limits with min := min }).andThen fun limits ctx =>
  if limits.kind = .limited then
    (binReadU32Leb ctx).map fun max => { limits with max := max }
  else ⟨limits, true, ctx⟩

def binReadValueType (ctx : BinReadCtx) : ReadResult ValueType :=
  binReadByteAsEnum valueTypeEnum "value type" ctx

def binReadElementType (ctx : BinReadCtx) : ReadResult ElementType :=
  let anchor := binReaderAnchor ctx
  let elementTypeByte := binReadByte ctx
  if elementTypeByte.ok then
    if elementTypeByte.value = 0x70 then ⟨.funcRef, true, elementTypeByte.ctx⟩
    else
      ⟨.unset, false, binErrorf elementTypeByte.ctx
        (binReaderAnchorRange elementTypeByte.ctx anchor)
        "invalid element type, only support funcref(0x70) but got %h"
        [.int elementTypeByte.value.toNat]⟩
  else ⟨.unset, false, elementTypeByte.ctx⟩

def binReadTableType (ctx : BinReadCtx) : ReadResult TableType :=
  ((binReadElementType ctx).map fun elementType =>
    ({ elementType := elementType } : TableType)).andThen fun tableType ctx =>
  (binReadLimits ctx).map fun limits => { tableType with limits := limits }

def binReadGlobalType (ctx : BinReadCtx) : ReadResult GlobalType :=
  ((binReadValueType ctx).map fun type => ({ type := type } : GlobalType)).andThen
    fun globalType ctx =>
  (binReadB8 ctx).map fun mutable => { globalType with mutable := mutable }

/-- The member of the raw union that the kind of an import selects. -/
def binReadImportDesc (kind : ExternalKind) (ctx : BinReadCtx) : ReadResult ImportDesc :=
  match kind with
  | .func => (binReadU32Leb ctx).map .typeIndex
  | .table => (binReadTableType ctx).map .tableType
  | .mem => (binReadLimits ctx).map .memType
  | .global => (binReadGlobalType ctx).map .globalType

def binReadImport (ctx : BinReadCtx) : ReadResult Import :=
  ((((binReadName ctx).map fun module => ({ module := module } : Import)).andThen
    fun imp ctx => (binReadName ctx).map fun name => { imp with name := name }).andThen
    fun imp ctx => (binReadByteAsEnum externalKindEnum "external kind" ctx).map
      fun kind => { imp with kind := kind }).andThen
    fun imp ctx => (binReadImportDesc imp.kind ctx).map fun desc => { imp with desc := desc }

def binReadExport (ctx : BinReadCtx) : ReadResult Export :=
  ((binReadName ctx).map fun name => ({ name := name } : Export)).andThen fun exp ctx =>
  ((binReadByteAsEnum externalKindEnum "external kind" ctx).map
    fun kind => { exp with kind := kind }).andThen fun exp ctx =>
  (binReadU32Leb ctx).map fun index => { exp with index := index }

/-- A function body that was found but not yet read. -/
structure BinCode where
  pos : ℕ := 0
  data : List UInt8 := []
  deriving DecidableEq, Repr

def binReadCodeStructure (ctx : BinReadCtx) : ReadResult BinCode :=
  let pos := binReaderAbsolutePos ctx
  let size := binReadU32Leb ctx
  if size.ok then
    (binReadBytes size.ctx size.value.toNat).map fun data => ⟨pos, data⟩
  else ⟨{ pos := pos }, false, size.ctx⟩

def binReadLocal (ctx : BinReadCtx) : ReadResult Local :=
  let count := binReadU32Leb ctx
  if count.ok then
    (binReadValueType count.ctx).map fun type => { type := type, «repeat» := count.value }
  else ⟨{}, false, count.ctx⟩

/-! ### Vectors -/

/-- The loop of `bin_read_vec` with `n` entries to go: the entries read, the one that failed
as its reader left it, and zeroed memory behind it. -/
def binReadVecLoop {α : Type} (zero : α) (parse : BinReadCtx → Outcome (ReadResult α)) :
    ℕ → BinReadCtx → Outcome (ReadResult (List α))
  | 0, ctx => .returned ⟨[], true, ctx⟩
  | n + 1, ctx => do
    let entry ← parse ctx
    if entry.ok then
      let more ← binReadVecLoop zero parse n entry.ctx
      return more.map (entry.value :: ·)
    else
      return ⟨entry.value :: List.replicate n zero, false, entry.ctx⟩

def binReadVec {α : Type} (zero : α) (parse : BinReadCtx → Outcome (ReadResult α))
    (ctx : BinReadCtx) : Outcome (ReadResult (List α)) :=
  let size := binReadU32Leb ctx
  if size.ok then binReadVecLoop zero parse size.value.toNat size.ctx
  else .returned ⟨[], false, size.ctx⟩

def binReadFuncType (ctx : BinReadCtx) : Outcome (ReadResult FunctionType) :=
  let start := binReaderAnchor ctx
  let identifyByte := binReadByte ctx
  if identifyByte.ok then
    if identifyByte.value = 0x60 then do
      let args ← binReadVec .unset (fun c => .returned (binReadValueType c)) identifyByte.ctx
      if args.ok then
        let rets ← binReadVec .unset (fun c => .returned (binReadValueType c)) args.ctx
        return rets.map fun rets => ⟨args.value, rets⟩
      else return args.map fun args => { args := args }
    else
      .returned ⟨{}, false, binErrorf identifyByte.ctx
        (binReaderAnchorRange identifyByte.ctx start)
        ("expected identifying byte for function, but got unknown one: " ++
          "%v != FUNCTION_TYPE_IDENTIFY_BYTE(%v)")
        [.int identifyByte.value.toNat, .int 0x60]⟩
  else .returned ⟨{}, false, identifyByte.ctx⟩

end Wasim
