import Wasim.Binary.Expr

/-!
# Entries with expressions, and sections

The readers of `wasim_binary.odin` that end in `bin_read_expr`, and the section readers: a
section is one vector, or a single index for the start section.

`bin_read_section_into_module` assigns one field of the module. Here the field and its new
value are a `FieldValue`, so that reading a section (`binReadSection`) and the assignment
(`Module.assign`) can be told apart where lanes share a module.
-/

namespace Wasim

/-- `if ok { ... }` around a call that need not return. -/
def ReadResult.thenProc {α : Type} (r : ReadResult α)
    (f : α → BinReadCtx → Outcome (ReadResult α)) : Outcome (ReadResult α) :=
  if r.ok then f r.value r.ctx else .returned r

/-! ### Entries -/

def binReadGlobal (fuel : ℕ) (ctx : BinReadCtx) : Outcome (ReadResult Global) :=
  (((binReadValueType ctx).map fun type => ({ type := type } : Global)).andThen fun global ctx =>
    (binReadB8 ctx).map fun mutable => { global with mutable := mutable }).thenProc
    fun global ctx => do
      let expr ← binReadExpr fuel ctx
      return expr.map fun expr => { global with expr := expr }

def binReadElement (fuel : ℕ) (ctx : BinReadCtx) : Outcome (ReadResult Element) := do
  let element ← ((binReadU32Leb ctx).map fun index => ({ index := index } : Element)).thenProc
    fun element ctx => do
      let expr ← binReadExpr fuel ctx
      return expr.map fun expr => { element with expr := expr }
  element.thenProc fun element ctx => do
    let init ← binReadVec 0 (fun c => .returned (binReadU32Leb c)) ctx
    return init.map fun init => { element with init := init }

def binReadData (fuel : ℕ) (ctx : BinReadCtx) : Outcome (ReadResult Data) := do
  let data ← ((binReadU32Leb ctx).map fun index => ({ index := index } : Data)).thenProc
    fun data ctx => do
      let expr ← binReadExpr fuel ctx
      return expr.map fun expr => { data with expr := expr }
  data.thenProc fun data ctx =>
    let initCount := binReadU32Leb ctx
    .returned <|
      if initCount.ok then
        (binReadBytes initCount.ctx initCount.value.toNat).map fun init =>
          { data with init := init }
      else ⟨data, false, initCount.ctx⟩

def binReadCode (fuel : ℕ) (ctx : BinReadCtx) (binCode : BinCode) :
    Outcome (ReadResult Code) := do
  let ctx := binReaderSetScope ctx binCode.pos binCode.data
  let locals ← binReadVec {} (fun c => .returned (binReadLocal c)) ctx
  (locals.map fun locals => ({ locals := locals } : Code)).thenProc fun code ctx => do
    let expr ← binReadExpr fuel ctx
    return expr.map fun expr => { code with expr := expr }

/-! ### Sections -/

def binReadTypeSection (ctx : BinReadCtx) : Outcome (ReadResult (List FunctionType)) :=
  binReadVec {} binReadFuncType ctx

def binReadImportSection (ctx : BinReadCtx) : Outcome (ReadResult (List Import)) :=
  binReadVec {} (fun c => .returned (binReadImport c)) ctx

def binReadFuncSection (ctx : BinReadCtx) : Outcome (ReadResult (List TypeIndex)) :=
  binReadVec 0 (fun c => .returned (binReadU32Leb c)) ctx

def binReadTableSection (ctx : BinReadCtx) : Outcome (ReadResult (List TableType)) :=
  binReadVec {} (fun c => .returned (binReadTableType c)) ctx

def binReadMemorySection (ctx : BinReadCtx) : Outcome (ReadResult (List Memory)) :=
  binReadVec {} (fun c => .returned (binReadLimits c)) ctx

def binReadGlobalSection (fuel : ℕ) (ctx : BinReadCtx) : Outcome (ReadResult (List Global)) :=
  binReadVec {} (binReadGlobal fuel) ctx

def binReadExportSection (ctx : BinReadCtx) : Outcome (ReadResult (List Export)) :=
  binReadVec {} (fun c => .returned (binReadExport c)) ctx

def binReadElementSection (fuel : ℕ) (ctx : BinReadCtx) : Outcome (ReadResult (List Element)) :=
  binReadVec {} (binReadElement fuel) ctx

def binReadCodeSectionStructure (ctx : BinReadCtx) : Outcome (ReadResult (List BinCode)) :=
  binReadVec {} (fun c => .returned (binReadCodeStructure c)) ctx

def binReadDataSection (fuel : ℕ) (ctx : BinReadCtx) : Outcome (ReadResult (List Data)) :=
  binReadVec {} (binReadData fuel) ctx

inductive BinSectionKind where
  | custom
  | type
  | import
  | function
  | table
  | memory
  | global
  | export
  | start
  | element
  | code
  | data
  deriving DecidableEq, Repr

structure BinSection where
  kind : BinSectionKind := .custom
  pos : ℕ := 0
  data : List UInt8 := []
  deriving DecidableEq, Repr

/-- A field of the module and a value for it. -/
inductive FieldValue where
  | nothing
  | types (types : List FunctionType)
  | imps (imps : List Import)
  | functions (functions : List TypeIndex)
  | tables (tables : List TableType)
  | memory (memory : List Memory)
  | globals (globals : List Global)
  | exports (exports : List Export)
  | start (start : UInt32)
  | elements (elements : List Element)
  | datas (datas : List Data)
  deriving DecidableEq, Repr

/-- The assignment to a field of the module. -/
def Module.assign (m : Module) : FieldValue → Module
  | .nothing => m
  | .types v => { m with types := v }
  | .imps v => { m with imps := v }
  | .functions v => { m with functions := v }
  | .tables v => { m with tables := v }
  | .memory v => { m with memory := v }
  | .globals v => { m with globals := v }
  | .exports v => { m with exports := v }
  | .start v => { m with start := v }
  | .elements v => { m with elements := v }
  | .datas v => { m with datas := v }

/-- The `switch` over the kind of a section. A code section makes it panic. -/
def binReadSection (fuel : ℕ) (ctx : BinReadCtx) (kind : BinSectionKind) :
    Outcome (ReadResult FieldValue) :=
  match kind with
  | .custom => .returned ⟨.nothing, true, ctx⟩
  | .type => ReadResult.map .types <$> binReadTypeSection ctx
  | .import => ReadResult.map .imps <$> binReadImportSection ctx
  | .function => ReadResult.map .functions <$> binReadFuncSection ctx
  | .table => ReadResult.map .tables <$> binReadTableSection ctx
  | .memory => ReadResult.map .memory <$> binReadMemorySection ctx
  | .global => ReadResult.map .globals <$> binReadGlobalSection fuel ctx
  | .export => ReadResult.map .exports <$> binReadExportSection ctx
  | .start => .returned ((binReadU32Leb ctx).map .start)
  | .element => ReadResult.map .elements <$> binReadElementSection fuel ctx
  | .data => ReadResult.map .datas <$> binReadDataSection fuel ctx
  | .code => .crashed

/-- The module is handed back as the value. -/
def binReadSectionIntoModule (fuel : ℕ) (ctx : BinReadCtx) (section_ : BinSection) (m : Module) :
    Outcome (ReadResult Module) := do
  let field ← binReadSection fuel (binReaderSetScope ctx section_.pos section_.data) section_.kind
  return field.map m.assign

end Wasim
