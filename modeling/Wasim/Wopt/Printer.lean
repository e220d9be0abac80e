import Wasim.Library.Printing
import Wasim.Wopt.BuildRuns
import Wasim.Wopt.TypeTrees

/-!
# Printing functions

The printer of `wopt_ir.odin`: `ssa_write_function_build_body` and what it calls. The writer is a
parameter, as in `ssa_write_type`. Some of its errors are dropped: those in the id and the control
value of a block, in an immediate and in the arguments of a value.

The text is that of a document (`Printing.Doc`) of what is shown of the body (`PrintedBlock`). The
sizes and alignments of types, the kind of a block that is an exit, and the immediates and
arguments that the operator does not use are not shown.
-/

namespace Wasim.Wopt

open Printing

variable {ι W ε : Type}

/-- The functions of the module are given with their names. -/
structure SsaPrinter (ι W ε : Type) where
  write : String → W → W × Option ε
  interner : TypeInterner ι
  functions : List (String × Function)
  indent : String

def ssaWriteValueId (p : SsaPrinter ι W ε) (id : ValueId) (w : W) : Outcome (W × Option ε) :=
  orReturn (p.write "%v" w) fun w =>
  orReturn (p.write (toString id.toNat) w) fun w => .returned (w, none)

def ssaWriteIndent (p : SsaPrinter ι W ε) (w : W) : Outcome (W × Option ε) :=
  .returned (p.write p.indent w)

/-- The name that reflection has for the operator. -/
def Operator.enumName : Operator → String
  | .argument => "Argument"
  | .initMemory => "Init_Memory"
  | .const32 => "Const32"
  | .return_ => "Return"

structure PrintFlags where
  args : Bool := false
  immediate : Bool := false

/-- The table `LUT`. -/
def printFlags : Operator → PrintFlags
  | .argument => { immediate := true }
  | .const32 => { immediate := true }
  | .return_ => { args := true }
  | .initMemory => {}

def writeImmediate (p : SsaPrinter ι W ε) (value : Value) (w : W) : Outcome (W × Option ε) :=
  orReturn (p.write " \x7b" w) fun w =>
  orReturn (p.write (toString value.immediate.toNat) w) fun w =>
  orReturn (p.write "\x7d" w) fun w => .returned (w, none)

/-- The loop of `write_args`, from a value of `comma` on. -/
def writeArgs (p : SsaPrinter ι W ε) : String → List ValueId → W → Outcome (W × Option ε)
  | _, [], w => .returned (w, none)
  | comma, arg :: args, w =>
    orReturn (p.write comma w) fun w => do
    let result ← ssaWriteValueId p arg w
    orReturn result fun w => writeArgs p ", " args w

def ssaWriteValue (p : SsaPrinter ι W ε) (fuel : ℕ) (body : FunctionBody) (id : ValueId) (w : W) :
    Outcome (W × Option ε) := do
  let value ← index body.values id.toNat
  let result ← ssaWriteIndent p w
  orReturn result fun w => do
  let result ← ssaWriteValueId p id w
  orReturn result fun w =>
  orReturn (p.write ": " w) fun w => do
  let result ← ssaWriteType p.write p.interner fuel value.type w
  orReturn result fun w =>
  orReturn (p.write " = " w) fun w =>
  orReturn (p.write value.operator.enumName w) fun w => do
  -- the errors of these two are not looked at
  let w ← if (printFlags value.operator).immediate then Prod.fst <$> writeImmediate p value w
    else .returned w
  let w ← if (printFlags value.operator).args then Prod.fst <$> writeArgs p " " value.arguments w
    else .returned w
  orReturn (p.write "\n" w) fun w => .returned (w, none)

def ssaWriteBlockId (p : SsaPrinter ι W ε) (id : BlockId) (w : W) : Outcome (W × Option ε) :=
  orReturn (p.write "b" w) fun w =>
  orReturn (p.write (toString id.toNat) w) fun w => .returned (w, none)

/-- The loop of `ssa_write_block`. -/
def ssaWriteValues (p : SsaPrinter ι W ε) (fuel : ℕ) (body : FunctionBody) :
    List ValueId → W → Outcome (W × Option ε)
  | [], w => .returned (w, none)
  | id :: ids, w => do
    let result ← ssaWriteValue p fuel body id w
    orReturn result fun w => ssaWriteValues p fuel body ids w

def ssaWriteBlock (p : SsaPrinter ι W ε) (fuel : ℕ) (body : FunctionBody) (id : BlockId) (w : W) :
    Outcome (W × Option ε) := do
  let block ← index body.blocks id.toNat
  -- the error of the id is not looked at, nor that of the control value
  let w ← Prod.fst <$> ssaWriteBlockId p id w
  match block.kind with
  | .exit =>
    orReturn (p.write " exit " w) fun w => do
    let w ← Prod.fst <$> ssaWriteValueId p block.control w
    orReturn (p.write ":\n" w) fun w => ssaWriteValues p fuel body block.values w

/-- The loop of `ssa_write_body`: a block is looked up again by its id. -/
def ssaWriteBlocks (p : SsaPrinter ι W ε) (fuel : ℕ) (body : FunctionBody) :
    List Block → W → Outcome (W × Option ε)
  | [], w => .returned (w, none)
  | block :: blocks, w => do
    let result ← ssaWriteBlock p fuel body block.id w
    orReturn result fun w => ssaWriteBlocks p fuel body blocks w

def ssaWriteBody (p : SsaPrinter ι W ε) (fuel : ℕ) (body : FunctionBody) (w : W) :
    Outcome (W × Option ε) :=
  match body.blocks with
  | [] => .crashed
  | _ :: blocks => ssaWriteBlocks p fuel body blocks w

/-- The loop of `ssa_write_function_header`, from a value of `comma` on. -/
def ssaWriteParameters (p : SsaPrinter ι W ε) (fuel : ℕ) :
    String → List TypeId → W → Outcome (W × Option ε)
  | _, [], w => .returned (w, none)
  | comma, param :: params, w =>
    orReturn (p.write comma w) fun w => do
    let result ← ssaWriteType p.write p.interner fuel param w
    orReturn result fun w => ssaWriteParameters p fuel ", " params w

def ssaWriteFunctionHeader (p : SsaPrinter ι W ε) (fuel : ℕ) (name : String) (function : Function)
    (w : W) : Outcome (W × Option ε) :=
  orReturn (p.write name w) fun w => do
  let result ← ssaWriteParameters p fuel " " function.parameters w
  orReturn result fun w =>
  orReturn (p.write ":\n" w) fun w => .returned (w, none)

def ssaWriteFunctionBuildBody (p : SsaPrinter ι W ε) (fuel : ℕ) (id : FunctionId) (w : W) :
    Outcome (W × Option ε) := do
  let entry ← index p.functions id.toNat
  let result ← ssaWriteFunctionHeader p fuel entry.1 entry.2 w
  orReturn result fun w => do
  let result ← ssaWriteBody p fuel entry.2.buildBody w
  orReturn result fun w => .returned (w, none)

/-! ### What is shown -/

mutual

/-- What is shown of a type. -/
inductive TypeShape
  | none
  | i32
  | memory
  | struct (members : MemberShapes)

/-- What is shown of the members of a struct. -/
inductive MemberShapes
  | nil
  | cons (offset : ℤ) (type : TypeShape) (rest : MemberShapes)

end

mutual

def TypeShape.doc : TypeShape → Doc
  | .none => .text "none"
  | .i32 => .text "i32"
  | .memory => .text "mem"
  | .struct members => .seq (.text "struct \x7b") (.seq members.doc (.text "\x7d"))

def MemberShapes.doc : MemberShapes → Doc
  | .nil => .empty
  | .cons offset type rest =>
    .seq (.text "[") (.seq (.text (toString offset)) (.seq (.text "] = ") (.seq type.doc rest.doc)))

end

mutual

/-- The fuel that `ssa_write_type` needs. -/
def TypeShape.depth : TypeShape → ℕ
  | .none => 1
  | .i32 => 1
  | .memory => 1
  | .struct members => members.depth + 1

def MemberShapes.depth : MemberShapes → ℕ
  | .nil => 0
  | .cons _ type rest => max type.depth rest.depth

end

mutual

/-- The shape is the one of the type. -/
def TypeShape.Of (s : TypeInterner ι) : TypeShape → TypeId → Prop
  | .none, id => (typeInternerLoad s id).key.kind = .none
  | .i32, id => (typeInternerLoad s id).key.kind = .i32
  | .memory, id => (typeInternerLoad s id).key.kind = .memory
  | .struct members, id => (typeInternerLoad s id).key.kind = .struct ∧
    members.Of s (typeInternerLoad s id).key.members

def MemberShapes.Of (s : TypeInterner ι) : MemberShapes → List TypeMember → Prop
  | .nil, members => members = []
  | .cons offset type rest, members => ∃ member tail, members = member :: tail ∧
    member.offset = offset ∧ type.Of s member.type ∧ rest.Of s tail

end

/-- The operator of a value, with what it uses. -/
inductive PrintedOperation
  | argument (immediate : UInt64)
  | initMemory
  | const32 (immediate : UInt64)
  | return_ (arguments : List ValueId)

structure PrintedValue where
  id : ValueId
  type : TypeShape
  operation : PrintedOperation

structure PrintedBlock where
  id : BlockId
  control : ValueId
  values : List PrintedValue

def Value.printed (value : Value) : PrintedOperation :=
  match value.operator with
  | .argument => .argument value.immediate
  | .initMemory => .initMemory
  | .const32 => .const32 value.immediate
  | .return_ => .return_ value.arguments

/-- What is shown of the value with the id. -/
structure PrintedValue.Of (s : TypeInterner ι) (body : FunctionBody) (printed : PrintedValue)
    (id : ValueId) : Prop where
  id_eq : printed.id = id
  exists_value : ∃ value, body.values[id.toNat]? = some value ∧ printed.type.Of s value.type ∧
    printed.operation = value.printed

/-- What is shown of the block with the id. -/
structure PrintedBlock.Of (s : TypeInterner ι) (body : FunctionBody) (printed : PrintedBlock)
    (id : BlockId) : Prop where
  id_eq : printed.id = id
  exists_block : ∃ block, body.blocks[id.toNat]? = some block ∧ printed.control = block.control ∧
    List.Forall₂ (PrintedValue.Of s body) printed.values block.values

/-- What is shown of a body: its blocks but the sentinel. -/
structure PrintedBody (s : TypeInterner ι) (body : FunctionBody) (printed : List PrintedBlock) :
    Prop where
  sentinel : body.blocks ≠ []
  blocks : List.Forall₂ (PrintedBlock.Of s body) printed (body.blocks.tail.map Block.id)

/-! ### The documents -/

def valueIdDoc (id : ValueId) : Doc := .all [.text "%v", .text (toString id.toNat)]

def blockIdDoc (id : BlockId) : Doc := .all [.text "b", .text (toString id.toNat)]

def immediateDoc (immediate : UInt64) : Doc :=
  .all [.text " \x7b", .text (toString immediate.toNat), .text "\x7d"]

/-- Documents with a comma between two of them. -/
def commaDoc : String → List Doc → Doc
  | _, [] => .empty
  | comma, doc :: docs => .seq (.text comma) (.seq doc (commaDoc ", " docs))

/-- The operation up to the end of the line. -/
def PrintedOperation.doc : PrintedOperation → Doc
  | .argument immediate =>
    .all [.text "Argument", .dropped (immediateDoc immediate), .text "\n"]
  | .initMemory => .all [.text "Init_Memory", .text "\n"]
  | .const32 immediate => .all [.text "Const32", .dropped (immediateDoc immediate), .text "\n"]
  | .return_ arguments =>
    .all [.text "Return", .dropped (commaDoc " " (arguments.map valueIdDoc)), .text "\n"]

def PrintedValue.doc (indent : String) (value : PrintedValue) : Doc :=
  .seq (.text indent) (.seq (valueIdDoc value.id) (.seq (.text ": ") (.seq value.type.doc
    (.seq (.text " = ") value.operation.doc))))

def PrintedBlock.doc (indent : String) (block : PrintedBlock) : Doc :=
  .seq (.dropped (blockIdDoc block.id)) (.seq (.text " exit ")
    (.seq (.dropped (valueIdDoc block.control)) (.seq (.text ":\n")
      (.all (block.values.map (PrintedValue.doc indent))))))

def bodyDoc (indent : String) (blocks : List PrintedBlock) : Doc :=
  .all (blocks.map (PrintedBlock.doc indent))

def headerDoc (name : String) (parameters : List TypeShape) : Doc :=
  .seq (.text name) (.seq (commaDoc " " (parameters.map TypeShape.doc)) (.all [.text ":\n"]))

/-! ### Writing the documents -/

/-- The procedure writes the document. -/
def Emits (write : String → W → W × Option ε) (run : W → Outcome (W × Option ε)) (doc : Doc) :
    Prop :=
  ∀ w, run w = .returned (doc.emit write w)

section Emits

variable {write : String → W → W × Option ε} {run next : W → Outcome (W × Option ε)}
  {doc rest : Doc}

theorem orReturn_eq (result : W × Option ε) (hnext : Emits write next rest) :
    orReturn result next = .returned (andThen result (rest.emit write)) := by
  obtain ⟨w, _ | err⟩ := result
  · exact hnext w
  · rfl

theorem Emits.done : Emits write (fun w => .returned (w, none)) .empty := fun _ => rfl

theorem Emits.text (s : String) : Emits write (fun w => .returned (write s w)) (.text s) :=
  fun _ => rfl

theorem Emits.orReturn (s : String) (hnext : Emits write next rest) :
    Emits write (fun w => Wopt.orReturn (write s w) next) (.seq (.text s) rest) :=
  fun w => orReturn_eq (write s w) hnext

theorem Emits.bind (h : Emits write run doc) (hnext : Emits write next rest) :
    Emits write (fun w => run w >>= fun result => Wopt.orReturn result next) (.seq doc rest) := by
  intro w
  simp only [h w, Outcome.returned_bind]
  exact orReturn_eq _ hnext

/-- The error of the first procedure is dropped. -/
theorem Emits.dropped (h : Emits write run doc) (hnext : Emits write next rest) :
    Emits write (fun w => (Prod.fst <$> run w) >>= next) (.seq (.dropped doc) rest) := by
  intro w
  simp only [h w, Outcome.map_returned, Outcome.returned_bind]
  exact hnext _

end Emits

section Procedures

variable {p : SsaPrinter ι W ε} {s : TypeInterner ι} {fuel : ℕ}

theorem ssaWriteValueId_emits (p : SsaPrinter ι W ε) (id : ValueId) :
    Emits p.write (ssaWriteValueId p id) (valueIdDoc id) :=
  .orReturn _ (.orReturn _ .done)

theorem ssaWriteBlockId_emits (p : SsaPrinter ι W ε) (id : BlockId) :
    Emits p.write (ssaWriteBlockId p id) (blockIdDoc id) :=
  .orReturn _ (.orReturn _ .done)

theorem writeImmediate_emits (p : SsaPrinter ι W ε) (value : Value) :
    Emits p.write (writeImmediate p value) (immediateDoc value.immediate) :=
  .orReturn _ (.orReturn _ (.orReturn _ .done))

theorem writeArgs_emits (p : SsaPrinter ι W ε) (comma : String) (args : List ValueId) :
    Emits p.write (writeArgs p comma args) (commaDoc comma (args.map valueIdDoc)) := by
  induction args generalizing comma with
  | nil => exact .done
  | cons arg args ih => exact .orReturn comma ((ssaWriteValueId_emits p arg).bind (ih ", "))

/-- An induction over a type and the members in it. -/
theorem TypeShape.induct {P : TypeShape → Prop} {Q : MemberShapes → Prop} (none : P .none)
    (i32 : P .i32) (memory : P .memory) (struct : ∀ members, Q members → P (.struct members))
    (nil : Q .nil)
    (cons : ∀ offset type rest, P type → Q rest → Q (.cons offset type rest))
    (shape : TypeShape) : P shape :=
  @TypeShape.rec P Q none i32 memory struct nil cons shape

/-- The fuel is enough for a type whose shape is not deeper. -/
theorem ssaWriteType_emits {write : String → W → W × Option ε} {shape : TypeShape} {id : TypeId}
    (h : shape.Of s id) (hfuel : shape.depth ≤ fuel) :
    Emits write (ssaWriteType write s fuel id) shape.doc := by
  have hall := shape.induct (P := fun shape => ∀ fuel id, shape.Of s id → shape.depth ≤ fuel →
      Emits write (ssaWriteType write s fuel id) shape.doc)
    (Q := fun shapes => ∀ fuel members, shapes.Of s members → shapes.depth ≤ fuel →
      Emits write (ssaWriteMembers write (ssaWriteType write s fuel) members) shapes.doc)
  have hscalar : ∀ {fuel id name}, 1 ≤ fuel →
      (∀ n w, ssaWriteType write s (n + 1) id w = .returned (write name w)) →
      Emits write (ssaWriteType write s fuel id) (.text name) := by
    intro fuel id name hfuel hwrite w
    obtain ⟨n, rfl⟩ := Nat.exists_eq_add_of_le' hfuel
    exact hwrite n w
  refine hall ?_ ?_ ?_ ?_ ?_ ?_ fuel id h hfuel
  · intro fuel id hof hfuel
    have hkind : (typeInternerLoad s id).key.kind = .none := hof
    exact hscalar hfuel fun n w => by simp only [ssaWriteType, hkind]
  · intro fuel id hof hfuel
    have hkind : (typeInternerLoad s id).key.kind = .i32 := hof
    exact hscalar hfuel fun n w => by simp only [ssaWriteType, hkind]
  · intro fuel id hof hfuel
    have hkind : (typeInternerLoad s id).key.kind = .memory := hof
    exact hscalar hfuel fun n w => by simp only [ssaWriteType, hkind]
  · intro members hmembers fuel id hof hfuel
    obtain ⟨hkind, hof⟩ := hof
    obtain ⟨n, rfl⟩ := Nat.exists_eq_add_of_le' ((Nat.le_add_left 1 members.depth).trans hfuel)
    have hemits : Emits write (fun w => orReturn (write "struct \x7b" w) fun w =>
        ssaWriteMembers write (ssaWriteType write s n) (typeInternerLoad s id).key.members w >>=
          fun result => orReturn result fun w => .returned (write "\x7d" w))
        (TypeShape.struct members).doc :=
      .orReturn _ ((hmembers n _ hof (Nat.le_of_succ_le_succ hfuel)).bind (.text _))
    intro w
    rw [← hemits w, ssaWriteType]
    simp only [hkind]
  · intro fuel members hof hfuel
    obtain rfl : members = [] := hof
    exact .done
  · intro offset type rest htype hrest fuel members hof hfuel
    obtain ⟨member, tail, rfl, rfl, hof, hofrest⟩ := hof
    rw [MemberShapes.depth, Nat.max_le] at hfuel
    exact .orReturn _ (.orReturn _ (.orReturn _
      ((htype fuel _ hof hfuel.1).bind (hrest fuel tail hofrest hfuel.2))))

theorem ssaWriteParameters_emits {params : List TypeId} {shapes : List TypeShape}
    (h : List.Forall₂ (TypeShape.Of p.interner) shapes params)
    (hfuel : ∀ shape ∈ shapes, shape.depth ≤ fuel) (comma : String) :
    Emits p.write (ssaWriteParameters p fuel comma params)
      (commaDoc comma (shapes.map TypeShape.doc)) := by
  induction h generalizing comma with
  | nil => exact .done
  | cons hof _ ih =>
    obtain ⟨hshape, hshapes⟩ := List.forall_mem_cons.mp hfuel
    exact .orReturn comma ((ssaWriteType_emits hof hshape).bind (ih hshapes ", "))

theorem ssaWriteFunctionHeader_emits {name : String} {function : Function}
    {shapes : List TypeShape}
    (h : List.Forall₂ (TypeShape.Of p.interner) shapes function.parameters)
    (hfuel : ∀ shape ∈ shapes, shape.depth ≤ fuel) :
    Emits p.write (ssaWriteFunctionHeader p fuel name function) (headerDoc name shapes) :=
  .orReturn name ((ssaWriteParameters_emits h hfuel " ").bind (.orReturn _ .done))

/-- The end of the line of a value, behind its operator. -/
theorem operation_emits (p : SsaPrinter ι W ε) (value : Value) :
    Emits p.write (fun w => orReturn (p.write value.operator.enumName w) fun w => do
      let w ← if (printFlags value.operator).immediate then Prod.fst <$> writeImmediate p value w
        else .returned w
      let w ← if (printFlags value.operator).args then
        Prod.fst <$> writeArgs p " " value.arguments w else .returned w
      orReturn (p.write "\n" w) fun w => .returned (w, none)) value.printed.doc := by
  have hline : Emits p.write (fun w => orReturn (p.write "\n" w) fun w => .returned (w, none))
      (.all [.text "\n"]) := .orReturn _ .done
  have himmediate := (writeImmediate_emits p value).dropped hline
  have hargs := (writeArgs_emits p " " value.arguments).dropped hline
  cases hoperator : value.operator <;> intro w <;>
    simp only [Value.printed, hoperator, printFlags, Operator.enumName, if_true, if_false,
      Bool.false_eq_true, Outcome.returned_bind, PrintedOperation.doc]
  · exact Emits.orReturn "Argument" himmediate w
  · exact Emits.orReturn "Init_Memory" hline w
  · exact Emits.orReturn "Const32" himmediate w
  · exact Emits.orReturn "Return" hargs w

theorem ssaWriteValue_emits {body : FunctionBody} {printed : PrintedValue} {id : ValueId}
    (h : printed.Of p.interner body id) (hfuel : printed.type.depth ≤ fuel) :
    Emits p.write (ssaWriteValue p fuel body id) (printed.doc p.indent) := by
  obtain ⟨rfl, value, hvalue, hof, hoperation⟩ := h
  have hemits := Emits.orReturn p.indent ((ssaWriteValueId_emits p printed.id).bind
    (.orReturn ": " ((ssaWriteType_emits hof hfuel).bind
      (.orReturn " = " (operation_emits p value)))))
  intro w
  simp only [ssaWriteValue, index, hvalue, ssaWriteIndent, Outcome.returned_bind]
  rw [PrintedValue.doc, hoperation]
  exact hemits w

theorem ssaWriteValues_emits {body : FunctionBody} {ids : List ValueId}
    {values : List PrintedValue} (h : List.Forall₂ (PrintedValue.Of p.interner body) values ids)
    (hfuel : ∀ value ∈ values, value.type.depth ≤ fuel) :
    Emits p.write (ssaWriteValues p fuel body ids)
      (.all (values.map (PrintedValue.doc p.indent))) := by
  induction h with
  | nil => exact .done
  | cons hof _ ih =>
    obtain ⟨hvalue, hvalues⟩ := List.forall_mem_cons.mp hfuel
    exact (ssaWriteValue_emits hof hvalue).bind (ih hvalues)

theorem ssaWriteBlock_emits {body : FunctionBody} {printed : PrintedBlock} {id : BlockId}
    (h : printed.Of p.interner body id)
    (hfuel : ∀ value ∈ printed.values, value.type.depth ≤ fuel) :
    Emits p.write (ssaWriteBlock p fuel body id) (printed.doc p.indent) := by
  obtain ⟨rfl, block, hblock, hcontrol, hvalues⟩ := h
  have hemits := (ssaWriteBlockId_emits p printed.id).dropped
    (.orReturn " exit " ((ssaWriteValueId_emits p block.control).dropped
      (.orReturn ":\n" (ssaWriteValues_emits hvalues hfuel))))
  intro w
  simp only [ssaWriteBlock, index, hblock, Outcome.returned_bind]
  rw [PrintedBlock.doc, hcontrol]
  exact hemits w

theorem ssaWriteBlocks_emits {body : FunctionBody} {blocks : List Block}
    {printed : List PrintedBlock}
    (h : List.Forall₂ (PrintedBlock.Of p.interner body) printed (blocks.map Block.id))
    (hfuel : ∀ block ∈ printed, ∀ value ∈ block.values, value.type.depth ≤ fuel) :
    Emits p.write (ssaWriteBlocks p fuel body blocks) (bodyDoc p.indent printed) := by
  induction blocks generalizing printed with
  | nil =>
    obtain rfl := List.forall₂_nil_right_iff.mp h
    exact .done
  | cons block blocks ih =>
    obtain ⟨first, rest, hfirst, hrest, rfl⟩ := List.forall₂_cons_right_iff.mp h
    obtain ⟨hblock, hblocks⟩ := List.forall_mem_cons.mp hfuel
    exact (ssaWriteBlock_emits hfirst hblock).bind (ih hrest hblocks)

theorem ssaWriteBody_emits {body : FunctionBody} {printed : List PrintedBlock}
    (h : PrintedBody p.interner body printed)
    (hfuel : ∀ block ∈ printed, ∀ value ∈ block.values, value.type.depth ≤ fuel) :
    Emits p.write (ssaWriteBody p fuel body) (bodyDoc p.indent printed) := by
  obtain ⟨sentinel, blocks, hblocks⟩ := List.exists_cons_of_ne_nil h.sentinel
  have hemits := ssaWriteBlocks_emits (p := p) (hblocks ▸ h.blocks) hfuel
  intro w
  simp only [ssaWriteBody, hblocks]
  exact hemits w

theorem ssaWriteFunctionBuildBody_emits {id : FunctionId} {name : String} {function : Function}
    {shapes : List TypeShape} {printed : List PrintedBlock}
    (hfunction : p.functions[id.toNat]? = some (name, function))
    (hparams : List.Forall₂ (TypeShape.Of p.interner) shapes function.parameters)
    (hbody : PrintedBody p.interner function.buildBody printed)
    (hshapes : ∀ shape ∈ shapes, shape.depth ≤ fuel)
    (hfuel : ∀ block ∈ printed, ∀ value ∈ block.values, value.type.depth ≤ fuel) :
    Emits p.write (ssaWriteFunctionBuildBody p fuel id)
      (.all [headerDoc name shapes, bodyDoc p.indent printed]) := by
  have hheader : Emits p.write (ssaWriteFunctionHeader p fuel name function)
      (headerDoc name shapes) := ssaWriteFunctionHeader_emits hparams hshapes
  have hemits := hheader.bind ((ssaWriteBody_emits hbody hfuel).bind .done)
  intro w
  simp only [ssaWriteFunctionBuildBody, index, hfunction, Outcome.returned_bind]
  exact hemits w

end Procedures

end Wasim.Wopt
