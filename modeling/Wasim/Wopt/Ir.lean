import Mathlib.Algebra.Ring.Nat
import Mathlib.Data.Int.Notation
import Wasim.Library.Outcome

/-!
# The intermediate representation

The values, blocks and functions of `wopt_ir.odin` and `wopt.odin`, and the verifier of
`wopt_ir_verifier.odin`. The ids of values, blocks and functions are 32-bit numbers, and slot 0 of
their tables is a sentinel; the id of a type has 64 bits. A length is cut off to 32 bits where it
becomes an id, as in the source; the verifier asserts that nothing is lost by it.

A message of the verifier is its format with the arguments, in place of the text made of them.
-/

namespace Wasim.Wopt

abbrev TypeId := UInt64
abbrev ValueId := UInt32
abbrev BlockId := UInt32
abbrev FunctionId := UInt32

inductive Operator
  | argument
  | initMemory
  | const32
  | return_
  deriving DecidableEq, Repr

structure Value where
  id : ValueId := 0
  operator : Operator := .argument
  type : TypeId := 0
  arguments : List ValueId := []
  immediate : UInt64 := 0
  deriving DecidableEq, Repr

inductive BlockKind
  | exit
  deriving DecidableEq, Repr

structure Block where
  id : BlockId := 0
  kind : BlockKind := .exit
  control : ValueId := 0
  values : List ValueId := []
  deriving DecidableEq, Repr

structure FunctionBody where
  blocks : List Block := []
  values : List Value := []
  start : BlockId := 0
  deriving DecidableEq, Repr

structure FunctionFlags where
  alwaysInline : Bool := false
  neverInline : Bool := false
  inProgress : Bool := false
  buildDone : Bool := false
  deriving DecidableEq, Repr

structure Function where
  flags : FunctionFlags := {}
  parameters : List TypeId := []
  result : TypeId := 0
  buildBody : FunctionBody := {}
  deriving DecidableEq, Repr

/-! ### The verifier -/

inductive SsaArg
  | blockId (id : BlockId)
  | valueId (id : ValueId)
  | type (id : TypeId)
  | index (index : ℤ)
  deriving DecidableEq, Repr

structure SsaError where
  format : String
  args : List SsaArg := []
  deriving DecidableEq, Repr

/-- An id of a table with so many entries, sentinel included. The length is asserted to fit. -/
def isIdValid (length : ℕ) (id : UInt32) : Outcome Bool :=
  if length ≤ 2 ^ 32 - 1 then .returned (id < UInt32.ofNat length) else .crashed

def isValueIdValid (body : FunctionBody) (id : ValueId) : Outcome Bool :=
  isIdValid body.values.length id

def isBlockIdValid (body : FunctionBody) (id : BlockId) : Outcome Bool :=
  isIdValid body.blocks.length id

/-- An access with a bounds check. -/
def index {α : Type} (values : List α) (i : ℕ) : Outcome α :=
  match values[i]? with
  | some value => .returned value
  | none => .crashed

def ssaVerifyStart (body : FunctionBody) : Outcome (List SsaError) := do
  if !(← isBlockIdValid body body.start) then
    return [⟨"invalid start block %v", [.blockId body.start]⟩]
  else if body.start = 0 then return [⟨"missing start block", []⟩]
  else return []

/-- The control value of an exit block is a memory. -/
def ssaVerifyControl (memory : TypeId) (body : FunctionBody) (block : Block) :
    Outcome (List SsaError) := do
  if !(← isValueIdValid body block.control) then
    return [⟨"invalid exit block control value %v", [.valueId block.control]⟩]
  else
    let value ← index body.values block.control.toNat
    if value.type ≠ memory then
      return [⟨"invalid control value type %v for exit block, %v required instead",
        [.type value.type, .type memory]⟩]
    else return []

def ssaVerifyArgument (function : Function) (id : ValueId) (value : Value) :
    Outcome (List SsaError) := do
  let paramIndex := value.immediate.toInt64.toInt
  if function.parameters.length ≤ paramIndex then
    return [⟨"parameter index(%v) in argumet value %v is wrong",
      [.index paramIndex, .valueId id]⟩]
  else if paramIndex < 0 then .crashed
  else
    let parameterType ← index function.parameters paramIndex.toNat
    if parameterType ≠ value.type then
      return [⟨"type in argument value %v is not the same as the parameter: %v != %v",
        [.valueId id, .type value.type, .type parameterType]⟩]
    else return []

def ssaVerifyReturn (function : Function) (id : ValueId) (value : Value) :
    Outcome (List SsaError) := do
  let argument ← index value.arguments 0
  if !(← isValueIdValid function.buildBody argument) then
    return [⟨"first argument value(%v) in return %v value is invalid",
      [.valueId argument, .valueId id]⟩]
  else
    let returned ← index function.buildBody.values argument.toNat
    if returned.type ≠ function.result then
      return [⟨"first argument value (%v) in return %v value is wrong type: %v != %v",
        [.valueId argument, .valueId id, .type returned.type, .type function.result]⟩]
    else return []

def ssaVerifyValue (function : Function) (block : Block) (id : ValueId) :
    Outcome (List SsaError) := do
  if !(← isValueIdValid function.buildBody id) then
    return [⟨"invalid value(%v) in block %v", [.valueId id, .blockId block.id]⟩]
  else
    let value ← index function.buildBody.values id.toNat
    match value.operator with
    | .argument => ssaVerifyArgument function id value
    | .initMemory => return []
    | .const32 => return []
    | .return_ => ssaVerifyReturn function id value

/-- The errors of all elements, in order. -/
def collect {α : Type} (verify : α → Outcome (List SsaError)) :
    List α → Outcome (List SsaError)
  | [] => .returned []
  | a :: as => do
    let errors ← verify a
    let rest ← collect verify as
    return errors ++ rest

def ssaVerifyBlock (memory : TypeId) (function : Function) (block : Block) :
    Outcome (List SsaError) :=
  match block.kind with
  | .exit => do
    let control ← ssaVerifyControl memory function.buildBody block
    let values ← collect (ssaVerifyValue function block) block.values
    return control ++ values

/-- The errors of a function, in the order of their reports. `memory` is the id of the memory
type. -/
def ssaVerifyFunction (memory : TypeId) (function : Function) : Outcome (List SsaError) := do
  let start ← ssaVerifyStart function.buildBody
  let blocks ← collect (ssaVerifyBlock memory function) function.buildBody.blocks.tail
  return start ++ blocks

/-! ### When the verifier gets through -/

theorem isIdValid_eq_returned {length : ℕ} {id : UInt32} {valid : Bool} :
    isIdValid length id = .returned valid ↔
      length ≤ 2 ^ 32 - 1 ∧ decide (id.toNat < length) = valid := by
  rw [isIdValid]
  split
  · rename_i hle
    have hlength : (UInt32.ofNat length).toNat = length :=
      UInt32.toNat_ofNat_of_lt' (by rw [UInt32.size]; omega)
    have hlt : decide (id < UInt32.ofNat length) = decide (id.toNat < length) := by
      simp only [UInt32.lt_iff_toNat_lt, hlength]
    rw [hlt, and_iff_right hle, Outcome.returned.injEq]
  · rename_i hle
    exact iff_of_false nofun fun h => hle h.1

theorem index_of_lt {α : Type} {values : List α} {i : ℕ} (h : i < values.length) :
    index values i = .returned values[i] := by
  rw [index, List.getElem?_eq_getElem h]

/-- A list gives no errors exactly when none of its elements does. -/
theorem collect_returned {α : Type} {verify : α → Outcome (List SsaError)} {ok : α → Prop}
    {as : List α}
    (h : ∀ a ∈ as, ∃ errors, verify a = .returned errors ∧ (errors = [] ↔ ok a)) :
    ∃ errors, collect verify as = .returned errors ∧ (errors = [] ↔ ∀ a ∈ as, ok a) := by
  induction as with
  | nil => exact ⟨[], rfl, by simp⟩
  | cons a as ih =>
    obtain ⟨errors, herrors, hok⟩ := h a List.mem_cons_self
    obtain ⟨rest, hrest, hoks⟩ := ih fun b hb => h b (List.mem_cons_of_mem a hb)
    refine ⟨errors ++ rest, by rw [collect, herrors, hrest]; rfl, ?_⟩
    rw [List.append_eq_nil_iff, List.forall_mem_cons, hok, hoks]

/-- The verifier gets through only if the ids of the function fit. -/
theorem length_of_ssaVerifyFunction {memory : TypeId} {function : Function}
    {errors : List SsaError} (h : ssaVerifyFunction memory function = .returned errors) :
    function.buildBody.blocks.length ≤ 2 ^ 32 - 1 ∧
      (function.buildBody.blocks.tail ≠ [] → function.buildBody.values.length ≤ 2 ^ 32 - 1) := by
  obtain ⟨start, hstart, hrest⟩ := Outcome.bind_eq_returned.mp h
  obtain ⟨valid, hvalid, -⟩ := Outcome.bind_eq_returned.mp hstart
  refine ⟨(isIdValid_eq_returned.mp hvalid).1, fun hne => ?_⟩
  obtain ⟨blocks, hblocks, -⟩ := Outcome.bind_eq_returned.mp hrest
  obtain ⟨block, tail, htail⟩ := List.exists_cons_of_ne_nil hne
  rw [htail, collect] at hblocks
  obtain ⟨first, hfirst, -⟩ := Outcome.bind_eq_returned.mp hblocks
  rw [ssaVerifyBlock] at hfirst
  obtain ⟨control, hcontrol, -⟩ := Outcome.bind_eq_returned.mp hfirst
  obtain ⟨valid, hvalid, -⟩ := Outcome.bind_eq_returned.mp hcontrol
  exact (isIdValid_eq_returned.mp hvalid).1

/-- A value as the constructors make them: a return has an operand, and the index of a parameter
is not negative. -/
structure Value.Constructed (value : Value) : Prop where
  operand : value.operator = .return_ → value.arguments ≠ []
  index : value.immediate.toNat < 2 ^ 32

/-- What the verifier wants of a value in a block. -/
structure Function.ValueOk (function : Function) (value : Value) : Prop where
  argument : value.operator = .argument →
    function.parameters[value.immediate.toNat]? = some value.type
  returned : value.operator = .return_ → ∃ operand result,
    value.arguments.head? = some operand ∧
      function.buildBody.values[operand.toNat]? = some result ∧ result.type = function.result

/-- What the verifier wants of the control value of a block. -/
def FunctionBody.ControlOk (memory : TypeId) (body : FunctionBody) (block : Block) : Prop :=
  ∃ value, body.values[block.control.toNat]? = some value ∧ value.type = memory

/-- What the verifier wants of a function whose blocks list values of the function only. -/
structure Function.Verifies (memory : TypeId) (function : Function) : Prop where
  start : function.buildBody.start ≠ 0 ∧
    function.buildBody.start.toNat < function.buildBody.blocks.length
  control : ∀ block ∈ function.buildBody.blocks.tail,
    function.buildBody.ControlOk memory block
  values : ∀ block ∈ function.buildBody.blocks.tail, ∀ id ∈ block.values, ∀ value,
    function.buildBody.values[id.toNat]? = some value → function.ValueOk value

theorem ssaVerifyStart_returned {body : FunctionBody}
    (hblocks : body.blocks.length ≤ 2 ^ 32 - 1) :
    ∃ errors, ssaVerifyStart body = .returned errors ∧
      (errors = [] ↔ body.start ≠ 0 ∧ body.start.toNat < body.blocks.length) := by
  rw [ssaVerifyStart, isBlockIdValid, isIdValid_eq_returned.mpr ⟨hblocks, rfl⟩,
    Outcome.returned_bind]
  by_cases hlt : body.start.toNat < body.blocks.length
  · simp only [hlt, decide_true, Bool.not_true, Bool.false_eq_true, if_false]
    by_cases hzero : body.start = 0
    · rw [if_pos hzero]
      exact ⟨_, rfl, by simp [hzero]⟩
    · rw [if_neg hzero]
      exact ⟨_, rfl, by simp [hzero]⟩
  · simp only [hlt, decide_false, Bool.not_false, if_true]
    exact ⟨_, rfl, by simp⟩

theorem ssaVerifyControl_returned (memory : TypeId) {body : FunctionBody} (block : Block)
    (hvalues : body.values.length ≤ 2 ^ 32 - 1) :
    ∃ errors, ssaVerifyControl memory body block = .returned errors ∧
      (errors = [] ↔ body.ControlOk memory block) := by
  rw [ssaVerifyControl, isValueIdValid, isIdValid_eq_returned.mpr ⟨hvalues, rfl⟩,
    Outcome.returned_bind, FunctionBody.ControlOk]
  by_cases hlt : block.control.toNat < body.values.length
  · simp only [hlt, decide_true, Bool.not_true, Bool.false_eq_true, if_false, index_of_lt,
      Outcome.returned_bind, List.getElem?_eq_getElem, Option.some.injEq, exists_eq_left']
    split
    · rename_i hne
      exact ⟨_, rfl, by simp [hne]⟩
    · rename_i heq
      exact ⟨_, rfl, by simp [not_not.mp heq]⟩
  · simp only [hlt, decide_false, Bool.not_false, if_true]
    exact ⟨_, rfl, by simp [List.getElem?_eq_none (Nat.le_of_not_lt hlt)]⟩

theorem ssaVerifyArgument_returned (function : Function) (id : ValueId) {value : Value}
    (h : value.Constructed) : ∃ errors, ssaVerifyArgument function id value = .returned errors ∧
      (errors = [] ↔ function.parameters[value.immediate.toNat]? = some value.type) := by
  have hindex : value.immediate.toInt64.toInt = value.immediate.toNat := by
    have hlt : 2 * value.immediate.toBitVec.toNat < 2 ^ 64 := by
      have := h.index
      rw [UInt64.toNat_toBitVec]
      omega
    exact BitVec.toInt_eq_toNat_of_lt hlt
  rw [ssaVerifyArgument, hindex]
  by_cases hle : (function.parameters.length : ℤ) ≤ value.immediate.toNat
  · rw [if_pos hle]
    exact ⟨_, rfl, by simp [List.getElem?_eq_none (Int.ofNat_le.mp hle)]⟩
  · have hlt : value.immediate.toNat < function.parameters.length := by omega
    rw [if_neg hle, if_neg (by omega), Int.toNat_natCast, index_of_lt hlt,
      Outcome.returned_bind, List.getElem?_eq_getElem hlt, Option.some.injEq]
    split
    · rename_i hne
      exact ⟨_, rfl, by simp [hne]⟩
    · rename_i heq
      exact ⟨_, rfl, by simp [not_not.mp heq]⟩

theorem ssaVerifyReturn_returned {function : Function} (id : ValueId) {value : Value}
    (hvalues : function.buildBody.values.length ≤ 2 ^ 32 - 1) (h : value.arguments ≠ []) :
    ∃ errors, ssaVerifyReturn function id value = .returned errors ∧
      (errors = [] ↔ ∃ operand result, value.arguments.head? = some operand ∧
        function.buildBody.values[operand.toNat]? = some result ∧
          result.type = function.result) := by
  obtain ⟨operand, arguments, hcons⟩ := List.exists_cons_of_ne_nil h
  have hfirst : index value.arguments 0 = .returned operand := by
    rw [hcons]
    rfl
  rw [ssaVerifyReturn, hfirst, Outcome.returned_bind, isValueIdValid,
    isIdValid_eq_returned.mpr ⟨hvalues, rfl⟩, Outcome.returned_bind, hcons, List.head?_cons]
  by_cases hlt : operand.toNat < function.buildBody.values.length
  · simp only [hlt, decide_true, Bool.not_true, Bool.false_eq_true, if_false, index_of_lt,
      Outcome.returned_bind]
    split
    · rename_i hne
      exact ⟨_, rfl, by simp [hlt, hne]⟩
    · rename_i heq
      exact ⟨_, rfl, by simp [hlt, not_not.mp heq]⟩
  · simp only [hlt, decide_false, Bool.not_false, if_true]
    exact ⟨_, rfl, by simp [List.getElem?_eq_none (Nat.le_of_not_lt hlt)]⟩

theorem ssaVerifyValue_returned {function : Function} (block : Block) (id : ValueId)
    (hvalues : function.buildBody.values.length ≤ 2 ^ 32 - 1)
    (h : ∀ value ∈ function.buildBody.values, value.Constructed) :
    ∃ errors, ssaVerifyValue function block id = .returned errors ∧
      (errors = [] ↔ ∃ value, function.buildBody.values[id.toNat]? = some value ∧
        function.ValueOk value) := by
  rw [ssaVerifyValue, isValueIdValid, isIdValid_eq_returned.mpr ⟨hvalues, rfl⟩,
    Outcome.returned_bind]
  by_cases hlt : id.toNat < function.buildBody.values.length
  · have hvalue := h _ (List.getElem_mem hlt)
    simp only [hlt, decide_true, Bool.not_true, Bool.false_eq_true, if_false, index_of_lt,
      Outcome.returned_bind, List.getElem?_eq_getElem, Option.some.injEq, exists_eq_left']
    rcases hoperator : function.buildBody.values[id.toNat].operator
    · obtain ⟨errors, herrors, hok⟩ := ssaVerifyArgument_returned function id hvalue
      refine ⟨errors, herrors, hok.trans ⟨fun harg => ⟨fun _ => harg, fun hret => ?_⟩,
        fun hok => hok.argument hoperator⟩⟩
      rw [hoperator] at hret
      cases hret
    · exact ⟨[], rfl, by simpa using ⟨by simp [hoperator], by simp [hoperator]⟩⟩
    · exact ⟨[], rfl, by simpa using ⟨by simp [hoperator], by simp [hoperator]⟩⟩
    · obtain ⟨errors, herrors, hok⟩ :=
        @ssaVerifyReturn_returned function id _ hvalues (hvalue.operand hoperator)
      refine ⟨errors, herrors, hok.trans ⟨fun hret => ⟨fun harg => ?_, fun _ => hret⟩,
        fun hok => hok.returned hoperator⟩⟩
      rw [hoperator] at harg
      cases harg
  · simp only [hlt, decide_false, Bool.not_false, if_true]
    exact ⟨_, rfl, by simp [List.getElem?_eq_none (Nat.le_of_not_lt hlt)]⟩

/-- On a function made of constructed values whose ids fit, the verifier gets through, and it
finds no error exactly when the function verifies and lists values of its own only. -/
theorem ssaVerifyFunction_returned (memory : TypeId) {function : Function}
    (hblocks : function.buildBody.blocks.length ≤ 2 ^ 32 - 1)
    (hvalues : function.buildBody.values.length ≤ 2 ^ 32 - 1)
    (h : ∀ value ∈ function.buildBody.values, value.Constructed) :
    ∃ errors, ssaVerifyFunction memory function = .returned errors ∧
      (errors = [] ↔ function.Verifies memory ∧
        ∀ block ∈ function.buildBody.blocks.tail, ∀ id ∈ block.values,
          id.toNat < function.buildBody.values.length) := by
  have hblock : ∀ block ∈ function.buildBody.blocks.tail,
      ∃ errors, ssaVerifyBlock memory function block = .returned errors ∧
        (errors = [] ↔ function.buildBody.ControlOk memory block ∧ ∀ id ∈ block.values,
          ∃ value, function.buildBody.values[id.toNat]? = some value ∧
            function.ValueOk value) := by
    intro block _
    obtain ⟨control, hcontrol, hcontrolok⟩ := ssaVerifyControl_returned memory block hvalues
    obtain ⟨values, hvalue, hvalueok⟩ := collect_returned fun id (_ : id ∈ block.values) =>
      ssaVerifyValue_returned block id hvalues h
    refine ⟨control ++ values, by rw [ssaVerifyBlock, hcontrol, hvalue]; rfl, ?_⟩
    rw [List.append_eq_nil_iff, hcontrolok, hvalueok]
  obtain ⟨start, hstart, hstartok⟩ := ssaVerifyStart_returned hblocks
  obtain ⟨blocks, hcollect, hblocksok⟩ := collect_returned hblock
  refine ⟨start ++ blocks, by rw [ssaVerifyFunction, hstart, hcollect]; rfl, ?_⟩
  rw [List.append_eq_nil_iff, hstartok, hblocksok]
  constructor
  · rintro ⟨hstart, hall⟩
    refine ⟨⟨hstart, fun block hb => (hall block hb).1, fun block hb id hid value hvalue => ?_⟩,
      fun block hb id hid => ?_⟩
    · obtain ⟨value', hvalue', hok⟩ := (hall block hb).2 id hid
      rw [hvalue] at hvalue'
      obtain rfl := Option.some.inj hvalue'
      exact hok
    · obtain ⟨value, hvalue, -⟩ := (hall block hb).2 id hid
      exact (List.getElem?_eq_some_iff.mp hvalue).1
  · rintro ⟨hverifies, hlisted⟩
    refine ⟨hverifies.start, fun block hb => ⟨hverifies.control block hb, fun id hid => ?_⟩⟩
    have hvalue := List.getElem?_eq_getElem (hlisted block hb id hid)
    exact ⟨_, hvalue, hverifies.values block hb id hid _ hvalue⟩

end Wasim.Wopt
