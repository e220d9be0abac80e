import Wasim.Wopt.Ir

/-!
# The builder

The calls of `wopt_build.odin` on one thread's build context. The growing arrays of the context
are lists, and they mean something between the begin and the end of a function, or of a block,
only: `build_function_end` clears the arena they live in. `buildStep` takes it that they grow
without end; `buildStepXar` is the same step in arrays of the room they have. The pointers
`current_function` and `current_block` are indices into the functions of the module and into the
blocks.

An assertion that fails, a bounds check and a null pointer crash. What the type interner answers
for the types of the constructors is given by `BuildTypes`; the empty type is never interned and
has id 0.
-/

namespace Wasim.Wopt

/-- The callback for errors in the representation: none, one that returns, or the default one,
which panics. -/
inductive SsaVerifyErrorCallback
  | none
  | returns
  | panics
  deriving DecidableEq, Repr

structure ThreadBuildContext where
  errorCallback : SsaVerifyErrorCallback := .panics
  currentFunctionId : FunctionId := 0
  currentFunction : Option ℕ := none
  currentBlockId : BlockId := 0
  currentBlock : Option ℕ := none
  blocks : List Block := []
  blockValues : List ValueId := []
  blockCtrlValue : ValueId := 0
  values : List Value := []
  startBlock : BlockId := 0
  deriving DecidableEq, Repr

/-- The ids that the type interner has for the types of the builder. -/
structure BuildTypes where
  i32 : TypeId
  memory : TypeId
  deriving DecidableEq, Repr

/-- A build context and the functions of its module. -/
structure BuildState where
  tbctx : ThreadBuildContext
  functions : List Function
  deriving DecidableEq, Repr

def threadBuildContextNew (errorCallback : SsaVerifyErrorCallback) : ThreadBuildContext :=
  { errorCallback }

/-- A pointer that is followed. -/
def deref {α : Type} : Option α → Outcome α
  | some a => .returned a
  | none => .crashed

def assert (condition : Bool) : Outcome Unit :=
  if condition then .returned () else .crashed

/-! ### Functions -/

def buildFunctionBegin (s : BuildState) (id : FunctionId) : Outcome BuildState := do
  assert (s.tbctx.currentFunctionId = 0)
  let function ← index s.functions id.toNat
  assert (!function.flags.inProgress)
  assert (!function.flags.buildDone)
  return {
    functions := s.functions.set id.toNat
      { function with flags := { function.flags with inProgress := true } }
    tbctx := { s.tbctx with
      currentFunctionId := id
      currentFunction := some id.toNat
      blocks := [{}]
      values := [{}]
      startBlock := 0 } }

/-- The errors are reported to the callback one by one. -/
def ssaReport (errorCallback : SsaVerifyErrorCallback) (errors : List SsaError) : Outcome ℕ :=
  match errorCallback, errors with
  | .panics, _ :: _ => .crashed
  | _, errors => .returned errors.length

/-- Returns the number of errors in the function. -/
def buildFunctionEnd (types : BuildTypes) (s : BuildState) : Outcome (BuildState × ℕ) := do
  let i ← deref s.tbctx.currentFunction
  let function ← index s.functions i
  let function := { function with
    buildBody := ⟨s.tbctx.blocks, s.tbctx.values, s.tbctx.startBlock⟩
    flags := { function.flags with buildDone := true } }
  -- the verifier looks the function up again by its id
  let verified ← index (s.functions.set i function) s.tbctx.currentFunctionId.toNat
  let errors ← ssaVerifyFunction types.memory verified
  let errorCount ← ssaReport s.tbctx.errorCallback errors
  return ({
    functions := s.functions.set i
      { function with flags := { function.flags with inProgress := false } }
    tbctx := { s.tbctx with
      currentFunctionId := 0
      currentFunction := none } }, errorCount)

/-! ### Blocks -/

def buildBeginBlock (s : BuildState) (kind : BlockKind) : Outcome (BuildState × BlockId) := do
  assert (s.tbctx.currentBlockId = 0)
  let id := UInt32.ofNat s.tbctx.blocks.length
  return ({ s with
    tbctx := { s.tbctx with
      blocks := s.tbctx.blocks ++ [{ kind, id }]
      blockValues := []
      currentBlock := some s.tbctx.blocks.length
      currentBlockId := id } }, id)

def buildEndBlock (s : BuildState) : Outcome BuildState := do
  assert (s.tbctx.currentBlockId ≠ 0)
  let block ← index s.tbctx.blocks s.tbctx.currentBlockId.toNat
  return { s with
    tbctx := { s.tbctx with
      blocks := s.tbctx.blocks.set s.tbctx.currentBlockId.toNat
        { block with control := s.tbctx.blockCtrlValue, values := s.tbctx.blockValues }
      currentBlock := none
      currentBlockId := 0 } }

def buildBlockSetControlValue (s : BuildState) (id : ValueId) : Outcome BuildState := do
  let i ← deref s.tbctx.currentBlock
  let block ← index s.tbctx.blocks i
  match block.kind with
  | .exit => return { s with tbctx := { s.tbctx with blockCtrlValue := id } }

def buildSetStartBlock (s : BuildState) (id : BlockId) : BuildState :=
  { s with tbctx := { s.tbctx with startBlock := id } }

/-! ### Values -/

def buildValue (s : BuildState) (value : Value) : BuildState × ValueId :=
  let id := UInt32.ofNat s.tbctx.values.length
  ({ s with
    tbctx := { s.tbctx with
      values := s.tbctx.values ++ [{ value with id }]
      blockValues := s.tbctx.blockValues ++ [id] } }, id)

/-- The value of an argument has the type of the parameter, or none if there is no such one. -/
def argumentValue (parameters : List TypeId) (parameterIndex : UInt32) : Outcome Value := do
  if parameterIndex < UInt32.ofNat parameters.length then
    let type ← index parameters parameterIndex.toNat
    return { operator := .argument, type, immediate := parameterIndex.toUInt64 }
  else return { operator := .argument, type := 0, immediate := parameterIndex.toUInt64 }

def buildValueArgument (s : BuildState) (parameterIndex : UInt32) :
    Outcome (BuildState × ValueId) := do
  let i ← deref s.tbctx.currentFunction
  let function ← index s.functions i
  let value ← argumentValue function.parameters parameterIndex
  return buildValue s value

def buildValueInitMemory (types : BuildTypes) (s : BuildState) : BuildState × ValueId :=
  buildValue s { operator := .initMemory, type := types.memory }

def buildValueConst32 (types : BuildTypes) (s : BuildState) (value : UInt32) :
    BuildState × ValueId :=
  buildValue s { operator := .const32, type := types.i32, immediate := value.toUInt64 }

def buildValueReturn (s : BuildState) (id : ValueId) : BuildState × ValueId :=
  buildValue s { operator := .return_, type := 0, arguments := [id] }

/-! ### Sequences of calls -/

inductive BuildCall
  | functionBegin (id : FunctionId)
  | functionEnd
  | beginBlock (kind : BlockKind)
  | endBlock
  | blockSetControlValue (id : ValueId)
  | setStartBlock (id : BlockId)
  | valueArgument (parameterIndex : UInt32)
  | valueInitMemory
  | valueConst32 (value : UInt32)
  | valueReturn (id : ValueId)
  deriving DecidableEq, Repr

def buildStep (types : BuildTypes) (s : BuildState) : BuildCall → Outcome BuildState
  | .functionBegin id => buildFunctionBegin s id
  | .functionEnd => Prod.fst <$> buildFunctionEnd types s
  | .beginBlock kind => Prod.fst <$> buildBeginBlock s kind
  | .endBlock => buildEndBlock s
  | .blockSetControlValue id => buildBlockSetControlValue s id
  | .setStartBlock id => .returned (buildSetStartBlock s id)
  | .valueArgument parameterIndex => Prod.fst <$> buildValueArgument s parameterIndex
  | .valueInitMemory => .returned (buildValueInitMemory types s).1
  | .valueConst32 value => .returned (buildValueConst32 types s value).1
  | .valueReturn id => .returned (buildValueReturn s id).1

def buildRun (types : BuildTypes) : BuildState → List BuildCall → Outcome BuildState
  | s, [] => .returned s
  | s, call :: calls => do
    let s ← buildStep types s call
    buildRun types s calls

/-! ### Arrays that can be full -/

/-- An `xar.Array(_, 4)` has 17 chunks, of 16, 16, 32, … and 2 ^ 19 elements. -/
def xarCapacity : ℕ := 0x100000

/-- No value is listed in a block that is not in the table of values, so these two are enough. -/
structure ThreadBuildContext.FitsXar (tbctx : ThreadBuildContext) : Prop where
  blocks : tbctx.blocks.length ≤ xarCapacity
  values : tbctx.values.length ≤ xarCapacity

instance (tbctx : ThreadBuildContext) : Decidable tbctx.FitsXar :=
  decidable_of_iff (tbctx.blocks.length ≤ xarCapacity ∧ tbctx.values.length ≤ xarCapacity)
    ⟨fun h => ⟨h.1, h.2⟩, fun h => ⟨h.blocks, h.values⟩⟩

/-- A push on a full array aborts. -/
def buildStepXar (types : BuildTypes) (s : BuildState) (call : BuildCall) :
    Outcome BuildState := do
  let s ← buildStep types s call
  assert s.tbctx.FitsXar
  return s

def buildRunXar (types : BuildTypes) : BuildState → List BuildCall → Outcome BuildState
  | s, [] => .returned s
  | s, call :: calls => do
    let s ← buildStepXar types s call
    buildRunXar types s calls

theorem buildStepXar_eq_returned {types : BuildTypes} {s s' : BuildState} {call : BuildCall} :
    buildStepXar types s call = .returned s' ↔
      buildStep types s call = .returned s' ∧ s'.tbctx.FitsXar := by
  rw [buildStepXar, Outcome.bind_eq_returned]
  constructor
  · rintro ⟨r, hr, h⟩
    by_cases hfits : r.tbctx.FitsXar
    · rw [assert, decide_eq_true hfits, if_pos rfl, Outcome.returned_bind] at h
      obtain rfl := Outcome.returned.inj h
      exact ⟨hr, hfits⟩
    · rw [assert, decide_eq_false hfits, if_neg Bool.false_ne_true] at h
      cases h
  · rintro ⟨hr, hfits⟩
    refine ⟨s', hr, ?_⟩
    rw [assert, decide_eq_true hfits, if_pos rfl]
    rfl

/-- A run in arrays that can be full is one in arrays that grow without end. They are not full. -/
theorem buildRunXar_returned {types : BuildTypes} {s s' : BuildState} {calls : List BuildCall}
    (h : buildRunXar types s calls = .returned s') :
    buildRun types s calls = .returned s' ∧ (calls ≠ [] → s'.tbctx.FitsXar) := by
  induction calls generalizing s with
  | nil => exact ⟨h, fun hne => absurd rfl hne⟩
  | cons call calls ih =>
    obtain ⟨r, hr, h⟩ := Outcome.bind_eq_returned.mp h
    obtain ⟨hstep, hfits⟩ := buildStepXar_eq_returned.mp hr
    obtain ⟨hrun, hlast⟩ := ih h
    refine ⟨by rw [buildRun, hstep, Outcome.returned_bind, hrun], fun _ => ?_⟩
    rcases calls with _ | ⟨next, calls⟩
    · obtain rfl := Outcome.returned.inj h
      exact hfits
    · exact hlast (List.cons_ne_nil next calls)

end Wasim.Wopt
