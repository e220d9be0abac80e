import Mathlib.Data.List.GetD
import Mathlib.Tactic.Ring
import Wasim.Wopt.Build

/-!
# Runs of the builder

A well-bracketed sequence of calls is a list of functions (`FunctionCalls`), each of which is a
list of blocks (`BlockGroup`) with the calls inside of them. `FunctionCalls.built` is the body
that the builder makes of a function; it depends on what was built before through the control
value, which is set in a block and never reset. `BodyOf` says what the body should be.

The two agree exactly when no block takes over a control value from before
(`buildRun_bodies_iff`).
-/

namespace Wasim.Wopt

/-! ### Well-bracketed sequences -/

/-- A call inside of a block. -/
inductive BlockCall
  | argument (parameterIndex : UInt32)
  | initMemory
  | const32 (value : UInt32)
  | return_ (id : ValueId)
  | setControl (id : ValueId)
  | setStart (id : BlockId)
  deriving DecidableEq, Repr

namespace BlockCall

def call : BlockCall → BuildCall
  | argument parameterIndex => .valueArgument parameterIndex
  | initMemory => .valueInitMemory
  | const32 value => .valueConst32 value
  | return_ id => .valueReturn id
  | setControl id => .blockSetControlValue id
  | setStart id => .setStartBlock id

/-- The value that the call creates, without its id. -/
def value? (types : BuildTypes) (parameters : List TypeId) : BlockCall → Option Value
  | argument i => some
    { operator := .argument
      type := if i < UInt32.ofNat parameters.length then parameters.getD i.toNat 0 else 0
      immediate := i.toUInt64 }
  | initMemory => some { operator := .initMemory, type := types.memory }
  | const32 value => some
    { operator := .const32, type := types.i32, immediate := value.toUInt64 }
  | return_ id => some { operator := .return_, type := 0, arguments := [id] }
  | _ => none

def control? : BlockCall → Option ValueId
  | setControl id => some id
  | _ => none

def start? : BlockCall → Option BlockId
  | setStart id => some id
  | _ => none

end BlockCall

/-- The calls from the begin of a block to its end. -/
structure BlockGroup where
  kind : BlockKind
  inner : List BlockCall
  deriving DecidableEq, Repr

namespace BlockGroup

def calls (g : BlockGroup) : List BuildCall :=
  .beginBlock g.kind :: (g.inner.map BlockCall.call ++ [.endBlock])

def values (types : BuildTypes) (parameters : List TypeId) (g : BlockGroup) : List Value :=
  g.inner.filterMap (BlockCall.value? types parameters)

/-- The control values given in the block, in order. -/
def controls (g : BlockGroup) : List ValueId := g.inner.filterMap BlockCall.control?

end BlockGroup

/-- A block, or a call that sets the start block between two blocks. -/
inductive FunctionItem
  | block (g : BlockGroup)
  | setStart (id : BlockId)
  deriving DecidableEq, Repr

namespace FunctionItem

def calls : FunctionItem → List BuildCall
  | block g => g.calls
  | setStart id => [.setStartBlock id]

def group? : FunctionItem → Option BlockGroup
  | block g => some g
  | setStart _ => none

def starts : FunctionItem → List BlockId
  | block g => g.inner.filterMap BlockCall.start?
  | setStart id => [id]

end FunctionItem

/-- The calls from the begin of a function to its end. -/
structure FunctionCalls where
  id : FunctionId
  items : List FunctionItem
  deriving DecidableEq, Repr

namespace FunctionCalls

def calls (f : FunctionCalls) : List BuildCall :=
  .functionBegin f.id :: (f.items.flatMap FunctionItem.calls ++ [.functionEnd])

/-- The calls up to the end of the function. -/
def begun (f : FunctionCalls) : List BuildCall :=
  .functionBegin f.id :: f.items.flatMap FunctionItem.calls

def groups (f : FunctionCalls) : List BlockGroup := f.items.filterMap FunctionItem.group?

def values (types : BuildTypes) (parameters : List TypeId) (f : FunctionCalls) : List Value :=
  f.groups.flatMap (BlockGroup.values types parameters)

end FunctionCalls

/-! ### The body of a function -/

/-- Values with ids from `first` on. -/
def numbered : ℕ → List Value → List Value
  | _, [] => []
  | first, value :: values =>
    { value with id := UInt32.ofNat first } :: numbered (first + 1) values

/-- The body that belongs to the calls of a function: every index is the id there, a block has
the values created in it, and as control the value last given in it, or none. -/
structure BodyOf (types : BuildTypes) (parameters : List TypeId) (f : FunctionCalls)
    (body : FunctionBody) : Prop where
  blocks_length : body.blocks.length = f.groups.length + 1
  values_eq : body.values = {} :: numbered 1 (f.values types parameters)
  block_id : ∀ (i : ℕ) (block : Block), body.blocks[i]? = some block → block.id.toNat = i
  value_id : ∀ (i : ℕ) (value : Value), body.values[i]? = some value → value.id.toNat = i
  sentinel : body.blocks[0]? = some ({} : Block)
  block_kind : ∀ (k : ℕ) (g : BlockGroup) (block : Block), f.groups[k]? = some g →
    body.blocks[k + 1]? = some block → block.kind = g.kind
  /-- The ids of the values created in the block: those behind all values created before. -/
  block_values : ∀ (k : ℕ) (g : BlockGroup) (block : Block), f.groups[k]? = some g →
    body.blocks[k + 1]? = some block → block.values.map UInt32.toNat = List.range'
      (1 + ((f.groups.take k).flatMap (BlockGroup.values types parameters)).length)
      (g.values types parameters).length
  block_control : ∀ (k : ℕ) (g : BlockGroup) (block : Block), f.groups[k]? = some g →
    body.blocks[k + 1]? = some block → block.control = g.controls.getLastD 0
  start_eq : body.start = (f.items.flatMap FunctionItem.starts).getLastD 0

/-- The blocks that the builder makes of the groups, with ids from `block` on, values from
`value` on, and `control` left over from before. -/
def builtBlocks (types : BuildTypes) (parameters : List TypeId) :
    ℕ → ℕ → ValueId → List BlockGroup → List Block
  | _, _, _, [] => []
  | block, value, control, g :: gs =>
    let count := (g.values types parameters).length
    { id := UInt32.ofNat block
      kind := g.kind
      control := g.controls.getLastD control
      values := (List.range' value count).map UInt32.ofNat } ::
    builtBlocks types parameters (block + 1) (value + count) (g.controls.getLastD control) gs

/-- The control value that is left behind the groups. -/
def lastControl : ValueId → List BlockGroup → ValueId
  | control, [] => control
  | control, g :: gs => lastControl (g.controls.getLastD control) gs

/-- The body that the builder makes of a function. -/
def FunctionCalls.built (types : BuildTypes) (parameters : List TypeId) (control : ValueId)
    (f : FunctionCalls) : FunctionBody where
  blocks := {} :: builtBlocks types parameters 1 1 control f.groups
  values := {} :: numbered 1 (f.values types parameters)
  start := (f.items.flatMap FunctionItem.starts).getLastD 0

/-- No block without a control value of its own is built behind a control value. -/
def controlsGiven : ValueId → List BlockGroup → Bool
  | _, [] => true
  | control, g :: gs =>
    (g.controls ≠ [] || control = 0) && controlsGiven (g.controls.getLastD control) gs

/-! ### The calls inside of a block -/

variable {types : BuildTypes}

theorem buildRun_append (s : BuildState) (calls calls' : List BuildCall) :
    buildRun types s (calls ++ calls') = buildRun types s calls >>= (buildRun types · calls') := by
  induction calls generalizing s with
  | nil => rfl
  | cons call calls ih =>
    rw [List.cons_append, buildRun, buildRun]
    rcases buildStep types s call with s' | _ | _
    · exact ih s'
    · rfl
    · rfl

theorem argumentValue_eq (parameters : List TypeId) (i : UInt32) :
    argumentValue parameters i = .returned
      { operator := .argument
        type := if i < UInt32.ofNat parameters.length then parameters.getD i.toNat 0 else 0
        immediate := i.toUInt64 } := by
  rw [argumentValue]
  split
  · rename_i hi
    have hlt : i.toNat < parameters.length := by
      have := UInt32.lt_iff_toNat_lt.mp hi
      rw [UInt32.toNat_ofNat'] at this
      exact this.trans_le (Nat.mod_le _ _)
    rw [index, List.getElem?_eq_getElem hlt, List.getD_eq_getElem _ _ hlt]
    rfl
  · rfl

theorem numbered_append (first : ℕ) (values values' : List Value) :
    numbered first (values ++ values') =
      numbered first values ++ numbered (first + values.length) values' := by
  induction values generalizing first with
  | nil => rfl
  | cons value values ih =>
    rw [List.cons_append, numbered, ih, numbered, List.length_cons, List.cons_append]
    congr 3
    ring

theorem length_numbered (first : ℕ) (values : List Value) :
    (numbered first values).length = values.length := by
  induction values generalizing first with
  | nil => rfl
  | cons value values ih => rw [numbered, List.length_cons, List.length_cons, ih]

/-- The state behind calls inside of a block. -/
def insideBlock (types : BuildTypes) (parameters : List TypeId) (s : BuildState)
    (inner : List BlockCall) : BuildState :=
  { s with
    tbctx := { s.tbctx with
      values := s.tbctx.values ++
        numbered s.tbctx.values.length (inner.filterMap (BlockCall.value? types parameters))
      blockValues := s.tbctx.blockValues ++ (List.range' s.tbctx.values.length
        (inner.filterMap (BlockCall.value? types parameters)).length).map UInt32.ofNat
      blockCtrlValue := (inner.filterMap BlockCall.control?).getLastD s.tbctx.blockCtrlValue
      startBlock := (inner.filterMap BlockCall.start?).getLastD s.tbctx.startBlock } }

/-- Inside of a block of a function. -/
structure BuildState.Inside (s : BuildState) (function : Function) : Prop where
  function : ∃ i, s.tbctx.currentFunction = some i ∧ s.functions[i]? = some function
  block : ∃ i block, s.tbctx.currentBlock = some i ∧ s.tbctx.blocks[i]? = some block

theorem buildStep_inside {s : BuildState} {function : Function} (h : s.Inside function)
    (call : BlockCall) : buildStep types s call.call =
      .returned (insideBlock types function.parameters s [call]) := by
  obtain ⟨i, hi, hfunction⟩ := h.function
  obtain ⟨j, block, hj, hblock⟩ := h.block
  rcases call with parameterIndex | _ | value | id | id | id
  · rw [BlockCall.call, buildStep, buildValueArgument, hi, deref, Outcome.returned_bind, index,
      hfunction, Outcome.returned_bind, argumentValue_eq, Outcome.returned_bind]
    rfl
  · rfl
  · rfl
  · rfl
  · have hvalues : [BlockCall.setControl id].filterMap
        (BlockCall.value? types function.parameters) = [] := rfl
    rw [BlockCall.call, buildStep, buildBlockSetControlValue, hj, deref, Outcome.returned_bind,
      index, hblock, Outcome.returned_bind, insideBlock, hvalues, numbered, List.append_nil,
      List.length_nil, List.range'_zero, List.map_nil, List.append_nil]
    rfl
  · have hvalues : [BlockCall.setStart id].filterMap
        (BlockCall.value? types function.parameters) = [] := rfl
    rw [BlockCall.call, buildStep, buildSetStartBlock, insideBlock, hvalues, numbered,
      List.append_nil, List.length_nil, List.range'_zero, List.map_nil, List.append_nil]
    rfl

theorem getLastD_append {α : Type} (a b : List α) (d : α) :
    (a ++ b).getLastD d = b.getLastD (a.getLastD d) := by
  induction a generalizing d with
  | nil => rfl
  | cons x a ih => rw [List.cons_append, List.getLastD_cons, ih, List.getLastD_cons]

theorem insideBlock_append (parameters : List TypeId) (s : BuildState)
    (inner inner' : List BlockCall) :
    insideBlock types parameters (insideBlock types parameters s inner) inner' =
      insideBlock types parameters s (inner ++ inner') := by
  simp only [insideBlock, List.filterMap_append, numbered_append, getLastD_append,
    List.length_append, length_numbered, List.append_assoc, ← List.map_append,
    List.range'_append_1]

theorem buildRun_inside {s : BuildState} {function : Function} (h : s.Inside function)
    (inner : List BlockCall) : buildRun types s (inner.map BlockCall.call) =
      .returned (insideBlock types function.parameters s inner) := by
  induction inner generalizing s with
  | nil => simp [buildRun, insideBlock, numbered]
  | cons call inner ih =>
    have hnext : (insideBlock types function.parameters s [call]).Inside function :=
      ⟨h.function, h.block⟩
    rw [List.map_cons, buildRun, buildStep_inside h, Outcome.returned_bind, ih hnext,
      insideBlock_append, List.singleton_append]

/-! ### Blocks -/

/-- The state behind a block. -/
def behindGroup (types : BuildTypes) (parameters : List TypeId) (s : BuildState)
    (g : BlockGroup) : BuildState :=
  { s with
    tbctx := { s.tbctx with
      currentBlockId := 0
      currentBlock := none
      blocks := s.tbctx.blocks ++ builtBlocks types parameters s.tbctx.blocks.length
        s.tbctx.values.length s.tbctx.blockCtrlValue [g]
      blockValues := (List.range' s.tbctx.values.length
        (g.values types parameters).length).map UInt32.ofNat
      blockCtrlValue := g.controls.getLastD s.tbctx.blockCtrlValue
      values := s.tbctx.values ++ numbered s.tbctx.values.length (g.values types parameters)
      startBlock := (g.inner.filterMap BlockCall.start?).getLastD s.tbctx.startBlock } }

/-- Between two blocks of a function. -/
structure BuildState.Between (s : BuildState) (function : Function) : Prop where
  function : ∃ i, s.tbctx.currentFunction = some i ∧ s.functions[i]? = some function
  block : s.tbctx.currentBlockId = 0
  sentinel : s.tbctx.blocks ≠ []

/-- The state behind the begin of a block. -/
def atBlock (s : BuildState) (kind : BlockKind) : BuildState :=
  { s with
    tbctx := { s.tbctx with
      blocks := s.tbctx.blocks ++ [{ kind, id := UInt32.ofNat s.tbctx.blocks.length }]
      blockValues := []
      currentBlock := some s.tbctx.blocks.length
      currentBlockId := UInt32.ofNat s.tbctx.blocks.length } }

theorem buildRun_group_eq {s : BuildState} {function : Function} (h : s.Between function)
    (g : BlockGroup) : buildRun types s g.calls =
      buildEndBlock (insideBlock types function.parameters (atBlock s g.kind) g.inner) := by
  have hbegin : buildStep types s (.beginBlock g.kind) = .returned (atBlock s g.kind) := by
    rw [buildStep, buildBeginBlock, h.block]
    rfl
  have hinside : (atBlock s g.kind).Inside function :=
    ⟨h.function, _, _, rfl, List.getElem?_concat_length⟩
  rw [BlockGroup.calls, buildRun, hbegin, Outcome.returned_bind, buildRun_append,
    buildRun_inside hinside, Outcome.returned_bind, buildRun, buildStep]
  rcases buildEndBlock _ <;> rfl

variable (types) in
theorem buildRun_group {s : BuildState} {function : Function} (h : s.Between function)
    (hlength : s.tbctx.blocks.length < 2 ^ 32) (g : BlockGroup) :
    buildRun types s g.calls = .returned (behindGroup types function.parameters s g) := by
  have hid : (UInt32.ofNat s.tbctx.blocks.length).toNat = s.tbctx.blocks.length :=
    UInt32.toNat_ofNat_of_lt' hlength
  have hne : UInt32.ofNat s.tbctx.blocks.length ≠ 0 := by
    intro hzero
    rw [hzero] at hid
    exact h.sentinel (List.length_eq_zero_iff.mp hid.symm)
  rw [buildRun_group_eq h, buildEndBlock]
  simp [assert, insideBlock, atBlock, hne, index, hid, behindGroup, builtBlocks,
    BlockGroup.values, BlockGroup.controls]

/-- The id of the block is that of no block. -/
theorem buildRun_group_crashed {s : BuildState} {function : Function} (h : s.Between function)
    (hlength : s.tbctx.blocks.length = 2 ^ 32) (g : BlockGroup) :
    buildRun types s g.calls = .crashed := by
  rw [buildRun_group_eq h, buildEndBlock]
  simp [assert, insideBlock, atBlock, hlength]

theorem behindGroup_between {s : BuildState} {function : Function} (h : s.Between function)
    (g : BlockGroup) : (behindGroup types function.parameters s g).Between function :=
  ⟨h.function, rfl, by simp [behindGroup, builtBlocks]⟩

/-! ### Functions -/

def behindItem (types : BuildTypes) (parameters : List TypeId) (s : BuildState) :
    FunctionItem → BuildState
  | .block g => behindGroup types parameters s g
  | .setStart id => buildSetStartBlock s id

/-- The state behind the items of a function. -/
def behindItems (types : BuildTypes) (parameters : List TypeId) (s : BuildState)
    (items : List FunctionItem) : BuildState :=
  items.foldl (behindItem types parameters) s

theorem buildSetStartBlock_between {s : BuildState} {function : Function}
    (h : s.Between function) (id : BlockId) : (buildSetStartBlock s id).Between function :=
  ⟨h.function, h.block, h.sentinel⟩

theorem length_blocks_behindGroup (parameters : List TypeId) (s : BuildState) (g : BlockGroup) :
    (behindGroup types parameters s g).tbctx.blocks.length = s.tbctx.blocks.length + 1 := by
  simp [behindGroup, builtBlocks]

theorem groups_block (g : BlockGroup) (items : List FunctionItem) :
    (.block g :: items).filterMap FunctionItem.group? =
      g :: items.filterMap FunctionItem.group? := rfl

variable (types) in
theorem buildRun_items {s : BuildState} {function : Function} (h : s.Between function)
    (items : List FunctionItem)
    (hlength : s.tbctx.blocks.length + (items.filterMap FunctionItem.group?).length ≤ 2 ^ 32) :
    buildRun types s (items.flatMap FunctionItem.calls) =
      .returned (behindItems types function.parameters s items) := by
  induction items generalizing s with
  | nil => rfl
  | cons item items ih =>
    rw [List.flatMap_cons, buildRun_append]
    rcases item with g | id
    · rw [groups_block, List.length_cons] at hlength
      have hstep := buildRun_group types h (by omega) g
      rw [FunctionItem.calls, hstep]
      refine ih (behindGroup_between h g) ?_
      rw [length_blocks_behindGroup]
      omega
    · rw [List.filterMap_cons_none rfl] at hlength
      exact ih (buildSetStartBlock_between h id) hlength

theorem buildRun_items_crashed {s : BuildState} {function : Function} (h : s.Between function)
    {items : List FunctionItem} (hblocks : s.tbctx.blocks.length ≤ 2 ^ 32)
    (hlength : 2 ^ 32 < s.tbctx.blocks.length + (items.filterMap FunctionItem.group?).length) :
    buildRun types s (items.flatMap FunctionItem.calls) = .crashed := by
  induction items generalizing s with
  | nil =>
    simp only [List.filterMap_nil, List.length_nil] at hlength
    omega
  | cons item items ih =>
    rw [List.flatMap_cons, buildRun_append]
    rcases item with g | id
    · rw [groups_block, List.length_cons] at hlength
      rcases hblocks.lt_or_eq with hlt | heq
      · rw [FunctionItem.calls, buildRun_group types h hlt g]
        refine ih (behindGroup_between h g) ?_ ?_
        · rw [length_blocks_behindGroup]
          omega
        · rw [length_blocks_behindGroup]
          omega
      · rw [FunctionItem.calls, buildRun_group_crashed h heq g]
        rfl
    · rw [List.filterMap_cons_none rfl] at hlength
      exact ih (buildSetStartBlock_between h id) hblocks hlength

/-- What the items of a function do to the state. -/
structure BehindItems (types : BuildTypes) (parameters : List TypeId)
    (items : List FunctionItem) (s s' : BuildState) : Prop where
  functions : s'.functions = s.functions
  errorCallback : s'.tbctx.errorCallback = s.tbctx.errorCallback
  currentFunctionId : s'.tbctx.currentFunctionId = s.tbctx.currentFunctionId
  currentFunction : s'.tbctx.currentFunction = s.tbctx.currentFunction
  blocks : s'.tbctx.blocks = s.tbctx.blocks ++ builtBlocks types parameters
    s.tbctx.blocks.length s.tbctx.values.length s.tbctx.blockCtrlValue
    (items.filterMap FunctionItem.group?)
  values : s'.tbctx.values = s.tbctx.values ++ numbered s.tbctx.values.length
    ((items.filterMap FunctionItem.group?).flatMap (BlockGroup.values types parameters))
  control : s'.tbctx.blockCtrlValue =
    lastControl s.tbctx.blockCtrlValue (items.filterMap FunctionItem.group?)
  start : s'.tbctx.startBlock =
    (items.flatMap FunctionItem.starts).getLastD s.tbctx.startBlock

variable (types) in
theorem behindItems_between {s : BuildState} {function : Function} (h : s.Between function)
    (items : List FunctionItem) :
    (behindItems types function.parameters s items).Between function := by
  induction items generalizing s with
  | nil => exact h
  | cons item items ih =>
    rcases item with g | id
    · exact ih (behindGroup_between h g)
    · exact ih (buildSetStartBlock_between h id)

variable (types) in
theorem behindItems_spec (parameters : List TypeId) (s : BuildState)
    (items : List FunctionItem) :
    BehindItems types parameters items s (behindItems types parameters s items) := by
  induction items generalizing s with
  | nil => exact ⟨rfl, rfl, rfl, rfl, by simp [behindItems, builtBlocks],
      by simp [behindItems, numbered], rfl, rfl⟩
  | cons item items ih =>
    have hrest := ih (behindItem types parameters s item)
    rcases item with g | id
    · refine ⟨hrest.functions, hrest.errorCallback, hrest.currentFunctionId,
        hrest.currentFunction, hrest.blocks.trans ?_, hrest.values.trans ?_, hrest.control, ?_⟩
      · simp [behindItem, behindGroup, builtBlocks, FunctionItem.group?, length_numbered]
      · simp [behindItem, behindGroup, FunctionItem.group?, length_numbered, numbered_append]
      · rw [List.flatMap_cons, getLastD_append]
        exact hrest.start
    · refine ⟨hrest.functions, hrest.errorCallback, hrest.currentFunctionId,
        hrest.currentFunction, hrest.blocks, hrest.values, hrest.control, ?_⟩
      rw [List.flatMap_cons, getLastD_append]
      exact hrest.start

/-- The state behind a whole function. -/
structure BehindFunction (types : BuildTypes) (f : FunctionCalls) (function : Function)
    (s s' : BuildState) : Prop where
  functions : s'.functions = s.functions.set f.id.toNat
    { function with
      flags := { function.flags with inProgress := false, buildDone := true }
      buildBody := f.built types function.parameters s.tbctx.blockCtrlValue }
  errorCallback : s'.tbctx.errorCallback = s.tbctx.errorCallback
  currentFunctionId : s'.tbctx.currentFunctionId = 0
  currentBlockId : s'.tbctx.currentBlockId = 0
  control : s'.tbctx.blockCtrlValue = lastControl s.tbctx.blockCtrlValue f.groups

/-- The function that the verifier looks at. -/
def FunctionCalls.verified (types : BuildTypes) (control : ValueId) (function : Function)
    (f : FunctionCalls) : Function :=
  { function with
    flags := { function.flags with inProgress := true, buildDone := true }
    buildBody := f.built types function.parameters control }

/-- The state behind the begin of a function. -/
def atFunction (s : BuildState) (id : FunctionId) (function : Function) : BuildState where
  functions := s.functions.set id.toNat
    { function with flags := { function.flags with inProgress := true } }
  tbctx := { s.tbctx with
    currentFunctionId := id
    currentFunction := some id.toNat
    blocks := [{}]
    values := [{}]
    startBlock := 0 }

theorem buildFunctionBegin_eq {s : BuildState} {id : FunctionId} {function : Function}
    (hid : s.tbctx.currentFunctionId = 0) (hfunction : s.functions[id.toNat]? = some function) :
    buildFunctionBegin s id =
      if function.flags.inProgress || function.flags.buildDone then .crashed
      else .returned (atFunction s id function) := by
  rw [buildFunctionBegin, hid, index, hfunction]
  rcases hprogress : function.flags.inProgress <;> rcases hdone : function.flags.buildDone <;>
    simp [assert, hprogress, hdone, atFunction]

theorem atFunction_between {s : BuildState} {id : FunctionId} {function : Function}
    (hblock : s.tbctx.currentBlockId = 0) (hfunction : s.functions[id.toNat]? = some function) :
    (atFunction s id function).Between
      { function with flags := { function.flags with inProgress := true } } := by
  refine ⟨⟨id.toNat, rfl, ?_⟩, hblock, List.cons_ne_nil _ _⟩
  obtain ⟨hlt, -⟩ := List.getElem?_eq_some_iff.mp hfunction
  simp [atFunction, hlt]

variable (types) in
theorem buildRun_begun {s : BuildState} {f : FunctionCalls} {function : Function}
    (hid : s.tbctx.currentFunctionId = 0) (hblock : s.tbctx.currentBlockId = 0)
    (hfunction : s.functions[f.id.toNat]? = some function)
    (hprogress : function.flags.inProgress = false) (hdone : function.flags.buildDone = false)
    (hlength : f.groups.length + 1 ≤ 2 ^ 32) :
    buildRun types s f.begun =
      .returned (behindItems types function.parameters (atFunction s f.id function) f.items) := by
  rw [FunctionCalls.begun, buildRun, buildStep, buildFunctionBegin_eq hid hfunction, hprogress,
    hdone]
  simp only [Bool.or_self, Bool.false_eq_true, if_false, Outcome.returned_bind]
  exact buildRun_items types (atFunction_between hblock hfunction) f.items
    (by simpa [atFunction, FunctionCalls.groups, Nat.add_comm] using hlength)

/-- The calls up to the end of a function get through only if it is free and not too long. -/
theorem buildRun_begun_returned {s e : BuildState} {f : FunctionCalls}
    (hid : s.tbctx.currentFunctionId = 0) (hblock : s.tbctx.currentBlockId = 0)
    (h : buildRun types s f.begun = .returned e) :
    ∃ function, s.functions[f.id.toNat]? = some function ∧
      function.flags.inProgress = false ∧ function.flags.buildDone = false ∧
      f.groups.length + 1 ≤ 2 ^ 32 ∧
      e = behindItems types function.parameters (atFunction s f.id function) f.items := by
  rcases hfunction : s.functions[f.id.toNat]? with _ | function
  · rw [FunctionCalls.begun, buildRun, buildStep, buildFunctionBegin, index, hfunction] at h
    simp only [assert, hid, decide_true, if_true, Outcome.returned_bind, Outcome.crashed_bind] at h
    cases h
  have hflags : ¬(function.flags.inProgress || function.flags.buildDone) := by
    intro hflags
    rw [FunctionCalls.begun, buildRun, buildStep, buildFunctionBegin_eq hid hfunction,
      if_pos hflags] at h
    cases h
  rw [Bool.or_eq_true, not_or, Bool.not_eq_true, Bool.not_eq_true] at hflags
  have hlength : f.groups.length + 1 ≤ 2 ^ 32 := by
    by_contra hlong
    rw [FunctionCalls.begun, buildRun, buildStep, buildFunctionBegin_eq hid hfunction, hflags.1,
      hflags.2] at h
    simp only [Bool.or_self, Bool.false_eq_true, if_false, Outcome.returned_bind] at h
    rw [buildRun_items_crashed (atFunction_between hblock hfunction)] at h
    · cases h
    · simp [atFunction]
    · simp only [atFunction, List.length_singleton]
      rw [FunctionCalls.groups] at hlong
      omega
  rw [buildRun_begun types hid hblock hfunction hflags.1 hflags.2 hlength] at h
  exact ⟨function, rfl, hflags.1, hflags.2, hlength, (Outcome.returned.inj h).symm⟩

variable (types) in
/-- The body that is copied out of the context at the end of a function. -/
theorem body_behindItems (s : BuildState) (f : FunctionCalls) (function : Function) :
    (⟨(behindItems types function.parameters (atFunction s f.id function) f.items).tbctx.blocks,
      (behindItems types function.parameters (atFunction s f.id function) f.items).tbctx.values,
      (behindItems types function.parameters (atFunction s f.id function)
        f.items).tbctx.startBlock⟩ : FunctionBody) =
      f.built types function.parameters s.tbctx.blockCtrlValue := by
  have hspec := behindItems_spec types function.parameters (atFunction s f.id function) f.items
  rw [hspec.blocks, hspec.values, hspec.start]
  rfl

variable (types) in
/-- At its end a function is verified and the errors are reported. -/
theorem buildFunctionEnd_eq {s : BuildState} {f : FunctionCalls} {function : Function}
    (hblock : s.tbctx.currentBlockId = 0)
    (hfunction : s.functions[f.id.toNat]? = some function) :
    ∃ s', BehindFunction types f function s s' ∧
      buildFunctionEnd types
          (behindItems types function.parameters (atFunction s f.id function) f.items) = do
        let errors ← ssaVerifyFunction types.memory
          (f.verified types s.tbctx.blockCtrlValue function)
        let count ← ssaReport s.tbctx.errorCallback errors
        return (s', count) := by
  have hspec := behindItems_spec types function.parameters (atFunction s f.id function) f.items
  have hend := behindItems_between types (atFunction_between hblock hfunction) f.items
  have hbody := body_behindItems types s f function
  set e := behindItems types function.parameters (atFunction s f.id function) f.items
  obtain ⟨hlt, -⟩ := List.getElem?_eq_some_iff.mp hfunction
  refine ⟨{
    functions := s.functions.set f.id.toNat
      { function with
        flags := { function.flags with inProgress := false, buildDone := true }
        buildBody := f.built types function.parameters s.tbctx.blockCtrlValue }
    tbctx := { e.tbctx with currentFunctionId := 0, currentFunction := none } },
    ⟨rfl, hspec.errorCallback, rfl, hend.block, hspec.control⟩, ?_⟩
  have hcallback : e.tbctx.errorCallback = s.tbctx.errorCallback := hspec.errorCallback
  rw [buildFunctionEnd, hspec.currentFunction, hspec.currentFunctionId, hspec.functions, hbody]
  simp only [atFunction, deref, index, Outcome.returned_bind, List.getElem?_set_self hlt,
    List.set_set, hcallback, FunctionCalls.verified]

theorem calls_eq_begun (f : FunctionCalls) : f.calls = f.begun ++ [.functionEnd] := rfl

variable (types) in
/-- A function that is not too long is built, verified and reported. -/
theorem buildRun_function {s : BuildState} {f : FunctionCalls} {function : Function}
    (hid : s.tbctx.currentFunctionId = 0) (hblock : s.tbctx.currentBlockId = 0)
    (hfunction : s.functions[f.id.toNat]? = some function)
    (hprogress : function.flags.inProgress = false) (hdone : function.flags.buildDone = false)
    (hlength : f.groups.length + 1 ≤ 2 ^ 32) :
    ∃ s', BehindFunction types f function s s' ∧
      buildRun types s f.calls = do
        let errors ← ssaVerifyFunction types.memory
          (f.verified types s.tbctx.blockCtrlValue function)
        let _ ← ssaReport s.tbctx.errorCallback errors
        return s' := by
  obtain ⟨s', hbehind, hend⟩ := buildFunctionEnd_eq types hblock hfunction
  refine ⟨s', hbehind, ?_⟩
  rw [calls_eq_begun, buildRun_append, buildRun_begun types hid hblock hfunction hprogress hdone
    hlength, Outcome.returned_bind, buildRun, buildStep, hend]
  rcases ssaVerifyFunction _ _ with errors | _ | _
  · rw [Outcome.returned_bind, Outcome.returned_bind]
    rcases ssaReport _ _ <;> rfl
  · rfl
  · rfl

/-! ### The body that is built -/

theorem length_builtBlocks (parameters : List TypeId) (block value : ℕ) (control : ValueId)
    (gs : List BlockGroup) :
    (builtBlocks types parameters block value control gs).length = gs.length := by
  induction gs generalizing block value control with
  | nil => rfl
  | cons g gs ih => rw [builtBlocks, List.length_cons, List.length_cons, ih]

/-- The values of the constructors are constructed. -/
theorem BlockCall.constructed {parameters : List TypeId} {call : BlockCall} {value : Value}
    (h : call.value? types parameters = some value) : value.Constructed := by
  rcases call with i | _ | v | id | id | id
  · obtain rfl := Option.some.inj h
    exact ⟨nofun, by simpa using i.toNat_lt⟩
  · obtain rfl := Option.some.inj h
    exact ⟨nofun, by simp⟩
  · obtain rfl := Option.some.inj h
    exact ⟨nofun, by simpa using v.toNat_lt⟩
  · obtain rfl := Option.some.inj h
    exact ⟨fun _ => by simp, by simp⟩
  · cases h
  · cases h

theorem constructed_numbered {first : ℕ} {values : List Value}
    (h : ∀ value ∈ values, value.Constructed) :
    ∀ value ∈ numbered first values, value.Constructed := by
  induction values generalizing first with
  | nil => exact h
  | cons v values ih =>
    intro value hmem
    rcases List.mem_cons.mp hmem with rfl | hmem
    · have hv := h v List.mem_cons_self
      exact ⟨hv.operand, hv.index⟩
    · exact ih (fun w hw => h w (List.mem_cons_of_mem v hw)) value hmem

theorem FunctionCalls.constructed_built (parameters : List TypeId) (control : ValueId)
    (f : FunctionCalls) :
    ∀ value ∈ (f.built types parameters control).values, value.Constructed := by
  intro value hmem
  rcases List.mem_cons.mp hmem with rfl | hmem
  · exact ⟨nofun, by decide⟩
  · refine constructed_numbered (fun v hv => ?_) value hmem
    obtain ⟨g, -, hg⟩ := List.mem_flatMap.mp hv
    obtain ⟨call, -, hcall⟩ := List.mem_filterMap.mp hg
    exact BlockCall.constructed hcall

theorem getElem?_numbered (first i : ℕ) (values : List Value) :
    (numbered first values)[i]? =
      values[i]?.map fun value => { value with id := UInt32.ofNat (first + i) } := by
  induction values generalizing first i with
  | nil => rfl
  | cons value values ih =>
    rcases i with _ | i
    · rfl
    · rw [numbered, List.getElem?_cons_succ, ih, List.getElem?_cons_succ, Nat.add_assoc,
        Nat.add_comm 1 i]

theorem getElem?_builtBlocks (parameters : List TypeId) (block value : ℕ) (control : ValueId)
    (gs : List BlockGroup) (k : ℕ) :
    (builtBlocks types parameters block value control gs)[k]? = gs[k]?.map fun g =>
      { id := UInt32.ofNat (block + k)
        kind := g.kind
        control := g.controls.getLastD (lastControl control (gs.take k))
        values := (List.range'
          (value + ((gs.take k).flatMap (BlockGroup.values types parameters)).length)
          (g.values types parameters).length).map UInt32.ofNat } := by
  induction gs generalizing block value control k with
  | nil => rfl
  | cons g gs ih =>
    rcases k with _ | k
    · rfl
    · rw [builtBlocks, List.getElem?_cons_succ, ih, List.getElem?_cons_succ, List.take_succ_cons,
        List.flatMap_cons, List.length_append, Nat.add_assoc block, Nat.add_comm 1 k,
        ← Nat.add_assoc value, lastControl]

/-- Control values are right in all blocks exactly when none is taken over. -/
theorem controlsGiven_iff (control : ValueId) (gs : List BlockGroup) :
    controlsGiven control gs ↔ ∀ (k : ℕ) (g : BlockGroup), gs[k]? = some g →
      g.controls.getLastD (lastControl control (gs.take k)) = g.controls.getLastD 0 := by
  induction gs generalizing control with
  | nil => simp [controlsGiven]
  | cons g gs ih =>
    have hfirst : (g.controls ≠ [] ∨ control = 0) ↔
        g.controls.getLastD control = g.controls.getLastD 0 := by
      rcases g.controls with _ | ⟨c, cs⟩
      · simp
      · rw [List.getLastD_cons, List.getLastD_cons]
        simp
    rw [controlsGiven, Bool.and_eq_true, Bool.or_eq_true, decide_eq_true_iff,
      decide_eq_true_iff, hfirst, ih]
    constructor
    · rintro ⟨hg, hgs⟩ k g' hk
      rcases k with _ | k
      · obtain rfl := Option.some.inj hk
        exact hg
      · exact hgs k g' hk
    · intro h
      exact ⟨h 0 g rfl, fun k g' hk => h (k + 1) g' hk⟩

variable (types) in
theorem length_values_take (parameters : List TypeId) {gs : List BlockGroup} {k : ℕ}
    {g : BlockGroup} (h : gs[k]? = some g) :
    ((gs.take k).flatMap (BlockGroup.values types parameters)).length +
      (g.values types parameters).length ≤
        (gs.flatMap (BlockGroup.values types parameters)).length := by
  obtain ⟨hlt, rfl⟩ := List.getElem?_eq_some_iff.mp h
  have hsplit : gs.take k ++ gs[k] :: gs.drop (k + 1) = gs := by
    rw [← List.drop_eq_getElem_cons hlt, List.take_append_drop]
  calc ((gs.take k).flatMap (BlockGroup.values types parameters)).length +
        (gs[k].values types parameters).length
      ≤ ((gs.take k ++ gs[k] :: gs.drop (k + 1)).flatMap
          (BlockGroup.values types parameters)).length := by
        rw [List.flatMap_append, List.flatMap_cons, List.length_append, List.length_append]
        omega
    _ = (gs.flatMap (BlockGroup.values types parameters)).length := by rw [hsplit]

theorem map_toNat_ofNat {first count : ℕ} (h : first + count ≤ 2 ^ 32) :
    ((List.range' first count).map UInt32.ofNat).map UInt32.toNat = List.range' first count := by
  rw [List.map_map]
  refine (List.map_congr_left fun i hi => ?_).trans (List.map_id _)
  rw [List.mem_range'_1] at hi
  exact UInt32.toNat_ofNat_of_lt' (by rw [UInt32.size]; omega)

/-- The body that is built is the right one exactly when no block takes over a control value. -/
theorem bodyOf_built_iff {parameters : List TypeId} {control : ValueId} {f : FunctionCalls}
    (hblocks : f.groups.length + 1 ≤ 2 ^ 32 - 1)
    (hvalues : (f.values types parameters).length + 1 ≤ 2 ^ 32 - 1) :
    BodyOf types parameters f (f.built types parameters control) ↔
      controlsGiven control f.groups := by
  rw [controlsGiven_iff]
  have hblock : ∀ k g, f.groups[k]? = some g →
      (f.built types parameters control).blocks[k + 1]? = some
        { id := UInt32.ofNat (1 + k)
          kind := g.kind
          control := g.controls.getLastD (lastControl control (f.groups.take k))
          values := (List.range'
            (1 + ((f.groups.take k).flatMap (BlockGroup.values types parameters)).length)
            (g.values types parameters).length).map UInt32.ofNat } := by
    intro k g hg
    rw [FunctionCalls.built, List.getElem?_cons_succ, getElem?_builtBlocks, hg]
    rfl
  constructor
  · intro h k g hg
    exact h.block_control k g _ hg (hblock k g hg)
  · intro h
    have hlength : (f.built types parameters control).blocks.length = f.groups.length + 1 := by
      rw [FunctionCalls.built, List.length_cons, length_builtBlocks]
    refine ⟨hlength, rfl, fun i block hblock' => ?_, fun i value hvalue => ?_, rfl,
      fun k g block hg hblock' => ?_, fun k g block hg hblock' => ?_,
      fun k g block hg hblock' => ?_, rfl⟩
    · rcases i with _ | k
      · obtain rfl := Option.some.inj hblock'
        rfl
      · have hk : k < f.groups.length := by
          obtain ⟨hlt, -⟩ := List.getElem?_eq_some_iff.mp hblock'
          omega
        rw [hblock k _ (List.getElem?_eq_getElem hk)] at hblock'
        obtain rfl := Option.some.inj hblock'
        rw [Nat.add_comm 1 k]
        exact UInt32.toNat_ofNat_of_lt' (by rw [UInt32.size]; omega)
    · rcases i with _ | i
      · obtain rfl := Option.some.inj hvalue
        rfl
      · obtain ⟨hlt, -⟩ := List.getElem?_eq_some_iff.mp hvalue
        rw [FunctionCalls.built, List.length_cons, length_numbered] at hlt
        rw [FunctionCalls.built, List.getElem?_cons_succ, getElem?_numbered] at hvalue
        obtain ⟨value, -, rfl⟩ := Option.map_eq_some_iff.mp hvalue
        rw [Nat.add_comm 1 i]
        exact UInt32.toNat_ofNat_of_lt' (by rw [UInt32.size]; omega)
    · rfl
    · rw [hblock k g hg] at hblock'
      obtain rfl := Option.some.inj hblock'
      have hle := length_values_take types parameters hg
      refine map_toNat_ofNat ?_
      rw [FunctionCalls.values] at hvalues
      omega
    · rw [hblock k g hg] at hblock'
      obtain rfl := Option.some.inj hblock'
      exact h k g hg

/-- There is only one right body, whatever was built before. -/
theorem BodyOf.unique {parameters : List TypeId} {f : FunctionCalls} {body body' : FunctionBody}
    (h : BodyOf types parameters f body) (h' : BodyOf types parameters f body') :
    body = body' := by
  have hblocks : body.blocks = body'.blocks := by
    refine List.ext_getElem (h.blocks_length.trans h'.blocks_length.symm) fun i hi hi' => ?_
    rcases i with _ | k
    · exact Option.some.inj ((List.getElem?_eq_getElem hi).symm.trans
        (h.sentinel.trans (h'.sentinel.symm.trans (List.getElem?_eq_getElem hi'))))
    · have hk : k < f.groups.length := by
        have := h.blocks_length
        omega
      have hg := List.getElem?_eq_getElem hk
      have hblock := List.getElem?_eq_getElem hi
      have hblock' := List.getElem?_eq_getElem hi'
      have hid := (h.block_id _ _ hblock).trans (h'.block_id _ _ hblock').symm
      have hkind := (h.block_kind _ _ _ hg hblock).trans (h'.block_kind _ _ _ hg hblock').symm
      have hvalues := (h.block_values _ _ _ hg hblock).trans
        (h'.block_values _ _ _ hg hblock').symm
      have hcontrol := (h.block_control _ _ _ hg hblock).trans
        (h'.block_control _ _ _ hg hblock').symm
      rcases hb : body.blocks[k + 1] with ⟨id, kind, control, values⟩
      rcases hb' : body'.blocks[k + 1] with ⟨id', kind', control', values'⟩
      rw [hb, hb'] at hid hkind hvalues hcontrol
      obtain rfl := UInt32.toNat_inj.mp hid
      obtain rfl := hkind
      obtain rfl := hcontrol
      obtain rfl := (List.map_inj_right fun _ _ => UInt32.toNat_inj.mp).mp hvalues
      rfl
  rcases body with ⟨blocks, values, start⟩
  rcases body' with ⟨blocks', values', start'⟩
  obtain rfl : blocks = blocks' := hblocks
  obtain rfl : values = values' := h.values_eq.trans h'.values_eq.symm
  obtain rfl : start = start' := h.start_eq.trans h'.start_eq.symm
  rfl

/-! ### Whole runs -/

theorem buildRun_function_returned {s s' : BuildState} {f : FunctionCalls}
    (hid : s.tbctx.currentFunctionId = 0) (hblock : s.tbctx.currentBlockId = 0)
    (h : buildRun types s f.calls = .returned s') :
    ∃ function, s.functions[f.id.toNat]? = some function ∧
      function.flags.buildDone = false ∧ f.groups.length + 1 ≤ 2 ^ 32 - 1 ∧
      (f.values types function.parameters).length + 1 ≤ 2 ^ 32 - 1 ∧
      BehindFunction types f function s s' := by
  have hbegun := h
  rw [calls_eq_begun, buildRun_append] at hbegun
  obtain ⟨e, he, -⟩ := Outcome.bind_eq_returned.mp hbegun
  obtain ⟨function, hfunction, hprogress, hdone, hlength, -⟩ :=
    buildRun_begun_returned hid hblock he
  obtain ⟨s'', hbehind, heq⟩ :=
    buildRun_function types hid hblock hfunction hprogress hdone hlength
  rw [heq] at h
  obtain ⟨errors, hverify, hreport⟩ := Outcome.bind_eq_returned.mp h
  obtain ⟨count, -, hreturn⟩ := Outcome.bind_eq_returned.mp hreport
  obtain rfl := Outcome.returned.inj hreturn
  obtain ⟨hblocks, hvalues⟩ := length_of_ssaVerifyFunction hverify
  simp only [FunctionCalls.verified, FunctionCalls.built, List.length_cons, length_builtBlocks,
    length_numbered, List.tail_cons] at hblocks hvalues
  refine ⟨function, hfunction, hdone, hblocks, ?_, hbehind⟩
  -- without a block there is no value
  rcases hgroups : f.groups with _ | ⟨g, gs⟩
  · simp [FunctionCalls.values, hgroups]
  · exact hvalues (by rw [hgroups]; simp [builtBlocks])

theorem controlsGiven_append (control : ValueId) (gs gs' : List BlockGroup) :
    controlsGiven control (gs ++ gs') =
      (controlsGiven control gs && controlsGiven (lastControl control gs) gs') := by
  induction gs generalizing control with
  | nil => rfl
  | cons g gs ih =>
    rw [List.cons_append, controlsGiven, ih, controlsGiven, lastControl, Bool.and_assoc]

/-- The function of the calls has the right body. -/
def HasBody (types : BuildTypes) (functions : List Function) (f : FunctionCalls) : Prop :=
  ∃ function, functions[f.id.toNat]? = some function ∧
    BodyOf types function.parameters f function.buildBody

/-- A run from between two functions. A function that is built keeps its body, and the bodies of
the run are right exactly when no control value is taken over. -/
theorem buildRun_functions {s s' : BuildState} {fs : List FunctionCalls}
    (hid : s.tbctx.currentFunctionId = 0) (hblock : s.tbctx.currentBlockId = 0)
    (h : buildRun types s (fs.flatMap FunctionCalls.calls) = .returned s') :
    (∀ (i : ℕ) (function : Function), s.functions[i]? = some function →
      function.flags.buildDone → s'.functions[i]? = some function) ∧
    ((∀ f ∈ fs, HasBody types s'.functions f) ↔
      controlsGiven s.tbctx.blockCtrlValue (fs.flatMap FunctionCalls.groups)) := by
  induction fs generalizing s with
  | nil =>
    obtain rfl := Outcome.returned.inj h
    exact ⟨fun _ _ hfunction _ => hfunction, by simp [controlsGiven]⟩
  | cons f fs ih =>
    rw [List.flatMap_cons, buildRun_append] at h
    obtain ⟨s₁, hfirst, hrest⟩ := Outcome.bind_eq_returned.mp h
    obtain ⟨function, hfunction, hdone, hblocks, hvalues, hbehind⟩ :=
      buildRun_function_returned hid hblock hfirst
    obtain ⟨hkeep, hbodies⟩ := ih hbehind.currentFunctionId hbehind.currentBlockId hrest
    obtain ⟨hlt, -⟩ := List.getElem?_eq_some_iff.mp hfunction
    have hbuilt : s'.functions[f.id.toNat]? = some
        { function with
          flags := { function.flags with inProgress := false, buildDone := true }
          buildBody := f.built types function.parameters s.tbctx.blockCtrlValue } := by
      refine hkeep _ _ ?_ rfl
      rw [hbehind.functions, List.getElem?_set_self hlt]
    have hbody : HasBody types s'.functions f ↔
        controlsGiven s.tbctx.blockCtrlValue f.groups := by
      rw [← bodyOf_built_iff hblocks hvalues, HasBody, hbuilt]
      simp
    refine ⟨fun i g hg hgdone => ?_, ?_⟩
    · refine hkeep i g ?_ hgdone
      rw [hbehind.functions, List.getElem?_set_ne, hg]
      rintro rfl
      rw [hfunction] at hg
      obtain rfl := Option.some.inj hg
      rw [hdone] at hgdone
      cases hgdone
    · rw [List.forall_mem_cons, hbody, hbodies, hbehind.control, List.flatMap_cons,
        controlsGiven_append, Bool.and_eq_true]

/-- The assertions of the builder and the verifier hold: every function is there, is built once
and was not built before, its ids fit into 32 bits, and the callback does not panic. -/
structure Legal (types : BuildTypes) (s : BuildState) (fs : List FunctionCalls) : Prop where
  callback : s.tbctx.errorCallback ≠ .panics
  nodup : (fs.map FunctionCalls.id).Nodup
  free : ∀ f ∈ fs, ∃ function, s.functions[f.id.toNat]? = some function ∧
    function.flags.inProgress = false ∧ function.flags.buildDone = false ∧
    f.groups.length + 1 ≤ 2 ^ 32 - 1 ∧
    (f.values types function.parameters).length + 1 ≤ 2 ^ 32 - 1

theorem buildRun_function_legal {s : BuildState} {f : FunctionCalls} {fs : List FunctionCalls}
    (hid : s.tbctx.currentFunctionId = 0) (hblock : s.tbctx.currentBlockId = 0)
    (h : Legal types s (f :: fs)) :
    ∃ s', buildRun types s f.calls = .returned s' ∧ s'.tbctx.currentFunctionId = 0 ∧
      s'.tbctx.currentBlockId = 0 ∧ Legal types s' fs := by
  obtain ⟨function, hfunction, hprogress, hdone, hblocks, hvalues⟩ := h.free f List.mem_cons_self
  obtain ⟨s', hbehind, heq⟩ :=
    buildRun_function types hid hblock hfunction hprogress hdone (by omega)
  have hconstructed : ∀ value ∈
      (f.verified types s.tbctx.blockCtrlValue function).buildBody.values, value.Constructed :=
    f.constructed_built _ _
  obtain ⟨errors, hverify, -⟩ := ssaVerifyFunction_returned types.memory
    (by simpa [FunctionCalls.verified, FunctionCalls.built, length_builtBlocks] using hblocks)
    (by simpa [FunctionCalls.verified, FunctionCalls.built, length_numbered] using hvalues)
    hconstructed
  have hreport : ssaReport s.tbctx.errorCallback errors = .returned errors.length := by
    rcases hcallback : s.tbctx.errorCallback with _ | _ | _
    · rfl
    · rfl
    · exact absurd hcallback h.callback
  refine ⟨s', ?_, hbehind.currentFunctionId, hbehind.currentBlockId, ?_, ?_, ?_⟩
  · rw [heq, hverify, Outcome.returned_bind, hreport]
    rfl
  · rw [hbehind.errorCallback]
    exact h.callback
  · exact (List.nodup_cons.mp h.nodup).2
  · intro g hg
    obtain ⟨function', hfunction', hfree⟩ := h.free g (List.mem_cons_of_mem f hg)
    refine ⟨function', ?_, hfree⟩
    rw [hbehind.functions, List.getElem?_set_ne, hfunction']
    intro heq'
    refine (List.nodup_cons.mp h.nodup).1 ?_
    rw [UInt32.toNat_inj.mp heq']
    exact List.mem_map_of_mem hg

theorem buildRun_legal {s : BuildState} {fs : List FunctionCalls}
    (hid : s.tbctx.currentFunctionId = 0) (hblock : s.tbctx.currentBlockId = 0)
    (h : Legal types s fs) :
    ∃ s', buildRun types s (fs.flatMap FunctionCalls.calls) = .returned s' := by
  induction fs generalizing s with
  | nil => exact ⟨s, rfl⟩
  | cons f fs ih =>
    obtain ⟨s₁, hfirst, hid₁, hblock₁, hlegal⟩ := buildRun_function_legal hid hblock h
    obtain ⟨s', hrest⟩ := ih hid₁ hblock₁ hlegal
    refine ⟨s', ?_⟩
    rw [List.flatMap_cons, buildRun_append, hfirst]
    exact hrest

/-- Functions built one after another in a new context. The calls get through if they are legal,
and then every function has the body that belongs to its calls, and to them alone, exactly when
no block without a control value of its own comes behind one that was given a control value. -/
theorem buildRun_bodies_iff (types : BuildTypes) (errorCallback : SsaVerifyErrorCallback)
    (functions : List Function) (fs : List FunctionCalls) :
    (Legal types ⟨threadBuildContextNew errorCallback, functions⟩ fs →
      ∃ s, buildRun types ⟨threadBuildContextNew errorCallback, functions⟩
        (fs.flatMap FunctionCalls.calls) = .returned s) ∧
    (∀ s, buildRun types ⟨threadBuildContextNew errorCallback, functions⟩
        (fs.flatMap FunctionCalls.calls) = .returned s →
      ((∀ f ∈ fs, HasBody types s.functions f) ↔
        controlsGiven 0 (fs.flatMap FunctionCalls.groups))) ∧
    ∀ parameters f body body', BodyOf types parameters f body →
      BodyOf types parameters f body' → body = body' :=
  ⟨fun h => buildRun_legal rfl rfl h, fun _ h => (buildRun_functions rfl rfl h).2,
    fun _ _ _ _ h h' => h.unique h'⟩

/-- Two blocks, of which only the first is given a control value. -/
def leakingCalls : FunctionCalls where
  id := 1
  items := [.block ⟨.exit, [.initMemory, .setControl 1]⟩, .block ⟨.exit, [.const32 69]⟩]

/-- The second one takes it over. -/
theorem buildRun_control_leaks :
    ∃ s, buildRun ⟨1, 2⟩ ⟨threadBuildContextNew .none, [{}, {}]⟩ leakingCalls.calls =
        .returned s ∧ ¬HasBody ⟨1, 2⟩ s.functions leakingCalls := by
  have hlegal : Legal ⟨1, 2⟩ ⟨threadBuildContextNew .none, [{}, {}]⟩ [leakingCalls] := by
    refine ⟨by decide, by simp, fun f hf => ?_⟩
    obtain rfl := List.mem_singleton.mp hf
    exact ⟨{}, rfl, rfl, rfl, by decide, by decide⟩
  obtain ⟨s, hs⟩ := buildRun_legal rfl rfl hlegal
  have hbodies := (buildRun_functions rfl rfl hs).2
  rw [List.forall_mem_singleton] at hbodies
  rw [List.flatMap_singleton] at hs
  refine ⟨s, hs, ?_⟩
  rw [hbodies]
  decide

end Wasim.Wopt
