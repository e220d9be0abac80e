import Wasim.Library.Threads
import Wasim.Wopt.BuildRuns

/-!
# Builders side by side

Several threads build functions of one module at the same time, each with a context of its own.
A step is one access to the module, or what a call does on its own context: a call is the list of
its accesses (`BuildCall.actions`), and taken one after another they are the call
(`actRun_actions`). The threads take turns between any two of them.

Contexts that build different functions keep to themselves: a step reads and writes no function
but the one that is built (`act_own`). Every context gets through, and leaves its functions as if
it had been alone (`builders_separate`).
-/

namespace Wasim.Wopt

/-! ### Calls, access by access -/

inductive BuildAction
  /-- A call that does not write to the module. -/
  | call (call : BuildCall)
  -- `build_function_begin`
  | fetchOr (id : FunctionId)
  | check (id : FunctionId)
  -- `build_function_end`
  | writeBlocks
  | writeValues
  | writeStart
  | readFlags
  | writeFlags
  | verify
  | fetchAnd
  | clear
  deriving DecidableEq, Repr

def BuildCall.actions : BuildCall → List BuildAction
  | .functionBegin id => [.fetchOr id, .check id]
  | .functionEnd => [.writeBlocks, .writeValues, .writeStart, .readFlags, .writeFlags, .verify,
      .fetchAnd, .clear]
  | call => [.call call]

theorem BuildCall.actions_functionBegin (id : FunctionId) :
    (BuildCall.functionBegin id).actions = [.fetchOr id, .check id] := rfl

theorem BuildCall.actions_functionEnd : BuildCall.functionEnd.actions =
    [.writeBlocks, .writeValues, .writeStart, .readFlags, .writeFlags, .verify, .fetchAnd,
      .clear] := rfl

/-- A write to the current function. -/
def BuildState.update (s : BuildState) (change : Function → Function) : Outcome BuildState := do
  let i ← deref s.tbctx.currentFunction
  let function ← index s.functions i
  return { s with functions := s.functions.set i (change function) }

/-- An action on the state, with the flags that the thread has read. -/
def act (types : BuildTypes) (s : BuildState) (flags : FunctionFlags) :
    BuildAction → Outcome (BuildState × FunctionFlags)
  | .call call => do
    let s ← buildStep types s call
    return (s, flags)
  | .fetchOr id => do
    assert (s.tbctx.currentFunctionId = 0)
    let function ← index s.functions id.toNat
    let marked := { function with flags := { function.flags with inProgress := true } }
    return ({ s with functions := s.functions.set id.toNat marked }, function.flags)
  | .check id => do
    assert (!flags.inProgress)
    assert (!flags.buildDone)
    let tbctx := { s.tbctx with
      currentFunctionId := id
      currentFunction := some id.toNat
      blocks := [{}]
      values := [{}]
      startBlock := 0 }
    return ({ s with tbctx }, flags)
  | .writeBlocks => do
    let s ← s.update fun function =>
      { function with buildBody := { function.buildBody with blocks := s.tbctx.blocks } }
    return (s, flags)
  | .writeValues => do
    let s ← s.update fun function =>
      { function with buildBody := { function.buildBody with values := s.tbctx.values } }
    return (s, flags)
  | .writeStart => do
    let s ← s.update fun function =>
      { function with buildBody := { function.buildBody with start := s.tbctx.startBlock } }
    return (s, flags)
  | .readFlags => do
    let i ← deref s.tbctx.currentFunction
    let function ← index s.functions i
    return (s, function.flags)
  | .writeFlags => do
    let s ← s.update fun function => { function with flags := { flags with buildDone := true } }
    return (s, flags)
  | .verify => do
    -- the pointer to the function was followed before
    let _ ← deref s.tbctx.currentFunction
    let verified ← index s.functions s.tbctx.currentFunctionId.toNat
    let errors ← ssaVerifyFunction types.memory verified
    let _ ← ssaReport s.tbctx.errorCallback errors
    return (s, flags)
  | .fetchAnd => do
    let s ← s.update fun function =>
      { function with flags := { function.flags with inProgress := false } }
    return (s, flags)
  | .clear =>
    let tbctx := { s.tbctx with currentFunctionId := 0, currentFunction := none }
    return ({ s with tbctx }, flags)

def actRun (types : BuildTypes) : BuildState → FunctionFlags → List BuildAction →
    Outcome BuildState
  | s, _, [] => .returned s
  | s, flags, action :: actions => do
    let r ← act types s flags action
    actRun types r.1 r.2 actions

/-- A thread with its context, the flags it has read, and the actions it has before it. -/
structure Builder where
  tbctx : ThreadBuildContext
  flags : FunctionFlags := {}
  todo : List BuildAction

/-- The steps of a thread. One whose action crashes takes none. -/
def builderStep (types : BuildTypes) {ι : Type} (_ : ι) (functions : List Function) (l : Builder)
    (functions' : List Function) (l' : Builder) : Prop :=
  ∃ action, l.todo = action :: l'.todo ∧
    act types ⟨l.tbctx, functions⟩ l.flags action = .returned (⟨l'.tbctx, functions'⟩, l'.flags)

/-- New contexts with functions to build. -/
def buildersStart {ι : Type} (functions : List Function) (callback : ι → SsaVerifyErrorCallback)
    (fs : ι → List FunctionCalls) : Threads.Config ι (List Function) Builder :=
  ⟨functions, fun i => {
    tbctx := threadBuildContextNew (callback i)
    todo := ((fs i).flatMap FunctionCalls.calls).flatMap BuildCall.actions }⟩

variable {types : BuildTypes}

/-! ### The actions of a call make up the call -/

theorem update_eq {s : BuildState} {i : ℕ} {function : Function}
    (hcurrent : s.tbctx.currentFunction = some i) (hfunction : s.functions[i]? = some function)
    (change : Function → Function) :
    s.update change = .returned { s with functions := s.functions.set i (change function) } := by
  rw [BuildState.update, hcurrent, deref, Outcome.returned_bind, index, hfunction]
  rfl

theorem actRun_actions (call : BuildCall) {rest : List BuildAction}
    {next : BuildState → Outcome BuildState}
    (hnext : ∀ s flags, actRun types s flags rest = next s) (s : BuildState)
    (flags : FunctionFlags) :
    actRun types s flags (call.actions ++ rest) = buildStep types s call >>= next := by
  have hcall : ∀ call : BuildCall, actRun types s flags (.call call :: rest) =
      buildStep types s call >>= next := by
    intro call
    rw [actRun, act]
    rcases buildStep types s call with s' | _ | _
    · exact hnext s' flags
    · rfl
    · rfl
  cases call with
  | functionBegin id =>
    simp only [BuildCall.actions_functionBegin, List.cons_append, List.nil_append, actRun, act,
      buildStep, buildFunctionBegin]
    by_cases hid : s.tbctx.currentFunctionId = 0
    · rcases hfunction : s.functions[id.toNat]? with _ | function
      · simp [assert, hid, index, hfunction]
      · rcases hprogress : function.flags.inProgress <;> rcases hdone : function.flags.buildDone <;>
          simp [assert, hid, index, hfunction, hprogress, hdone, hnext]
    · simp [assert, hid]
  | functionEnd =>
    simp only [BuildCall.actions_functionEnd, List.cons_append, List.nil_append, actRun, act,
      buildStep, buildFunctionEnd]
    rcases hcurrent : s.tbctx.currentFunction with _ | i
    · simp [BuildState.update, hcurrent, deref]
      rfl
    · rcases hfunction : s.functions[i]? with _ | function
      · simp [BuildState.update, hcurrent, deref, index, hfunction]
        rfl
      · have hlt := (List.getElem?_eq_some_iff.mp hfunction).1
        have hset : ∀ function, (s.functions.set i function)[i]? = some function :=
          fun _ => List.getElem?_set_self hlt
        have hupdate : ∀ function change,
            BuildState.update ⟨s.tbctx, s.functions.set i function⟩ change =
              .returned ⟨s.tbctx, s.functions.set i (change function)⟩ := by
          intro function change
          have heq := update_eq (s := ⟨s.tbctx, s.functions.set i function⟩) hcurrent
            (hset function) change
          rw [heq, List.set_set]
        simp only [update_eq hcurrent hfunction, hupdate, Outcome.pure_eq, Outcome.returned_bind,
          hcurrent, deref, index, hset, hfunction]
        rcases hverified : (s.functions.set i { function with
          buildBody := ⟨s.tbctx.blocks, s.tbctx.values, s.tbctx.startBlock⟩
          flags := { function.flags with buildDone := true } })[s.tbctx.currentFunctionId.toNat]?
          with _ | verified
        · simp
          rfl
        simp only [Outcome.returned_bind]
        rcases ssaVerifyFunction types.memory verified with errors | _ | _
        · simp only [Outcome.returned_bind]
          rcases ssaReport s.tbctx.errorCallback errors with _ | _ | _
          · simp only [Outcome.returned_bind, hupdate, hnext]
            rfl
          · rfl
          · rfl
        · rfl
        · rfl
  | _ => exact hcall _

theorem actRun_calls (s : BuildState) (flags : FunctionFlags) (calls : List BuildCall) :
    actRun types s flags (calls.flatMap BuildCall.actions) = buildRun types s calls := by
  induction calls generalizing s flags with
  | nil => rfl
  | cons call calls ih =>
    rw [List.flatMap_cons, buildRun]
    exact actRun_actions call (fun s flags => ih s flags) s flags

/-! ### What a step reads and writes -/

/-- The functions that are owned are the same. -/
def AgreeOn (own : ℕ → Prop) (functions functions' : List Function) : Prop :=
  functions.length = functions'.length ∧ ∀ k, own k → functions[k]? = functions'[k]?

variable {own : ℕ → Prop} {s t : List Function} {tbctx tbctx' : ThreadBuildContext}

theorem AgreeOn.refl (s : List Function) : AgreeOn own s s := ⟨rfl, fun _ _ => rfl⟩

theorem AgreeOn.symm (h : AgreeOn own s t) : AgreeOn own t s :=
  ⟨h.1.symm, fun k hk => (h.2 k hk).symm⟩

theorem AgreeOn.trans {u : List Function} (h : AgreeOn own s t) (h' : AgreeOn own t u) :
    AgreeOn own s u :=
  ⟨h.1.trans h'.1, fun k hk => (h.2 k hk).trans (h'.2 k hk)⟩

theorem AgreeOn.mono {own' : ℕ → Prop} (h : AgreeOn own s t) (hle : ∀ k, own' k → own k) :
    AgreeOn own' s t :=
  ⟨h.1, fun k hk => h.2 k (hle k hk)⟩

theorem AgreeOn.set (h : AgreeOn own s t) (i : ℕ) (function : Function) :
    AgreeOn own (s.set i function) (t.set i function) := by
  refine ⟨by rw [List.length_set, List.length_set, h.1], fun k hk => ?_⟩
  rw [List.getElem?_set, List.getElem?_set, h.1, h.2 k hk]

theorem agreeOn_set {i : ℕ} (hi : ¬own i) (function : Function) :
    AgreeOn own s (s.set i function) := by
  refine ⟨(List.length_set).symm, fun k hk => ?_⟩
  rw [List.getElem?_set_ne]
  rintro rfl
  exact hi hk

/-- The current function of the context is owned. -/
def ThreadBuildContext.Owns (own : ℕ → Prop) (tbctx : ThreadBuildContext) : Prop :=
  ∀ i, tbctx.currentFunction = some i → own i ∧ tbctx.currentFunctionId.toNat = i

/-- The call begins and ends no function. -/
def BuildCall.Within : BuildCall → Prop
  | functionBegin _ => False
  | functionEnd => False
  | _ => True

def BuildAction.Mine (own : ℕ → Prop) : BuildAction → Prop
  | call c => c.Within
  | fetchOr id => own id.toNat
  | check id => own id.toNat
  | _ => True

/-- The thread reaches for no function that is not owned. -/
structure Builder.Mine (own : ℕ → Prop) (l : Builder) : Prop where
  owns : l.tbctx.Owns own
  todo : ∀ action ∈ l.todo, action.Mine own

/-- An action does the same to functions that agree, and nothing to the others. -/
structure Keeps (types : BuildTypes) (own : ℕ → Prop) (tbctx : ThreadBuildContext)
    (flags : FunctionFlags) (action : BuildAction) (s : List Function) (r : BuildState)
    (flags' : FunctionFlags) : Prop where
  owns : r.tbctx.Owns own
  others : AgreeOn (fun k => ¬own k) s r.functions
  agree : ∀ t, AgreeOn own s t → ∃ t', act types ⟨tbctx, t⟩ flags action =
    .returned (⟨r.tbctx, t'⟩, flags') ∧ AgreeOn own r.functions t'

theorem index_agree (hagree : AgreeOn own s t) {k : ℕ} (hk : own k) : index s k = index t k := by
  rw [index, index, hagree.2 k hk]

/-- A call inside of a function reads at most the current function. -/
theorem buildStep_within {call : BuildCall} (hcall : call.Within) (howns : tbctx.Owns own)
    {r : BuildState} (h : buildStep types ⟨tbctx, s⟩ call = .returned r) :
    r.functions = s ∧ r.tbctx.Owns own ∧ ∀ t, AgreeOn own s t →
      buildStep types ⟨tbctx, t⟩ call = .returned ⟨r.tbctx, t⟩ := by
  cases call with
  | functionBegin id => exact hcall.elim
  | functionEnd => exact hcall.elim
  | beginBlock kind =>
    obtain ⟨r', hbegin, rfl⟩ := Outcome.map_eq_returned.mp h
    obtain ⟨_, hassert, hreturn⟩ := Outcome.bind_eq_returned.mp hbegin
    obtain rfl := Outcome.returned.inj hreturn
    refine ⟨rfl, howns, fun t _ => ?_⟩
    rw [buildStep, buildBeginBlock, hassert]
    rfl
  | endBlock =>
    obtain ⟨_, hassert, h⟩ := Outcome.bind_eq_returned.mp h
    obtain ⟨block, hblock, h⟩ := Outcome.bind_eq_returned.mp h
    obtain rfl := Outcome.returned.inj h
    refine ⟨rfl, howns, fun t _ => ?_⟩
    rw [buildStep, buildEndBlock, hassert, Outcome.returned_bind, hblock]
    rfl
  | blockSetControlValue id =>
    obtain ⟨i, hcurrent, h⟩ := Outcome.bind_eq_returned.mp h
    obtain ⟨block, hblock, h⟩ := Outcome.bind_eq_returned.mp h
    rcases hkind : block.kind
    rw [hkind] at h
    obtain rfl := Outcome.returned.inj h
    refine ⟨rfl, howns, fun t _ => ?_⟩
    rw [buildStep, buildBlockSetControlValue, hcurrent, Outcome.returned_bind, hblock,
      Outcome.returned_bind, hkind]
    rfl
  | setStartBlock id =>
    obtain rfl := Outcome.returned.inj h
    exact ⟨rfl, howns, fun t _ => rfl⟩
  | valueArgument parameterIndex =>
    obtain ⟨r', hcall, rfl⟩ := Outcome.map_eq_returned.mp h
    obtain ⟨i, hcurrent, hrest⟩ := Outcome.bind_eq_returned.mp hcall
    obtain ⟨function, hfunction, hrest⟩ := Outcome.bind_eq_returned.mp hrest
    obtain ⟨value, hvalue, hrest⟩ := Outcome.bind_eq_returned.mp hrest
    obtain rfl := Outcome.returned.inj hrest
    have hi : own i := by
      rcases hsome : tbctx.currentFunction with _ | j
      · simp [hsome, deref] at hcurrent
      · simp only [hsome, deref, Outcome.returned.injEq] at hcurrent
        exact hcurrent ▸ (howns j hsome).1
    refine ⟨rfl, howns, fun t ht => ?_⟩
    rw [buildStep, buildValueArgument, hcurrent, Outcome.returned_bind, ← index_agree ht hi,
      hfunction, Outcome.returned_bind, hvalue]
    rfl
  | valueInitMemory =>
    obtain rfl := Outcome.returned.inj h
    exact ⟨rfl, howns, fun t _ => rfl⟩
  | valueConst32 value =>
    obtain rfl := Outcome.returned.inj h
    exact ⟨rfl, howns, fun t _ => rfl⟩
  | valueReturn id =>
    obtain rfl := Outcome.returned.inj h
    exact ⟨rfl, howns, fun t _ => rfl⟩

theorem ThreadBuildContext.Owns.of_deref (howns : tbctx.Owns own) {i : ℕ}
    (h : deref tbctx.currentFunction = .returned i) :
    own i ∧ tbctx.currentFunctionId.toNat = i := by
  rcases hsome : tbctx.currentFunction with _ | j
  · simp [hsome, deref] at h
  · simp only [hsome, deref, Outcome.returned.injEq] at h
    exact h ▸ howns j hsome

theorem keeps_update (change : Function → Function) {action : BuildAction}
    {flags flags' : FunctionFlags} (howns : tbctx.Owns own) {r : BuildState}
    (haction : ∀ s, act types ⟨tbctx, s⟩ flags action =
      BuildState.update ⟨tbctx, s⟩ change >>= fun s => .returned (s, flags))
    (h : act types ⟨tbctx, s⟩ flags action = .returned (r, flags')) :
    Keeps types own tbctx flags action s r flags' := by
  rw [haction] at h
  obtain ⟨r', hupdate, hreturn⟩ := Outcome.bind_eq_returned.mp h
  obtain ⟨rfl, rfl⟩ := Prod.mk.inj (Outcome.returned.inj hreturn)
  obtain ⟨i, hcurrent, hrest⟩ := Outcome.bind_eq_returned.mp hupdate
  obtain ⟨function, hfunction, hset⟩ := Outcome.bind_eq_returned.mp hrest
  obtain rfl := Outcome.returned.inj hset
  have hi := (howns.of_deref hcurrent).1
  refine ⟨howns, agreeOn_set (fun hnot => hnot hi) _, fun t ht => ?_⟩
  refine ⟨t.set i (change function), ?_, ht.set i _⟩
  rw [haction, BuildState.update, hcurrent, Outcome.returned_bind, ← index_agree ht hi, hfunction]
  rfl

theorem act_keeps {action : BuildAction} {flags flags' : FunctionFlags}
    (hmine : action.Mine own) (howns : tbctx.Owns own) {r : BuildState}
    (h : act types ⟨tbctx, s⟩ flags action = .returned (r, flags')) :
    Keeps types own tbctx flags action s r flags' := by
  cases action with
  | call call =>
    obtain ⟨r', hcall, hreturn⟩ := Outcome.bind_eq_returned.mp h
    obtain ⟨rfl, rfl⟩ := Prod.mk.inj (Outcome.returned.inj hreturn)
    obtain ⟨hfunctions, howns', hagree⟩ := buildStep_within hmine howns hcall
    refine ⟨howns', hfunctions ▸ .refl _, fun t ht => ⟨t, ?_, hfunctions ▸ ht⟩⟩
    rw [act, hagree t ht]
    rfl
  | fetchOr id =>
    obtain ⟨_, hassert, hrest⟩ := Outcome.bind_eq_returned.mp h
    obtain ⟨function, hfunction, hreturn⟩ := Outcome.bind_eq_returned.mp hrest
    obtain ⟨rfl, rfl⟩ := Prod.mk.inj (Outcome.returned.inj hreturn)
    refine ⟨howns, agreeOn_set (fun hnot => hnot hmine) _, fun t ht => ⟨_, ?_, ht.set id.toNat _⟩⟩
    rw [act, hassert, Outcome.returned_bind, ← index_agree ht hmine, hfunction]
    rfl
  | check id =>
    obtain ⟨_, hprogress, hrest⟩ := Outcome.bind_eq_returned.mp h
    obtain ⟨_, hdone, hreturn⟩ := Outcome.bind_eq_returned.mp hrest
    obtain ⟨rfl, rfl⟩ := Prod.mk.inj (Outcome.returned.inj hreturn)
    refine ⟨fun i hi => ?_, .refl s, fun t ht => ⟨t, ?_, ht⟩⟩
    · obtain rfl := Option.some.inj hi
      exact ⟨hmine, rfl⟩
    · rw [act, hprogress, Outcome.returned_bind, hdone]
      rfl
  | writeBlocks =>
    exact keeps_update (fun function =>
      { function with buildBody := { function.buildBody with blocks := tbctx.blocks } }) howns
      (fun _ => rfl) h
  | writeValues =>
    exact keeps_update (fun function =>
      { function with buildBody := { function.buildBody with values := tbctx.values } }) howns
      (fun _ => rfl) h
  | writeStart =>
    exact keeps_update (fun function =>
      { function with buildBody := { function.buildBody with start := tbctx.startBlock } }) howns
      (fun _ => rfl) h
  | readFlags =>
    obtain ⟨i, hcurrent, hrest⟩ := Outcome.bind_eq_returned.mp h
    obtain ⟨function, hfunction, hreturn⟩ := Outcome.bind_eq_returned.mp hrest
    obtain ⟨rfl, rfl⟩ := Prod.mk.inj (Outcome.returned.inj hreturn)
    refine ⟨howns, .refl s, fun t ht => ⟨t, ?_, ht⟩⟩
    rw [act, hcurrent, Outcome.returned_bind, ← index_agree ht (howns.of_deref hcurrent).1,
      hfunction]
    rfl
  | writeFlags =>
    exact keeps_update (fun function =>
      { function with flags := { flags with buildDone := true } }) howns (fun _ => rfl) h
  | verify =>
    obtain ⟨i, hcurrent, hrest⟩ := Outcome.bind_eq_returned.mp h
    obtain ⟨hi, hid⟩ := howns.of_deref hcurrent
    obtain ⟨function, hfunction, hrest⟩ := Outcome.bind_eq_returned.mp hrest
    obtain ⟨errors, herrors, hrest⟩ := Outcome.bind_eq_returned.mp hrest
    obtain ⟨count, hcount, hreturn⟩ := Outcome.bind_eq_returned.mp hrest
    obtain ⟨rfl, rfl⟩ := Prod.mk.inj (Outcome.returned.inj hreturn)
    refine ⟨howns, .refl s, fun t ht => ⟨t, ?_, ht⟩⟩
    have hown : own tbctx.currentFunctionId.toNat := by rwa [hid]
    rw [act, hcurrent, Outcome.returned_bind, ← index_agree ht hown, hfunction,
      Outcome.returned_bind, herrors, Outcome.returned_bind, hcount]
    rfl
  | fetchAnd =>
    exact keeps_update (fun function =>
      { function with flags := { function.flags with inProgress := false } }) howns
      (fun _ => rfl) h
  | clear =>
    obtain ⟨rfl, rfl⟩ := Prod.mk.inj (Outcome.returned.inj h)
    refine ⟨fun i hi => ?_, .refl s, fun t ht => ⟨t, rfl, ht⟩⟩
    cases hi

theorem builderStep_own {ι : Type} {i : ι} {s' : List Function} {l l' : Builder}
    (hl : l.Mine own) (h : builderStep types i s l s' l') :
    l'.Mine own ∧ AgreeOn (fun k => ¬own k) s s' ∧ ∀ t, AgreeOn own s t →
      ∃ t', builderStep types i t l t' l' ∧ AgreeOn own s' t' := by
  obtain ⟨action, htodo, hact⟩ := h
  have haction : action ∈ l.todo := htodo ▸ List.mem_cons_self
  have hkeeps := act_keeps (hl.todo action haction) hl.owns hact
  refine ⟨⟨hkeeps.owns, fun a ha => hl.todo a (htodo ▸ List.mem_cons_of_mem action ha)⟩,
    hkeeps.others, fun t ht => ?_⟩
  obtain ⟨t', hact', ht'⟩ := hkeeps.agree t ht
  exact ⟨t', ⟨action, htodo, hact'⟩, ht'⟩

/-! ### Contexts that build different functions -/

/-- The functions that the calls build. -/
def Builds (fs : List FunctionCalls) (k : ℕ) : Prop := ∃ f ∈ fs, f.id.toNat = k

/-- Every context is used legally, and no function is built in two of them. -/
structure Separate {ι : Type} (types : BuildTypes) (functions : List Function)
    (callback : ι → SsaVerifyErrorCallback) (fs : ι → List FunctionCalls) : Prop where
  legal : ∀ i, Legal types ⟨threadBuildContextNew (callback i), functions⟩ (fs i)
  disjoint : ∀ i j, i ≠ j → ∀ k, Builds (fs i) k → ¬Builds (fs j) k

theorem BlockCall.within (call : BlockCall) : call.call.Within := by
  cases call <;> trivial

theorem FunctionItem.within {item : FunctionItem} {call : BuildCall} (h : call ∈ item.calls) :
    call.Within := by
  rcases item with g | id
  · simp only [FunctionItem.calls, BlockGroup.calls, List.mem_cons, List.mem_append, List.mem_map,
      List.not_mem_nil, or_false] at h
    obtain rfl | ⟨c, -, rfl⟩ | rfl := h
    · trivial
    · exact c.within
    · trivial
  · obtain rfl := List.mem_singleton.mp h
    trivial

theorem BuildCall.Within.mine {call : BuildCall} (h : call.Within) {action : BuildAction}
    (haction : action ∈ call.actions) : action.Mine own := by
  cases call with
  | functionBegin id => exact h.elim
  | functionEnd => exact h.elim
  | _ =>
    obtain rfl := List.mem_singleton.mp haction
    exact h

theorem mine_calls {fs : List FunctionCalls} {action : BuildAction}
    (h : action ∈ (fs.flatMap FunctionCalls.calls).flatMap BuildCall.actions) :
    action.Mine (Builds fs) := by
  obtain ⟨call, hcall, haction⟩ := List.mem_flatMap.mp h
  obtain ⟨f, hf, hmem⟩ := List.mem_flatMap.mp hcall
  rw [FunctionCalls.calls, List.mem_cons, List.mem_append, List.mem_singleton] at hmem
  obtain rfl | hitems | rfl := hmem
  · simp only [BuildCall.actions_functionBegin, List.mem_cons, List.not_mem_nil, or_false]
      at haction
    obtain rfl | rfl := haction
    · exact ⟨f, hf, rfl⟩
    · exact ⟨f, hf, rfl⟩
  · obtain ⟨item, -, hitem⟩ := List.mem_flatMap.mp hitems
    exact (FunctionItem.within hitem).mine haction
  · simp only [BuildCall.actions_functionEnd, List.mem_cons, List.not_mem_nil, or_false]
      at haction
    obtain rfl | rfl | rfl | rfl | rfl | rfl | rfl | rfl := haction <;> trivial

/-- A thread on its own has the rest of its run before it. -/
theorem actRun_alone {ι : Type} {i : ι} {p q : List Function × Builder}
    (h : Threads.Alone (builderStep types) i p q) :
    actRun types ⟨p.2.tbctx, p.1⟩ p.2.flags p.2.todo =
      actRun types ⟨q.2.tbctx, q.1⟩ q.2.flags q.2.todo := by
  induction h with
  | refl => rfl
  | tail _ hstep ih =>
    obtain ⟨action, htodo, hact⟩ := hstep
    rw [ih, htodo, actRun, hact]
    rfl

variable {ι : Type} [DecidableEq ι] {functions : List Function}
  {callback : ι → SsaVerifyErrorCallback} {fs : ι → List FunctionCalls}

/-- Functions of one module, built in different contexts side by side: however the threads take
turns, no thread is ever stopped, one that is through has the context and the functions that its
calls make when no other thread is there, and functions that nobody builds are left alone. -/
theorem builders_separate (hsep : Separate types functions callback fs)
    {c : Threads.Config ι (List Function) Builder}
    (h : Threads.Reach (builderStep types) (buildersStart functions callback fs) c) :
    (∀ i, (c.locals i).todo ≠ [] →
      ∃ functions' l', builderStep types i c.shared (c.locals i) functions' l') ∧
    (∀ i, (c.locals i).todo = [] → ∃ s,
      buildRun types ⟨threadBuildContextNew (callback i), functions⟩
        ((fs i).flatMap FunctionCalls.calls) = .returned s ∧
      (c.locals i).tbctx = s.tbctx ∧ AgreeOn (Builds (fs i)) c.shared s.functions) ∧
    AgreeOn (fun k => ∀ i, ¬Builds (fs i) k) c.shared functions := by
  have hmine : ∀ i, ((buildersStart functions callback fs).locals i).Mine (Builds (fs i)) := by
    refine fun i => ⟨fun k hk => ?_, fun action => mine_calls⟩
    cases hk
  have hown : ∀ (i : ι) s t (l : Builder) s' l', l.Mine (Builds (fs i)) →
      AgreeOn (Builds (fs i)) s t → builderStep types i s l s' l' → l'.Mine (Builds (fs i)) ∧
        ∃ t', builderStep types i t l t' l' ∧ AgreeOn (Builds (fs i)) s' t' := by
    intro i s t l s' l' hl ht hstep
    obtain ⟨hl', -, hagree⟩ := builderStep_own hl hstep
    exact ⟨hl', hagree t ht⟩
  have hothers : ∀ (i : ι) s (l : Builder) s' l', l.Mine (Builds (fs i)) →
      builderStep types i s l s' l' → ∀ j, j ≠ i → ∀ t, AgreeOn (Builds (fs j)) s t →
        AgreeOn (Builds (fs j)) s' t := by
    intro i s l s' l' hl hstep j hne t ht
    have hsame := (builderStep_own hl hstep).2.1.mono fun k => hsep.disjoint j i hne k
    exact hsame.symm.trans ht
  have halone := Threads.Reach.alone (fun i => AgreeOn (Builds (fs i)))
    (fun i => Builder.Mine (Builds (fs i))) hown hothers h hmine fun _ => .refl _
  have hrest : ∀ i, ∃ s t, buildRun types ⟨threadBuildContextNew (callback i), functions⟩
      ((fs i).flatMap FunctionCalls.calls) = .returned s ∧
      AgreeOn (Builds (fs i)) c.shared t ∧ (c.locals i).Mine (Builds (fs i)) ∧
      actRun types ⟨(c.locals i).tbctx, t⟩ (c.locals i).flags (c.locals i).todo =
        .returned s := by
    intro i
    obtain ⟨hi, t, hrun, ht⟩ := halone i
    obtain ⟨s, hs⟩ := buildRun_legal rfl rfl (hsep.legal i)
    exact ⟨s, t, hs, ht, hi,
      (actRun_alone hrun).symm.trans ((actRun_calls _ _ _).trans hs)⟩
  refine ⟨fun i htodo => ?_, fun i htodo => ?_, ?_⟩
  · obtain ⟨s, t, -, ht, hi, hrun⟩ := hrest i
    obtain ⟨action, todo, heq⟩ := List.exists_cons_of_ne_nil htodo
    rw [heq, actRun] at hrun
    obtain ⟨⟨⟨tbctx, functions'⟩, flags⟩, hact, -⟩ := Outcome.bind_eq_returned.mp hrun
    -- what the thread does on its own, it does here
    have hstep : builderStep types i t (c.locals i) functions' ⟨tbctx, flags, todo⟩ :=
      ⟨action, heq, hact⟩
    obtain ⟨t', hstep', -⟩ := (builderStep_own hi hstep).2.2 c.shared ht.symm
    exact ⟨t', _, hstep'⟩
  · obtain ⟨s, t, hs, ht, -, hrun⟩ := hrest i
    rw [htodo] at hrun
    obtain rfl := Outcome.returned.inj hrun
    exact ⟨_, hs, rfl, ht⟩
  · obtain ⟨-, hframe, -⟩ := h.invariant
      (I := fun _ s => AgreeOn (fun k => ∀ i, ¬Builds (fs i) k) s functions)
      (A := fun (_ : Unit) i _ l => l.Mine (Builds (fs i)))
      (fun g i s l s' l' hI hl hstep => ⟨g, ((builderStep_own hl hstep).2.1.mono
        fun k hk => hk i).symm.trans hI, (builderStep_own hl hstep).1, fun _ _ _ h => h⟩)
      ⟨(), .refl _, hmine⟩
    exact hframe

/-- A function for each of two threads. -/
def callsOfTwo (i : Fin 2) : List FunctionCalls :=
  [{ id := UInt32.ofNat (i.val + 1), items := [.block ⟨.exit, [.initMemory, .setControl 1]⟩] }]

/-- Both have begun, and the first one takes the next step. -/
theorem builders_separate_two : ∃ c : Threads.Config (Fin 2) (List Function) Builder,
    Threads.Reach (builderStep ⟨1, 2⟩)
      (buildersStart [{}, {}, {}] (fun _ => .none) callsOfTwo) c ∧
    c.shared.map (·.flags.inProgress) = [false, true, true] ∧
    ∃ functions' l', builderStep ⟨1, 2⟩ 0 c.shared (c.locals 0) functions' l' := by
  have hsep : Separate ⟨1, 2⟩ [{}, {}, {}] (fun _ => .none) callsOfTwo := by
    refine ⟨fun i => ⟨by decide, by simp [callsOfTwo], fun f hf => ?_⟩, fun i j hne k hi hj => ?_⟩
    · obtain rfl := List.mem_singleton.mp hf
      refine ⟨{}, ?_, rfl, rfl, ?_, ?_⟩ <;> decide +revert
    · obtain ⟨f, hf, rfl⟩ := hi
      obtain ⟨g, hg, hid⟩ := hj
      obtain rfl := List.mem_singleton.mp hf
      obtain rfl := List.mem_singleton.mp hg
      clear hf hg
      revert i j
      decide
  let first : Threads.Config (Fin 2) (List Function) Builder :=
    buildersStart [{}, {}, {}] (fun _ => .none) callsOfTwo
  have hreach : Threads.Reach (builderStep ⟨1, 2⟩) first _ :=
    (Relation.ReflTransGen.refl.tail ⟨0, _, ⟨_, _, _⟩, ⟨_, rfl, rfl⟩, rfl⟩).tail
      ⟨1, _, ⟨_, _, _⟩, ⟨_, rfl, rfl⟩, rfl⟩
  refine ⟨_, hreach, rfl, (builders_separate hsep hreach).1 0 ?_⟩
  decide

end Wasim.Wopt
