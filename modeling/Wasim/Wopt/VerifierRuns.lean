import Mathlib.Tactic.Common
import Wasim.Wopt.BuildRuns

/-!
# The end of a function

What `build_function_end` answers behind any calls that build a function
(`buildFunctionEnd_eq_zero_iff`). The arrays of the context abort before an id does not fit into
32 bits, so the verifier gets through, it indexes nothing out of bounds, and the number of errors
is 0 exactly when the function verifies.
-/

namespace Wasim.Wopt

variable {types : BuildTypes}

/-! ### Built bodies -/

/-- A block lists values of its function only. -/
theorem FunctionCalls.listed_built (parameters : List TypeId) (control : ValueId)
    (f : FunctionCalls) :
    ∀ block ∈ (f.built types parameters control).blocks.tail, ∀ id ∈ block.values,
      id.toNat < (f.built types parameters control).values.length := by
  intro block hblock id hid
  obtain ⟨k, hk⟩ := List.getElem?_of_mem hblock
  rw [FunctionCalls.built, List.tail_cons, getElem?_builtBlocks, Option.map_eq_some_iff] at hk
  obtain ⟨g, hg, rfl⟩ := hk
  obtain ⟨i, hi, rfl⟩ := List.mem_map.mp hid
  have hle := length_values_take types parameters hg
  rw [List.mem_range'_1] at hi
  rw [FunctionCalls.built, List.length_cons, length_numbered, FunctionCalls.values,
    UInt32.toNat_ofNat']
  refine (Nat.mod_le _ _).trans_lt ?_
  omega

theorem Function.verifies_flags {memory : TypeId} {function : Function} {flags : FunctionFlags}
    (h : function.Verifies memory) : Function.Verifies memory { function with flags } :=
  ⟨h.start, h.control, fun block hb id hid value hvalue =>
    have hok := h.values block hb id hid value hvalue
    ⟨hok.argument, hok.returned⟩⟩

/-- The ids of full arrays fit. -/
theorem ThreadBuildContext.FitsXar.ids {tbctx : ThreadBuildContext} (h : tbctx.FitsXar) :
    tbctx.blocks.length ≤ 2 ^ 32 - 1 ∧ tbctx.values.length ≤ 2 ^ 32 - 1 :=
  ⟨h.blocks.trans (by decide), h.values.trans (by decide)⟩

/-- Behind the calls up to the end of a function, the end gets through, and it answers 0 exactly
when the function verifies. -/
theorem buildFunctionEnd_eq_zero_iff {s e : BuildState} {f : FunctionCalls}
    (hid : s.tbctx.currentFunctionId = 0) (hblock : s.tbctx.currentBlockId = 0)
    (hcallback : s.tbctx.errorCallback ≠ .panics)
    (h : buildRunXar types s f.begun = .returned e) :
    ∃ function e' count, e.functions[f.id.toNat]? = some function ∧
      buildFunctionEnd types e = .returned (e', count) ∧
      (count = 0 ↔ Function.Verifies types.memory { function with
        buildBody := ⟨e.tbctx.blocks, e.tbctx.values, e.tbctx.startBlock⟩ }) := by
  obtain ⟨hrun, hfits⟩ := buildRunXar_returned h
  obtain ⟨hfitsblocks, hfitsvalues⟩ := (hfits (List.cons_ne_nil _ _)).ids
  obtain ⟨function, hfunction, -, -, -, rfl⟩ := buildRun_begun_returned hid hblock hrun
  obtain ⟨e', -, hend⟩ := buildFunctionEnd_eq types hblock hfunction
  have hbody := body_behindItems types s f function
  have hfunctions := (behindItems_spec types function.parameters
    (atFunction s f.id function) f.items).functions
  set e := behindItems types function.parameters (atFunction s f.id function) f.items
  have hblocks : e.tbctx.blocks =
      (f.built types function.parameters s.tbctx.blockCtrlValue).blocks :=
    congrArg FunctionBody.blocks hbody
  have hvalues : e.tbctx.values =
      (f.built types function.parameters s.tbctx.blockCtrlValue).values :=
    congrArg FunctionBody.values hbody
  rw [hblocks] at hfitsblocks
  rw [hvalues] at hfitsvalues
  have hconstructed : ∀ value ∈
      (f.verified types s.tbctx.blockCtrlValue function).buildBody.values, value.Constructed :=
    f.constructed_built _ _
  obtain ⟨errors, hverify, hnil⟩ :=
    ssaVerifyFunction_returned types.memory hfitsblocks hfitsvalues hconstructed
  have hreport : ssaReport s.tbctx.errorCallback errors = .returned errors.length := by
    rcases hcallback' : s.tbctx.errorCallback with _ | _ | _
    · rfl
    · rfl
    · exact absurd hcallback' hcallback
  obtain ⟨hlt, -⟩ := List.getElem?_eq_some_iff.mp hfunction
  refine ⟨{ function with flags := { function.flags with inProgress := true } }, e',
    errors.length, ?_, ?_, ?_⟩
  · rw [hfunctions, atFunction, List.getElem?_set_self hlt]
  · rw [hend, hverify, Outcome.returned_bind, hreport]
    rfl
  · rw [hbody, List.length_eq_zero_iff, hnil]
    exact ⟨fun hok => Function.verifies_flags hok.1, fun hok =>
      ⟨Function.verifies_flags hok, f.listed_built function.parameters _⟩⟩

/-- A function of one parameter, of type `i32`, with result `i32`: a block that returns its
argument and one that returns a constant. Both end with a memory. -/
def twoReturnsCalls : FunctionCalls where
  id := 1
  items := [
    .block ⟨.exit, [.initMemory, .argument 0, .return_ 2, .setControl 1]⟩,
    .setStart 1,
    .block ⟨.exit, [.initMemory, .const32 7, .setControl 4, .return_ 5]⟩]

/-- It ends without an error, so it verifies. -/
theorem buildFunctionEnd_twoReturns :
    ∃ e function e', buildRunXar ⟨1, 2⟩
        ⟨threadBuildContextNew .returns, [{}, { parameters := [1], result := 1 }]⟩
        twoReturnsCalls.begun = .returned e ∧
      e.functions[1]? = some function ∧ buildFunctionEnd ⟨1, 2⟩ e = .returned (e', 0) ∧
      Function.Verifies 2 { function with
        buildBody := ⟨e.tbctx.blocks, e.tbctx.values, e.tbctx.startBlock⟩ } := by
  obtain ⟨e, e', hrun, hend⟩ : ∃ e e', buildRunXar ⟨1, 2⟩
      ⟨threadBuildContextNew .returns, [{}, { parameters := [1], result := 1 }]⟩
      twoReturnsCalls.begun = .returned e ∧ buildFunctionEnd ⟨1, 2⟩ e = .returned (e', 0) :=
    ⟨_, _, rfl, rfl⟩
  obtain ⟨function, e'', count, hfunction, hend', hzero⟩ :=
    buildFunctionEnd_eq_zero_iff rfl rfl (by decide) hrun
  obtain ⟨rfl, rfl⟩ := Prod.mk.inj (Outcome.returned.inj (hend.symm.trans hend'))
  exact ⟨e, function, e', hrun, hfunction, hend, hzero.mp rfl⟩

end Wasim.Wopt
