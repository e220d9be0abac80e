import Wasim.Wopt.Printer
import Wasim.Wopt.VerifierRuns

/-!
# What is printed

A function that the builder has made, of types that the interner has returned, is printed: no id
in it is out of bounds, and its types end. All parts of its document whose errors are dropped are
followed by others (`Printing.Doc.Checked`), so that no error is lost on a writer that stays
failed: without an error the whole text is written, and with one a prefix of it.
-/

namespace Wasim.Wopt

open Printing

variable {ι : Type} {s : TypeInterner ι} {types : BuildTypes}

/-! ### No error is lost -/

theorem strict_text {s : String} (h : s ≠ "") (rest : Doc) : (Doc.seq (.text s) rest).Strict :=
  .inl h

theorem TypeShape.checked (shape : TypeShape) : shape.doc.Checked :=
  shape.induct (P := fun shape => shape.doc.Checked) (Q := fun shapes => shapes.doc.Checked)
    trivial trivial trivial
    (fun _ hmembers => ⟨.inl trivial, .inl hmembers, trivial⟩) trivial
    fun _ _ _ htype hrest => ⟨.inl trivial, .inl trivial, .inl trivial, .inl htype, hrest⟩

theorem checked_valueIdDoc (id : ValueId) : (valueIdDoc id).Checked :=
  ⟨.inl trivial, .inl trivial, trivial⟩

theorem checked_commaDoc {comma : String} {docs : List Doc} (h : ∀ doc ∈ docs, doc.Checked) :
    (commaDoc comma docs).Checked := by
  induction docs generalizing comma with
  | nil => trivial
  | cons doc docs ih =>
    obtain ⟨hdoc, hdocs⟩ := List.forall_mem_cons.mp h
    exact ⟨.inl trivial, .inl hdoc, ih hdocs⟩

/-- The end of the line is behind the immediate and the arguments. -/
theorem PrintedOperation.checked (operation : PrintedOperation) : operation.doc.Checked := by
  have hline : (Doc.all [.text "\n"]).Strict := strict_text (by decide) _
  obtain n | _ | n | args := operation
  · exact ⟨.inl trivial, .inr hline, .inl trivial, trivial⟩
  · exact ⟨.inl trivial, .inl trivial, trivial⟩
  · exact ⟨.inl trivial, .inr hline, .inl trivial, trivial⟩
  · exact ⟨.inl trivial, .inr hline, .inl trivial, trivial⟩

theorem PrintedValue.checked (indent : String) (value : PrintedValue) :
    (value.doc indent).Checked :=
  ⟨.inl trivial, .inl (checked_valueIdDoc _), .inl trivial, .inl value.type.checked, .inl trivial,
    value.operation.checked⟩

theorem PrintedBlock.checked (indent : String) (block : PrintedBlock) :
    (block.doc indent).Checked := by
  refine ⟨.inr (strict_text (by decide) _), .inl trivial,
    .inr (strict_text (by decide) _), .inl trivial, ?_⟩
  refine Doc.checked_all fun doc hdoc => ?_
  obtain ⟨value, -, rfl⟩ := List.mem_map.mp hdoc
  exact value.checked indent

theorem checked_bodyDoc (indent : String) (blocks : List PrintedBlock) :
    (bodyDoc indent blocks).Checked := by
  refine Doc.checked_all fun doc hdoc => ?_
  obtain ⟨block, -, rfl⟩ := List.mem_map.mp hdoc
  exact block.checked indent

theorem checked_headerDoc (name : String) (shapes : List TypeShape) :
    (headerDoc name shapes).Checked := by
  refine ⟨.inl trivial, .inl (checked_commaDoc fun doc hdoc => ?_), .inl trivial, trivial⟩
  obtain ⟨shape, -, rfl⟩ := List.mem_map.mp hdoc
  exact shape.checked

/-! ### Types that end are shown -/

theorem exists_memberShapes {members : List TypeMember}
    (h : ∀ member ∈ members, ∃ shape : TypeShape, shape.Of s member.type) :
    ∃ shapes : MemberShapes, shapes.Of s members := by
  induction members with
  | nil => exact ⟨.nil, rfl⟩
  | cons member members ih =>
    obtain ⟨⟨shape, hshape⟩, hmembers⟩ := List.forall_mem_cons.mp h
    obtain ⟨shapes, hshapes⟩ := ih hmembers
    exact ⟨.cons member.offset shape shapes, member, members, rfl, rfl, hshape, hshapes⟩

theorem Grounded.exists_shape {id : TypeId} (h : Grounded s id) :
    ∃ shape : TypeShape, shape.Of s id := by
  induction h with
  | @mk key id hissued _ ih =>
    obtain ⟨shapes, hshapes⟩ := exists_memberShapes ih
    cases hkind : (typeInternerLoad s id).key.kind with
    | none => exact ⟨.none, hkind⟩
    | i32 => exact ⟨.i32, hkind⟩
    | memory => exact ⟨.memory, hkind⟩
    | struct => exact ⟨.struct shapes, hkind, hshapes⟩

theorem of_none (s : TypeInterner ι) : TypeShape.none.Of s 0 := rfl

theorem exists_forall₂ {α β : Type} {r : α → β → Prop} {bs : List β}
    (h : ∀ b ∈ bs, ∃ a, r a b) : ∃ as, List.Forall₂ r as bs := by
  induction bs with
  | nil => exact ⟨[], .nil⟩
  | cons b bs ih =>
    obtain ⟨⟨a, ha⟩, hbs⟩ := List.forall_mem_cons.mp h
    obtain ⟨as, has⟩ := ih hbs
    exact ⟨a :: as, .cons ha has⟩

/-- Some fuel is enough for all of a list. -/
theorem exists_fuel_list {α : Type} (depth : α → ℕ) (as : List α) :
    ∃ fuel, ∀ a ∈ as, depth a ≤ fuel := by
  induction as with
  | nil => exact ⟨0, fun _ ha => absurd ha List.not_mem_nil⟩
  | cons a as ih =>
    obtain ⟨fuel, hfuel⟩ := ih
    exact ⟨max (depth a) fuel, List.forall_mem_cons.mpr
      ⟨le_max_left _ _, fun b hb => (hfuel b hb).trans (le_max_right _ _)⟩⟩

/-! ### What the builder makes is shown -/

/-- The types of the values that the calls of a function create. -/
theorem FunctionCalls.type_mem {parameters : List TypeId} {f : FunctionCalls} {value : Value}
    (h : value ∈ f.values types parameters) :
    value.type = 0 ∨ value.type ∈ parameters ∨ value.type = types.memory ∨
      value.type = types.i32 := by
  obtain ⟨g, -, hg⟩ := List.mem_flatMap.mp h
  obtain ⟨call, -, hcall⟩ := List.mem_filterMap.mp hg
  obtain i | _ | v | id | id | id := call
  · obtain rfl := Option.some.inj hcall
    by_cases hi : i < UInt32.ofNat parameters.length
    · simp only [hi, if_true, List.getD_eq_getElem?_getD]
      rcases hget : parameters[i.toNat]? with _ | type
      · exact .inl rfl
      · exact .inr (.inl (List.mem_of_getElem? hget))
    · exact .inl (if_neg hi)
  · obtain rfl := Option.some.inj hcall
    exact .inr (.inr (.inl rfl))
  · obtain rfl := Option.some.inj hcall
    exact .inr (.inr (.inr rfl))
  · obtain rfl := Option.some.inj hcall
    exact .inl rfl
  · exact absurd hcall.symm (Option.some_ne_none value)
  · exact absurd hcall.symm (Option.some_ne_none value)

theorem FunctionCalls.exists_printed {parameters : List TypeId} (control : ValueId)
    {f : FunctionCalls} (hgroups : f.groups.length + 1 ≤ 2 ^ 32 - 1)
    (htypes : ∀ id, id = 0 ∨ id ∈ parameters ∨ id = types.memory ∨ id = types.i32 →
      ∃ shape : TypeShape, shape.Of s id) :
    ∃ printed, PrintedBody s (f.built types parameters control) printed := by
  have hvalue : ∀ block ∈ (f.built types parameters control).blocks.tail, ∀ id ∈ block.values,
      ∃ printed : PrintedValue, printed.Of s (f.built types parameters control) id := by
    intro block hblock id hid
    have hlt := f.listed_built parameters control block hblock id hid
    have hget := List.getElem?_eq_getElem hlt
    have htype : ∃ shape : TypeShape,
        shape.Of s (f.built types parameters control).values[id.toNat].type := by
      obtain heq | hmem := List.mem_cons.mp (List.getElem_mem hlt)
      · exact ⟨.none, by rw [heq]; exact of_none s⟩
      · obtain ⟨k, hk⟩ := List.getElem?_of_mem hmem
        rw [getElem?_numbered, Option.map_eq_some_iff] at hk
        obtain ⟨value, hvalue, heq⟩ := hk
        obtain ⟨shape, hshape⟩ := htypes _ (type_mem (List.mem_of_getElem? hvalue))
        exact ⟨shape, by rw [← heq]; exact hshape⟩
    obtain ⟨shape, hshape⟩ := htype
    exact ⟨⟨id, shape, _⟩, rfl, _, hget, hshape, rfl⟩
  have hblock : ∀ id ∈ (f.built types parameters control).blocks.tail.map Block.id,
      ∃ printed : PrintedBlock, printed.Of s (f.built types parameters control) id := by
    intro id hid
    obtain ⟨block, hmem, rfl⟩ := List.mem_map.mp hid
    obtain ⟨values, hvalues⟩ := exists_forall₂ (hvalue block hmem)
    refine ⟨⟨block.id, block.control, values⟩, rfl, block, ?_, rfl, hvalues⟩
    -- the id of a block is its place behind the sentinel
    obtain ⟨k, hk⟩ := List.getElem?_of_mem hmem
    have hplace := hk
    rw [built, List.tail_cons, getElem?_builtBlocks, Option.map_eq_some_iff] at hk
    obtain ⟨g, hg, rfl⟩ := hk
    have hlt : k < f.groups.length := (List.getElem?_eq_some_iff.mp hg).1
    rw [UInt32.toNat_ofNat', Nat.mod_eq_of_lt (by omega), Nat.add_comm 1 k]
    rw [List.getElem?_tail, Nat.add_comm 1 k] at hplace
    exact hplace
  obtain ⟨printed, hprinted⟩ := exists_forall₂ hblock
  exact ⟨printed, List.cons_ne_nil _ _, hprinted⟩

/-- A function that is built has the body of its calls, and keeps its parameters. -/
theorem buildRun_built {P : List TypeId → Prop} {s s' : BuildState} {fs : List FunctionCalls}
    (hid : s.tbctx.currentFunctionId = 0) (hblock : s.tbctx.currentBlockId = 0)
    (hparameters : ∀ function ∈ s.functions, P function.parameters)
    (h : buildRun types s (fs.flatMap FunctionCalls.calls) = .returned s') :
    ∀ f ∈ fs, ∃ function control, s'.functions[f.id.toNat]? = some function ∧
      P function.parameters ∧ function.buildBody = f.built types function.parameters control ∧
      f.groups.length + 1 ≤ 2 ^ 32 - 1 := by
  induction fs generalizing s with
  | nil => exact fun _ hf => absurd hf List.not_mem_nil
  | cons f fs ih =>
    rw [List.flatMap_cons, buildRun_append] at h
    obtain ⟨s₁, hfirst, hrest⟩ := Outcome.bind_eq_returned.mp h
    obtain ⟨function, hfunction, -, hgroups, -, hbehind⟩ :=
      buildRun_function_returned hid hblock hfirst
    obtain ⟨hlt, -⟩ := List.getElem?_eq_some_iff.mp hfunction
    have hP := hparameters function (List.mem_of_getElem? hfunction)
    have hkeep := (buildRun_functions hbehind.currentFunctionId hbehind.currentBlockId hrest).1
    refine List.forall_mem_cons.mpr ⟨?_, ?_⟩
    · have hbuilt := hkeep f.id.toNat
        { function with
          flags := { function.flags with inProgress := false, buildDone := true }
          buildBody := f.built types function.parameters s.tbctx.blockCtrlValue }
        (by rw [hbehind.functions, List.getElem?_set_self hlt]) rfl
      exact ⟨_, s.tbctx.blockCtrlValue, hbuilt, hP, rfl, hgroups⟩
    · refine ih hbehind.currentFunctionId hbehind.currentBlockId (fun g hg => ?_) hrest
      rw [hbehind.functions] at hg
      obtain hg | rfl := List.mem_or_eq_of_mem_set hg
      · exact hparameters g hg
      · exact hP

/-! ### Whole, or a prefix and an error -/

/-- The document of a function: its name and parameters, and its body. -/
def FunctionDoc (s : TypeInterner ι) (indent name : String) (function : Function) (doc : Doc) :
    Prop :=
  ∃ shapes printed, List.Forall₂ (TypeShape.Of s) shapes function.parameters ∧
    PrintedBody s function.buildBody printed ∧
    doc = .all [headerDoc name shapes, bodyDoc indent printed]

/-- With fuel for its types a function is printed as its document, on every writer. -/
theorem FunctionDoc.emits {indent name : String} {function : Function} {doc : Doc}
    (h : FunctionDoc s indent name function doc) :
    doc.Checked ∧ ∃ N, ∀ {W ε : Type} (write : String → W → W × Option ε)
      (functions : List (String × Function)) (id : FunctionId) (fuel : ℕ), N ≤ fuel →
      functions[id.toNat]? = some (name, function) →
      Emits write (ssaWriteFunctionBuildBody ⟨write, s, functions, indent⟩ fuel id) doc := by
  obtain ⟨shapes, printed, hshapes, hprinted, rfl⟩ := h
  refine ⟨⟨.inl (checked_headerDoc name shapes), .inl (checked_bodyDoc indent printed), trivial⟩,
    ?_⟩
  obtain ⟨m, hm⟩ := exists_fuel_list TypeShape.depth shapes
  obtain ⟨n, hn⟩ := exists_fuel_list (fun value => value.type.depth)
    (printed.flatMap PrintedBlock.values)
  refine ⟨max m n, fun write functions id fuel hfuel hfunction => ?_⟩
  refine ssaWriteFunctionBuildBody_emits (p := ⟨write, s, functions, indent⟩) hfunction hshapes
    hprinted (fun shape hshape => ?_) fun block hblock value hvalue => ?_
  · exact (hm shape hshape).trans ((le_max_left m n).trans hfuel)
  · have hmem := List.mem_flatMap.mpr ⟨block, hblock, hvalue⟩
    exact (hn value hmem).trans ((le_max_right m n).trans hfuel)

section Runs

variable [DecidableEq ι] {digest : TypeKey → UInt64} {calls : ι → TypeCall}
  {c : Threads.Config ι (TypeCalls ι) TypeCallPc}

/-- A function that the builder has made of types that the interner has returned is printed: on
a writer that stays failed, as a whole and without an error, or as a prefix and with one. -/
theorem ssaWriteFunctionBuildBody_whole (h : TypeCallReach digest calls c)
    (hi32 : types.i32 ∈ c.shared.returned) (hmemory : types.memory ∈ c.shared.returned)
    {functions : List Function}
    (hparameters : ∀ function ∈ functions, ∀ id ∈ function.parameters, id ∈ c.shared.returned)
    {callback : SsaVerifyErrorCallback} {fs : List FunctionCalls} {s : BuildState}
    (hrun : buildRun types ⟨threadBuildContextNew callback, functions⟩
      (fs.flatMap FunctionCalls.calls) = .returned s)
    {f : FunctionCalls} (hf : f ∈ fs) {names : List String}
    (hnames : names.length = s.functions.length) (indent : String) :
    ∃ name function doc N, (names.zip s.functions)[f.id.toNat]? = some (name, function) ∧
      FunctionDoc c.shared.interner indent name function doc ∧
      ∀ {W ε : Type} {write : String → W → W × Option ε} {content : W → List Char}
        {failed : W → Prop} (_ : Sticky write content failed) (w : W) (fuel : ℕ), ¬failed w →
        N ≤ fuel → ∃ w' err, ssaWriteFunctionBuildBody
            ⟨write, c.shared.interner, names.zip s.functions, indent⟩ fuel f.id w =
              .returned (w', err) ∧
          ((err = none ∧ ¬failed w' ∧ content w' = content w ++ doc.chars) ∨
            (err ≠ none ∧ failed w' ∧
              ∃ part, part <+: doc.chars ∧ content w' = content w ++ part)) := by
  have hshape : ∀ id ∈ c.shared.returned, ∃ shape : TypeShape, shape.Of c.shared.interner id :=
    fun id hid => (h.grounded id hid).exists_shape
  obtain ⟨function, control, hfunction, hids, hbody, hgroups⟩ :=
    buildRun_built (P := fun ids => ∀ id ∈ ids, id ∈ c.shared.returned) rfl rfl hparameters hrun f
      hf
  obtain ⟨hlt, -⟩ := List.getElem?_eq_some_iff.mp hfunction
  obtain ⟨name, hname⟩ : ∃ name, names[f.id.toNat]? = some name :=
    ⟨_, List.getElem?_eq_getElem (hnames ▸ hlt)⟩
  have hentry : (names.zip s.functions)[f.id.toNat]? = some (name, function) :=
    List.getElem?_zip_eq_some.mpr ⟨hname, hfunction⟩
  have htypes : ∀ id, id = 0 ∨ id ∈ function.parameters ∨ id = types.memory ∨ id = types.i32 →
      ∃ shape : TypeShape, shape.Of c.shared.interner id := by
    rintro id (rfl | hid | rfl | rfl)
    · exact ⟨.none, of_none _⟩
    · exact hshape id (hids id hid)
    · exact hshape _ hmemory
    · exact hshape _ hi32
  obtain ⟨shapes, hshapes⟩ := exists_forall₂ fun id hid => htypes id (.inr (.inl hid))
  obtain ⟨printed, hprinted⟩ := f.exists_printed control hgroups htypes
  have hdoc : FunctionDoc c.shared.interner indent name function
      (.all [headerDoc name shapes, bodyDoc indent printed]) :=
    ⟨shapes, printed, hshapes, hbody ▸ hprinted, rfl⟩
  obtain ⟨hchecked, N, hemits⟩ := hdoc.emits
  refine ⟨name, function, _, N, hentry, hdoc, ?_⟩
  intro W ε write content failed hw w fuel hok hfuel
  exact ⟨_, _, hemits write _ f.id fuel hfuel hentry w, hw.emit_checked hchecked hok⟩

end Runs

def i32AndMemory : Fin 2 → TypeCall
  | 0 => .i32
  | 1 => .mem

/-- The ids that the two calls return. -/
def identityTypes : BuildTypes := ⟨4211200, 4211206⟩

def identityFunctions : List Function := [{}, { parameters := [4211200], result := 4211200 }]

/-- A function that returns its argument. -/
def identityCalls : FunctionCalls where
  id := 1
  items := [.block ⟨.exit, [.initMemory, .setControl 1, .argument 0, .return_ 2]⟩, .setStart 1]

/-- Printed on a buffer that is too small, wherever it ends, it comes back with an error. -/
theorem ssaWriteFunctionBuildBody_whole_identity :
    ∃ c s name function doc N, TypeCallReach structDigest i32AndMemory c ∧
      buildRun identityTypes ⟨threadBuildContextNew .returns, identityFunctions⟩
        ([identityCalls].flatMap FunctionCalls.calls) = .returned s ∧
      (["", "identity"].zip s.functions)[1]? = some (name, function) ∧
      FunctionDoc c.shared.interner "  " name function doc ∧ 8 ≤ doc.chars.length ∧
      ∀ capacity fuel, capacity < doc.chars.length → N ≤ fuel → ∃ b : Buffer capacity,
        ssaWriteFunctionBuildBody
            ⟨Buffer.append, c.shared.interner, ["", "identity"].zip s.functions, "  "⟩ fuel 1
            .empty = .returned (b, some ()) ∧ b.written <+: doc.chars := by
  have hexec : ((Threads.exec (fun i (memory : ℕ × ℕ) =>
      typeCallStep structDigest i (i32AndMemory i) memory.1 memory.2)
      (List.replicate 29 (0, 33689600, 33689648) ++ List.replicate 29 (1, 33689648, 33689696))
      typeCallsStart).map fun c => c.shared.returned) = some [4211206, 4211200] := by
    decide +kernel
  obtain ⟨c, hc, hreturned⟩ := Option.map_eq_some_iff.mp hexec
  have hreach : TypeCallReach structDigest i32AndMemory c := Threads.exec_sound _ hc
  have hi32 : identityTypes.i32 ∈ c.shared.returned := by
    rw [hreturned]
    exact List.mem_cons_of_mem _ List.mem_cons_self
  have hmemory : identityTypes.memory ∈ c.shared.returned := by
    rw [hreturned]
    exact List.mem_cons_self
  have hparameters : ∀ function ∈ identityFunctions, ∀ id ∈ function.parameters,
      id ∈ c.shared.returned := by
    simpa [identityFunctions, identityTypes] using hi32
  obtain ⟨s, hrun, hlength⟩ : ∃ s, buildRun identityTypes
      ⟨threadBuildContextNew .returns, identityFunctions⟩
      ([identityCalls].flatMap FunctionCalls.calls) = .returned s ∧
      ["", "identity"].length = s.functions.length := ⟨_, rfl, rfl⟩
  obtain ⟨name, function, doc, N, hentry, hdoc, hwhole⟩ := ssaWriteFunctionBuildBody_whole hreach
    hi32 hmemory hparameters hrun List.mem_cons_self hlength "  "
  refine ⟨c, s, name, function, doc, N, hreach, hrun, hentry, hdoc, ?_, ?_⟩
  · obtain ⟨shapes, printed, -, -, rfl⟩ := hdoc
    obtain rfl : "identity" = name :=
      Option.some.inj (List.getElem?_zip_eq_some.mp hentry).1
    have hname : "identity".toList <+:
        (Doc.all [headerDoc "identity" shapes, bodyDoc "  " printed]).chars :=
      (List.prefix_append _ _).trans (List.prefix_append _ _)
    exact hname.length_le
  · intro capacity fuel hshort hfuel
    obtain ⟨b, err, hb, ⟨-, -, hcontent⟩ | ⟨herr, -, part, hpart, hcontent⟩⟩ :=
      hwhole Buffer.sticky (.empty : Buffer capacity) fuel Bool.false_ne_true hfuel
    · -- the whole text does not fit
      have hfits := b.fits
      rw [hcontent, Buffer.written_empty, List.nil_append] at hfits
      exact absurd hfits (Nat.not_le.mpr hshort)
    · obtain ⟨⟨⟩, rfl⟩ := Option.ne_none_iff_exists'.mp herr
      rw [Buffer.written_empty, List.nil_append] at hcontent
      exact ⟨b, hb, hcontent ▸ hpart⟩

end Wasim.Wopt
