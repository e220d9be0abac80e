import Wasim.Wopt.Printed

/-!
# Reading a printed body

The text of a body says what is shown of it: two bodies that are printed without an error, on
writers that stay failed and of modules that may be different, with the same text, show the same
blocks, values, types, immediates and arguments. The indentation must not begin like a block.
-/

namespace Wasim.Wopt

open Printing

/-! ### Texts -/

/-- An id behind the letters of its kind. -/
theorem readable_id (kind : String) :
    Readable (fun id : UInt32 => (Doc.all [.text kind, .text (toString id.toNat)]).chars)
      NoDigit := by
  intro a b r r' hr hr' h
  simp only [Doc.all, Doc.chars, List.append_nil, List.append_assoc,
    List.append_cancel_left_eq] at h
  obtain ⟨hid, hrest⟩ := readable_nat _ _ r r' hr hr' h
  exact ⟨UInt32.toNat_inj.mp hid, hrest⟩

theorem readable_valueId : Readable (fun id : ValueId => (valueIdDoc id).chars) NoDigit :=
  readable_id "%v"

theorem readable_blockId : Readable (fun id : BlockId => (blockIdDoc id).chars) NoDigit :=
  readable_id "b"

theorem readable_immediate :
    Readable (fun immediate : UInt64 => (immediateDoc immediate).chars) fun _ => True := by
  intro a b r r' _ _ h
  simp only [immediateDoc, Doc.all, Doc.chars, List.append_nil, List.append_assoc,
    List.append_cancel_left_eq] at h
  have hbrace : ∀ r : List Char, NoDigit ("\x7d".toList ++ r) := fun r => noDigit_cons (by decide)
  obtain ⟨hid, hrest⟩ := readable_nat _ _ _ _ (hbrace r) (hbrace r') h
  exact ⟨UInt64.toNat_inj.mp hid, List.append_cancel_left hrest⟩

theorem readable_type : Readable (fun shape : TypeShape => shape.doc.chars) fun _ => True := by
  intro shape other r r' _ _ h
  have hall := shape.induct
    (P := fun shape => ∀ (other : TypeShape) r r',
      shape.doc.chars ++ r = other.doc.chars ++ r' → shape = other ∧ r = r')
    (Q := fun shapes => ∀ (others : MemberShapes) r r',
      shapes.doc.chars ++ '}' :: r = others.doc.chars ++ '}' :: r' → shapes = others ∧ r = r')
  refine hall ?_ ?_ ?_ ?_ ?_ ?_ other r r' h
  · intro other r r' h
    obtain _ | _ | _ | members := other <;>
      simp [TypeShape.doc, Doc.chars] at h ⊢
    exact h
  · intro other r r' h
    obtain _ | _ | _ | members := other <;>
      simp [TypeShape.doc, Doc.chars] at h ⊢
    exact h
  · intro other r r' h
    obtain _ | _ | _ | members := other <;>
      simp [TypeShape.doc, Doc.chars] at h ⊢
    exact h
  · intro members hmembers other r r' h
    obtain _ | _ | _ | others := other <;>
      simp [TypeShape.doc, Doc.chars] at h ⊢
    exact hmembers others r r' h
  · intro others r r' h
    obtain _ | ⟨offset, type, rest⟩ := others
    · simpa [MemberShapes.doc, Doc.chars] using h
    · simp [MemberShapes.doc, Doc.chars] at h
  · intro offset type rest htype hrest others r r' h
    obtain _ | ⟨offset', type', rest'⟩ := others
    · simp [MemberShapes.doc, Doc.chars] at h
    · simp only [MemberShapes.doc, Doc.chars, List.append_assoc,
        List.append_cancel_left_eq] at h
      have hbracket : ∀ r : List Char, NoDigit ("] = ".toList ++ r) :=
        fun r => noDigit_cons (by decide)
      -- the offset ends at the bracket, the type at a text of its own
      obtain ⟨rfl, hmembers⟩ := readable_int offset offset' _ _ (hbracket _) (hbracket _) h
      obtain ⟨rfl, htail⟩ := htype type' _ _ (List.append_cancel_left hmembers)
      obtain ⟨rfl, rfl⟩ := hrest rest' r r' htail
      exact ⟨rfl, rfl⟩

/-- Arguments up to the end of the line: none, or a comma and an id before the other ones. -/
theorem readable_args {comma : String} (hcomma : comma = " " ∨ comma = ", ") :
    Readable (fun args : List ValueId => (commaDoc comma (args.map valueIdDoc)).chars)
      fun r => ∃ tail, r = '\n' :: tail := by
  intro args args' r r' hr hr' h
  have hnil : ∀ (arg : ValueId) (args : List ValueId) (r tail : List Char),
      '\n' :: tail ≠ (commaDoc comma ((arg :: args).map valueIdDoc)).chars ++ r := by
    obtain rfl | rfl := hcomma <;> simp [commaDoc, Doc.chars]
  obtain ⟨tail, rfl⟩ := hr
  obtain ⟨tail', rfl⟩ := hr'
  have hdigit : ∀ (args : List ValueId) (tail : List Char),
      NoDigit ((commaDoc ", " (args.map valueIdDoc)).chars ++ '\n' :: tail) := by
    intro args tail
    obtain _ | ⟨arg, args⟩ := args
    · exact noDigit_cons (by decide)
    · exact noDigit_cons (by decide)
  induction args generalizing comma args' with
  | nil =>
    obtain _ | ⟨arg', args'⟩ := args'
    · exact ⟨rfl, h⟩
    · exact absurd h (hnil arg' args' _ tail)
  | cons arg args ih =>
    obtain _ | ⟨arg', args'⟩ := args'
    · exact absurd h.symm (hnil arg args _ tail')
    · simp only [List.map_cons, commaDoc, Doc.chars, List.append_assoc,
        List.append_cancel_left_eq] at h
      obtain ⟨rfl, hrest⟩ :=
        readable_valueId arg arg' _ _ (hdigit args tail) (hdigit args' tail') h
      obtain ⟨rfl, heq⟩ := ih (.inr rfl) args' (by simp [commaDoc, Doc.chars]) hrest
      exact ⟨rfl, heq⟩

theorem readable_operation :
    Readable (fun operation : PrintedOperation => operation.doc.chars) fun _ => True := by
  intro a b r r' _ _ h
  obtain n | _ | n | args := a <;> obtain n' | _ | n' | args' := b <;>
    simp [PrintedOperation.doc, Doc.all, Doc.chars] at h ⊢
  · obtain ⟨rfl, hrest⟩ := readable_immediate n n' _ _ trivial trivial h
    exact ⟨rfl, (List.cons.inj hrest).2⟩
  · exact h
  · obtain ⟨rfl, hrest⟩ := readable_immediate n n' _ _ trivial trivial h
    exact ⟨rfl, (List.cons.inj hrest).2⟩
  · obtain ⟨rfl, hrest⟩ := readable_args (.inl rfl) args args' _ _ ⟨r, rfl⟩ ⟨r', rfl⟩ h
    exact ⟨rfl, (List.cons.inj hrest).2⟩

theorem readable_value (indent : String) :
    Readable (fun value : PrintedValue => (value.doc indent).chars) fun _ => True := by
  rintro ⟨id, type, operation⟩ ⟨id', type', operation'⟩ r r' _ _ h
  simp only [PrintedValue.doc, Doc.chars, List.append_assoc, List.append_cancel_left_eq] at h
  have hcolon : ∀ r : List Char, NoDigit (": ".toList ++ r) := fun r => noDigit_cons (by decide)
  obtain ⟨rfl, htype⟩ := readable_valueId id id' _ _ (hcolon _) (hcolon _) h
  obtain ⟨rfl, hequals⟩ := readable_type type type' _ _ trivial trivial
    (List.append_cancel_left htype)
  obtain ⟨rfl, rfl⟩ := readable_operation operation operation' r r' trivial trivial
    (List.append_cancel_left hequals)
  exact ⟨rfl, rfl⟩

/-- Nothing more, or another block. -/
def BlockStop (r : List Char) : Prop := r = [] ∨ ∃ tail, r = 'b' :: tail

theorem value_ne_stop {indent : String} (hindent : indent.toList.head? ≠ some 'b')
    (value : PrintedValue) (r : List Char) {r' : List Char} (h : BlockStop r') :
    (value.doc indent).chars ++ r ≠ r' := by
  intro heq
  simp only [PrintedValue.doc, valueIdDoc, Doc.all, Doc.chars, List.append_assoc] at heq
  rcases hchars : indent.toList with _ | ⟨c, chars⟩
  -- the value begins with the letters of its id, or with the indentation
  · obtain rfl | ⟨tail, rfl⟩ := h <;> simp [hchars] at heq
  · rw [hchars, List.head?_cons] at hindent
    obtain rfl | ⟨tail, rfl⟩ := h
    · simp [hchars] at heq
    · rw [hchars, List.cons_append] at heq
      exact hindent (congrArg some (List.cons.inj heq).1)

theorem readable_values {indent : String} (hindent : indent.toList.head? ≠ some 'b') :
    Readable (fun values : List PrintedValue =>
      values.flatMap fun value => (value.doc indent).chars) BlockStop :=
  (readable_value indent).list (fun _ _ => trivial) (fun _ _ => trivial)
    fun value r _ h => value_ne_stop hindent value r h

theorem chars_values (indent : String) (values : List PrintedValue) :
    (Doc.all (values.map (PrintedValue.doc indent))).chars =
      values.flatMap fun value => (value.doc indent).chars := by
  rw [Doc.chars_all, List.flatMap_map]

theorem readable_block {indent : String} (hindent : indent.toList.head? ≠ some 'b') :
    Readable (fun block : PrintedBlock => (block.doc indent).chars) BlockStop := by
  rintro ⟨id, control, values⟩ ⟨id', control', values'⟩ r r' hr hr' h
  simp only [PrintedBlock.doc, Doc.chars, List.append_assoc, chars_values] at h
  have hexit : ∀ r : List Char, NoDigit (" exit ".toList ++ r) :=
    fun r => noDigit_cons (by decide)
  have hcolon : ∀ r : List Char, NoDigit (":\n".toList ++ r) := fun r => noDigit_cons (by decide)
  obtain ⟨rfl, hcontrol⟩ := readable_blockId id id' _ _ (hexit _) (hexit _) h
  obtain ⟨rfl, hvalues⟩ := readable_valueId control control' _ _ (hcolon _) (hcolon _)
    (List.append_cancel_left hcontrol)
  obtain ⟨rfl, rfl⟩ := readable_values hindent values values' r r' hr hr'
    (List.append_cancel_left hvalues)
  exact ⟨rfl, rfl⟩

theorem chars_block (indent : String) (block : PrintedBlock) :
    ∃ tail, (block.doc indent).chars = 'b' :: tail := ⟨_, rfl⟩

/-- The text of a body says what is shown of it. -/
theorem bodyDoc_injective {indent : String} (hindent : indent.toList.head? ≠ some 'b')
    {blocks blocks' : List PrintedBlock}
    (h : (bodyDoc indent blocks).chars = (bodyDoc indent blocks').chars) : blocks = blocks' := by
  have hreadable : Readable (fun blocks : List PrintedBlock =>
      blocks.flatMap fun block => (block.doc indent).chars) fun r => r = [] := by
    refine (readable_block hindent).list (fun r hr => .inl hr) (fun block r => ?_) ?_
    · obtain ⟨tail, htail⟩ := chars_block indent block
      exact .inr ⟨tail ++ r, by rw [htail, List.cons_append]⟩
    · rintro block r r' rfl heq
      obtain ⟨tail, htail⟩ := chars_block indent block
      rw [htail, List.cons_append] at heq
      exact absurd heq (List.cons_ne_nil _ _)
  rw [bodyDoc, bodyDoc, Doc.chars_all, Doc.chars_all, List.flatMap_map, List.flatMap_map] at h
  exact (hreadable blocks blocks' [] [] rfl rfl (congrArg (· ++ []) h)).1

/-! ### A run without an error shows a body -/

variable {ι W ε : Type} {p : SsaPrinter ι W ε} {fuel : ℕ}

theorem index_eq_returned {α : Type} {values : List α} {i : ℕ} {value : α}
    (h : index values i = .returned value) : values[i]? = some value := by
  rw [index] at h
  rcases hget : values[i]? with _ | a
  · rw [hget] at h
    cases h
  · rw [hget] at h
    exact congrArg some (Outcome.returned.inj h)

theorem orReturn_eq_ok {result : W × Option ε} {next : W → Outcome (W × Option ε)} {u : W}
    (h : orReturn result next = .returned (u, none)) :
    ∃ w, result = (w, none) ∧ next w = .returned (u, none) := by
  obtain ⟨w, _ | err⟩ := result
  · exact ⟨w, rfl, h⟩
  · rw [orReturn] at h
    exact absurd (Prod.mk.inj (Outcome.returned.inj h)).2 (Option.some_ne_none err)

theorem bind_orReturn_eq_ok {run : Outcome (W × Option ε)} {next : W → Outcome (W × Option ε)}
    {u : W} (h : (run >>= fun result => orReturn result next) = .returned (u, none)) :
    ∃ w, run = .returned (w, none) ∧ next w = .returned (u, none) := by
  obtain ⟨result, hrun, hnext⟩ := Outcome.bind_eq_returned.mp h
  obtain ⟨w, rfl, hw⟩ := orReturn_eq_ok hnext
  exact ⟨w, hrun, hw⟩

theorem ssaWriteMembers_shown {s : TypeInterner ι} {write : String → W → W × Option ε}
    {writeType : TypeId → W → Outcome (W × Option ε)} {depth : ℕ}
    (htype : ∀ id w u, writeType id w = .returned (u, none) →
      ∃ shape : TypeShape, shape.Of s id ∧ shape.depth ≤ depth)
    {members : List TypeMember} {w u : W}
    (h : ssaWriteMembers write writeType members w = .returned (u, none)) :
    ∃ shapes : MemberShapes, shapes.Of s members ∧ shapes.depth ≤ depth := by
  induction members generalizing w with
  | nil => exact ⟨.nil, rfl, Nat.zero_le _⟩
  | cons member members ih =>
    obtain ⟨w₁, -, h₁⟩ := orReturn_eq_ok h
    obtain ⟨w₂, -, h₂⟩ := orReturn_eq_ok h₁
    obtain ⟨w₃, -, h₃⟩ := orReturn_eq_ok h₂
    obtain ⟨w₄, hmember, hmembers⟩ := bind_orReturn_eq_ok h₃
    obtain ⟨shape, hshape, hdepth⟩ := htype _ _ _ hmember
    obtain ⟨shapes, hshapes, hdepths⟩ := ih hmembers
    exact ⟨.cons member.offset shape shapes, ⟨member, members, rfl, rfl, hshape, hshapes⟩,
      Nat.max_le.mpr ⟨hdepth, hdepths⟩⟩

theorem ssaWriteType_shown {s : TypeInterner ι} {write : String → W → W × Option ε} {id : TypeId}
    {w u : W} (h : ssaWriteType write s fuel id w = .returned (u, none)) :
    ∃ shape : TypeShape, shape.Of s id ∧ shape.depth ≤ fuel := by
  induction fuel generalizing id w u with
  | zero => cases h
  | succ fuel ih =>
    rw [ssaWriteType] at h
    cases hkind : (typeInternerLoad s id).key.kind with
    | none => exact ⟨.none, hkind, Nat.le_add_left 1 fuel⟩
    | i32 => exact ⟨.i32, hkind, Nat.le_add_left 1 fuel⟩
    | memory => exact ⟨.memory, hkind, Nat.le_add_left 1 fuel⟩
    | struct =>
      simp only [hkind] at h
      obtain ⟨w₁, -, h₁⟩ := orReturn_eq_ok h
      obtain ⟨w₂, hmembers, -⟩ := bind_orReturn_eq_ok h₁
      obtain ⟨shapes, hshapes, hdepth⟩ :=
        ssaWriteMembers_shown (fun _ _ _ hmember => ih hmember) hmembers
      exact ⟨.struct shapes, ⟨hkind, hshapes⟩, Nat.succ_le_succ hdepth⟩

theorem ssaWriteValue_shown {body : FunctionBody} {id : ValueId} {w u : W}
    (h : ssaWriteValue p fuel body id w = .returned (u, none)) :
    ∃ printed : PrintedValue, printed.Of p.interner body id ∧ printed.type.depth ≤ fuel := by
  obtain ⟨value, hvalue, h₁⟩ := Outcome.bind_eq_returned.mp h
  obtain ⟨w₁, -, h₂⟩ := bind_orReturn_eq_ok h₁
  obtain ⟨w₂, -, h₃⟩ := bind_orReturn_eq_ok h₂
  obtain ⟨w₃, -, h₄⟩ := orReturn_eq_ok h₃
  obtain ⟨w₄, htype, -⟩ := bind_orReturn_eq_ok h₄
  obtain ⟨shape, hshape, hdepth⟩ := ssaWriteType_shown htype
  exact ⟨⟨id, shape, value.printed⟩, ⟨rfl, value, index_eq_returned hvalue, hshape, rfl⟩, hdepth⟩

theorem ssaWriteValues_shown {body : FunctionBody} {ids : List ValueId} {w u : W}
    (h : ssaWriteValues p fuel body ids w = .returned (u, none)) :
    ∃ values, List.Forall₂ (PrintedValue.Of p.interner body) values ids ∧
      ∀ value ∈ values, value.type.depth ≤ fuel := by
  induction ids generalizing w with
  | nil => exact ⟨[], .nil, fun _ hv => absurd hv List.not_mem_nil⟩
  | cons id ids ih =>
    obtain ⟨w₁, hvalue, hvalues⟩ := bind_orReturn_eq_ok h
    obtain ⟨value, hof, hdepth⟩ := ssaWriteValue_shown hvalue
    obtain ⟨values, hofs, hdepths⟩ := ih hvalues
    exact ⟨value :: values, .cons hof hofs, List.forall_mem_cons.mpr ⟨hdepth, hdepths⟩⟩

theorem ssaWriteBlock_shown {body : FunctionBody} {id : BlockId} {w u : W}
    (h : ssaWriteBlock p fuel body id w = .returned (u, none)) :
    ∃ printed : PrintedBlock, printed.Of p.interner body id ∧
      ∀ value ∈ printed.values, value.type.depth ≤ fuel := by
  obtain ⟨block, hblock, h₁⟩ := Outcome.bind_eq_returned.mp h
  obtain ⟨w₁, -, h₂⟩ := Outcome.bind_eq_returned.mp h₁
  obtain ⟨w₂, -, h₃⟩ := orReturn_eq_ok h₂
  obtain ⟨w₃, -, h₄⟩ := Outcome.bind_eq_returned.mp h₃
  obtain ⟨w₄, -, hvalues⟩ := orReturn_eq_ok h₄
  obtain ⟨values, hof, hdepth⟩ := ssaWriteValues_shown hvalues
  exact ⟨⟨id, block.control, values⟩, ⟨rfl, block, index_eq_returned hblock, rfl, hof⟩, hdepth⟩

theorem ssaWriteBlocks_shown {body : FunctionBody} {blocks : List Block} {w u : W}
    (h : ssaWriteBlocks p fuel body blocks w = .returned (u, none)) :
    ∃ printed, List.Forall₂ (PrintedBlock.Of p.interner body) printed (blocks.map Block.id) ∧
      ∀ block ∈ printed, ∀ value ∈ block.values, value.type.depth ≤ fuel := by
  induction blocks generalizing w with
  | nil => exact ⟨[], .nil, fun _ hb => absurd hb List.not_mem_nil⟩
  | cons block blocks ih =>
    obtain ⟨w₁, hblock, hblocks⟩ := bind_orReturn_eq_ok h
    obtain ⟨printed, hof, hdepth⟩ := ssaWriteBlock_shown hblock
    obtain ⟨rest, hofs, hdepths⟩ := ih hblocks
    exact ⟨printed :: rest, .cons hof hofs, List.forall_mem_cons.mpr ⟨hdepth, hdepths⟩⟩

theorem ssaWriteBody_shown {body : FunctionBody} {w u : W}
    (h : ssaWriteBody p fuel body w = .returned (u, none)) :
    ∃ printed, PrintedBody p.interner body printed ∧
      ∀ block ∈ printed, ∀ value ∈ block.values, value.type.depth ≤ fuel := by
  rw [ssaWriteBody] at h
  rcases hblocks : body.blocks with _ | ⟨sentinel, blocks⟩
  · rw [hblocks] at h
    cases h
  · rw [hblocks] at h
    obtain ⟨printed, hof, hdepth⟩ := ssaWriteBlocks_shown h
    exact ⟨printed, ⟨by rw [hblocks]; exact List.cons_ne_nil _ _, by rw [hblocks]; exact hof⟩,
      hdepth⟩

/-- What a run without an error adds to what is on the writer. -/
theorem ssaWriteBody_text {content : W → List Char} {failed : W → Prop}
    (hw : Sticky p.write content failed) {body : FunctionBody} {w u : W} (hok : ¬failed w)
    (h : ssaWriteBody p fuel body w = .returned (u, none)) :
    ∃ printed, PrintedBody p.interner body printed ∧
      content u = content w ++ (bodyDoc p.indent printed).chars := by
  obtain ⟨printed, hprinted, hdepth⟩ := ssaWriteBody_shown h
  refine ⟨printed, hprinted, ?_⟩
  have hemits := Outcome.returned.inj (h.symm.trans (ssaWriteBody_emits hprinted hdepth w))
  obtain ⟨-, -, hcontent⟩ | ⟨herr, -⟩ := hw.emit_checked (checked_bodyDoc p.indent printed) hok
  · rwa [← hemits] at hcontent
  · exact absurd (congrArg Prod.snd hemits).symm herr

variable {ι' W' ε' : Type} {p' : SsaPrinter ι' W' ε'} {fuel' : ℕ}

/-- Bodies of the same text show the same. -/
theorem ssaWriteBody_unambiguous {content : W → List Char} {failed : W → Prop}
    {content' : W' → List Char} {failed' : W' → Prop} (hw : Sticky p.write content failed)
    (hw' : Sticky p'.write content' failed') (hindent : p.indent = p'.indent)
    (hbegin : p.indent.toList.head? ≠ some 'b') {body body' : FunctionBody} {w u : W} {w' u' : W'}
    (hok : ¬failed w) (hok' : ¬failed' w') (hstart : content w = content' w')
    (h : ssaWriteBody p fuel body w = .returned (u, none))
    (h' : ssaWriteBody p' fuel' body' w' = .returned (u', none))
    (heq : content u = content' u') :
    ∃ printed, PrintedBody p.interner body printed ∧ PrintedBody p'.interner body' printed := by
  obtain ⟨printed, hprinted, htext⟩ := ssaWriteBody_text hw hok h
  obtain ⟨printed', hprinted', htext'⟩ := ssaWriteBody_text hw' hok' h'
  rw [htext, htext', hstart, ← hindent] at heq
  obtain rfl := bodyDoc_injective hbegin (List.append_cancel_left heq)
  exact ⟨printed, hprinted, hprinted'⟩

/-- Besides `i32` and `mem` a pair of two `i32`, and a struct of a pair and an `i32`. The size of a
struct is not shown. -/
def pairInterner (size : ℤ) : TypeInterner Unit where
  types address :=
    if address = 8 then ⟨{ kind := .i32, size := 4, align := 4 }, 1⟩
    else if address = 16 then ⟨{ kind := .memory }, 2⟩
    else if address = 24 then
      ⟨{ kind := .struct, size := 8, align := 4, members := [⟨0, 1⟩, ⟨4, 1⟩] }, 3⟩
    else if address = 32 then
      ⟨{ kind := .struct, size, align := 4, members := [⟨0, 3⟩, ⟨8, 1⟩] }, 4⟩
    else {}

/-- The immediate of a return is not shown. -/
def pairBody (immediate : UInt64) : FunctionBody where
  blocks := [{}, { id := 1, control := 2, values := [1, 2, 3] },
    { id := 2, control := 2, values := [4, 5] }]
  values := [{}, { type := 4 }, { operator := .initMemory, type := 2 },
    { operator := .const32, type := 1, immediate := 7 }, { type := 3, immediate := 1 },
    { operator := .return_, arguments := [1, 3], immediate }]

def keepingPrinter (size : ℤ) : SsaPrinter Unit (List Char) Unit :=
  ⟨fun text w => (w ++ text.toList, none), pairInterner size, [], ""⟩

/-- Two bodies with two blocks each, of two modules, are printed as one text. -/
theorem ssaWriteBody_unambiguous_pair :
    ∃ u printed, ssaWriteBody (keepingPrinter 12) 3 (pairBody 0) [] = .returned (u, none) ∧
      ssaWriteBody (keepingPrinter 16) 3 (pairBody 5) [] = .returned (u, none) ∧
      PrintedBody (pairInterner 12) (pairBody 0) printed ∧
      PrintedBody (pairInterner 16) (pairBody 5) printed := by
  have hw : ∀ size, Sticky (keepingPrinter size).write id fun _ => False := fun _ =>
    ⟨fun _ _ _ => ⟨rfl, .rfl⟩, fun _ _ herr => absurd rfl herr, fun _ _ hf _ => hf.elim⟩
  obtain ⟨u, hfirst, hsecond⟩ : ∃ u,
      ssaWriteBody (keepingPrinter 12) 3 (pairBody 0) [] = .returned (u, none) ∧
        ssaWriteBody (keepingPrinter 16) 3 (pairBody 5) [] = .returned (u, none) := ⟨_, rfl, rfl⟩
  obtain ⟨printed, hprinted, hprinted'⟩ := ssaWriteBody_unambiguous (hw 12) (hw 16) rfl
    (by decide) not_false not_false rfl hfirst hsecond rfl
  exact ⟨u, printed, hfirst, hsecond, hprinted, hprinted'⟩

end Wasim.Wopt
