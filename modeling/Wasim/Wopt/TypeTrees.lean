import Wasim.Wopt.TypeCalls

/-!
# Walking a type

`_abi_value_from_type` of `wopt_abi.odin` and `ssa_write_type` of `wopt_ir.odin` go from a type to
the types of its members, through the ids in it. They end, since a call of the interner is only
given ids that were returned before it began: an id that was returned is grounded (`Grounded`),
and they end at every grounded id.

The writer of `ssa_write_type` is a parameter: it writes a text, and may fail.
-/

namespace Wasim.Wopt

variable {ι : Type}

structure AbiLocation where
  offset : ℤ := 0
  indirectOffset : ℤ := 0
  register : UInt8 := 0
  flags : UInt8 := 0
  deriving DecidableEq, Repr

structure AbiValue where
  type : IrType
  children : List AbiValue := []
  location : Option AbiLocation := none

/-- The children of a struct: the values of the members. -/
def abiChildren (value : TypeId → Outcome AbiValue) : List TypeMember → Outcome (List AbiValue)
  | [] => .returned []
  | member :: members => do
    let child ← value member.type
    let children ← abiChildren value members
    return child :: children

def abiValueFromType (s : TypeInterner ι) : ℕ → IrType → Outcome AbiValue
  | 0, _ => .outOfFuel
  | fuel + 1, type =>
    match type.key.kind with
    | .none => .returned { type }
    | .memory => .returned { type }
    | .struct => do
      let children ←
        abiChildren (fun id => abiValueFromType s fuel (typeInternerLoad s id)) type.key.members
      return { type, children }
    | .i32 => .returned { type, location := some {} }

def abiValueFromTypeId (s : TypeInterner ι) (fuel : ℕ) (id : TypeId) : Outcome AbiValue :=
  abiValueFromType s fuel (typeInternerLoad s id)

section Writer

variable {W ε : Type} (write : String → W → W × Option ε)

/-- `or_return`: an error ends the procedure. -/
def orReturn (result : W × Option ε) (next : W → Outcome (W × Option ε)) :
    Outcome (W × Option ε) :=
  match result with
  | (w, none) => next w
  | (w, some err) => .returned (w, some err)

def ssaWriteMembers (writeType : TypeId → W → Outcome (W × Option ε)) :
    List TypeMember → W → Outcome (W × Option ε)
  | [], w => .returned (w, none)
  | member :: members, w =>
    orReturn (write "[" w) fun w =>
    orReturn (write (toString member.offset) w) fun w =>
    orReturn (write "] = " w) fun w => do
    let result ← writeType member.type w
    orReturn result fun w => ssaWriteMembers writeType members w

def ssaWriteType (s : TypeInterner ι) : ℕ → TypeId → W → Outcome (W × Option ε)
  | 0, _, _ => .outOfFuel
  | fuel + 1, id, w =>
    let type := typeInternerLoad s id
    match type.key.kind with
    | .none => .returned (write "none" w)
    | .i32 => .returned (write "i32" w)
    | .memory => .returned (write "mem" w)
    | .struct =>
      orReturn (write "struct \x7b" w) fun w => do
      let result ← ssaWriteMembers write (ssaWriteType s fuel) type.key.members w
      orReturn result fun w => .returned (write "\x7d" w)

end Writer

/-! ### Grounded ids -/

/-- The types below the id end. -/
inductive Grounded (s : TypeInterner ι) : TypeId → Prop
  | mk {key : TypeKey} {id : TypeId} : Issued s key id →
      (∀ member ∈ (typeInternerLoad s id).key.members, Grounded s member.type) → Grounded s id

theorem Issued.load_id {s : TypeInterner ι} {key : TypeKey} {id : TypeId} (h : Issued s key id) :
    (typeInternerLoad s id).id = id := by
  rcases h with ⟨-, rfl⟩ | h
  · rfl
  · rw [h.load]

/-- The members of the type of an id are the members of its key. -/
theorem Issued.mem_of_mem_load {s : TypeInterner ι} {key : TypeKey} {id : TypeId}
    {member : TypeMember} (h : Issued s key id)
    (hm : member ∈ (typeInternerLoad s id).key.members) : member ∈ key.members := by
  rcases h with ⟨-, rfl⟩ | h
  · cases hm
  · rwa [h.load] at hm

theorem Grounded.mono {s s' : TypeInterner ι} {id : TypeId}
    (hr : ∀ id key, Registered s id key → Registered s' id key) (h : Grounded s id) :
    Grounded s' id := by
  induction h with
  | @mk key id hissued hmembers ih =>
    have hissued' : Issued s' key id := hissued.imp_right (hr id key)
    refine .mk hissued' fun member hm => ih member ?_
    rwa [← load_eq_of_issued hissued (hr id key)]

/-! ### The recursions end -/

/-- The tree has the shape of its type: a struct has a child for every member, with the id of the
member, and a location is there exactly for an integer. -/
inductive AbiValue.Mirrors : AbiValue → Prop
  | mk {value : AbiValue} :
      (value.type.key.kind = .struct →
        value.children.map (fun child => child.type.id) =
          value.type.key.members.map TypeMember.type) →
      (value.type.key.kind ≠ .struct → value.children = []) →
      (value.location.isSome ↔ value.type.key.kind = .i32) →
      (∀ child ∈ value.children, child.Mirrors) → value.Mirrors

open Outcome

theorem abiChildren_answers (value : ℕ → TypeId → Outcome AbiValue) {members : List TypeMember}
    (h : ∀ member ∈ members, ∃ child, Answers (fun n => value n member.type) child ∧
      child.type.id = member.type ∧ child.Mirrors) :
    ∃ children, Answers (fun n => abiChildren (value n) members) children ∧
      children.map (fun child => child.type.id) = members.map TypeMember.type ∧
      ∀ child ∈ children, child.Mirrors := by
  induction members with
  | nil => exact ⟨[], .of_returned [], rfl, fun _ hc => nomatch hc⟩
  | cons member members ih =>
    obtain ⟨child, hchild, hid, hmirrors⟩ := h member (List.mem_cons_self ..)
    obtain ⟨children, hchildren, hids, hall⟩ := ih fun m hm => h m (List.mem_cons_of_mem _ hm)
    refine ⟨child :: children, ?_, ?_, List.forall_mem_cons.mpr ⟨hmirrors, hall⟩⟩
    · exact hchild.bind (hchildren.bind (.of_returned _))
    · rw [List.map_cons, List.map_cons, hid, hids]

theorem Grounded.abiValue_answers {s : TypeInterner ι} {id : TypeId} (h : Grounded s id) :
    ∃ value, Answers (fun fuel => abiValueFromTypeId s fuel id) value ∧
      value.type = typeInternerLoad s id ∧ value.type.id = id ∧ value.Mirrors := by
  induction h with
  | @mk key id hissued _ ih =>
    obtain ⟨children, hchildren, hids, hall⟩ := abiChildren_answers
      (fun n id => abiValueFromTypeId s n id) fun member hm => by
        obtain ⟨child, hanswers, -, hid, hmirrors⟩ := ih member hm
        exact ⟨child, hanswers, hid, hmirrors⟩
    have hscalar : ∀ {location : Option AbiLocation},
        (typeInternerLoad s id).key.kind ≠ .struct →
        (location.isSome ↔ (typeInternerLoad s id).key.kind = .i32) →
        AbiValue.Mirrors { type := typeInternerLoad s id, location } := fun hkind hlocation =>
      .mk (fun hstruct => absurd hstruct hkind) (fun _ => rfl) hlocation fun _ hc => nomatch hc
    cases hkind : (typeInternerLoad s id).key.kind with
    | none =>
      refine ⟨{ type := typeInternerLoad s id }, .succ ?_, rfl, hissued.load_id, hscalar ?_ ?_⟩
      · simp only [abiValueFromTypeId, abiValueFromType, hkind]
        exact .of_returned _
      all_goals simp [hkind]
    | memory =>
      refine ⟨{ type := typeInternerLoad s id }, .succ ?_, rfl, hissued.load_id, hscalar ?_ ?_⟩
      · simp only [abiValueFromTypeId, abiValueFromType, hkind]
        exact .of_returned _
      all_goals simp [hkind]
    | i32 =>
      refine ⟨{ type := typeInternerLoad s id, location := some {} }, .succ ?_, rfl,
        hissued.load_id, hscalar ?_ ?_⟩
      · simp only [abiValueFromTypeId, abiValueFromType, hkind]
        exact .of_returned _
      all_goals simp [hkind]
    | struct =>
      refine ⟨{ type := typeInternerLoad s id, children }, .succ ?_, rfl, hissued.load_id,
        .mk (fun _ => hids) (fun hne => absurd hkind hne) ?_ hall⟩
      · simp only [abiValueFromTypeId, abiValueFromType, hkind]
        exact hchildren.bind (.of_returned _)
      · simp [hkind]

section Writer

variable {W ε : Type} (write : String → W → W × Option ε)

theorem orReturn_answers (result : W × Option ε) {next : ℕ → W → Outcome (W × Option ε)}
    (h : ∀ w, ∃ r, Answers (fun n => next n w) r) :
    ∃ r, Answers (fun n => orReturn result (next n)) r := by
  obtain ⟨w, _ | err⟩ := result
  · exact h w
  · exact ⟨_, .of_returned (w, some err)⟩

theorem ssaWriteMembers_answers {writeType : ℕ → TypeId → W → Outcome (W × Option ε)}
    {members : List TypeMember}
    (h : ∀ member ∈ members, ∀ w, ∃ r, Answers (fun n => writeType n member.type w) r) (w : W) :
    ∃ r, Answers (fun n => ssaWriteMembers write (writeType n) members w) r := by
  induction members generalizing w with
  | nil => exact ⟨_, .of_returned (w, none)⟩
  | cons member members ih =>
    refine orReturn_answers _ fun w => orReturn_answers _ fun w => orReturn_answers _ fun w => ?_
    obtain ⟨result, hresult⟩ := h member (List.mem_cons_self ..) w
    obtain ⟨r, hr⟩ := orReturn_answers result fun w =>
      ih (fun m hm => h m (List.mem_cons_of_mem _ hm)) w
    exact ⟨r, hresult.bind hr⟩

theorem Grounded.ssaWriteType_answers {s : TypeInterner ι} {id : TypeId} (h : Grounded s id)
    (w : W) : ∃ r, Answers (fun fuel => ssaWriteType write s fuel id w) r := by
  induction h generalizing w with
  | @mk key id hissued _ ih =>
    suffices hbody : ∃ r, Answers (fun fuel => ssaWriteType write s (fuel + 1) id w) r by
      obtain ⟨r, hr⟩ := hbody
      exact ⟨r, hr.succ⟩
    simp only [ssaWriteType]
    cases hkind : (typeInternerLoad s id).key.kind with
    | struct =>
      refine orReturn_answers _ fun w => ?_
      obtain ⟨result, hresult⟩ := ssaWriteMembers_answers write ih w
      obtain ⟨r, hr⟩ := orReturn_answers result fun w =>
        ⟨_, .of_returned (write "\x7d" w)⟩
      exact ⟨r, hresult.bind hr⟩
    | _ => exact ⟨_, .of_returned _⟩

end Writer

/-! ### Runs -/

section Runs

variable [DecidableEq ι] {digest : TypeKey → UInt64} {calls : ι → TypeCall}
  {c : Threads.Config ι (TypeCalls ι) TypeCallPc}

/-- The members of a key that is interned have ids that were returned. -/
theorem TypeCallReach.member_returned (h : TypeCallReach digest calls c) {i : ι} {key : TypeKey}
    {pc : InternPc} (hi : c.locals i = .interning key pc) :
    ∀ member ∈ key.members, member.type ∈ c.shared.returned := by
  obtain ⟨hids, hmade⟩ := h.evaluated i (by rw [hi]; simp)
  rw [hi] at hmade
  suffices hmembers : key.members.map TypeMember.type = (calls i).ids ∨ key.members = [] by
    intro member hm
    rcases hmembers with hmembers | hmembers
    · exact hids _ (hmembers ▸ List.mem_map_of_mem hm)
    · rw [hmembers] at hm
      cases hm
  cases hcall : calls i with
  | structSimple members =>
    rw [hcall] at hmade hids
    refine Or.inl ((typeKeyStructSimple_ids hmade).trans ?_)
    rw [List.map_map]
    refine (List.map_congr_left fun id hid => ?_).trans (List.map_id members)
    obtain ⟨j, key', hj⟩ := h.mem_returned.mp (hids id hid)
    exact (h.issued hj).load_id
  | struct size align members =>
    rw [hcall] at hmade
    obtain rfl := Except.ok.inj hmade
    exact Or.inl rfl
  | intern key' =>
    rw [hcall] at hmade
    obtain rfl := Except.ok.inj hmade
    exact Or.inl rfl
  | _ =>
    rw [hcall] at hmade
    obtain rfl := Except.ok.inj hmade
    exact Or.inr rfl

/-- Every id that was returned is grounded: the ids of its members were returned before. -/
theorem TypeCallReach.grounded (h : TypeCallReach digest calls c) :
    ∀ id ∈ c.shared.returned, Grounded c.shared.interner id := by
  induction h with
  | refl => exact fun _ hid => nomatch hid
  | @tail c d hreach hstep ih =>
    have hmono : ∀ id ∈ c.shared.returned, Grounded d.shared.interner id := fun id hid =>
      (ih id hid).mono fun _ _ => TypeCallReach.registered_step hreach hstep
    have hlater : TypeCallReach digest calls d := hreach.tail hstep
    obtain ⟨i, s, l, ⟨memory, hi⟩, rfl⟩ := hstep
    intro id hid
    rcases typeCallStep_cases hi with ⟨-, rfl, -, -⟩ | ⟨key, pc, pc', hl, rfl, -, hreturned⟩
    · exact hmono id hid
    · simp only [hreturned, List.mem_append, mem_result_toList] at hid
      rcases hid with rfl | hid
      · have hissued := hlater.issued (i := i) (Function.update_self ..)
        exact .mk hissued fun member hm => hmono _
          (TypeCallReach.member_returned hreach hl member (hissued.mem_of_mem_load hm))
      · exact hmono id hid

/-- In every state that the calls reach, both recursions end at every id that was returned, and
the tree of `_abi_value_from_type_id` mirrors the type, whatever the writer does. -/
theorem typeTrees_end (h : TypeCallReach digest calls c) {id : TypeId}
    (hid : id ∈ c.shared.returned) :
    (∃ value, Answers (fun fuel => abiValueFromTypeId c.shared.interner fuel id) value ∧
      value.type = typeInternerLoad c.shared.interner id ∧ value.type.id = id ∧ value.Mirrors) ∧
    ∀ (W ε : Type) (write : String → W → W × Option ε) (w : W),
      ∃ r, Answers (fun fuel => ssaWriteType write c.shared.interner fuel id w) r :=
  ⟨(h.grounded id hid).abiValue_answers,
    fun _ _ write w => (h.grounded id hid).ssaWriteType_answers write w⟩

end Runs

/-- The digests of the keys of `i32` and of a struct with one. -/
def structDigest (key : TypeKey) : UInt64 :=
  if key.kind = .i32 then 0x770B656E5A983856 else 0xA658F22DAD1D42E1

def structOfI32 : Fin 2 → TypeCall
  | 0 => .i32
  | 1 => .structSimple [4211200]

theorem typeTrees_end_struct :
    ∃ c, TypeCallReach structDigest structOfI32 c ∧ 4211206 ∈ c.shared.returned ∧
      ∃ value, Answers (fun fuel => abiValueFromTypeId c.shared.interner fuel 4211206) value ∧
        value.type.id = 4211206 ∧ value.Mirrors := by
  have hexec : ((Threads.exec (fun i (memory : ℕ × ℕ) =>
      typeCallStep structDigest i (structOfI32 i) memory.1 memory.2)
      (List.replicate 29 (0, 33689600, 33689648) ++ List.replicate 29 (1, 33689648, 33689696))
      typeCallsStart).map fun c => c.shared.returned) = some [4211206, 4211200] := by
    decide +kernel
  obtain ⟨c, hc, hreturned⟩ := Option.map_eq_some_iff.mp hexec
  have hid : 4211206 ∈ c.shared.returned := by
    rw [hreturned]
    exact List.mem_cons_self ..
  have hreach : TypeCallReach structDigest structOfI32 c := Threads.exec_sound _ hc
  obtain ⟨⟨value, hanswers, -, hvalue⟩, -⟩ := typeTrees_end hreach hid
  exact ⟨c, hreach, hid, value, hanswers, hvalue⟩

end Wasim.Wopt
