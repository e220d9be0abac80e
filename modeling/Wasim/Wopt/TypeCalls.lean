import Wasim.Wopt.InternerRuns
import Wasim.Wopt.Types

/-!
# Making types out of types

The procedures of `wopt_types.odin` and `wopt_type_interner.odin` that intern a type, called in
any number and from any threads. A call is only given ids that calls before it have returned.
The module is not frozen.

A call takes the types of its ids and makes its key in one step, since nobody changes a type that
was returned, and then goes through the steps of `type_interner_intern`.
-/

namespace Wasim.Wopt

variable {ι : Type}

/-- A call of `type_none`, `type_i32`, `type_mem`, `type_struct_simple`, `type_struct` or
`type_interner_intern`. -/
inductive TypeCall
  | none
  | i32
  | mem
  | structSimple (members : List TypeId)
  | struct (size align : ℤ) (members : List TypeMember)
  | intern (key : TypeKey)
  deriving DecidableEq, Repr

/-- The ids that are given to the call. -/
def TypeCall.ids : TypeCall → List TypeId
  | .structSimple members => members
  | .struct _ _ members => members.map TypeMember.type
  | .intern key => key.members.map TypeMember.type
  | _ => []

/-- The key that the call interns. -/
def typeCallKey (s : TypeInterner ι) : TypeCall → Except TypeAssertion TypeKey
  | .none => .ok {}
  | .i32 => .ok { kind := .i32, size := 4, align := 4 }
  | .mem => .ok { kind := .memory }
  | .structSimple members => typeKeyStructSimple (members.map (typeInternerLoad s))
  | .struct size align members => .ok { kind := .struct, size, align, members }
  | .intern key => .ok key

/-- Where a call is. -/
inductive TypeCallPc
  -- it has not begun
  | ready
  -- it is in `type_interner_intern`
  | interning (key : TypeKey) (pc : InternPc)
  -- it was stopped by an assertion of `type_key_struct_simple`
  | failed (assertion : TypeAssertion)
  deriving DecidableEq, Repr

/-- The interner, and the ids that calls have returned. -/
structure TypeCalls (ι : Type) where
  interner : TypeInterner ι
  returned : List TypeId := []

/-- The id that the call has returned, if it has. -/
def InternPc.result : InternPc → Option TypeId
  | .done id => some id
  | _ => none

section Machine

variable [DecidableEq ι] (digest : TypeKey → UInt64)

def typeCallStep (i : ι) (call : TypeCall) (address members : ℕ) (s : TypeCalls ι) :
    TypeCallPc → Option (TypeCalls ι × TypeCallPc)
  | .ready =>
    if call.ids.all (· ∈ s.returned) then
      match typeCallKey s.interner call with
      | .ok key => some (s, .interning key .start)
      | .error assertion => some (s, .failed assertion)
    else none
  | .interning key pc =>
    (internStep digest i key address members s.interner pc).map fun next =>
      (⟨next.1, next.2.result.toList ++ s.returned⟩, .interning key next.2)
  | .failed _ => none

def TypeCallStep (calls : ι → TypeCall) :
    ι → TypeCalls ι → TypeCallPc → TypeCalls ι → TypeCallPc → Prop :=
  Threads.Chosen fun i (memory : ℕ × ℕ) => typeCallStep digest i (calls i) memory.1 memory.2

/-- A new interner, and no call has begun. -/
def typeCallsStart : Threads.Config ι (TypeCalls ι) TypeCallPc :=
  ⟨⟨typeInternerNew, []⟩, fun _ => .ready⟩

def TypeCallReach (calls : ι → TypeCall) (c : Threads.Config ι (TypeCalls ι) TypeCallPc) : Prop :=
  Threads.Reach (TypeCallStep digest calls) typeCallsStart c

end Machine

/-! ### Runs of the interner -/

/-- The step of the interner that the call takes next. -/
def TypeCallPc.pc : TypeCallPc → InternPc
  | .interning _ pc => pc
  | _ => .start

/-- What the interner sees of the calls. -/
def internConfig (c : Threads.Config ι (TypeCalls ι) TypeCallPc) :
    Threads.Config ι (TypeInterner ι) InternPc :=
  ⟨c.shared.interner, fun i => (c.locals i).pc⟩

/-- The calls that have begun intern these keys. -/
def Interns (keys : ι → TypeKey) (c : Threads.Config ι (TypeCalls ι) TypeCallPc) : Prop :=
  ∀ i key pc, c.locals i = .interning key pc → keys i = key

def TypeCallPc.key : TypeCallPc → TypeKey
  | .interning key _ => key
  | _ => {}

theorem interns_key (c : Threads.Config ι (TypeCalls ι) TypeCallPc) :
    Interns (fun i => (c.locals i).key) c := by
  intro i key pc hi
  simp only [hi, TypeCallPc.key]

/-! ### Ids and keys -/

/-- The id stands for the key: it is 0 for a key of no kind, and else loads the key. -/
def Issued (s : TypeInterner ι) (key : TypeKey) (id : TypeId) : Prop :=
  key.kind = .none ∧ id = 0 ∨ Registered s id key

/-- What a type loads as does not change once its id stands for a key. -/
theorem load_eq_of_issued {s s' : TypeInterner ι} {key : TypeKey} {id : TypeId}
    (h : Issued s key id) (hr : Registered s id key → Registered s' id key) :
    typeInternerLoad s' id = typeInternerLoad s id := by
  rcases h with ⟨-, rfl⟩ | h
  · rfl
  · rw [(hr h).load, h.load]

/-- The key of a call depends on the types of its ids only. -/
theorem typeCallKey_congr {s s' : TypeInterner ι} {call : TypeCall}
    (h : ∀ id ∈ call.ids, typeInternerLoad s' id = typeInternerLoad s id) :
    typeCallKey s' call = typeCallKey s call := by
  cases call with
  | structSimple members => exact congrArg typeKeyStructSimple (List.map_congr_left h)
  | _ => rfl

theorem mem_result_toList {pc : InternPc} {id : TypeId} :
    id ∈ pc.result.toList ↔ pc = .done id := by
  cases pc <;> simp [InternPc.result, eq_comm (a := id)]

/-- What a step does: a call begins, with ids that were returned, or it goes on in the
interner. -/
theorem typeCallStep_cases {digest : TypeKey → UInt64} {i : ι} {call : TypeCall}
    {address members : ℕ} {s s' : TypeCalls ι} {l l' : TypeCallPc}
    (h : typeCallStep digest i call address members s l = some (s', l')) :
    (l = .ready ∧ s' = s ∧ (∀ id ∈ call.ids, id ∈ s.returned) ∧
      ((∃ key, typeCallKey s.interner call = .ok key ∧ l' = .interning key .start) ∨
        ∃ assertion, typeCallKey s.interner call = .error assertion ∧ l' = .failed assertion)) ∨
    ∃ key pc pc', l = .interning key pc ∧ l' = .interning key pc' ∧
      internStep digest i key address members s.interner pc = some (s'.interner, pc') ∧
      s'.returned = pc'.result.toList ++ s.returned := by
  cases l with
  | ready =>
    simp only [typeCallStep] at h
    split at h
    · rename_i hids
      simp only [List.all_eq_true, decide_eq_true_eq] at hids
      refine Or.inl ⟨rfl, ?_⟩
      split at h
      · rename_i key hkey
        obtain ⟨rfl, rfl⟩ := Prod.mk.inj (Option.some.inj h)
        exact ⟨rfl, hids, Or.inl ⟨key, hkey, rfl⟩⟩
      · rename_i assertion hkey
        obtain ⟨rfl, rfl⟩ := Prod.mk.inj (Option.some.inj h)
        exact ⟨rfl, hids, Or.inr ⟨assertion, hkey, rfl⟩⟩
    · cases h
  | interning key pc =>
    simp only [typeCallStep, Option.map_eq_some_iff] at h
    obtain ⟨⟨t, pc'⟩, hstep, heq⟩ := h
    obtain ⟨rfl, rfl⟩ := Prod.mk.inj heq
    exact Or.inr ⟨key, pc, pc', rfl, rfl, hstep, rfl⟩
  | failed => cases h

section Runs

variable [DecidableEq ι] {digest : TypeKey → UInt64} {calls : ι → TypeCall} {i : ι}
  {c d : Threads.Config ι (TypeCalls ι) TypeCallPc} {keys : ι → TypeKey}

/-- A run of the calls is a run of the interner with the keys of the calls. -/
theorem TypeCallReach.internReach (h : TypeCallReach digest calls c) (hkeys : Interns keys c) :
    InternReach digest keys (internConfig c) := by
  induction h with
  | refl => exact .refl
  | @tail c d _ hstep ih =>
    obtain ⟨i, s, l, ⟨memory, hi⟩, rfl⟩ := hstep
    rcases typeCallStep_cases hi with
      ⟨hl, rfl, -, hbegin⟩ | ⟨key, pc, pc', hl, rfl, hintern, -⟩
    · have hpc : l.pc = (c.locals i).pc := by
        rcases hbegin with ⟨key, -, rfl⟩ | ⟨assertion, -, rfl⟩ <;> rw [hl] <;> rfl
      have hsame : internConfig ⟨c.shared, Function.update c.locals i l⟩ = internConfig c := by
        simp only [internConfig, Threads.Config.mk.injEq, true_and]
        funext j
        rcases eq_or_ne j i with rfl | hj
        · rw [Function.update_self, hpc]
        · rw [Function.update_of_ne hj]
      rw [hsame]
      refine ih fun j key pc hj => hkeys j key pc ?_
      have hne : j ≠ i := by
        rintro rfl
        cases hl.symm.trans hj
      exact (Function.update_of_ne hne ..).trans hj
    · have hkey : keys i = key := hkeys i key pc' (Function.update_self ..)
      have hbefore : Interns keys c := fun j key' pc'' hj => by
        rcases eq_or_ne j i with rfl | hne
        · rw [hl] at hj
          exact hkey.trans (TypeCallPc.interning.inj hj).1
        · exact hkeys j key' pc'' ((Function.update_of_ne hne ..).trans hj)
      refine (ih hbefore).tail ⟨i, s.interner, pc', ⟨memory, ?_⟩, ?_⟩
      · simp only [internConfig, hl, TypeCallPc.pc, hkey]
        exact hintern
      · simp only [internConfig, Threads.Config.mk.injEq, true_and]
        funext j
        rcases eq_or_ne j i with rfl | hj
        · simp only [Function.update_self, TypeCallPc.pc]
        · simp only [Function.update_of_ne hj]

/-- A call with a key of no kind returns 0. -/
theorem InternReach.done_zero {c : Threads.Config ι (TypeInterner ι) InternPc}
    (h : InternReach digest keys c) (hkind : (keys i).kind = .none) :
    c.locals i = .start ∨ c.locals i = .done 0 := by
  induction h with
  | refl => exact Or.inl rfl
  | @tail c d _ hstep ih =>
    obtain ⟨j, s, pc, ⟨memory, hj⟩, rfl⟩ := hstep
    rcases eq_or_ne i j with rfl | hne
    · rcases ih with hi | hi
      · simp only [hi, internStep, if_pos hkind] at hj
        obtain ⟨-, rfl⟩ := Prod.mk.inj (Option.some.inj hj)
        exact Or.inr (Function.update_self ..)
      · rw [hi] at hj
        cases hj
    · simpa only [Function.update_of_ne hne] using ih

/-- A type that was there before a step is there behind it. -/
theorem TypeCallReach.registered_step (h : TypeCallReach digest calls c)
    (hstep : Threads.Step (TypeCallStep digest calls) c d) {id : TypeId} {key : TypeKey}
    (hr : Registered c.shared.interner id key) : Registered d.shared.interner id key := by
  obtain ⟨chain, ht, hA⟩ := (h.internReach (interns_key c)).invariant
  obtain ⟨i, s, l, ⟨memory, hi⟩, rfl⟩ := hstep
  rcases typeCallStep_cases hi with ⟨-, rfl, -, -⟩ | ⟨key', pc, pc', hl, -, hintern, -⟩
  · exact hr
  · have hAi := hA i
    have hkey : (c.locals i).key = key' := by rw [hl]; rfl
    simp only [internConfig, hl, TypeCallPc.pc] at hAi
    rw [← hkey] at hintern
    obtain ⟨chain', -, -, hharmless⟩ := internStep_keeps ht hAi hintern
    exact hharmless.grows.registered hr

/-! ### The ids that were returned -/

theorem TypeCallReach.issued (h : TypeCallReach digest calls c) {key : TypeKey} {id : TypeId}
    (hi : c.locals i = .interning key (.done id)) : Issued c.shared.interner key id := by
  have hreach := h.internReach (interns_key c)
  have hkey : (c.locals i).key = key := by rw [hi]; rfl
  have hpc : (internConfig c).locals i = .done id := by
    simp only [internConfig, hi, TypeCallPc.pc]
  by_cases hkind : key.kind = .none
  · rw [← hkey] at hkind
    rcases hreach.done_zero hkind with hstart | hdone
    · cases hpc.symm.trans hstart
    · exact Or.inl ⟨hkey ▸ hkind, InternPc.done.inj (hpc.symm.trans hdone)⟩
  · obtain ⟨chain, -, hA⟩ := hreach.invariant
    obtain ⟨p, cell, k, -, hholds⟩ := published_of_done hA (hkey ▸ hkind) hpc
    exact Or.inr (hkey ▸ hholds.registered)

/-- An id was returned if a call has it as its result. -/
theorem TypeCallReach.mem_returned (h : TypeCallReach digest calls c) {id : TypeId} :
    id ∈ c.shared.returned ↔ ∃ i key, c.locals i = .interning key (.done id) := by
  induction h with
  | refl => exact ⟨fun hid => (nomatch hid), fun ⟨_, _, hi⟩ => (nomatch hi)⟩
  | @tail c d _ hstep ih =>
    obtain ⟨i, s, l, ⟨memory, hi⟩, rfl⟩ := hstep
    have hback : ∀ {j l'}, Function.update c.locals i l j = l' →
        j = i ∧ l = l' ∨ j ≠ i ∧ c.locals j = l' := by
      intro j l' hj
      rcases eq_or_ne j i with rfl | hne
      · exact Or.inl ⟨rfl, (Function.update_self ..).symm.trans hj⟩
      · exact Or.inr ⟨hne, (Function.update_of_ne hne ..).symm.trans hj⟩
    rcases typeCallStep_cases hi with
      ⟨hl, rfl, -, hbegin⟩ | ⟨key, pc, pc', hl, rfl, hintern, hreturned⟩
    · simp only [ih]
      constructor
      · rintro ⟨j, key, hj⟩
        have hne : j ≠ i := by
          rintro rfl
          cases hl.symm.trans hj
        exact ⟨j, key, (Function.update_of_ne hne ..).trans hj⟩
      · rintro ⟨j, key, hj⟩
        rcases hback hj with ⟨-, rfl⟩ | ⟨-, hj⟩
        · rcases hbegin with ⟨_, -, h⟩ | ⟨_, -, h⟩ <;> cases h
        · exact ⟨j, key, hj⟩
    · simp only [hreturned, List.mem_append, mem_result_toList, ih]
      constructor
      · rintro (rfl | ⟨j, key', hj⟩)
        · exact ⟨i, key, Function.update_self ..⟩
        · have hne : j ≠ i := by
            rintro rfl
            obtain ⟨rfl, rfl⟩ := TypeCallPc.interning.inj (hl.symm.trans hj)
            cases hintern
          exact ⟨j, key', (Function.update_of_ne hne ..).trans hj⟩
      · rintro ⟨j, key', hj⟩
        rcases hback hj with ⟨-, heq⟩ | ⟨-, hj⟩
        · exact Or.inl (TypeCallPc.interning.inj heq).2
        · exact Or.inr ⟨j, key', hj⟩

/-- What an id that was returned loads does not change. -/
theorem TypeCallReach.load_step (h : TypeCallReach digest calls c)
    (hstep : Threads.Step (TypeCallStep digest calls) c d) {id : TypeId}
    (hid : id ∈ c.shared.returned) :
    typeInternerLoad d.shared.interner id = typeInternerLoad c.shared.interner id := by
  obtain ⟨j, key, hj⟩ := h.mem_returned.mp hid
  exact load_eq_of_issued (h.issued hj) (h.registered_step hstep)

/-- The key of a call that has begun, or the assertion that it has failed. -/
def TypeCallPc.made : TypeCallPc → Except TypeAssertion TypeKey
  | .failed assertion => .error assertion
  | l => .ok l.key

/-- A call that has begun was given ids that were returned, and their types made its key, or
failed the assertion. -/
theorem TypeCallReach.evaluated (h : TypeCallReach digest calls c) (i : ι)
    (hready : c.locals i ≠ .ready) : (∀ id ∈ (calls i).ids, id ∈ c.shared.returned) ∧
      typeCallKey c.shared.interner (calls i) = (c.locals i).made := by
  induction h with
  | refl => exact absurd rfl hready
  | @tail c d hreach hstep ih =>
    have hload : ∀ id ∈ c.shared.returned, typeInternerLoad d.shared.interner id =
        typeInternerLoad c.shared.interner id :=
      fun _ hid => TypeCallReach.load_step hreach hstep hid
    obtain ⟨j, s, l, ⟨memory, hj⟩, rfl⟩ := hstep
    have hsub : c.shared.returned ⊆ s.returned := by
      rcases typeCallStep_cases hj with ⟨-, rfl, -, -⟩ | ⟨_, _, _, -, -, -, hreturned⟩
      · exact List.Subset.refl _
      · rw [hreturned]
        exact List.subset_append_right _ _
    -- a call that had begun keeps what its types made
    have hkeep : c.locals i ≠ .ready → (∀ id ∈ (calls i).ids, id ∈ s.returned) ∧
        typeCallKey s.interner (calls i) = (c.locals i).made := by
      intro hne
      obtain ⟨hids, heval⟩ := ih hne
      refine ⟨fun id hid => hsub (hids id hid), ?_⟩
      rw [← heval]
      exact typeCallKey_congr fun id hid => hload id (hids id hid)
    rcases eq_or_ne i j with rfl | hne
    · simp only [Function.update_self] at hready ⊢
      rcases typeCallStep_cases hj with
        ⟨-, rfl, hids, ⟨key, hkey, rfl⟩ | ⟨assertion, hkey, rfl⟩⟩ | ⟨key, pc, pc', hl, rfl, -, -⟩
      · exact ⟨hids, hkey⟩
      · exact ⟨hids, hkey⟩
      · have hbegun := hkeep (by rw [hl]; simp)
        rwa [hl] at hbegun
    · simp only [Function.update_of_ne hne] at hready ⊢
      exact hkeep hready

end Runs

end Wasim.Wopt
