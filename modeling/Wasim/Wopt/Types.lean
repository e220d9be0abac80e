import Wasim.Base.ArenaFits
import Wasim.Library.StructLayout
import Wasim.Wopt.TypeInterner

/-!
# The layout of simple structs

`type_key_struct_simple` of `wopt_types.odin`, which makes the key of a struct out of the types
of its members. An `int` is a number with a sign that wraps at 64 bits. The arena that holds the
members of the key is left out.
-/

namespace Wasim.Wopt

/-- The assertions that `type_key_struct_simple` can fail. -/
inductive TypeAssertion
  -- of `mem.align_forward_int`, that the alignment is a power of two
  | powerOfTwo
  -- `0 <= offset`
  | offset
  deriving DecidableEq, Repr

def alignForwardInt (ptr align : ℤ) : Except TypeAssertion ℤ :=
  match alignForward (ptr % 2 ^ 64).toNat (align % 2 ^ 64).toNat with
  | .returned p => .ok ((p : ℤ).bmod (2 ^ 64))
  | _ => .error .powerOfTwo

/-- One turn of the loop over the members. -/
def structSimpleMember (offset : ℤ) (key : TypeKey) (memberType : IrType) :
    Except TypeAssertion (ℤ × TypeKey) := do
  let offset ← alignForwardInt offset memberType.key.align
  let key := { key with members := key.members ++ [TypeMember.mk offset memberType.id] }
  let offset := (offset + memberType.key.size).bmod (2 ^ 64)
  let key := { key with align := max key.align memberType.key.align }
  if 0 ≤ offset then .ok (offset, key) else .error .offset

def structSimpleMembers : ℤ → TypeKey → List IrType → Except TypeAssertion (ℤ × TypeKey)
  | offset, key, [] => .ok (offset, key)
  | offset, key, memberType :: members => do
    let (offset, key) ← structSimpleMember offset key memberType
    structSimpleMembers offset key members

def typeKeyStructSimple (members : List IrType) : Except TypeAssertion TypeKey := do
  let (offset, key) ← structSimpleMembers 0 { kind := .struct, align := 1 } members
  let size ← alignForwardInt offset key.align
  return { key with size }

/-! ### The layout -/

/-- The size of the type is not negative, and its alignment is a power of two. -/
def IrType.Sized (t : IrType) : Prop :=
  0 ≤ t.key.size ∧ t.key.size < 2 ^ 63 ∧ ∃ k < 63, t.key.align = 2 ^ k

def IrType.size (t : IrType) : ℤ := t.key.size

def IrType.align (t : IrType) : ℤ := t.key.align

/-- The types of the members of a struct, with their offsets. -/
def fieldsOf (members : List IrType) (key : TypeKey) : List (IrType × ℤ) :=
  members.zip (key.members.map TypeMember.offset)

open StructLayout

/-- The key is the one of a struct with the members: each is at the least multiple of its
alignment behind the one before, none begins before the end of another in front of it, the
alignment is the largest of the members, and the size the least multiple of it that covers
them. -/
structure LaidOut (members : List IrType) (key : TypeKey) : Prop where
  kind : key.kind = .struct
  ids : key.members.map TypeMember.type = members.map IrType.id
  offset : ∀ i field, (fieldsOf members key)[i]? = some field →
    IsLeast {o | endBefore IrType.size (fieldsOf members key) i ≤ o ∧ field.1.align ∣ o} field.2
  apart : (fieldsOf members key).Pairwise fun p q => p.2 + p.1.size ≤ q.2
  align : IsGreatest (insert 1 {a | ∃ t ∈ members, t.align = a}) key.align
  size : IsLeast {n | 0 ≤ n ∧ key.align ∣ n ∧
    ∀ field ∈ fieldsOf members key, field.2 + field.1.size ≤ n} key.size

section Layout

variable {members : List IrType} {key : TypeKey}

theorem length_members_of_ids (h : key.members.map TypeMember.type = members.map IrType.id) :
    key.members.length = members.length := by
  simpa using congrArg List.length h

theorem map_snd_fieldsOf (h : key.members.length = members.length) :
    (fieldsOf members key).map Prod.snd = key.members.map TypeMember.offset :=
  List.map_snd_zip (by simp [h])

theorem map_fst_fieldsOf (h : key.members.length = members.length) :
    (fieldsOf members key).map Prod.fst = members :=
  List.map_fst_zip (by simp [h])

/-- The end before a field only looks at the fields before it. -/
theorem endBefore_congr {fields fields' : List (IrType × ℤ)} {i : ℕ}
    (h : ∀ j < i, fields[j]? = fields'[j]?) :
    endBefore IrType.size fields i = endBefore IrType.size fields' i := by
  match i with
  | 0 => rfl
  | i + 1 => simp only [endBefore, h i (Nat.lt_succ_self i)]

/-- A struct has one key. -/
theorem LaidOut.unique {key' : TypeKey} (h : LaidOut members key) (h' : LaidOut members key') :
    key = key' := by
  have hlen := length_members_of_ids h.ids
  have hlen' := length_members_of_ids h'.ids
  have hfields : fieldsOf members key = fieldsOf members key' := by
    refine List.ext_getElem? fun i => ?_
    -- induction on the index: an offset depends on the field before only
    induction i using Nat.strong_induction_on with
    | _ i ih =>
      have hfst := congrArg (·[i]?) ((map_fst_fieldsOf hlen).trans (map_fst_fieldsOf hlen').symm)
      simp only [List.getElem?_map] at hfst
      rcases hp : (fieldsOf members key)[i]? with _ | p <;>
        rcases hq : (fieldsOf members key')[i]? with _ | q <;>
        simp only [hp, hq, Option.map_none, Option.map_some, reduceCtorEq,
          Option.some.injEq] at hfst ⊢
      have hleast := h.offset i p hp
      have hleast' := h'.offset i q hq
      rw [endBefore_congr ih, hfst] at hleast
      exact Prod.ext hfst (hleast.unique hleast')
  have hoffsets : key.members.map TypeMember.offset = key'.members.map TypeMember.offset := by
    rw [← map_snd_fieldsOf hlen, hfields, map_snd_fieldsOf hlen']
  have hmembers : key.members = key'.members := by
    refine List.ext_getElem (hlen.trans hlen'.symm) fun i hi hi' => ?_
    have hoffset := congrArg (·[i]?) hoffsets
    have hid := congrArg (·[i]?) (h.ids.trans h'.ids.symm)
    simp only [List.getElem?_map, List.getElem?_eq_getElem hi, List.getElem?_eq_getElem hi',
      Option.map_some, Option.some.injEq] at hoffset hid
    rcases hm : key.members[i] with ⟨offset, type⟩
    rcases hm' : key'.members[i] with ⟨offset', type'⟩
    simp_all
  have halign := h.align.unique h'.align
  have hsize := h.size
  rw [hfields, halign] at hsize
  rcases key with ⟨kind, size, align, ms⟩
  rcases key' with ⟨kind', size', align', ms'⟩
  obtain rfl : size = size' := hsize.unique h'.size
  obtain rfl : align = align' := halign
  obtain rfl : ms = ms' := hmembers
  rw [TypeKey.mk.injEq]
  exact ⟨h.kind.trans h'.kind.symm, rfl, rfl, rfl⟩

/-! ### What the code computes -/

theorem bmod_of_nonneg {n : ℤ} (h : 0 ≤ n) (hlt : n < 2 ^ 63) : n.bmod (2 ^ 64) = n :=
  Int.bmod_eq_of_le (by omega) (by omega)

theorem toNat_emod_of_nonneg {n : ℤ} (h : 0 ≤ n) (hlt : n < 2 ^ 63) :
    (n % 2 ^ 64).toNat = n.toNat := by
  rw [Int.emod_eq_of_lt h (by omega)]

/-- Nothing wraps as long as the aligned number is an `int`. -/
theorem alignForwardInt_eq {p o : ℤ} {k : ℕ} (hp : 0 ≤ p) (hk : k < 63)
    (hleast : IsLeast {x : ℤ | p ≤ x ∧ 2 ^ k ∣ x} o) (ho : o < 2 ^ 63) :
    alignForwardInt p (2 ^ k) = .ok o := by
  obtain ⟨n, rfl⟩ := Int.eq_ofNat_of_zero_le hp
  have hno : (n : ℤ) ≤ o := hleast.1.1
  have hpow : 2 ^ k ≤ 2 ^ 62 := Nat.pow_le_pow_right (by decide) (by omega)
  have hup : (Align.up n (2 ^ k) : ℤ) = o := by
    have := isLeast_up (n := n) (Nat.pow_pos (n := k) (by decide : 0 < 2))
    rw [Nat.cast_pow] at this
    exact this.unique hleast
  have ha : ((2 : ℤ) ^ k % 2 ^ 64).toNat = 2 ^ k := by
    have hcast : ((2 ^ k : ℕ) : ℤ) = 2 ^ k := Nat.cast_pow 2 k
    rw [← hcast, Int.emod_eq_of_lt (Int.natCast_nonneg _) (by omega), Int.toNat_natCast]
  rw [alignForwardInt, ha, toNat_emod_of_nonneg hp (by omega), Int.toNat_natCast,
    alignForward_eq ⟨k, rfl⟩ (by omega)]
  simp only [hup]
  rw [bmod_of_nonneg (by omega) ho]

/-- The least alignment that is large enough for all members. -/
def structAlign (align : ℤ) (members : List IrType) : ℤ :=
  members.foldl (fun align t => max align t.align) align

theorem structAlign_isGreatest (a : ℤ) (members : List IrType) :
    IsGreatest (insert a {a | ∃ t ∈ members, t.align = a}) (structAlign a members) := by
  induction members generalizing a with
  | nil => simp [structAlign, IsGreatest, upperBounds]
  | cons t members ih =>
    obtain ⟨hmem, hle⟩ := ih (max a t.align)
    simp only [structAlign, List.foldl_cons] at hmem hle ⊢
    refine ⟨?_, ?_⟩
    · rcases hmem with hmax | ⟨u, hu, halign⟩
      · rcases max_choice a t.align with h | h
        · exact Or.inl (hmax.trans h)
        · exact Or.inr ⟨t, List.mem_cons_self .., (hmax.trans h).symm⟩
      · exact Or.inr ⟨u, List.mem_cons_of_mem _ hu, halign⟩
    · have hmax := hle (Set.mem_insert _ _)
      rintro x (rfl | ⟨u, hu, rfl⟩)
      · exact (le_max_left _ _).trans hmax
      · rcases List.mem_cons.mp hu with rfl | hu
        · exact (le_max_right _ _).trans hmax
        · exact hle (Or.inr ⟨u, hu, rfl⟩)

/-- The members of the key for fields at their offsets. -/
def membersOf (fields : List (IrType × ℤ)) : List TypeMember :=
  fields.map fun field => ⟨field.2, field.1.id⟩

/-- The loop places the members, as long as their ends are `int`s. -/
theorem structSimpleMembers_eq {start stop : ℤ} {fields : List (IrType × ℤ)}
    (h : Placed IrType.size IrType.align start fields stop) (hstart : 0 ≤ start)
    (hsized : ∀ p ∈ fields, p.1.Sized) (hstop : stop < 2 ^ 63) (key : TypeKey) :
    structSimpleMembers start key (fields.map Prod.fst) =
      .ok (stop, { key with
        members := key.members ++ membersOf fields
        align := structAlign key.align (fields.map Prod.fst) }) := by
  induction h generalizing key with
  | nil => simp [structSimpleMembers, membersOf, structAlign]
  | @cons start stop offset t fields hoffset hfields ih =>
    obtain ⟨hsize, -, k, hk, halign⟩ : t.Sized := hsized (t, offset) (List.mem_cons_self ..)
    have htail := fun p hp => hsized p (List.mem_cons_of_mem _ hp)
    have hle : offset + t.key.size ≤ stop := (hfields.bounds fun p hp => (htail p hp).1).1
    have hge : start ≤ offset := hoffset.1.1
    have haligned : alignForwardInt start t.key.align = .ok offset := by
      rw [IrType.align, halign] at hoffset
      rw [halign]
      exact alignForwardInt_eq hstart hk hoffset (by omega)
    have hmember : structSimpleMember start key t = .ok (offset + t.key.size,
        { key with
          members := key.members ++ [⟨offset, t.id⟩]
          align := max key.align t.key.align }) := by
      simp only [structSimpleMember, haligned, bind, Except.bind]
      rw [bmod_of_nonneg (by omega) (by omega), if_pos (by omega)]
    rw [List.map_cons, structSimpleMembers, hmember]
    have hnext := ih (by rw [IrType.size]; omega) htail hstop
    simp only [IrType.size] at hnext
    simp only [bind, Except.bind, hnext, membersOf, List.map_cons, structAlign, List.foldl_cons,
      List.append_assoc, List.singleton_append]
    rfl

/-- The members of the key are the members the loop was given, whatever their types. -/
theorem structSimpleMembers_ids {members : List IrType} {offset stop : ℤ} {key key' : TypeKey}
    (h : structSimpleMembers offset key members = .ok (stop, key')) :
    key'.members.map TypeMember.type =
      key.members.map TypeMember.type ++ members.map IrType.id := by
  induction members generalizing offset key with
  | nil =>
    obtain ⟨-, rfl⟩ := Prod.mk.inj (Except.ok.inj h)
    simp
  | cons t members ih =>
    rw [structSimpleMembers, structSimpleMember] at h
    rcases halign : alignForwardInt offset t.key.align with e | aligned
    · rw [halign] at h
      cases h
    · rw [halign] at h
      simp only [bind, Except.bind] at h
      split at h
      · cases h
      · rename_i next hnext
        split at hnext
        · obtain rfl := Except.ok.inj hnext
          simpa using ih h
        · cases hnext

theorem typeKeyStructSimple_ids {members : List IrType} {key : TypeKey}
    (h : typeKeyStructSimple members = .ok key) :
    key.members.map TypeMember.type = members.map IrType.id := by
  rw [typeKeyStructSimple] at h
  rcases hloop : structSimpleMembers 0 { kind := .struct, align := 1 } members with e | ⟨stop, k⟩
  · rw [hloop] at h
    cases h
  · rw [hloop] at h
    simp only [bind, Except.bind] at h
    split at h
    · cases h
    · obtain rfl := Except.ok.inj h
      simpa using structSimpleMembers_ids hloop

/-- The largest of powers of two is one. -/
theorem structAlign_pow {members : List IrType} (h : ∀ t ∈ members, t.Sized) :
    ∃ k < 63, structAlign 1 members = 2 ^ k := by
  rcases (structAlign_isGreatest 1 members).1 with hone | ⟨t, ht, halign⟩
  · exact ⟨0, by decide, hone⟩
  · obtain ⟨k, hk, hpow⟩ := (h t ht).2.2
    exact ⟨k, hk, halign.symm.trans hpow⟩

/-- The members of a struct can be laid out, in one way, and as long as the size of the struct is
an `int`, the key that `type_key_struct_simple` makes is this layout. It can be nested. -/
theorem typeKeyStructSimple_laidOut (members : List IrType) (h : ∀ t ∈ members, t.Sized) :
    ∃ key, (∀ key', LaidOut members key' ↔ key' = key) ∧
      (key.size < 2 ^ 63 → typeKeyStructSimple members = .ok key ∧
        ∀ id, IrType.Sized ⟨key, id⟩) := by
  have hpos : ∀ t ∈ members, 0 ≤ t.size ∧ 0 < t.align := by
    intro t ht
    obtain ⟨hsize, -, k, -, halign⟩ := h t ht
    exact ⟨hsize, by rw [IrType.align, halign]; exact pow_pos (by decide) k⟩
  obtain ⟨fields, stop, rfl, hplaced⟩ := Placed.exists_of (le_refl 0) hpos
  have hsized : ∀ p ∈ fields, p.1.Sized := fun p hp => h p.1 (List.mem_map_of_mem hp)
  have hbounds := hplaced.bounds fun p hp => (hsized p hp).1
  obtain ⟨k, hk, hpow⟩ := structAlign_pow h
  obtain ⟨size, hsize⟩ := exists_isLeast hbounds.1
    (show 0 < structAlign 1 (fields.map Prod.fst) by rw [hpow]; exact pow_pos (by decide) k)
  have hstop : stop ≤ size := hsize.1.1
  let key : TypeKey :=
    { kind := .struct, size, align := structAlign 1 (fields.map Prod.fst),
      members := membersOf fields }
  have hfields : fieldsOf (fields.map Prod.fst) key = fields := by
    simp only [fieldsOf, key, membersOf, List.map_map]
    exact (List.zip_of_prod rfl rfl).symm
  have hlaid : LaidOut (fields.map Prod.fst) key := by
    refine ⟨rfl, ?_, fun i field hfield => ?_, ?_, structAlign_isGreatest 1 _, ?_⟩
    · simp [key, membersOf, Function.comp_def]
    · rw [hfields] at hfield ⊢
      have hleast := hplaced.least hfield
      split at hleast
      · rename_i hi
        rwa [hi]
      · exact hleast
    · rw [hfields]
      exact hplaced.pairwise fun p hp => (hsized p hp).1
    · rw [hfields]
      refine ⟨⟨hbounds.1.trans hstop, hsize.1.2, fun p hp => (hbounds.2 p hp).2.trans hstop⟩,
        fun n hn => hsize.2 ⟨?_, hn.2.1⟩⟩
      -- the stop is the end of a field, or 0
      obtain ⟨-, rfl⟩ | ⟨p, hp, rfl⟩ := hplaced.stop_attained
      · exact hn.1
      · exact hn.2.2 p hp
  refine ⟨key, fun key' => ⟨fun h' => h'.unique hlaid, fun h' => h' ▸ hlaid⟩, fun hlt => ?_⟩
  refine ⟨?_, fun id => ⟨hbounds.1.trans hstop, hlt, k, hk, hpow⟩⟩
  have hlt' : size < 2 ^ 63 := hlt
  rw [typeKeyStructSimple, structSimpleMembers_eq hplaced le_rfl hsized (by omega)]
  rw [hpow] at hsize
  simp only [bind, Except.bind, hpow, alignForwardInt_eq hbounds.1 hk hsize hlt']
  rw [← hpow]
  rfl

def i32Type : IrType := ⟨{ kind := .i32, size := 4, align := 4 }, 73⟩

example : typeKeyStructSimple [i32Type, ⟨{ kind := .struct, size := 3, align := 2 }, 80⟩, i32Type] =
    .ok { kind := .struct, size := 12, align := 4, members := [⟨0, 73⟩, ⟨4, 80⟩, ⟨8, 73⟩] } := by
  decide +kernel

theorem typeKeyStructSimple_laidOut_pair :
    (∀ t ∈ [i32Type, i32Type], t.Sized) ∧
      ∃ key, (∀ key', LaidOut [i32Type, i32Type] key' ↔ key' = key) ∧
        (key.size < 2 ^ 63 → typeKeyStructSimple [i32Type, i32Type] = .ok key ∧
          ∀ id, IrType.Sized ⟨key, id⟩) := by
  have h : ∀ t ∈ [i32Type, i32Type], t.Sized := by
    intro t ht
    obtain rfl : t = i32Type := by simpa using ht
    exact ⟨by decide, by decide, 2, by decide, by decide⟩
  exact ⟨h, typeKeyStructSimple_laidOut _ h⟩

end Layout

end Wasim.Wopt
