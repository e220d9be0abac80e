import Wasim.Wopt.TypeCalls

/-!
# Members without an alignment

`type_none` and `type_mem` have a type with the alignment 0, and `type_key_struct_simple` aligns
every member with the assertion that its alignment is a power of two. So a struct fails the
assertion as soon as it has such a member. The types that the calls make besides are aligned to 1
or 4, and their sizes are multiples of that.
-/

namespace Wasim.Wopt

variable {ι : Type}

/-- The key of a type that has no alignment. -/
def TypeKey.Bare (key : TypeKey) : Prop := key.align = 0 ∧ key.size = 0

/-- The key of a type that is made of integers of 32 bits. -/
def TypeKey.Regular (key : TypeKey) : Prop :=
  0 ≤ key.size ∧ key.size < 2 ^ 63 ∧
    (key.align = 1 ∧ key.size = 0 ∨ key.align = 4 ∧ 4 ∣ key.size)

theorem TypeKey.Regular.not_bare {key : TypeKey} (h : key.Regular) : ¬key.Bare := by
  rintro ⟨halign, -⟩
  obtain ⟨-, -, ⟨h1, -⟩ | ⟨h4, -⟩⟩ := h <;> omega

/-- The sum of the sizes. -/
def sizeSum (members : List IrType) : ℤ := (members.map IrType.size).sum

@[simp]
theorem sizeSum_nil : sizeSum [] = 0 := rfl

@[simp]
theorem sizeSum_cons (t : IrType) (members : List IrType) :
    sizeSum (t :: members) = t.key.size + sizeSum members := List.sum_cons

theorem sizeSum_nonneg {members : List IrType} (h : ∀ t ∈ members, t.key.Regular ∨ t.key.Bare) :
    0 ≤ sizeSum members := by
  refine List.sum_nonneg fun n hn => ?_
  obtain ⟨t, ht, rfl⟩ := List.mem_map.mp hn
  rcases h t ht with hr | hb
  · exact hr.1
  · exact hb.2.ge

/-! ### The loop over the members -/

/-- An end that is no `int` wraps to a negative one. -/
theorem bmod_of_wrap {n : ℤ} (h : 2 ^ 63 ≤ n) (hlt : n < 2 ^ 64) :
    n.bmod (2 ^ 64) = n - 2 ^ 64 := by
  rw [← Int.sub_bmod_right]
  exact Int.bmod_eq_of_le (by omega) (by omega)

theorem alignForwardInt_zero (ptr : ℤ) : alignForwardInt ptr 0 = .error .powerOfTwo := by
  rw [alignForwardInt, alignForward, arenaAssert, if_neg (by decide)]
  rfl

theorem alignForwardInt_of_dvd {p : ℤ} {k : ℕ} (hp : 0 ≤ p) (hlt : p < 2 ^ 63) (hk : k < 63)
    (hdvd : 2 ^ k ∣ p) : alignForwardInt p (2 ^ k) = .ok p :=
  alignForwardInt_eq hp hk ⟨⟨le_rfl, hdvd⟩, fun _ h => h.1⟩ hlt

/-- Where the loop is: all sizes so far are multiples of the alignments. -/
structure Reached (offset : ℤ) (key : TypeKey) : Prop where
  nonneg : 0 ≤ offset
  lt : offset < 2 ^ 63
  aligned : key.align = 1 ∧ offset = 0 ∨ key.align = 4 ∧ 4 ∣ offset

theorem Reached.alignForwardInt {offset : ℤ} {key : TypeKey} (h : Reached offset key) :
    alignForwardInt offset key.align = .ok offset := by
  obtain ⟨halign, rfl⟩ | ⟨halign, hdvd⟩ := h.aligned
  · rw [halign]
    exact alignForwardInt_of_dvd (k := 0) h.nonneg h.lt (by decide) (one_dvd _)
  · rw [halign]
    exact alignForwardInt_of_dvd (k := 2) h.nonneg h.lt (by decide) hdvd

theorem structSimpleMember_bare {offset : ℤ} {key : TypeKey} {t : IrType} (ht : t.key.Bare) :
    structSimpleMember offset key t = .error .powerOfTwo := by
  simp only [structSimpleMember, ht.1, alignForwardInt_zero, bind, Except.bind]

/-- A member that fits goes to the offset. -/
theorem structSimpleMember_regular {offset : ℤ} {key : TypeKey} {t : IrType}
    (h : Reached offset key) (ht : t.key.Regular) :
    structSimpleMember offset key t =
      if offset + t.key.size < 2 ^ 63 then
        .ok (offset + t.key.size, { key with
          members := key.members ++ [⟨offset, t.id⟩]
          align := max key.align t.key.align })
      else .error .offset := by
  obtain ⟨hsize, hlt, halign⟩ := ht
  have hoffset := h.nonneg
  have haligned : alignForwardInt offset t.key.align = .ok offset := by
    rcases halign with ⟨halign, -⟩ | ⟨halign, -⟩
    · rw [halign]
      exact alignForwardInt_of_dvd (k := 0) hoffset h.lt (by decide) (one_dvd _)
    · rw [halign]
      refine alignForwardInt_of_dvd (k := 2) hoffset h.lt (by decide) ?_
      rcases h.aligned with ⟨-, rfl⟩ | ⟨-, hdvd⟩
      · exact dvd_zero _
      · exact hdvd
  have := h.lt
  simp only [structSimpleMember, haligned, bind, Except.bind]
  by_cases hfit : offset + t.key.size < 2 ^ 63
  · rw [if_pos hfit, bmod_of_nonneg (by omega) hfit, if_pos (by omega)]
  · rw [if_neg hfit, bmod_of_wrap (by omega) (by omega), if_neg (by omega)]

theorem Reached.next {offset : ℤ} {key : TypeKey} {t : IrType} {members : List TypeMember}
    (h : Reached offset key) (ht : t.key.Regular) (hfit : offset + t.key.size < 2 ^ 63) :
    Reached (offset + t.key.size) { key with members, align := max key.align t.key.align } := by
  obtain ⟨hsize, -, halign⟩ := ht
  refine ⟨Int.add_nonneg h.nonneg hsize, hfit, ?_⟩
  have haligned := h.aligned
  simp only
  omega

/-- The loop fails the assertion exactly at a member without an alignment, if the members before
it fit. -/
theorem structSimpleMembers_powerOfTwo_iff {members : List IrType} {offset : ℤ} {key : TypeKey}
    (h : Reached offset key) (hmembers : ∀ t ∈ members, t.key.Regular ∨ t.key.Bare) :
    structSimpleMembers offset key members = .error .powerOfTwo ↔
      ∃ pre t post, members = pre ++ t :: post ∧ t.key.Bare ∧ offset + sizeSum pre < 2 ^ 63 := by
  induction members generalizing offset key with
  | nil => simp [structSimpleMembers]
  | cons t members ih =>
    have htail := fun u hu => hmembers u (List.mem_cons_of_mem _ hu)
    rcases hmembers t (List.mem_cons_self ..) with ht | ht
    · rw [structSimpleMembers, structSimpleMember_regular h ht]
      split
      · rename_i hfit
        simp only [bind, Except.bind, ih (h.next ht hfit) htail]
        constructor
        · rintro ⟨pre, u, post, rfl, hu, hsum⟩
          exact ⟨t :: pre, u, post, rfl, hu, by rw [sizeSum_cons]; omega⟩
        · rintro ⟨pre, u, post, heq, hu, hsum⟩
          rcases pre with _ | ⟨v, pre⟩
          · obtain ⟨rfl, -⟩ := List.cons.inj heq
            exact absurd hu ht.not_bare
          · obtain ⟨rfl, rfl⟩ := List.cons.inj heq
            rw [sizeSum_cons] at hsum
            exact ⟨pre, u, post, rfl, hu, by omega⟩
      · rename_i hfit
        refine iff_of_false (fun herror => by cases herror) ?_
        rintro ⟨pre, u, post, heq, hu, hsum⟩
        rcases pre with _ | ⟨v, pre⟩
        · obtain ⟨rfl, -⟩ := List.cons.inj heq
          exact ht.not_bare hu
        · obtain ⟨rfl, rfl⟩ := List.cons.inj heq
          have := sizeSum_nonneg fun u hu => htail u (List.mem_append_left _ hu)
          rw [sizeSum_cons] at hsum
          omega
    · rw [structSimpleMembers, structSimpleMember_bare ht]
      exact iff_of_true rfl ⟨[], t, members, rfl, ht, by simpa using h.lt⟩

/-- The loop only ends with members that have an alignment. -/
theorem structSimpleMembers_ok {members : List IrType} {offset stop : ℤ} {key key' : TypeKey}
    (h : Reached offset key) (hmembers : ∀ t ∈ members, t.key.Regular ∨ t.key.Bare)
    (hok : structSimpleMembers offset key members = .ok (stop, key')) :
    Reached stop key' ∧ key'.kind = key.kind := by
  induction members generalizing offset key with
  | nil =>
    obtain ⟨rfl, rfl⟩ := Prod.mk.inj (Except.ok.inj hok)
    exact ⟨h, rfl⟩
  | cons t members ih =>
    rcases hmembers t (List.mem_cons_self ..) with ht | ht
    · rw [structSimpleMembers, structSimpleMember_regular h ht] at hok
      split at hok
      · rename_i hfit
        obtain ⟨hreached, hkind⟩ :=
          ih (h.next ht hfit) (fun u hu => hmembers u (List.mem_cons_of_mem _ hu)) hok
        exact ⟨hreached, hkind⟩
      · cases hok
    · rw [structSimpleMembers, structSimpleMember_bare ht] at hok
      cases hok

theorem reached_zero : Reached 0 { kind := .struct, align := 1 } :=
  ⟨le_rfl, by decide, Or.inl ⟨rfl, rfl⟩⟩

theorem typeKeyStructSimple_ok {members : List IrType} {key : TypeKey}
    (hmembers : ∀ t ∈ members, t.key.Regular ∨ t.key.Bare)
    (hok : typeKeyStructSimple members = .ok key) : key.Regular ∧ key.kind = .struct := by
  rw [typeKeyStructSimple] at hok
  rcases hloop : structSimpleMembers 0 { kind := .struct, align := 1 } members with _ | ⟨stop, k⟩
  · rw [hloop] at hok
    cases hok
  · obtain ⟨hreached, hkind⟩ := structSimpleMembers_ok reached_zero hmembers hloop
    rw [hloop] at hok
    simp only [bind, Except.bind, hreached.alignForwardInt] at hok
    obtain rfl := Except.ok.inj hok
    exact ⟨⟨hreached.nonneg, hreached.lt, hreached.aligned⟩, hkind⟩

theorem typeKeyStructSimple_powerOfTwo_iff {members : List IrType}
    (hmembers : ∀ t ∈ members, t.key.Regular ∨ t.key.Bare) :
    typeKeyStructSimple members = .error .powerOfTwo ↔
      ∃ pre t post, members = pre ++ t :: post ∧ t.key.Bare ∧ sizeSum pre < 2 ^ 63 := by
  have hiff := structSimpleMembers_powerOfTwo_iff reached_zero hmembers
  simp only [Int.zero_add] at hiff
  rw [← hiff, typeKeyStructSimple]
  rcases hloop : structSimpleMembers 0 { kind := .struct, align := 1 } members with e | ⟨stop, k⟩
  · simp only [bind, Except.bind, Except.error.injEq]
  · obtain ⟨hreached, -⟩ := structSimpleMembers_ok reached_zero hmembers hloop
    simp only [bind, Except.bind, hreached.alignForwardInt]
    exact iff_of_false (fun h => by cases h) fun h => by cases h

/-! ### Runs -/

/-- The call is one of `type_none`, `type_i32`, `type_mem` and `type_struct_simple`. -/
def TypeCall.Basic : TypeCall → Prop
  | .struct .. => False
  | .intern _ => False
  | _ => True

/-- The type of an id is made of integers, or has no alignment, when its key is so. -/
theorem load_regular_or_bare {s : TypeInterner ι} {key : TypeKey} {id : TypeId}
    (h : Issued s key id) (hkey : key.Regular ∨ key.Bare) :
    (typeInternerLoad s id).key.Regular ∨ (typeInternerLoad s id).key.Bare := by
  rcases h with ⟨-, rfl⟩ | h
  · exact Or.inr ⟨rfl, rfl⟩
  · rw [h.load]
    exact hkey

/-- The keys of scalars, and what the types of the ids make. -/
theorem typeCallKey_basic {s : TypeInterner ι} {call : TypeCall} {key : TypeKey}
    (hcall : call.Basic) (hids : ∀ id ∈ call.ids, (typeInternerLoad s id).key.Regular ∨
      (typeInternerLoad s id).key.Bare) (hok : typeCallKey s call = .ok key) :
    key.Regular ∧ key.kind ≠ .none ∨ key.Bare ∧ (call = .none ∨ call = .mem) := by
  cases call with
  | none =>
    obtain rfl := Except.ok.inj hok
    exact Or.inr ⟨⟨rfl, rfl⟩, Or.inl rfl⟩
  | i32 =>
    obtain rfl := Except.ok.inj hok
    exact Or.inl ⟨⟨by decide, by decide, Or.inr ⟨rfl, by decide⟩⟩, by decide⟩
  | mem =>
    obtain rfl := Except.ok.inj hok
    exact Or.inr ⟨⟨rfl, rfl⟩, Or.inr rfl⟩
  | structSimple members =>
    have hmembers : ∀ t ∈ members.map (typeInternerLoad s), t.key.Regular ∨ t.key.Bare := by
      intro t ht
      obtain ⟨id, hid, rfl⟩ := List.mem_map.mp ht
      exact hids id hid
    obtain ⟨hregular, hkind⟩ := typeKeyStructSimple_ok hmembers hok
    exact Or.inl ⟨hregular, by rw [hkind]; decide⟩
  | struct => exact hcall.elim
  | intern => exact hcall.elim

section Runs

variable [DecidableEq ι] {digest : TypeKey → UInt64} {calls : ι → TypeCall}
  {c : Threads.Config ι (TypeCalls ι) TypeCallPc}

/-- Every key that is interned is one of these. -/
theorem TypeCallReach.key_regular_or_bare (h : TypeCallReach digest calls c)
    (hcalls : ∀ i, (calls i).Basic) :
    ∀ i key pc, c.locals i = .interning key pc → key.Regular ∨ key.Bare := by
  induction h with
  | refl => exact fun _ _ _ hi => nomatch hi
  | @tail c d hreach hstep ih =>
    obtain ⟨j, s, l, ⟨memory, hj⟩, rfl⟩ := hstep
    intro i key pc hi
    rcases eq_or_ne i j with rfl | hne
    · simp only [Function.update_self] at hi
      subst hi
      rcases typeCallStep_cases hj with
        ⟨-, rfl, hids, ⟨key', hkey, heq⟩ | ⟨_, -, heq⟩⟩ | ⟨key', pc', pc'', hl, heq, -, -⟩
      · obtain ⟨rfl, rfl⟩ := TypeCallPc.interning.inj heq
        refine (typeCallKey_basic (hcalls i) (fun id hid => ?_) hkey).imp And.left And.left
        obtain ⟨k, key', hk⟩ := (TypeCallReach.mem_returned hreach).mp (hids id hid)
        exact load_regular_or_bare (TypeCallReach.issued hreach hk) (ih k key' _ hk)
      · cases heq
      · obtain ⟨rfl, rfl⟩ := TypeCallPc.interning.inj heq
        exact ih i _ _ hl
    · simp only [Function.update_of_ne hne] at hi
      exact ih i key pc hi

/-- A type without an alignment is one that `type_none` or `type_mem` has returned. -/
theorem TypeCallReach.bare_iff (h : TypeCallReach digest calls c) (hcalls : ∀ i, (calls i).Basic)
    {id : TypeId} (hid : id ∈ c.shared.returned) :
    (typeInternerLoad c.shared.interner id).key.Bare ↔
      ∃ j key, (calls j = .none ∨ calls j = .mem) ∧ c.locals j = .interning key (.done id) := by
  have hload : ∀ id ∈ c.shared.returned, (typeInternerLoad c.shared.interner id).key.Regular ∨
      (typeInternerLoad c.shared.interner id).key.Bare := by
    intro id hid
    obtain ⟨j, key, hj⟩ := h.mem_returned.mp hid
    exact load_regular_or_bare (h.issued hj) (h.key_regular_or_bare hcalls j key _ hj)
  have hkey : ∀ {j key}, c.locals j = .interning key (.done id) →
      key.Regular ∧ key.kind ≠ .none ∨ key.Bare ∧ (calls j = .none ∨ calls j = .mem) := by
    intro j key hj
    obtain ⟨hids, hmade⟩ := h.evaluated j (by rw [hj]; simp)
    rw [hj] at hmade
    exact typeCallKey_basic (hcalls j) (fun id hid => hload id (hids id hid)) hmade
  constructor
  · intro hbare
    obtain ⟨j, key, hj⟩ := h.mem_returned.mp hid
    rcases hkey hj with ⟨hregular, hkind⟩ | ⟨-, hcall⟩
    · rcases h.issued hj with ⟨hnone, -⟩ | hr
      · exact absurd hnone hkind
      · rw [hr.load] at hbare
        exact absurd hbare hregular.not_bare
    · exact ⟨j, key, hcall, hj⟩
  · rintro ⟨j, key, hcall, hj⟩
    have hbare : key.Bare := by
      obtain ⟨-, hmade⟩ := h.evaluated j (by rw [hj]; simp)
      rw [hj] at hmade
      rcases hcall with hcall | hcall <;> rw [hcall] at hmade <;>
        obtain rfl := Except.ok.inj hmade <;> exact ⟨rfl, rfl⟩
    rcases h.issued hj with ⟨-, rfl⟩ | hr
    · exact ⟨rfl, rfl⟩
    · rw [hr.load]
      exact hbare

/-- In every run of the four calls: a call that has begun has failed the assertion that an
alignment is a power of two exactly when it was given an id that `type_none` or `type_mem` has
returned, behind members that end at an `int`. -/
theorem typeCalls_failed_iff (h : TypeCallReach digest calls c) (hcalls : ∀ i, (calls i).Basic)
    (i : ι) (hready : c.locals i ≠ .ready) :
    c.locals i = .failed .powerOfTwo ↔
      ∃ pre id post, (calls i).ids = pre ++ id :: post ∧
        (∃ j key, (calls j = .none ∨ calls j = .mem) ∧ c.locals j = .interning key (.done id)) ∧
        sizeSum (pre.map (typeInternerLoad c.shared.interner)) < 2 ^ 63 := by
  obtain ⟨hids, hmade⟩ := h.evaluated i hready
  have hfailed : c.locals i = .failed .powerOfTwo ↔
      typeCallKey c.shared.interner (calls i) = .error .powerOfTwo := by
    rw [hmade]
    cases c.locals i <;> simp [TypeCallPc.made]
  rw [hfailed]
  cases hcall : calls i with
  | structSimple members =>
    rw [hcall] at hids
    have hmembers : ∀ t ∈ members.map (typeInternerLoad c.shared.interner),
        t.key.Regular ∨ t.key.Bare := by
      intro t ht
      obtain ⟨id, hid, rfl⟩ := List.mem_map.mp ht
      obtain ⟨j, key, hj⟩ := h.mem_returned.mp (hids id hid)
      exact load_regular_or_bare (h.issued hj) (h.key_regular_or_bare hcalls j key _ hj)
    simp only [typeCallKey, typeKeyStructSimple_powerOfTwo_iff hmembers, TypeCall.ids]
    constructor
    · rintro ⟨pre, t, post, heq, hbare, hsum⟩
      obtain ⟨pre', rest, rfl, rfl, hrest⟩ := List.map_eq_append_iff.mp heq
      obtain ⟨id, post', rfl, rfl, rfl⟩ := List.map_eq_cons_iff.mp hrest
      have hid := hids id (by simp [TypeCall.ids])
      exact ⟨pre', id, post', rfl, (h.bare_iff hcalls hid).mp hbare, hsum⟩
    · rintro ⟨pre, id, post, rfl, hbare, hsum⟩
      have hid := hids id (by simp [TypeCall.ids])
      exact ⟨_, _, _, List.map_append, (h.bare_iff hcalls hid).mpr hbare, hsum⟩
  | struct => exact absurd (hcalls i) (by rw [hcall]; exact id)
  | intern => exact absurd (hcalls i) (by rw [hcall]; exact id)
  | _ => simp [typeCallKey, TypeCall.ids]

end Runs

/-! ### A tuple with a memory -/

/-- The digest of the 17 bytes of the key of `type_mem`. -/
def memDigest : TypeKey → UInt64 := fun _ => 0xC81C64B230149D5A

/-- A memory, and a struct of its id. -/
def structOfMem : Fin 2 → TypeCall
  | 0 => .mem
  | 1 => .structSimple [4211200]

theorem basic_structOfMem (i : Fin 2) : (structOfMem i).Basic := by
  match i with
  | 0 => trivial
  | 1 => trivial

/-- The memory is interned, and the struct is not. -/
theorem exists_structOfMem :
    ∃ c, TypeCallReach memDigest structOfMem c ∧ c.locals 1 = .failed .powerOfTwo := by
  have hexec : ((Threads.exec (fun i (memory : ℕ × ℕ) =>
      typeCallStep memDigest i (structOfMem i) memory.1 memory.2)
      (List.replicate 29 (0, 33689600, 33689648) ++ [(1, 0, 0)]) typeCallsStart).map
      fun c => c.locals 1) = some (.failed .powerOfTwo) := by
    decide +kernel
  obtain ⟨c, hc, hfailed⟩ := Option.map_eq_some_iff.mp hexec
  exact ⟨c, Threads.exec_sound _ hc, hfailed⟩

theorem not_struct_of_mem :
    ¬∀ c, TypeCallReach memDigest structOfMem c → ∀ i, c.locals i ≠ .failed .powerOfTwo := by
  intro h
  obtain ⟨c, hc, hfailed⟩ := exists_structOfMem
  exact h c hc 1 hfailed

theorem typeCalls_failed_iff_mem :
    ∃ c, TypeCallReach memDigest structOfMem c ∧
      ∃ pre id post, (structOfMem 1).ids = pre ++ id :: post ∧
        (∃ j key, (structOfMem j = .none ∨ structOfMem j = .mem) ∧
          c.locals j = .interning key (.done id)) ∧
        sizeSum (pre.map (typeInternerLoad c.shared.interner)) < 2 ^ 63 := by
  obtain ⟨c, hc, hfailed⟩ := exists_structOfMem
  have hready : c.locals 1 ≠ .ready := by rw [hfailed]; simp
  exact ⟨c, hc, (typeCalls_failed_iff hc basic_structOfMem 1 hready).mp hfailed⟩

end Wasim.Wopt
