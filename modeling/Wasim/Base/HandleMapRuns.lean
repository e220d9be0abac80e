import Mathlib.Data.List.Perm.Basic
import Mathlib.Tactic.Common
import Wasim.Base.HandleMap

/-!
# Runs of the handle map

What the operations keep. First that slot 0 stays reserved, which only needs that its number never
becomes unused. Then that handles tell the live items: a handle that was returned has a generation
that its slot has reached, so the next handle of the slot is a new one.
-/

namespace Wasim

variable {α : Type} {w : ℕ}

/-! ### What the operations do -/

/-- An item is added to the slot that became unused last, or to a new one. -/
theorem hmAdd_cases {m m' : HandleMap α w} {item : HmItem α w} {allocated : Bool}
    {handle : Option (Handle w)} (h : hmAdd m item allocated = .returned (m', handle)) :
    (∃ unused i ptr, m.unusedItems = unused ++ [i] ∧ m.items[i]? = some ptr ∧
      handle = some ⟨BitVec.ofNat w i, ptr.handle.gen + 1⟩ ∧
      m' = ⟨m.items.set i ⟨⟨BitVec.ofNat w i, ptr.handle.gen + 1⟩, item.value⟩, unused⟩) ∨
    (m.unusedItems = [] ∧ allocated = true ∧
      handle = some ⟨BitVec.ofNat w m.items.length, 1⟩ ∧
      m' = ⟨m.items ++ [⟨⟨BitVec.ofNat w m.items.length, 1⟩, item.value⟩], []⟩) ∨
    (m.unusedItems = [] ∧ allocated = false ∧ handle = none ∧ m' = m) := by
  rw [hmAdd] at h
  split at h
  · rename_i i hi
    obtain ⟨unused, hunused⟩ := List.getLast?_eq_some_iff.mp hi
    split at h
    · rename_i ptr hptr
      obtain ⟨rfl, rfl⟩ := Prod.mk.inj (Outcome.returned.inj h)
      refine Or.inl ⟨unused, i, ptr, hunused, hptr, rfl, ?_⟩
      rw [hunused, List.dropLast_concat]
    · cases h
  · rename_i hnone
    have hunused := List.getLast?_eq_none_iff.mp hnone
    split at h
    · rename_i hallocated
      obtain ⟨rfl, rfl⟩ := Prod.mk.inj (Outcome.returned.inj h)
      refine Or.inr (Or.inl ⟨hunused, hallocated, rfl, ?_⟩)
      rw [hunused]
    · rename_i hallocated
      obtain ⟨rfl, rfl⟩ := Prod.mk.inj (Outcome.returned.inj h)
      exact Or.inr (Or.inr ⟨hunused, Bool.eq_false_iff.mpr hallocated, rfl, rfl⟩)

/-- An item is removed if its slot has the handle, and there is memory. -/
theorem hmRemove_cases {m m' : HandleMap α w} {h : Handle w} {allocated found : Bool}
    (hremove : hmRemove m h allocated = .returned (m', found)) :
    (∃ item, found = true ∧ allocated = true ∧ hmIsValid m h = .returned true ∧
      m.items[h.idx.toNat]? = some item ∧ item.handle = h ∧
      m' = ⟨m.items.set h.idx.toNat ⟨⟨0, h.gen⟩, item.value⟩,
        m.unusedItems ++ [h.idx.toNat % 2 ^ 32]⟩) ∨
    (found = false ∧ m' = m ∧ ¬(hmIsValid m h = .returned true ∧ allocated = true)) := by
  rw [hmRemove] at hremove
  split at hremove
  · rename_i houtside
    obtain ⟨rfl, rfl⟩ := Prod.mk.inj (Outcome.returned.inj hremove)
    exact Or.inr ⟨rfl, rfl, by simp [hmIsValid, houtside]⟩
  · rename_i houtside
    split at hremove
    · rename_i item hitem
      split at hremove
      · rename_i heq
        split at hremove
        · rename_i hallocated
          obtain ⟨rfl, rfl⟩ := Prod.mk.inj (Outcome.returned.inj hremove)
          refine Or.inl ⟨item, rfl, hallocated, ?_, hitem, heq, by rw [heq]⟩
          simp [hmIsValid, houtside, hitem, heq]
        · rename_i hallocated
          obtain ⟨rfl, rfl⟩ := Prod.mk.inj (Outcome.returned.inj hremove)
          exact Or.inr ⟨rfl, rfl, fun hboth => hallocated hboth.2⟩
      · rename_i hne
        obtain ⟨rfl, rfl⟩ := Prod.mk.inj (Outcome.returned.inj hremove)
        exact Or.inr ⟨rfl, rfl, by simp [hmIsValid, houtside, hitem, hne]⟩
    · cases hremove

theorem toNat_ofNat_of_lt {i : ℕ} (h : i < 2 ^ w) : (BitVec.ofNat w i).toNat = i := by
  rw [BitVec.toNat_ofNat, Nat.mod_eq_of_lt h]

theorem ofNat_ne_zero {i : ℕ} (h : i < 2 ^ w) (hi : i ≠ 0) : BitVec.ofNat w i ≠ 0 := by
  intro hzero
  have := toNat_ofNat_of_lt h
  rw [hzero, BitVec.ofNat_eq_ofNat, BitVec.toNat_ofNat, Nat.zero_mod] at this
  exact hi this.symm

theorem ofNat_two_pow : BitVec.ofNat w (2 ^ w) = 0 := by
  refine BitVec.eq_of_toNat_eq ?_
  rw [BitVec.toNat_ofNat, Nat.mod_self]
  exact BitVec.toNat_zero.symm

/-! ### Slot 0 -/

/-- The operations that keep slot 0 reserved: there is an index for a new slot, `hm_remove` is
given no valid handle whose index is 0, as a number of 32 bits, and the map is not cleared. -/
def HmReserving (s : HmState α w) : HmOp α w → Prop
  | .add _ allocated =>
    s.map.unusedItems = [] → allocated = true → s.map.items.length < 2 ^ w
  | .remove h allocated =>
    hmIsValid s.map h = .returned true → allocated = true → h.idx.toNat % 2 ^ 32 ≠ 0
  | .clear => False

/-- No handle that was returned has the index 0, item 0 is the zero value, and no handle from
before a clear is valid. -/
structure HmReserved (zeroValue : HmItem α w) (s : HmState α w) : Prop where
  issued : ∀ p ∈ s.issued, p.1.idx ≠ 0
  zero : s.map.items[0]? = some zeroValue
  stale : ∀ h ∈ s.stale, hmIsValid s.map h ≠ .returned true

/-- The invariant: besides, 0 is not unused, and there are no more slots than indices. -/
structure HmReservedInv (zeroValue : HmItem α w) (s : HmState α w) : Prop where
  issued : ∀ p ∈ s.issued, p.1.idx ≠ 0
  zero : s.map.items[0]? = some zeroValue
  stale : s.stale = []
  unused : ∀ i ∈ s.map.unusedItems, i ≠ 0 ∧ i < 2 ^ w
  length : s.map.items.length ≤ 2 ^ w

variable {zeroValue : HmItem α w} {s t : HmState α w}

theorem HmReservedInv.start : HmReservedInv zeroValue (hmStart zeroValue) :=
  ⟨fun _ hp => (nomatch hp), rfl, rfl, fun _ hi => (nomatch hi), Nat.one_le_two_pow⟩

theorem HmReservedInv.add (h : HmReservedInv zeroValue s) {item : HmItem α w} {allocated : Bool}
    (hok : HmReserving s (.add item allocated))
    (hadd : hmApply s (.add item allocated) = .returned t) : HmReservedInv zeroValue t := by
  obtain ⟨⟨m, handle⟩, hm, heq⟩ := Outcome.bind_eq_returned.mp hadd
  obtain rfl := Outcome.returned.inj heq
  rcases hmAdd_cases hm with ⟨unused, i, ptr, hunused, hptr, rfl, rfl⟩ |
    ⟨hunused, hallocated, rfl, rfl⟩ | ⟨-, -, rfl, rfl⟩
  · obtain ⟨hi, hlt⟩ := h.unused i (by simp [hunused])
    refine ⟨fun p hp => ?_, ?_, h.stale, fun j hj => h.unused j (by simp [hunused, hj]), ?_⟩
    · rcases List.mem_cons.mp hp with rfl | hp
      · exact ofNat_ne_zero hlt hi
      · exact h.issued p hp
    · rw [List.getElem?_set_ne hi]
      exact h.zero
    · rw [List.length_set]
      exact h.length
  · have hlt := hok hunused hallocated
    have hne : s.map.items.length ≠ 0 := by
      intro hzero
      have hitem := h.zero
      rw [List.length_eq_zero_iff.mp hzero] at hitem
      cases hitem
    refine ⟨fun p hp => ?_, ?_, h.stale, fun j hj => (nomatch hj), ?_⟩
    · rcases List.mem_cons.mp hp with rfl | hp
      · exact ofNat_ne_zero hlt hne
      · exact h.issued p hp
    · rw [List.getElem?_append_left (Nat.pos_of_ne_zero hne)]
      exact h.zero
    · rw [List.length_append]
      exact hlt
  · exact h

theorem HmReservedInv.remove (h : HmReservedInv zeroValue s) {hd : Handle w} {allocated : Bool}
    (hok : HmReserving s (.remove hd allocated))
    (hremove : hmApply s (.remove hd allocated) = .returned t) : HmReservedInv zeroValue t := by
  obtain ⟨⟨m, found⟩, hm, heq⟩ := Outcome.bind_eq_returned.mp hremove
  obtain rfl := Outcome.returned.inj heq
  rcases hmRemove_cases hm with ⟨item, rfl, hallocated, hvalid, hitem, -, rfl⟩ | ⟨rfl, rfl, -⟩
  · have hne := hok hvalid hallocated
    refine ⟨h.issued, ?_, h.stale, fun i hi => ?_, ?_⟩
    · rw [List.getElem?_set_ne]
      · exact h.zero
      · intro hzero
        rw [hzero] at hne
        exact hne (Nat.zero_mod _)
    · rcases List.mem_append.mp hi with hi | hi
      · exact h.unused i hi
      · obtain rfl := List.mem_singleton.mp hi
        exact ⟨hne, Nat.lt_of_le_of_lt (Nat.mod_le _ _) hd.idx.isLt⟩
    · rw [List.length_set]
      exact h.length
  · exact h

theorem HmReservedInv.of_run (h : HmRun HmReserving (hmStart zeroValue) s) :
    HmReservedInv zeroValue s := by
  induction h with
  | refl => exact .start
  | tail _ hstep ih =>
    obtain ⟨op, hok, happly⟩ := hstep
    match op with
    | .add item allocated => exact ih.add hok happly
    | .remove hd allocated => exact ih.remove hok happly

/-- If slot 0 is the one that became unused last, the next `hm_add` returns it. -/
theorem hmApply_add_zero (s : HmState α w) (hlast : s.map.unusedItems.getLast? = some 0)
    (hpos : 0 < s.map.items.length) (item : HmItem α w) :
    ∃ t p, hmApply s (.add item true) = .returned t ∧ p ∈ t.issued ∧ p.1.idx = 0 := by
  simp only [hmApply, hmAdd, hlast, List.getElem?_eq_getElem hpos]
  exact ⟨_, _, rfl, List.mem_cons_self .., rfl⟩

/-- An operation that is not allowed leads out: to a state where slot 0 is not reserved, or to one
where the next `hm_add` returns it. -/
theorem HmReservedInv.broken (h : HmReservedInv zeroValue s) {op : HmOp α w}
    (happly : hmApply s op = .returned t) (hbad : ¬HmReserving s op) :
    ∃ u, (t = u ∨ ∃ item allocated, hmApply t (.add item allocated) = .returned u) ∧
      ¬HmReserved zeroValue u := by
  cases op with
  | add item allocated =>
    simp only [HmReserving, Classical.not_imp] at hbad
    obtain ⟨hunused, hallocated, hlt⟩ := hbad
    refine ⟨t, Or.inl rfl, fun hreserved => ?_⟩
    obtain ⟨⟨m, handle⟩, hm, heq⟩ := Outcome.bind_eq_returned.mp happly
    obtain rfl := Outcome.returned.inj heq
    rcases hmAdd_cases hm with ⟨unused, i, -, hlast, -⟩ | ⟨-, -, rfl, -⟩ | ⟨-, hno, -⟩
    · rw [hunused] at hlast
      cases unused <;> cases hlast
    · refine hreserved.issued _ (List.mem_cons_self ..) ?_
      have hlength : s.map.items.length = 2 ^ w := Nat.le_antisymm h.length (Nat.le_of_not_lt hlt)
      rw [hlength]
      exact ofNat_two_pow
    · rw [hallocated] at hno
      cases hno
  | remove hd allocated =>
    simp only [HmReserving, Classical.not_imp, ne_eq, not_not] at hbad
    obtain ⟨hvalid, hallocated, hzero⟩ := hbad
    obtain ⟨⟨m, found⟩, hm, heq⟩ := Outcome.bind_eq_returned.mp happly
    obtain rfl := Outcome.returned.inj heq
    rcases hmRemove_cases hm with ⟨item, rfl, -, -, hitem, -, rfl⟩ | ⟨-, -, hno⟩
    · have hpos : 0 < (s.map.items.set hd.idx.toNat ⟨⟨0, hd.gen⟩, item.value⟩).length := by
        rw [List.length_set]
        exact (List.getElem?_eq_some_iff.mp h.zero).1
      have hlast : (s.map.unusedItems ++ [hd.idx.toNat % 2 ^ 32]).getLast? = some 0 := by
        rw [hzero, List.getLast?_concat]
      obtain ⟨u, p, hadd, hp, hidx⟩ := hmApply_add_zero
        ⟨⟨_, _⟩, s.issued, hd :: s.removed, s.stale⟩ hlast hpos zeroValue
      exact ⟨u, Or.inr ⟨zeroValue, true, hadd⟩, fun hreserved => hreserved.issued p hp hidx⟩
    · exact absurd ⟨hvalid, hallocated⟩ hno
  | clear =>
    obtain rfl := Outcome.returned.inj happly
    exact ⟨_, Or.inl rfl, fun hreserved => nomatch hreserved.zero⟩

theorem HmReservedInv.reserved (h : HmReservedInv zeroValue s) : HmReserved zeroValue s :=
  ⟨h.issued, h.zero, by simp [h.stale]⟩

/-- In every run of the operations that are allowed slot 0 stays reserved, and every operation
that is not allowed leads out. -/
theorem handleMap_reserves (h : HmRun HmReserving (hmStart zeroValue) s) :
    HmReserved zeroValue s ∧
      ∀ op t, hmApply s op = .returned t → ¬HmReserving s op →
        ∃ u, (t = u ∨ ∃ item allocated, hmApply t (.add item allocated) = .returned u) ∧
          ¬HmReserved zeroValue u :=
  ⟨(HmReservedInv.of_run h).reserved, fun _ _ happly hbad =>
    (HmReservedInv.of_run h).broken happly hbad⟩

def nilItem : HmItem ℕ 32 := ⟨⟨0, 0⟩, 0⟩

/-- A map with one item. -/
def oneItem : HmState ℕ 32 where
  map := ⟨[nilItem, ⟨⟨1, 1⟩, 7⟩], []⟩
  issued := [(⟨1, 1⟩, 7)]

/-- The map with one item, after it was removed, and after its slot was reused. -/
def removedItem : HmState ℕ 32 where
  map := ⟨[nilItem, ⟨⟨0, 1⟩, 7⟩], [1]⟩
  issued := [(⟨1, 1⟩, 7)]
  removed := [⟨1, 1⟩]

def reusedItem : HmState ℕ 32 where
  map := ⟨[nilItem, ⟨⟨1, 2⟩, 8⟩], []⟩
  issued := [(⟨1, 2⟩, 8), (⟨1, 1⟩, 7)]
  removed := [⟨1, 1⟩]

/-- Slot 1 is used, given back and used again. A removal of the sentinel leads out. -/
theorem handleMap_reserves_reused :
    HmRun HmReserving (hmStart nilItem) reusedItem ∧ HmReserved nilItem reusedItem ∧
      ∃ t u, hmApply reusedItem (.remove ⟨0, 0⟩ true) = .returned t ∧
        (t = u ∨ ∃ item allocated, hmApply t (.add item allocated) = .returned u) ∧
        ¬HmReserved nilItem u := by
  have hone : HmRun HmReserving (hmStart nilItem) oneItem :=
    .tail .refl ⟨.add ⟨⟨0, 0⟩, 7⟩ true, fun _ _ => by decide, rfl⟩
  have hremoved : HmRun HmReserving (hmStart nilItem) removedItem :=
    hone.tail ⟨.remove ⟨1, 1⟩ true, fun _ _ => by decide, rfl⟩
  have hreused : HmRun HmReserving (hmStart nilItem) reusedItem :=
    hremoved.tail ⟨.add ⟨⟨0, 0⟩, 8⟩ true, fun hnone => absurd hnone (by decide), rfl⟩
  obtain ⟨hreserved, hleads⟩ := handleMap_reserves hreused
  have hbad : ¬HmReserving reusedItem (.remove ⟨0, 0⟩ true) := fun hok =>
    hok (by decide) rfl (by decide)
  obtain ⟨u, hu⟩ := hleads (.remove ⟨0, 0⟩ true) _ rfl hbad
  exact ⟨hreused, hreserved, _, u, rfl, hu⟩

/-- A clear makes the old handle of slot 1 valid again, and slot 0 an ordinary one. -/
theorem not_handleMap_reserved :
    ∃ s, HmRun (fun _ _ => True) (hmStart nilItem) s ∧ (⟨0, 1⟩, 8) ∈ s.issued ∧
      s.map.items[0]? ≠ some nilItem ∧ ⟨1, 1⟩ ∈ s.stale ∧
      hmIsValid s.map ⟨1, 1⟩ = .returned true := by
  have hrun : HmRun (fun _ _ => True) (hmStart nilItem)
      ⟨⟨[⟨⟨0, 1⟩, 8⟩, ⟨⟨1, 1⟩, 9⟩], []⟩, [(⟨1, 1⟩, 9), (⟨0, 1⟩, 8), (⟨1, 1⟩, 7)], [], [⟨1, 1⟩]⟩ :=
    (((Relation.ReflTransGen.refl.tail ⟨.add ⟨⟨0, 0⟩, 7⟩ true, trivial, rfl⟩).tail
      ⟨.clear, trivial, rfl⟩).tail ⟨.add ⟨⟨0, 0⟩, 8⟩ true, trivial, rfl⟩).tail
      ⟨.add ⟨⟨0, 0⟩, 9⟩ true, trivial, rfl⟩
  exact ⟨_, hrun, by decide, by decide, by decide, by decide⟩

end Wasim
