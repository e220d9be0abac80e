import Mathlib.Data.List.Perm.Basic
import Wasim.Base.HandleMapRuns

/-!
# Handles tell the live items

In a run where `hm_remove` is given handles that were returned before, a handle that is not the one
of the sentinel is valid exactly as long as it was returned and not removed
(`handleMap_valid_iff`). The exception are handles with an index of more than 32 bits:
`hm_get` checks the lower 32 bits against the length, and then reads with all of them.

The invariant says of every handle that was returned that its slot has reached its generation,
and has it still if it was not removed.
-/

namespace Wasim

variable {α : Type} {w : ℕ}

/-- The runs that the handles are for: the number of items fits the index type, no generation
wraps, and `hm_remove` is given handles that were returned. Their indices have at most 32 bits. -/
def HmKept (s : HmState α w) : HmOp α w → Prop
  | .add _ allocated =>
    (s.map.unusedItems = [] → allocated = true → s.map.items.length < 2 ^ w) ∧
      ∀ i e, s.map.unusedItems.getLast? = some i → s.map.items[i]? = some e →
        e.handle.gen.toNat + 1 < 2 ^ w
  | .remove h _ => h ∈ s.issued.map Prod.fst ∧ h.idx.toNat < 2 ^ 32
  | .clear => False

/-- The handle was returned for the value, and not removed since. -/
def HmState.Live (s : HmState α w) (h : Handle w) (value : α) : Prop :=
  (h, value) ∈ s.issued ∧ h ∉ s.removed

structure HmInv (s : HmState α w) : Prop where
  sentinel : ∃ e : HmItem α w, s.map.items[0]? = some e ∧ e.handle = ⟨0, 0⟩
  length : s.map.items.length ≤ 2 ^ w
  nodup : s.map.unusedItems.Nodup
  unused : ∀ i ∈ s.map.unusedItems, i ≠ 0 ∧
    ∃ e : HmItem α w, s.map.items[i]? = some e ∧ e.handle.idx = 0
  live : ∀ i (e : HmItem α w), s.map.items[i]? = some e → e.handle.idx ≠ 0 →
    e.handle.idx.toNat = i ∧ s.Live e.handle e.value
  issued : ∀ h value, (h, value) ∈ s.issued → h.idx ≠ 0 ∧
    ∃ e : HmItem α w, s.map.items[h.idx.toNat]? = some e ∧ h.gen.toNat ≤ e.handle.gen.toNat ∧
      (h ∉ s.removed → e = ⟨h, value⟩)
  distinct : (s.issued.map Prod.fst).Nodup
  removed : ∀ h ∈ s.removed, h ∈ s.issued.map Prod.fst

variable {zeroValue : HmItem α w} {s t : HmState α w}

theorem HmInv.start (hzero : zeroValue.handle = ⟨0, 0⟩) : HmInv (hmStart zeroValue) := by
  refine ⟨⟨zeroValue, rfl, hzero⟩, Nat.one_le_two_pow, .nil, fun _ hi => (nomatch hi),
    fun i e he hne => ?_, fun _ _ hp => (nomatch hp), .nil, fun _ hh => (nomatch hh)⟩
  obtain ⟨hi, rfl⟩ := List.getElem?_eq_some_iff.mp he
  obtain rfl : i = 0 := Nat.lt_one_iff.mp hi
  exact absurd (congrArg Handle.idx hzero) hne

theorem toNat_succ {g : BitVec w} (h : g.toNat + 1 < 2 ^ w) : (g + 1).toNat = g.toNat + 1 := by
  have hone : (1 : BitVec w).toNat = 1 := toNat_ofNat_of_lt (i := 1) (by omega)
  rw [BitVec.toNat_add, hone, Nat.mod_eq_of_lt h]

/-- A slot gets an item with a new handle. -/
theorem HmInv.put (h : HmInv s) {items : List (HmItem α w)} {unused : List ℕ} {hd : Handle w}
    {value : α} {i : ℕ} (hidx : hd.idx.toNat = i) (hi : i ≠ 0)
    (hlength : items.length ≤ 2 ^ w) (hself : items[i]? = some ⟨hd, value⟩)
    (hothers : ∀ j, j ≠ i → items[j]? = s.map.items[j]?)
    (hold : ∀ e : HmItem α w, s.map.items[i]? = some e →
      e.handle.idx = 0 ∧ e.handle.gen.toNat < hd.gen.toNat)
    (hunused : unused.Sublist s.map.unusedItems) (hnot : i ∉ unused) :
    HmInv { s with map := ⟨items, unused⟩, issued := (hd, value) :: s.issued } := by
  have hfresh : hd ∉ s.issued.map Prod.fst := by
    intro hmem
    obtain ⟨⟨hd', v⟩, hp, heq⟩ := List.mem_map.mp hmem
    obtain rfl : hd' = hd := heq
    obtain ⟨-, e, he, hgen, -⟩ := h.issued hd' v hp
    rw [hidx] at he
    have := (hold e he).2
    omega
  have hremoved : hd ∉ s.removed := fun hmem => hfresh (h.removed hd hmem)
  refine ⟨?_, hlength, h.nodup.sublist hunused, fun j hj => ?_, fun j e he hne => ?_,
    fun hd' value' hp => ?_, ?_, fun hd' hd'mem => ?_⟩
  · rw [hothers 0 (Ne.symm hi)]
    exact h.sentinel
  · obtain ⟨hj0, e, he, hzero⟩ := h.unused j (hunused.subset hj)
    have hne : j ≠ i := by
      rintro rfl
      exact hnot hj
    exact ⟨hj0, e, by rw [hothers j hne]; exact he, hzero⟩
  · rcases eq_or_ne j i with rfl | hji
    · obtain rfl := Option.some.inj (hself.symm.trans he)
      exact ⟨hidx, List.mem_cons_self .., hremoved⟩
    · rw [hothers j hji] at he
      obtain ⟨hj, hissued, hnotremoved⟩ := h.live j e he hne
      exact ⟨hj, List.mem_cons_of_mem _ hissued, hnotremoved⟩
  · rcases List.mem_cons.mp hp with heq | hp
    · obtain ⟨rfl, rfl⟩ := Prod.mk.inj heq
      refine ⟨fun hzero => hi ?_, ⟨hd', value'⟩, by rw [hidx]; exact hself, Nat.le_refl _,
        fun _ => rfl⟩
      rw [← hidx, hzero]
      simp
    · obtain ⟨hne, e, he, hgen, hlive⟩ := h.issued hd' value' hp
      refine ⟨hne, ?_⟩
      by_cases hidx' : hd'.idx.toNat = i
      · rw [hidx'] at he ⊢
        obtain ⟨hzero, hlt⟩ := hold e he
        refine ⟨⟨hd, value⟩, hself, by simp only; omega, fun hno => ?_⟩
        -- a handle of a slot without an item was removed
        obtain rfl := hlive hno
        exact absurd hzero hne
      · exact ⟨e, by rw [hothers _ hidx']; exact he, hgen, hlive⟩
  · exact List.nodup_cons.mpr ⟨hfresh, h.distinct⟩
  · exact List.mem_cons_of_mem _ (h.removed hd' hd'mem)

theorem HmInv.add (h : HmInv s) {item : HmItem α w} {allocated : Bool}
    (hok : HmKept s (.add item allocated))
    (hadd : hmApply s (.add item allocated) = .returned t) : HmInv t := by
  obtain ⟨⟨m, handle⟩, hm, heq⟩ := Outcome.bind_eq_returned.mp hadd
  obtain rfl := Outcome.returned.inj heq
  rcases hmAdd_cases hm with ⟨unused, i, ptr, hunused, hptr, rfl, rfl⟩ |
    ⟨hunused, hallocated, rfl, rfl⟩ | ⟨-, -, rfl, rfl⟩
  · have hmem : i ∈ s.map.unusedItems := by simp [hunused]
    obtain ⟨hi, e, he, hzero⟩ := h.unused i hmem
    obtain rfl := Option.some.inj (hptr.symm.trans he)
    obtain ⟨hlt, -⟩ := List.getElem?_eq_some_iff.mp hptr
    have hwrap := hok.2 i ptr (by rw [hunused, List.getLast?_concat]) hptr
    have hnodup := h.nodup
    rw [hunused] at hnodup
    refine h.put (toNat_ofNat_of_lt (Nat.lt_of_lt_of_le hlt h.length)) hi
      (by rw [List.length_set]; exact h.length) ?_ (fun j hj => ?_) (fun e he' => ?_) ?_ ?_
    · rw [List.getElem?_set_self hlt]
    · exact List.getElem?_set_ne (Ne.symm hj)
    · obtain rfl := Option.some.inj (he.symm.trans he')
      refine ⟨hzero, ?_⟩
      rw [toNat_succ hwrap]
      exact Nat.lt_succ_self _
    · rw [hunused]
      exact List.sublist_append_left ..
    · intro hin
      exact (List.nodup_append.mp hnodup).2.2 i hin i (List.mem_singleton_self i) rfl
  · have hlt := hok.1 hunused hallocated
    have hne : s.map.items.length ≠ 0 := by
      obtain ⟨e, he, -⟩ := h.sentinel
      have := (List.getElem?_eq_some_iff.mp he).1
      omega
    refine h.put (toNat_ofNat_of_lt hlt) hne (by rw [List.length_append]; exact hlt) ?_
      (fun j hj => ?_) (fun e he => ?_) (by rw [hunused]) (fun hin => nomatch hin)
    · rw [List.getElem?_append_right (Nat.le_refl _), Nat.sub_self]
      rfl
    · rcases Nat.lt_or_gt_of_ne hj with hlt | hgt
      · exact List.getElem?_append_left hlt
      · rw [List.getElem?_eq_none (Nat.le_of_lt hgt), List.getElem?_eq_none]
        rw [List.length_append]
        exact hgt
    · exact absurd (List.getElem?_eq_some_iff.mp he).1 (Nat.lt_irrefl _)
  · exact h

/-- The item of a valid handle that was returned is removed. -/
theorem HmInv.remove (h : HmInv s) {hd : Handle w} {allocated : Bool}
    (hok : HmKept s (.remove hd allocated))
    (hremove : hmApply s (.remove hd allocated) = .returned t) : HmInv t := by
  obtain ⟨⟨m, found⟩, hm, heq⟩ := Outcome.bind_eq_returned.mp hremove
  obtain rfl := Outcome.returned.inj heq
  rcases hmRemove_cases hm with ⟨item, rfl, -, -, hitem, hhandle, rfl⟩ | ⟨rfl, rfl, -⟩
  · obtain ⟨hissued, hbits⟩ := hok
    obtain ⟨⟨hd', value⟩, hp, heq⟩ := List.mem_map.mp hissued
    obtain rfl : hd' = hd := heq
    have hne := (h.issued hd' value hp).1
    have hidx : hd'.idx.toNat ≠ 0 := fun hzero => hne (BitVec.eq_of_toNat_eq (by simpa using hzero))
    have hlt := (List.getElem?_eq_some_iff.mp hitem).1
    have hself : (s.map.items.set hd'.idx.toNat ⟨⟨0, hd'.gen⟩, item.value⟩)[hd'.idx.toNat]? =
        some ⟨⟨0, hd'.gen⟩, item.value⟩ := List.getElem?_set_self hlt
    have hothers : ∀ j, j ≠ hd'.idx.toNat →
        (s.map.items.set hd'.idx.toNat ⟨⟨0, hd'.gen⟩, item.value⟩)[j]? = s.map.items[j]? :=
      fun j hj => List.getElem?_set_ne (Ne.symm hj)
    have hnot : hd'.idx.toNat ∉ s.map.unusedItems := by
      intro hmem
      obtain ⟨-, e, he, hzero⟩ := h.unused _ hmem
      obtain rfl := Option.some.inj (hitem.symm.trans he)
      rw [hhandle] at hzero
      exact hne hzero
    refine ⟨?_, by rw [List.length_set]; exact h.length, ?_, fun j hj => ?_, fun j e he hej => ?_,
      fun hd value hp' => ?_, h.distinct, fun hd hmem => ?_⟩
    · rw [hothers 0 (Ne.symm hidx)]
      exact h.sentinel
    · rw [Nat.mod_eq_of_lt hbits]
      exact List.nodup_append.mpr ⟨h.nodup, List.nodup_singleton _, fun j hj k hk => by
        obtain rfl := List.mem_singleton.mp hk
        rintro rfl
        exact hnot hj⟩
    · rw [Nat.mod_eq_of_lt hbits] at hj
      rcases List.mem_append.mp hj with hj | hj
      · obtain ⟨hj0, e, he, hzero⟩ := h.unused j hj
        have hji : j ≠ hd'.idx.toNat := by
          rintro rfl
          exact hnot hj
        exact ⟨hj0, e, by rw [hothers j hji]; exact he, hzero⟩
      · obtain rfl := List.mem_singleton.mp hj
        exact ⟨hidx, _, hself, rfl⟩
    · have hji : j ≠ hd'.idx.toNat := by
        rintro rfl
        obtain rfl := Option.some.inj (hself.symm.trans he)
        exact hej rfl
      rw [hothers j hji] at he
      obtain ⟨hj, hissued', hnotremoved⟩ := h.live j e he hej
      refine ⟨hj, hissued', fun hmem => ?_⟩
      rcases List.mem_cons.mp hmem with heq | hmem
      · rw [heq] at hj
        exact hji hj.symm
      · exact hnotremoved hmem
    · obtain ⟨hne', e, he, hgen, hlive⟩ := h.issued hd value hp'
      refine ⟨hne', ?_⟩
      by_cases hji : hd.idx.toNat = hd'.idx.toNat
      · rw [hji] at he ⊢
        obtain rfl := Option.some.inj (hitem.symm.trans he)
        refine ⟨_, hself, by rw [hhandle] at hgen; exact hgen, fun hno => ?_⟩
        -- the slot held the handle that is removed
        have hitem' := hlive fun hmem => hno (List.mem_cons_of_mem _ hmem)
        rw [hitem'] at hhandle
        exact absurd (List.mem_cons.mpr (Or.inl hhandle)) hno
      · exact ⟨e, by rw [hothers _ hji]; exact he, hgen,
          fun hno => hlive fun hmem => hno (List.mem_cons_of_mem _ hmem)⟩
    · rcases List.mem_cons.mp hmem with rfl | hmem
      · exact hissued
      · exact h.removed hd hmem
  · exact h

theorem HmInv.of_run (hs : HmInv s) (h : HmRun HmKept s t) : HmInv t := by
  induction h with
  | refl => exact hs
  | tail _ hstep ih =>
    obtain ⟨op, hok, happly⟩ := hstep
    match op with
    | .add item allocated => exact ih.add hok happly
    | .remove hd allocated => exact ih.remove hok happly

/-! ### What `hm_get` finds -/

/-- The slot of a handle has it exactly if it is live. -/
theorem HmInv.handle_iff (h : HmInv s) {hd : Handle w} (hne : hd ≠ ⟨0, 0⟩) {e : HmItem α w}
    (he : s.map.items[hd.idx.toNat]? = some e) :
    e.handle = hd ↔ s.Live hd e.value := by
  constructor
  · rintro rfl
    refine (h.live _ e he fun hzero => hne ?_).2
    -- a handle with the index 0 is the one of the sentinel
    rw [hzero] at he
    obtain ⟨e', he', hhandle⟩ := h.sentinel
    obtain rfl := Option.some.inj (he'.symm.trans (by simpa using he))
    exact hhandle
  · intro hlive
    obtain ⟨-, e', he', -, heq⟩ := h.issued hd e.value hlive.1
    obtain rfl := Option.some.inj (he.symm.trans he')
    rw [heq hlive.2]

theorem HmInv.lt_of_live (h : HmInv s) {hd : Handle w} {value : α} (hlive : s.Live hd value) :
    hd.idx.toNat < s.map.items.length := by
  obtain ⟨-, e, he, -⟩ := h.issued hd value hlive.1
  exact (List.getElem?_eq_some_iff.mp he).1

/-- `hm_get` and `hm_is_valid` do what they are for: they return, and find exactly what is
live. -/
def HmFinds (s : HmState α w) (hd : Handle w) : Prop :=
  (∃ found, hmGet s.map hd = .returned found ∧
    ∀ e, found = some e ↔ e.handle = hd ∧ s.Live hd e.value) ∧
  ∃ valid, hmIsValid s.map hd = .returned valid ∧ (valid = true ↔ ∃ value, s.Live hd value)

/-- The index of the handle, cut off to 32 bits, is past the items if the index is. -/
def HmInRange (s : HmState α w) (hd : Handle w) : Prop :=
  hd.idx.toNat < s.map.items.length ∨ s.map.items.length ≤ hd.idx.toNat % 2 ^ 32

theorem HmInv.finds_iff (h : HmInv s) {hd : Handle w} (hne : hd ≠ ⟨0, 0⟩) :
    HmFinds s hd ↔ HmInRange s hd := by
  by_cases houtside : hmOutside s.map hd
  · have hle : s.map.items.length ≤ hd.idx.toNat :=
      Nat.le_trans houtside (Nat.mod_le _ _)
    have hdead : ∀ value, ¬s.Live hd value := fun value hlive =>
      absurd (h.lt_of_live hlive) (Nat.not_lt_of_le hle)
    refine iff_of_true ⟨⟨none, by rw [hmGet, if_pos houtside], fun e => ?_⟩,
      false, by rw [hmIsValid, if_pos houtside], ?_⟩ (Or.inr houtside)
    · exact iff_of_false (fun hsome => by cases hsome) fun hlive => hdead _ hlive.2
    · exact iff_of_false (fun htrue => by cases htrue) fun hlive => hlive.elim hdead
  · rcases he : s.map.items[hd.idx.toNat]? with _ | e
    · -- the lower 32 bits are in range, and the read is not
      refine iff_of_false ?_ ?_
      · rintro ⟨⟨found, hget, -⟩, -⟩
        rw [hmGet, if_neg houtside, he] at hget
        cases hget
      · have := List.getElem?_eq_none_iff.mp he
        rintro (hlt | hle)
        · omega
        · exact houtside hle
    · have hiff := h.handle_iff hne he
      have hvalue : ∀ {value}, s.Live hd value → e = ⟨hd, value⟩ := by
        intro value hlive
        obtain ⟨-, e', he', -, heq⟩ := h.issued hd value hlive.1
        obtain rfl := Option.some.inj (he.symm.trans he')
        exact heq hlive.2
      refine iff_of_true ⟨⟨_, by rw [hmGet, if_neg houtside, he], fun e' => ?_⟩,
        _, by rw [hmIsValid, if_neg houtside, he], ?_⟩
        (Or.inl (List.getElem?_eq_some_iff.mp he).1)
      · split
        · rename_i hhandle
          constructor
          · intro hsome
            obtain rfl := Option.some.inj hsome
            exact ⟨hhandle, hiff.mp hhandle⟩
          · rintro ⟨heq, hlive⟩
            rw [hvalue hlive]
            obtain ⟨handle, value⟩ := e'
            rw [show handle = hd from heq]
        · rename_i hhandle
          refine iff_of_false (fun hsome => by cases hsome) fun hfound => hhandle ?_
          rw [hvalue hfound.2]
      · rw [decide_eq_true_eq]
        constructor
        · exact fun hhandle => ⟨_, hiff.mp hhandle⟩
        · rintro ⟨value, hlive⟩
          rw [hvalue hlive]

/-! ### Iterating -/

/-- A used slot, for `hm_iterate`. -/
def hmUsed (e : HmItem α w) : Bool := e.handle.idx ≠ 0

/-- The loop stops at the first used slot, and the next call goes on behind it. -/
theorem hmIterateFrom_spec (items : List (HmItem α w)) (index : ℕ) :
    (hmIterateFrom items index = (none, 0) ∧ items.filter hmUsed = []) ∨
    ∃ e k, hmIterateFrom items index = (some (e, e.handle), index + (k + 1)) ∧
      items.filter hmUsed = e :: (items.drop (k + 1)).filter hmUsed := by
  induction items generalizing index with
  | nil => exact Or.inl ⟨rfl, rfl⟩
  | cons e items ih =>
    by_cases hidx : e.handle.idx = 0
    · have hunused : ¬hmUsed e = true := by simp [hmUsed, hidx]
      rw [hmIterateFrom, if_neg (not_not.mpr hidx), List.filter_cons_of_neg hunused]
      rcases ih (index + 1) with hnone | ⟨e', k, hsome, hfilter⟩
      · exact Or.inl hnone
      · refine Or.inr ⟨e', k + 1, ?_, hfilter⟩
        rw [hsome, Nat.add_assoc, Nat.add_comm 1]
    · have hused : hmUsed e = true := decide_eq_true hidx
      rw [hmIterateFrom, if_pos hidx, List.filter_cons_of_pos hused]
      exact Or.inr ⟨e, 0, rfl, rfl⟩

/-- A pass yields the items of the used slots, in order. -/
theorem hmPass_used (m : HandleMap α w) (index : ℕ) :
    HmPass m index (((m.items.drop index).filter hmUsed).map fun e => (e, e.handle)) := by
  generalize hused : (m.items.drop index).filter hmUsed = used
  induction used generalizing index with
  | nil =>
    rcases hmIterateFrom_spec (m.items.drop index) index with ⟨hnone, -⟩ | ⟨e, k, -, hfilter⟩
    · exact .stop hnone
    · rw [hused] at hfilter
      cases hfilter
  | cons e used ih =>
    rcases hmIterateFrom_spec (m.items.drop index) index with
      ⟨-, hfilter⟩ | ⟨e', k, hsome, hfilter⟩
    · rw [hused] at hfilter
      cases hfilter
    · rw [hused] at hfilter
      obtain ⟨rfl, hrest⟩ := List.cons.inj hfilter
      rw [List.drop_drop] at hrest
      exact .next hsome (ih _ hrest.symm)

/-- The handles that are live, with their values. -/
def HmState.live (s : HmState α w) : List (Handle w × α) :=
  s.issued.filter fun p => p.1 ∉ s.removed

theorem mem_live {p : Handle w × α} : p ∈ s.live ↔ s.Live p.1 p.2 := by
  simp [HmState.live, HmState.Live]

theorem HmInv.nodup_live (h : HmInv s) : (s.live.map Prod.fst).Nodup :=
  h.distinct.sublist ((List.filter_sublist ..).map _)

/-- The items of the used slots are the live ones. -/
theorem HmInv.perm_live (h : HmInv s) :
    ((s.map.items.filter hmUsed).map fun e => (e.handle, e.value)).Perm s.live := by
  refine (List.perm_ext_iff_of_nodup ?_ (List.Nodup.of_map _ h.nodup_live)).mpr fun p => ?_
  · -- used slots have different handles, which tell their index
    rw [List.Nodup, List.pairwise_map, List.pairwise_filter, List.pairwise_iff_getElem]
    intro i j hi hj hij hused hused' heq
    have hidx := h.live i _ (List.getElem?_eq_getElem hi) (of_decide_eq_true hused)
    have hidx' := h.live j _ (List.getElem?_eq_getElem hj) (of_decide_eq_true hused')
    have hhandle := congrArg Prod.fst heq
    simp only at hhandle
    rw [hhandle] at hidx
    omega
  · simp only [List.mem_map, List.mem_filter, mem_live]
    constructor
    · rintro ⟨e, ⟨he, hused⟩, rfl⟩
      obtain ⟨i, hi⟩ := List.mem_iff_getElem?.mp he
      exact (h.live i e hi (by simpa [hmUsed] using hused)).2
    · intro hlive
      obtain ⟨hne, e, he, -, heq⟩ := h.issued p.1 p.2 hlive.1
      obtain rfl := heq hlive.2
      exact ⟨_, ⟨List.mem_of_getElem? he, by simpa [hmUsed] using hne⟩, rfl⟩

/-! ### Runs -/

theorem removed_stays {ok : HmState α w → HmOp α w → Prop} (h : HmRun ok s t) {hd : Handle w}
    (hmem : hd ∈ s.removed) : hd ∈ t.removed := by
  induction h with
  | refl => exact hmem
  | tail _ hstep ih =>
    obtain ⟨op, -, happly⟩ := hstep
    match op with
    | .add item allocated =>
      obtain ⟨_, -, heq⟩ := Outcome.bind_eq_returned.mp happly
      obtain rfl := Outcome.returned.inj heq
      exact ih
    | .remove hd' allocated =>
      obtain ⟨⟨m, found⟩, -, heq⟩ := Outcome.bind_eq_returned.mp happly
      obtain rfl := Outcome.returned.inj heq
      simp only
      split
      · exact List.mem_cons_of_mem _ ih
      · exact ih
    | .clear =>
      obtain rfl := Outcome.returned.inj happly
      exact ih

/-- **Handles tell the live items.** In every run from `hm_init` with the handle of the zero value
`{0, 0}` that removes handles that were returned: for every other handle, `hm_get` and
`hm_is_valid` find exactly what is live if and only if its index is in range, or past the items
with its lower 32 bits too. The live handles differ, a handle that was removed is never found
again, and a pass of `hm_iterate` yields each live item once. -/
theorem handleMap_finds_iff (hzero : zeroValue.handle = ⟨0, 0⟩)
    (h : HmRun HmKept (hmStart zeroValue) s) :
    (∀ hd, hd ≠ ⟨0, 0⟩ → (HmFinds s hd ↔ HmInRange s hd)) ∧
    (s.live.map Prod.fst).Nodup ∧
    (∀ hd ∈ s.removed, ∀ t, HmRun HmKept s t → ∀ e, hmGet t.map hd ≠ .returned (some e)) ∧
    ∃ out, HmPass s.map 0 out ∧ (out.map fun e => (e.2, e.1.value)).Perm s.live := by
  have hinv := (HmInv.start hzero).of_run h
  refine ⟨fun hd hne => hinv.finds_iff hne, hinv.nodup_live, fun hd hmem t ht e hget => ?_,
    _, hmPass_used s.map 0, ?_⟩
  · have hinv' := hinv.of_run ht
    have hremoved := removed_stays ht hmem
    obtain ⟨⟨hd', value⟩, hp, heq⟩ := List.mem_map.mp (hinv'.removed hd hremoved)
    obtain rfl : hd' = hd := heq
    have hne : hd' ≠ ⟨0, 0⟩ := fun hzero => (hinv'.issued hd' value hp).1 (by rw [hzero])
    rw [hmGet] at hget
    split at hget
    · cases Outcome.returned.inj hget
    · split at hget
      · rename_i e' he'
        split at hget
        · rename_i hhandle
          exact ((hinv'.handle_iff hne he').mp hhandle).2 hremoved
        · cases Outcome.returned.inj hget
      · cases hget
  · rw [List.drop_zero, List.map_map]
    exact hinv.perm_live

/-- The sentinel of a map with handles of 128 bits. -/
def wideItem : HmItem ℕ 64 := ⟨⟨0, 0⟩, 0⟩

/-- The lower 32 bits of the index are those of the sentinel. -/
theorem not_handleMap_finds : ¬HmFinds (hmStart wideItem) ⟨0x100000000, 0⟩ := by
  rintro ⟨⟨found, hget, -⟩, -⟩
  have hcrash : hmGet (hmStart wideItem).map ⟨0x100000000, 0⟩ = .crashed := by decide
  cases hcrash.symm.trans hget

theorem handleMap_finds_iff_reused :
    HmRun HmKept (hmStart nilItem) reusedItem ∧ HmFinds reusedItem ⟨1, 1⟩ ∧
      HmFinds reusedItem ⟨1, 2⟩ ∧ reusedItem.live = [(⟨1, 2⟩, 8)] := by
  have hadd : HmKept (hmStart nilItem) (.add ⟨⟨0, 0⟩, 7⟩ true) :=
    ⟨fun _ _ => by decide, fun _ _ hlast => (nomatch hlast)⟩
  have hreuse : HmKept removedItem (.add ⟨⟨0, 0⟩, 8⟩ true) := by
    refine ⟨fun hunused => (nomatch hunused), fun i e hlast he => ?_⟩
    obtain rfl : 1 = i := Option.some.inj hlast
    obtain rfl : ⟨⟨0, 1⟩, 7⟩ = e := Option.some.inj he
    decide
  have hone : HmRun HmKept (hmStart nilItem) oneItem := .tail .refl ⟨_, hadd, rfl⟩
  have hremoved : HmRun HmKept (hmStart nilItem) removedItem :=
    hone.tail ⟨.remove ⟨1, 1⟩ true, ⟨by decide, by decide⟩, rfl⟩
  have hrun : HmRun HmKept (hmStart nilItem) reusedItem := hremoved.tail ⟨_, hreuse, rfl⟩
  have hfinds := (handleMap_finds_iff rfl hrun).1
  exact ⟨hrun, (hfinds _ (by decide)).mpr (Or.inl (by decide)),
    (hfinds _ (by decide)).mpr (Or.inl (by decide)), by decide⟩

end Wasim
