import Mathlib.Order.Bounds.Basic
import Mathlib.Algebra.Ring.Int.Defs
import Mathlib.Algebra.Order.Ring.Int
import Wasim.Library.Align

/-!
# Fields one after the other

The layout of a record, in the order of its fields: every field is at the least multiple of its
alignment that is not in front of the end of the field before (`StructLayout.Placed`). For fields
with sizes and positive alignments there is exactly one such layout, and in it the fields are
apart.
-/

namespace StructLayout

variable {α : Type}

/-- The fields are at their offsets, from `start` on, and `stop` is the end of the last. -/
inductive Placed (size align : α → ℤ) : ℤ → List (α × ℤ) → ℤ → Prop
  | nil (start : ℤ) : Placed size align start [] start
  | cons {start stop offset : ℤ} {field : α} {fields : List (α × ℤ)} :
      IsLeast {o | start ≤ o ∧ align field ∣ o} offset →
      Placed size align (offset + size field) fields stop →
      Placed size align start ((field, offset) :: fields) stop

/-- The end of the field before the one at `i`, in a layout from 0 on. -/
def endBefore (size : α → ℤ) (fields : List (α × ℤ)) : ℕ → ℤ
  | 0 => 0
  | i + 1 =>
    match fields[i]? with
    | some field => field.2 + size field.1
    | none => 0

/-- Rounding up takes the least multiple. -/
theorem isLeast_up {n a : ℕ} (ha : 0 < a) :
    IsLeast {o : ℤ | (n : ℤ) ≤ o ∧ (a : ℤ) ∣ o} (Align.up n a : ℤ) := by
  refine ⟨⟨by exact_mod_cast Align.le_up ha n, by exact_mod_cast Align.dvd_up n a⟩,
    fun o ho => ?_⟩
  obtain ⟨hn, hdvd⟩ := ho
  obtain ⟨m, rfl⟩ := Int.eq_ofNat_of_zero_le ((Int.natCast_nonneg n).trans hn)
  have := Align.up_le ha (by exact_mod_cast hdvd) (by exact_mod_cast hn : n ≤ m)
  exact_mod_cast this

/-- There is a least multiple of a positive alignment. -/
theorem exists_isLeast {start a : ℤ} (hstart : 0 ≤ start) (ha : 0 < a) :
    ∃ offset, IsLeast {o | start ≤ o ∧ a ∣ o} offset := by
  obtain ⟨n, rfl⟩ := Int.eq_ofNat_of_zero_le hstart
  obtain ⟨b, rfl⟩ := Int.eq_ofNat_of_zero_le ha.le
  exact ⟨_, isLeast_up (by exact_mod_cast ha)⟩

namespace Placed

variable {size align : α → ℤ} {start stop : ℤ} {fields : List (α × ℤ)}

/-- Fields with sizes and positive alignments can be placed. -/
theorem exists_of {fields : List α} (hstart : 0 ≤ start)
    (h : ∀ f ∈ fields, 0 ≤ size f ∧ 0 < align f) :
    ∃ placed stop, placed.map Prod.fst = fields ∧ Placed size align start placed stop := by
  induction fields generalizing start with
  | nil => exact ⟨[], start, rfl, .nil start⟩
  | cons f fields ih =>
    have hf := h f (List.mem_cons_self ..)
    obtain ⟨offset, hoffset⟩ := exists_isLeast hstart hf.2
    have hnext : 0 ≤ offset + size f := by
      have := hoffset.1.1
      omega
    obtain ⟨placed, stop, rfl, hplaced⟩ := ih hnext fun g hg => h g (List.mem_cons_of_mem _ hg)
    exact ⟨(f, offset) :: placed, stop, rfl, .cons hoffset hplaced⟩

/-- The fields and the start decide the layout. -/
theorem unique {fields' : List (α × ℤ)} {stop' : ℤ} (h : Placed size align start fields stop)
    (h' : Placed size align start fields' stop')
    (hfst : fields.map Prod.fst = fields'.map Prod.fst) : fields = fields' ∧ stop = stop' := by
  induction h generalizing fields' with
  | nil start =>
    cases h' with
    | nil => exact ⟨rfl, rfl⟩
    | cons => cases hfst
  | cons hoffset _ ih =>
    cases h' with
    | nil => cases hfst
    | cons hoffset' hfields' =>
      obtain ⟨rfl, htail⟩ := List.cons.inj hfst
      obtain rfl := hoffset.unique hoffset'
      obtain ⟨rfl, rfl⟩ := ih hfields' htail
      exact ⟨rfl, rfl⟩

/-- Every field is between the start and the stop. -/
theorem bounds (h : Placed size align start fields stop)
    (hsize : ∀ p ∈ fields, 0 ≤ size p.1) :
    start ≤ stop ∧ ∀ p ∈ fields, start ≤ p.2 ∧ p.2 + size p.1 ≤ stop := by
  induction h with
  | nil start => exact ⟨le_rfl, fun p hp => nomatch hp⟩
  | @cons start stop offset field fields hoffset _ ih =>
    have hhead : 0 ≤ size field := hsize _ (List.mem_cons_self ..)
    have hstart := hoffset.1.1
    obtain ⟨hle, hmem⟩ := ih fun p hp => hsize p (List.mem_cons_of_mem _ hp)
    refine ⟨by omega, fun p hp => ?_⟩
    rcases List.mem_cons.mp hp with rfl | hp
    · exact ⟨hstart, hle⟩
    · have := hmem p hp
      omega

/-- No field begins before the end of a field in front of it. -/
theorem pairwise (h : Placed size align start fields stop)
    (hsize : ∀ p ∈ fields, 0 ≤ size p.1) :
    fields.Pairwise fun p q => p.2 + size p.1 ≤ q.2 := by
  induction h with
  | nil => exact .nil
  | cons _ hfields ih =>
    have htail := fun p hp => hsize p (List.mem_cons_of_mem _ hp)
    exact .cons (fun q hq => ((hfields.bounds htail).2 q hq).1) (ih htail)

/-- The stop is the end of a field, if there is one. -/
theorem stop_attained (h : Placed size align start fields stop) :
    fields = [] ∧ stop = start ∨ ∃ p ∈ fields, stop = p.2 + size p.1 := by
  induction h with
  | nil => exact Or.inl ⟨rfl, rfl⟩
  | @cons _ _ offset field _ _ _ ih =>
    obtain ⟨rfl, rfl⟩ | ⟨p, hp, rfl⟩ := ih
    · exact Or.inr ⟨(field, offset), List.mem_cons_self .., rfl⟩
    · exact Or.inr ⟨p, List.mem_cons_of_mem _ hp, rfl⟩

/-- The offset at `i` is the least one behind the field before. -/
theorem least (h : Placed size align start fields stop) {i : ℕ} {p : α × ℤ}
    (hp : fields[i]? = some p) :
    IsLeast {o | (if i = 0 then start else endBefore size fields i) ≤ o ∧ align p.1 ∣ o} p.2 := by
  induction h generalizing i with
  | nil => simp at hp
  | cons hoffset _ ih =>
    match i with
    | 0 =>
      obtain rfl := Option.some.inj hp
      exact hoffset
    | 1 => exact ih hp
    | i + 2 => exact ih hp

end Placed

end StructLayout
