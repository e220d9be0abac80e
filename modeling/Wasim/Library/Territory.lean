import Mathlib.Data.List.Pairwise
import Mathlib.Logic.Function.Basic
import Mathlib.Algebra.Order.Ring.Nat

/-!
# Ranges with owners

Memory is divided: some ranges belong to owners, the others are taken for good, and no two of
them overlap (`Divided`). An owner may split what it has (`Divided.split`), be given a range that
nobody has (`Divided.claim`), and give a range away (`Divided.give`). A range is a start and a
length; one of length zero overlaps another only if it lies inside of it.
-/

namespace Territory

def Apart (a b : ℕ × ℕ) : Prop := a.1 + a.2 ≤ b.1 ∨ b.1 + b.2 ≤ a.1

def Inside (a b : ℕ × ℕ) : Prop := b.1 ≤ a.1 ∧ a.1 + a.2 ≤ b.1 + b.2

variable {a b c : ℕ × ℕ}

theorem Apart.symm (h : Apart a b) : Apart b a := Or.symm h

theorem Apart.inside (h : Apart a b) (hc : Inside c a) : Apart c b :=
  h.imp hc.2.trans fun hle => hle.trans hc.1

theorem Inside.refl (a : ℕ × ℕ) : Inside a a := ⟨le_rfl, le_rfl⟩

theorem Inside.trans (h : Inside a b) (h' : Inside b c) : Inside a c :=
  ⟨h'.1.trans h.1, h.2.trans h'.2⟩

variable {ι : Type} [DecidableEq ι] {own : ι → List (ℕ × ℕ)} {taken : List (ℕ × ℕ)}

structure Divided (own : ι → List (ℕ × ℕ)) (taken : List (ℕ × ℕ)) : Prop where
  self : ∀ i, (own i).Pairwise Apart
  others : ∀ i j, i ≠ j → ∀ a ∈ own i, ∀ b ∈ own j, Apart a b
  taken : ∀ i, ∀ a ∈ own i, ∀ b ∈ taken, Apart a b

/-- What an owner has is replaced by ranges that do not overlap what the others have. -/
theorem Divided.replace (h : Divided own taken) (i : ι) {ranges : List (ℕ × ℕ)}
    (hself : ranges.Pairwise Apart) (hothers : ∀ j, j ≠ i → ∀ a ∈ ranges, ∀ b ∈ own j, Apart a b)
    (htaken : ∀ a ∈ ranges, ∀ b ∈ taken, Apart a b) :
    Divided (Function.update own i ranges) taken := by
  refine ⟨fun j => ?_, fun j k hne a ha b hb => ?_, fun j a ha b hb => ?_⟩
  · rcases eq_or_ne j i with rfl | hj
    · rwa [Function.update_self]
    · rw [Function.update_of_ne hj]
      exact h.self j
  · rcases eq_or_ne j i with rfl | hj
    · rw [Function.update_self] at ha
      rw [Function.update_of_ne hne.symm] at hb
      exact hothers k hne.symm a ha b hb
    · rw [Function.update_of_ne hj] at ha
      rcases eq_or_ne k i with rfl | hk
      · rw [Function.update_self] at hb
        exact (hothers j hj b hb a ha).symm
      · rw [Function.update_of_ne hk] at hb
        exact h.others j k hne a ha b hb
  · rcases eq_or_ne j i with rfl | hj
    · rw [Function.update_self] at ha
      exact htaken a ha b hb
    · rw [Function.update_of_ne hj] at ha
      exact h.taken j a ha b hb

/-- Ranges inside of what the owner has. -/
theorem Divided.split (h : Divided own taken) (i : ι) {ranges : List (ℕ × ℕ)}
    (hself : ranges.Pairwise Apart) (hinside : ∀ a ∈ ranges, ∃ b ∈ own i, Inside a b) :
    Divided (Function.update own i ranges) taken := by
  refine h.replace i hself (fun j hj a ha b hb => ?_) fun a ha b hb => ?_
  · obtain ⟨c, hc, hac⟩ := hinside a ha
    exact (h.others i j hj.symm c hc b hb).inside hac
  · obtain ⟨c, hc, hac⟩ := hinside a ha
    exact (h.taken i c hc b hb).inside hac

/-- The first range of an owner is exchanged for one that nobody has. -/
theorem Divided.claim (h : Divided own taken) (i : ι) {old new : ℕ × ℕ} {ranges : List (ℕ × ℕ)}
    (hown : own i = old :: ranges) (hnew : ∀ j, ∀ b ∈ own j, Apart new b)
    (htaken : ∀ b ∈ taken, Apart new b) :
    Divided (Function.update own i (new :: ranges)) taken := by
  have hmem : ∀ a ∈ ranges, a ∈ own i := fun a ha => hown ▸ List.mem_cons_of_mem old ha
  refine h.replace i ?_ (fun j hj a ha b hb => ?_) fun a ha b hb => ?_
  · exact List.pairwise_cons.mpr
      ⟨fun a ha => hnew i a (hmem a ha), (List.pairwise_cons.mp (hown ▸ h.self i)).2⟩
  · obtain rfl | ha := List.mem_cons.mp ha
    · exact hnew j b hb
    · exact h.others i j hj.symm a (hmem a ha) b hb
  · obtain rfl | ha := List.mem_cons.mp ha
    · exact htaken b hb
    · exact h.taken i a (hmem a ha) b hb

/-- All ranges of an owner but the first are taken for good. -/
theorem Divided.give (h : Divided own taken) (i : ι) {rest : ℕ × ℕ} {ranges : List (ℕ × ℕ)}
    (hown : own i = rest :: ranges) :
    Divided (Function.update own i [rest]) (ranges ++ taken) := by
  have hmem : rest ∈ own i := hown ▸ List.mem_cons_self
  have hrest := (List.pairwise_cons.mp (hown ▸ h.self i)).1
  have hsplit := h.split i (List.pairwise_singleton Apart rest) fun a ha =>
    ⟨rest, hmem, List.mem_singleton.mp ha ▸ Inside.refl rest⟩
  refine ⟨hsplit.self, hsplit.others, fun j a ha b hb => ?_⟩
  obtain hb | hb := List.mem_append.mp hb
  · rcases eq_or_ne j i with rfl | hj
    · rw [Function.update_self, List.mem_singleton] at ha
      exact ha ▸ hrest b hb
    · rw [Function.update_of_ne hj] at ha
      exact h.others j i hj a ha b (hown ▸ List.mem_cons_of_mem rest hb)
  · exact hsplit.taken j a ha b hb

end Territory
