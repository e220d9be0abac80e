import Mathlib.Algebra.BigOperators.Group.List.Basic
import Mathlib.Algebra.Ring.Nat
import Mathlib.Data.Finset.Card

/-!
# Packing

Finite sets that are apart from each other hold together as many elements as each of them holds,
so that they cannot outgrow a set they all lie in (`Packing.sum_card_le`).
-/

namespace Packing

variable {α : Type} [DecidableEq α]

theorem disjoint_foldr_union {t : Finset α} {l : List (Finset α)} (h : ∀ u ∈ l, Disjoint t u) :
    Disjoint t (l.foldr (· ∪ ·) ∅) := by
  induction l with
  | nil => exact Finset.disjoint_empty_right t
  | cons u l ih =>
    obtain ⟨hu, hl⟩ := List.forall_mem_cons.mp h
    exact Finset.disjoint_union_right.mpr ⟨hu, ih hl⟩

theorem foldr_union_subset {l : List (Finset α)} {s : Finset α} (h : ∀ t ∈ l, t ⊆ s) :
    l.foldr (· ∪ ·) ∅ ⊆ s := by
  induction l with
  | nil => exact Finset.empty_subset s
  | cons t l ih =>
    obtain ⟨ht, hl⟩ := List.forall_mem_cons.mp h
    exact Finset.union_subset ht (ih hl)

theorem sum_card_eq {l : List (Finset α)} (h : l.Pairwise Disjoint) :
    (l.map Finset.card).sum = (l.foldr (· ∪ ·) ∅).card := by
  induction l with
  | nil => rfl
  | cons t l ih =>
    obtain ⟨ht, hl⟩ := List.pairwise_cons.mp h
    rw [List.map_cons, List.sum_cons, ih hl, List.foldr_cons,
      Finset.card_union_of_disjoint (disjoint_foldr_union ht)]

/-- Sets apart from each other hold no more than a set they all lie in. -/
theorem sum_card_le {l : List (Finset α)} {s : Finset α} (hapart : l.Pairwise Disjoint)
    (hsub : ∀ t ∈ l, t ⊆ s) : (l.map Finset.card).sum ≤ s.card := by
  rw [sum_card_eq hapart]
  exact Finset.card_le_card (foldr_union_subset hsub)

end Packing
