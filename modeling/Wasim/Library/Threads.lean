import Mathlib.Logic.Relation
import Mathlib.Logic.Function.Basic

/-!
# Threads over a shared state

Threads with a local state each take atomic steps on a state they share, in any order. A
property of all reachable states is proved from one step at a time: an invariant of the shared
state, an assertion of each thread about its own local state, and that no step of one thread
breaks the assertion of another (`Reach.invariant`). The invariant and the assertions may speak
of an auxiliary value that the program does not hold, and that a step may change.
-/

namespace Threads

variable {ι σ L γ : Type}

structure Config (ι σ L : Type) where
  shared : σ
  locals : ι → L

variable [DecidableEq ι] {step : ι → σ → L → σ → L → Prop}

/-- One thread takes a step. -/
def Step (step : ι → σ → L → σ → L → Prop) (c d : Config ι σ L) : Prop :=
  ∃ i s l, step i c.shared (c.locals i) s l ∧ d = ⟨s, Function.update c.locals i l⟩

/-- The states that the threads can reach. -/
def Reach (step : ι → σ → L → σ → L → Prop) : Config ι σ L → Config ι σ L → Prop :=
  Relation.ReflTransGen (Step step)

theorem Reach.mono {step' : ι → σ → L → σ → L → Prop} {c d : Config ι σ L} (h : Reach step c d)
    (hmono : ∀ i s l s' l', step i s l s' l' → step' i s l s' l') : Reach step' c d := by
  induction h with
  | refl => exact .refl
  | tail _ hd ih =>
    obtain ⟨i, s, l, hi, rfl⟩ := hd
    exact ih.tail ⟨i, s, l, hmono i _ _ s l hi, rfl⟩

/-- The rule of invariants: `I` holds of the shared state and `A` of every thread, as long as a
step of a thread keeps the invariant, establishes the assertion of the thread, and leaves those
of the others standing. -/
theorem Reach.invariant {I : γ → σ → Prop} {A : γ → ι → σ → L → Prop}
    (hstep : ∀ g i s l s' l', I g s → A g i s l → step i s l s' l' →
      ∃ g', I g' s' ∧ A g' i s' l' ∧ ∀ j, j ≠ i → ∀ m, A g j s m → A g' j s' m)
    {c d : Config ι σ L} (h : Reach step c d)
    (hc : ∃ g, I g c.shared ∧ ∀ i, A g i c.shared (c.locals i)) :
    ∃ g, I g d.shared ∧ ∀ i, A g i d.shared (d.locals i) := by
  induction h with
  | refl => exact hc
  | tail _ hd ih =>
    obtain ⟨g, hI, hA⟩ := ih
    obtain ⟨i, s, l, hi, rfl⟩ := hd
    obtain ⟨g', hI', hown, hothers⟩ := hstep g i _ _ s l hI (hA i) hi
    refine ⟨g', hI', fun j => ?_⟩
    rcases eq_or_ne j i with rfl | hj
    · simpa using hown
    · simpa [hj] using hothers j hj _ (hA j)

/-- The rule of simulation: where every step, from states in which the invariant and the assertions
hold, is a run of another system for the states that `f` makes of its states, so is every run. -/
theorem Reach.simulates {κ σ' L' : Type} [DecidableEq κ] {step' : κ → σ' → L' → σ' → L' → Prop}
    (f : Config ι σ L → Config κ σ' L') {I : γ → σ → Prop} {A : γ → ι → σ → L → Prop}
    (hstep : ∀ g i s l s' l', I g s → A g i s l → step i s l s' l' →
      ∃ g', I g' s' ∧ A g' i s' l' ∧ ∀ j, j ≠ i → ∀ m, A g j s m → A g' j s' m)
    (hsim : ∀ g c i s l, I g c.shared → (∀ j, A g j c.shared (c.locals j)) →
      step i c.shared (c.locals i) s l → Reach step' (f c) (f ⟨s, Function.update c.locals i l⟩))
    {c d : Config ι σ L} (h : Reach step c d)
    (hc : ∃ g, I g c.shared ∧ ∀ i, A g i c.shared (c.locals i)) : Reach step' (f c) (f d) := by
  induction h with
  | refl => exact .refl
  | tail hreach hd ih =>
    obtain ⟨g, hI, hA⟩ := Reach.invariant hstep hreach hc
    obtain ⟨i, s, l, hi, rfl⟩ := hd
    exact ih.trans (hsim g _ i s l hI hA hi)

/-! ### Threads that keep to themselves -/

/-- A run of one thread, without steps of the others. -/
def Alone (step : ι → σ → L → σ → L → Prop) (i : ι) : σ × L → σ × L → Prop :=
  Relation.ReflTransGen fun p q => step i p.1 p.2 q.1 q.2

/-- The rule of separation: `Agree i` tells that two shared states are the same to the thread `i`,
and `Mine i` that a local state reaches for nothing else. Where a step depends on no more than
that, and is not seen by the other threads, every thread runs as if it were alone. -/
theorem Reach.alone (Agree : ι → σ → σ → Prop) (Mine : ι → L → Prop)
    (hown : ∀ i s t l s' l', Mine i l → Agree i s t → step i s l s' l' →
      Mine i l' ∧ ∃ t', step i t l t' l' ∧ Agree i s' t')
    (hothers : ∀ i s l s' l', Mine i l → step i s l s' l' →
      ∀ j, j ≠ i → ∀ t, Agree j s t → Agree j s' t)
    {c d : Config ι σ L} (h : Reach step c d) (hmine : ∀ i, Mine i (c.locals i))
    (hagree : ∀ i, Agree i c.shared c.shared) : ∀ i, Mine i (d.locals i) ∧
      ∃ t, Alone step i (c.shared, c.locals i) (t, d.locals i) ∧ Agree i d.shared t := by
  induction h with
  | refl => exact fun i => ⟨hmine i, c.shared, .refl, hagree i⟩
  | tail _ hd ih =>
    obtain ⟨i, s, l, hi, rfl⟩ := hd
    intro j
    obtain ⟨hj, t, halone, ht⟩ := ih j
    dsimp only
    rcases eq_or_ne j i with rfl | hne
    · obtain ⟨hl, t', hstep, ht'⟩ := hown j _ t _ s l hj ht hi
      rw [Function.update_self]
      exact ⟨hl, t', halone.tail hstep, ht'⟩
    · rw [Function.update_of_ne hne]
      exact ⟨hj, t, halone, hothers i _ _ s l (ih i).1 hi j hne t ht⟩

/-! ### Schedules -/

section Exec

variable {χ : Type} (next : ι → χ → σ → L → Option (σ × L))

/-- The steps of threads that can be computed, once what they leave open is chosen. -/
def Chosen (i : ι) (s : σ) (l : L) (s' : σ) (l' : L) : Prop :=
  ∃ x, next i x s l = some (s', l')

/-- Run the threads by a schedule of threads and choices. -/
def exec : List (ι × χ) → Config ι σ L → Option (Config ι σ L)
  | [], c => some c
  | (i, x) :: schedule, c =>
    match next i x c.shared (c.locals i) with
    | some (s, l) => exec schedule ⟨s, Function.update c.locals i l⟩
    | none => none

theorem exec_sound {schedule : List (ι × χ)} {c d : Config ι σ L}
    (h : exec next schedule c = some d) : Reach (Chosen next) c d := by
  induction schedule generalizing c with
  | nil =>
    obtain rfl := Option.some.inj h
    exact .refl
  | cons e schedule ih =>
    obtain ⟨i, x⟩ := e
    simp only [exec] at h
    split at h
    · rename_i s l hstep
      exact .head ⟨i, s, l, ⟨x, hstep⟩, rfl⟩ (ih h)
    · cases h

end Exec

end Threads
