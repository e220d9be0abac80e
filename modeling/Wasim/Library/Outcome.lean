import Mathlib.Tactic.Common
import Mathlib.Order.Basic

/-!
# Outcomes of fuel-bounded procedures

A procedure whose loops need not terminate is written over an explicit amount of fuel, and a
run of it ends in one of three ways: it **returns** a value, it **crashes** (an assertion,
a bounds check or a branch marked unreachable), or the fuel runs out first. Only the last
one depends on the fuel, so a procedure is compared with itself at more fuel by the flat
information order `x ≤ y`: either `x` ran out of fuel or `x = y`.

For a procedure that respects this order (`Outcome.Stable`) the fuel can be forgotten:
`Outcome.Returns f a` says that some fuel is enough to return `a`, and two such answers
agree (`Outcome.Returns.unique`).
-/

/-- What a run with bounded fuel ends in. -/
inductive Outcome (α : Type) where
  | returned (a : α)
  | crashed
  | outOfFuel
  deriving DecidableEq, Repr

namespace Outcome

variable {α β γ : Type}

/-- Sequencing: a crash or an exhausted run ends the whole procedure. -/
protected def bind : Outcome α → (α → Outcome β) → Outcome β
  | returned a, f => f a
  | crashed, _ => crashed
  | outOfFuel, _ => outOfFuel

instance : Monad Outcome where
  pure := returned
  bind := Outcome.bind

@[simp]
theorem pure_eq (a : α) : (pure a : Outcome α) = returned a := rfl

@[simp]
theorem returned_bind (a : α) (f : α → Outcome β) : (returned a >>= f) = f a := rfl

@[simp]
theorem crashed_bind (f : α → Outcome β) : ((crashed : Outcome α) >>= f) = crashed := rfl

@[simp]
theorem outOfFuel_bind (f : α → Outcome β) : ((outOfFuel : Outcome α) >>= f) = outOfFuel :=
  rfl

@[simp]
theorem map_returned (a : α) (f : α → β) : f <$> returned a = returned (f a) := rfl

/-- A sequence returns exactly when both of its parts do. -/
theorem bind_eq_returned {x : Outcome α} {f : α → Outcome β} {b : β} :
    (x >>= f) = returned b ↔ ∃ a, x = returned a ∧ f a = returned b := by
  cases x <;> simp

theorem map_eq_returned {x : Outcome α} {f : α → β} {b : β} :
    f <$> x = returned b ↔ ∃ a, x = returned a ∧ f a = b := by
  cases x <;> simp [Functor.map, Outcome.bind]

/-- A sequence runs out of fuel in its first or in its second part. -/
theorem bind_eq_outOfFuel {x : Outcome α} {f : α → Outcome β} :
    (x >>= f) = outOfFuel ↔ x = outOfFuel ∨ ∃ a, x = returned a ∧ f a = outOfFuel := by
  cases x <;> simp

/-- A sequence crashes in its first or in its second part. -/
theorem bind_eq_crashed {x : Outcome α} {f : α → Outcome β} :
    (x >>= f) = crashed ↔ x = crashed ∨ ∃ a, x = returned a ∧ f a = crashed := by
  cases x <;> simp

/-- The value a run returned, or `b`. -/
def getD (x : Outcome α) (b : α) : α :=
  match x with
  | returned a => a
  | _ => b

@[simp]
theorem getD_returned (a b : α) : (returned a).getD b = a := rfl

/-! ### The information order -/

instance : LE (Outcome α) := ⟨fun x y => x = outOfFuel ∨ x = y⟩

@[refl]
theorem le_refl (x : Outcome α) : x ≤ x := Or.inr rfl

theorem outOfFuel_le (x : Outcome α) : outOfFuel ≤ x := Or.inl rfl

theorem le_trans {x y z : Outcome α} (hxy : x ≤ y) (hyz : y ≤ z) : x ≤ z := by
  rcases hxy with rfl | rfl
  · exact outOfFuel_le z
  · exact hyz

/-- An answer that is not "out of fuel" is final. -/
theorem eq_of_le {x y : Outcome α} (h : x ≤ y) (hx : x ≠ outOfFuel) : x = y :=
  h.resolve_left hx

/-- Sequencing respects the information order. -/
theorem bind_le_bind {x y : Outcome α} {f g : α → Outcome β} (hxy : x ≤ y)
    (hfg : ∀ a, f a ≤ g a) : (x >>= f) ≤ (y >>= g) := by
  rcases hxy with rfl | rfl
  · exact outOfFuel_le _
  · cases x with
    | returned a => exact hfg a
    | crashed => exact le_refl _
    | outOfFuel => exact le_refl _

/-! ### Procedures over all fuels -/

/-- More fuel never changes an answer. -/
def Stable (f : ℕ → Outcome α) : Prop := ∀ n, f n ≤ f (n + 1)

/-- Some fuel lets the procedure end, by returning or by crashing. -/
def Terminates (f : ℕ → Outcome α) : Prop := ∃ n, f n ≠ outOfFuel

/-- Some fuel lets the procedure return `a`. -/
def Returns (f : ℕ → Outcome α) (a : α) : Prop := ∃ n, f n = returned a

/-- From some fuel on, the procedure returns `a`. -/
def Answers (f : ℕ → Outcome α) (a : α) : Prop := ∃ N, ∀ n, N ≤ n → f n = returned a

theorem Answers.of_returned (a : α) : Answers (fun _ => returned a) a := ⟨0, fun _ _ => rfl⟩

theorem Answers.bind {f : ℕ → Outcome α} {g : ℕ → α → Outcome β} {a : α} {b : β}
    (hf : Answers f a) (hg : Answers (fun n => g n a) b) : Answers (fun n => f n >>= g n) b := by
  obtain ⟨M, hM⟩ := hf
  obtain ⟨N, hN⟩ := hg
  refine ⟨max M N, fun n hn => ?_⟩
  simp only [hM n (Nat.le_trans (Nat.le_max_left M N) hn), returned_bind]
  exact hN n (Nat.le_trans (Nat.le_max_right M N) hn)

/-- A procedure that spends one unit of fuel before it goes on. -/
theorem Answers.succ {f : ℕ → Outcome α} {a : α} (h : Answers (fun n => f (n + 1)) a) :
    Answers f a := by
  obtain ⟨N, hN⟩ := h
  refine ⟨N + 1, fun n hn => ?_⟩
  obtain ⟨m, rfl⟩ := Nat.exists_eq_add_of_le' hn
  exact hN (m + N) (Nat.le_add_left N m)

/-- `for condition { body }` on the state `s`, for less than `fuel` turns. -/
def loop (condition : α → Bool) (body : α → α) : ℕ → α → Outcome α
  | 0, _ => outOfFuel
  | fuel + 1, s => if condition s then loop condition body fuel (body s) else returned s

/-- A loop ends with what a function says that follows it turn by turn, provided that a measure
decreases; its invariant holds at the end. -/
theorem Answers.loop {condition : α → Bool} {body f : α → α} (invariant : α → Prop)
    (measure : α → ℕ) (hf : ∀ s, invariant s → f s = if condition s then f (body s) else s)
    (hbody : ∀ s, invariant s → condition s = true →
      invariant (body s) ∧ measure (body s) < measure s) {s : α} (hs : invariant s) :
    Answers (fun fuel => Outcome.loop condition body fuel s) (f s) ∧ invariant (f s) := by
  induction h : measure s using Nat.strongRecOn generalizing s with
  | ind n ih =>
    subst h
    rw [hf s hs]
    cases hcondition : condition s with
    | true =>
      obtain ⟨hinv, hlt⟩ := hbody s hs hcondition
      obtain ⟨hanswer, hend⟩ := ih _ hlt hinv rfl
      refine ⟨.succ ?_, hend⟩
      simpa only [Outcome.loop, hcondition, if_true] using hanswer
    | false =>
      refine ⟨.succ ?_, hs⟩
      simpa only [Outcome.loop, hcondition, Bool.false_eq_true, if_false] using .of_returned s

theorem Stable.le {f : ℕ → Outcome α} (hf : Stable f) {m n : ℕ} (h : m ≤ n) :
    f m ≤ f n := by
  induction h with
  | refl => exact le_refl _
  | step _ ih => exact le_trans ih (hf _)

theorem Stable.eq_of_ne {f : ℕ → Outcome α} (hf : Stable f) {m n : ℕ} (h : m ≤ n)
    (hm : f m ≠ outOfFuel) : f n = f m :=
  (eq_of_le (hf.le h) hm).symm

/-- Two answers of a stable procedure agree. -/
theorem Stable.eq {f : ℕ → Outcome α} (hf : Stable f) {m n : ℕ} (hm : f m ≠ outOfFuel)
    (hn : f n ≠ outOfFuel) : f m = f n := by
  rcases Nat.le_total m n with h | h
  · exact (hf.eq_of_ne h hm).symm
  · exact hf.eq_of_ne h hn

theorem Stable.ne_of_le {f : ℕ → Outcome α} (hf : Stable f) {m n : ℕ} (h : m ≤ n)
    (hm : f m ≠ outOfFuel) : f n ≠ outOfFuel := by
  rw [hf.eq_of_ne h hm]
  exact hm

/-- Finitely many procedures that terminate do so with one amount of fuel. -/
theorem exists_fuel {ι : Type} {f : ι → ℕ → Outcome α} (hf : ∀ i, Stable (f i)) (l : List ι)
    (h : ∀ i ∈ l, Terminates (f i)) : ∃ N, ∀ n, N ≤ n → ∀ i ∈ l, f i n ≠ outOfFuel := by
  induction l with
  | nil => exact ⟨0, by simp⟩
  | cons i l ih =>
    obtain ⟨⟨M, hM⟩, hl⟩ := List.forall_mem_cons.mp h
    obtain ⟨N, hN⟩ := ih hl
    refine ⟨max M N, fun n hn => List.forall_mem_cons.mpr ⟨?_, ?_⟩⟩
    · exact (hf i).ne_of_le (Nat.le_trans (Nat.le_max_left M N) hn) hM
    · exact hN n (Nat.le_trans (Nat.le_max_right M N) hn)

/-- Finitely many procedures that return do so with one amount of fuel. -/
theorem exists_fuel_returned {ι : Type} {f : ι → ℕ → Outcome α} (hf : ∀ i, Stable (f i))
    (l : List ι) (h : ∀ i ∈ l, ∃ a, Returns (f i) a) :
    ∃ N, ∀ n, N ≤ n → ∀ i ∈ l, ∃ a, f i n = returned a := by
  obtain ⟨N, hN⟩ := exists_fuel hf l fun i hi => by
    obtain ⟨a, m, ha⟩ := h i hi
    exact ⟨m, by simp [ha]⟩
  refine ⟨N, fun n hn i hi => ?_⟩
  obtain ⟨a, m, ha⟩ := h i hi
  exact ⟨a, ((hf i).eq (hN n hn i hi) (by simp [ha])).trans ha⟩

/-- A way to end with enough fuel. A value that is returned ends, and what always returns behind a
procedure makes no difference. -/
structure Ending (Q : ∀ ⦃α : Type⦄, (ℕ → Outcome α) → Prop) : Prop where
  returned : ∀ {α : Type} (a : α), Q fun _ => Outcome.returned a
  bind : ∀ {α β : Type} {f : ℕ → Outcome α} {g : ℕ → α → Outcome β},
    (∀ n a, f n = Outcome.returned a → ∃ b, g n a = Outcome.returned b) →
      (Q (fun n => f n >>= g n) ↔ Q f)

theorem Ending.returns : Ending fun _ f => ∃ a, Returns f a where
  returned a := ⟨a, 0, rfl⟩
  bind hg := by
    constructor
    · rintro ⟨b, n, hb⟩
      obtain ⟨a, ha, -⟩ := bind_eq_returned.mp hb
      exact ⟨a, n, ha⟩
    · rintro ⟨a, n, ha⟩
      obtain ⟨b, hb⟩ := hg n a ha
      exact ⟨b, n, bind_eq_returned.mpr ⟨a, ha, hb⟩⟩

theorem Ending.terminates : Ending fun _ f => Terminates f where
  returned a := ⟨0, fun h => by cases h⟩
  bind hg := by
    refine exists_congr fun n => not_congr ?_
    rw [bind_eq_outOfFuel]
    refine ⟨fun h => h.resolve_right ?_, Or.inl⟩
    rintro ⟨a, ha, hout⟩
    obtain ⟨b, hb⟩ := hg n a ha
    rw [hb] at hout
    cases hout

theorem Returns.unique {f : ℕ → Outcome α} (hf : Stable f) {a b : α} (ha : Returns f a)
    (hb : Returns f b) : a = b := by
  obtain ⟨m, hm⟩ := ha
  obtain ⟨n, hn⟩ := hb
  have h := hf.eq (m := m) (n := n) (by simp [hm]) (by simp [hn])
  rw [hm, hn] at h
  exact returned.inj h

end Outcome
