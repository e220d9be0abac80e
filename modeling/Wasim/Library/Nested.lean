import Mathlib.Tactic.Common
import Mathlib.Data.List.Basic

/-!
# Nested comments

A comment is opened by two letters `o₁ o₂`, closed by two letters `c₁ c₂`, and may hold further
comments. `Nested.Body` is the recursive grammar of what follows the opening, the closing
included; `Nested.scan` is the automaton that counts how deep it is. They agree
(`Nested.scan_eq_some_iff`): the automaton stops behind the shortest front of the text that
closes all open comments, and it runs to the end when there is none.
-/

namespace Nested

variable {α : Type} [DecidableEq α] {o₁ o₂ c₁ c₂ : α}

variable (o₁ o₂ c₁ c₂) in
/-- What follows the opening of a comment, to its end. -/
inductive Body : List α → Prop
  | close : Body [c₁, c₂]
  | letter {x : α} {l : List α} (hopen : ¬(x = o₁ ∧ l.head? = some o₂))
      (hclose : ¬(x = c₁ ∧ l.head? = some c₂)) : Body l → Body (x :: l)
  | nested {inner rest : List α} : Body inner → Body rest → Body (o₁ :: o₂ :: (inner ++ rest))

variable (o₁ o₂ c₁ c₂) in
/-- The ends of `depth` comments, one behind the other. -/
inductive Closes : ℕ → List α → Prop
  | nil : Closes 0 []
  | cons {depth : ℕ} {body rest : List α} (hbody : Body o₁ o₂ c₁ c₂ body) :
      Closes depth rest → Closes (depth + 1) (body ++ rest)

variable (o₁ o₂ c₁ c₂) in
/-- Behind the ends of `depth` comments; `none` if one of them does not end. -/
def scan : ℕ → List α → Option (List α)
  | 0, l => some l
  | _ + 1, [] => none
  | _ + 1, [_] => none
  | depth + 1, x :: y :: l =>
    if x = o₁ ∧ y = o₂ then scan (depth + 2) l
    else if x = c₁ ∧ y = c₂ then scan depth l
    else scan (depth + 1) (y :: l)

omit [DecidableEq α] in
theorem Body.ne_nil {l : List α} (h : Body o₁ o₂ c₁ c₂ l) : l ≠ [] := by
  cases h <;> simp

/-- A letter that neither opens nor closes is passed over. -/
theorem scan_cons {x : α} (hopen : x ≠ o₁) (hclose : x ≠ c₁) (depth : ℕ) (l : List α) :
    scan o₁ o₂ c₁ c₂ (depth + 1) (x :: l) = scan o₁ o₂ c₁ c₂ (depth + 1) l := by
  rcases l with _ | ⟨y, l⟩
  · simp [scan]
  · simp [scan, hopen, hclose]

theorem scan_append {xs : List α} (h : ∀ x ∈ xs, x ≠ o₁ ∧ x ≠ c₁) (depth : ℕ) (l : List α) :
    scan o₁ o₂ c₁ c₂ (depth + 1) (xs ++ l) = scan o₁ o₂ c₁ c₂ (depth + 1) l := by
  induction xs with
  | nil => rfl
  | cons x xs ih =>
    have hx := h x (by simp)
    rw [List.cons_append, scan_cons hx.1 hx.2]
    exact ih fun y hy => h y (by simp [hy])

/-- The automaton follows the grammar. -/
theorem Body.scan {body : List α} (hne : o₁ ≠ c₁) (h : Body o₁ o₂ c₁ c₂ body) (depth : ℕ)
    (rest : List α) :
    scan o₁ o₂ c₁ c₂ (depth + 1) (body ++ rest) = Nested.scan o₁ o₂ c₁ c₂ depth rest := by
  induction h generalizing depth rest with
  | close => simp [Nested.scan, Ne.symm hne]
  | @letter x l hopen hclose hl ih =>
    obtain ⟨y, l', rfl⟩ := List.exists_cons_of_ne_nil hl.ne_nil
    rw [List.cons_append, List.cons_append, Nested.scan, if_neg (by simpa using hopen),
      if_neg (by simpa using hclose)]
    exact ih depth rest
  | nested _ _ ihinner ihrest =>
    rw [List.cons_append, List.cons_append, Nested.scan, if_pos ⟨rfl, rfl⟩, List.append_assoc,
      ihinner, ihrest]

theorem Closes.scan {depth : ℕ} {pre : List α} (hne : o₁ ≠ c₁)
    (h : Closes o₁ o₂ c₁ c₂ depth pre) (rest : List α) :
    scan o₁ o₂ c₁ c₂ depth (pre ++ rest) = some rest := by
  induction h with
  | nil => simp [Nested.scan]
  | cons hbody _ ih => rw [List.append_assoc, hbody.scan hne, ih]

/-- The grammar follows the automaton. -/
theorem closes_of_scan {depth : ℕ} {l rest : List α}
    (h : scan o₁ o₂ c₁ c₂ depth l = some rest) :
    ∃ pre, Closes o₁ o₂ c₁ c₂ depth pre ∧ l = pre ++ rest := by
  fun_induction Nested.scan o₁ o₂ c₁ c₂ depth l with
  | case1 l =>
    obtain rfl := Option.some.inj h
    exact ⟨[], .nil, rfl⟩
  | case2 => cases h
  | case3 => cases h
  | case4 depth x y l hopen ih =>
    obtain ⟨pre, hpre, rfl⟩ := ih h
    obtain ⟨rfl, rfl⟩ := hopen
    -- two of the comments that are open now are the inner one and the one around it
    rcases hpre with _ | ⟨hinner, hpre⟩
    rcases hpre with _ | ⟨houter, hpre⟩
    exact ⟨_, .cons (.nested hinner houter) hpre, by simp⟩
  | case5 depth x y l _ hclose ih =>
    obtain ⟨pre, hpre, rfl⟩ := ih h
    obtain ⟨rfl, rfl⟩ := hclose
    exact ⟨_, .cons .close hpre, by simp⟩
  | case6 depth x y l hopen hclose ih =>
    obtain ⟨pre, hpre, hl⟩ := ih h
    rcases hpre with _ | @⟨_, body, pre, hbody, hpre⟩
    obtain ⟨z, body, rfl⟩ := List.exists_cons_of_ne_nil hbody.ne_nil
    obtain ⟨rfl, -⟩ := List.cons.inj hl
    refine ⟨x :: y :: body ++ pre, .cons (.letter ?_ ?_ hbody) hpre, by simp [hl]⟩
    · simpa using hopen
    · simpa using hclose

/-- The automaton stops exactly behind what closes all comments. -/
theorem scan_eq_some_iff {depth : ℕ} {l rest : List α} (hne : o₁ ≠ c₁) :
    scan o₁ o₂ c₁ c₂ depth l = some rest ↔
      ∃ pre, Closes o₁ o₂ c₁ c₂ depth pre ∧ l = pre ++ rest := by
  refine ⟨closes_of_scan, ?_⟩
  rintro ⟨pre, hpre, rfl⟩
  exact hpre.scan hne rest

theorem scan_one_eq_some_iff {l rest : List α} (hne : o₁ ≠ c₁) :
    scan o₁ o₂ c₁ c₂ 1 l = some rest ↔
      ∃ body, Body o₁ o₂ c₁ c₂ body ∧ l = body ++ rest := by
  rw [scan_eq_some_iff hne]
  constructor
  · rintro ⟨pre, hpre, rfl⟩
    rcases hpre with _ | ⟨hbody, hpre⟩
    rcases hpre with _ | _
    exact ⟨_, hbody, by simp⟩
  · rintro ⟨body, hbody, rfl⟩
    exact ⟨body ++ [], .cons hbody .nil, by simp⟩

end Nested
