import Wasim.Library.Threads
import Wasim.Wopt.Ir

/-!
# Who builds a function

`build_function_begin` and `build_function_end` on the build contexts of several threads. A step
is one access to the flags of a function, or what a call does on its own context between two of
them: `atomic_or` and `atomic_and` are single steps, and `function.flags += {._Build_Done}` is a
read and a write. A caller that fails an assertion, follows a null pointer or is stopped by the
callback of the verifier takes no more steps.

The order in which the calls pass and clear is recorded, in `passed` and `cleared`; the program
does not hold these.
-/

namespace Wasim.Wopt

variable {ι : Type}

/-- Where a context is between its calls, or in one. A function is its index in the module. -/
inductive BuildPc
  -- between two calls
  | idle
  -- in `build_function_begin`, in front of `atomic_or`
  | fetchOr (id : FunctionId)
  -- behind it, with the old flags
  | check (id : FunctionId) (oldFlags : FunctionFlags)
  -- in `build_function_end`, in front of the read of the flags
  | read (function : ℕ)
  -- in front of the write of the flags
  | write (function : ℕ) (flags : FunctionFlags)
  -- in `ssa_verify_function`
  | verify (function : ℕ)
  -- in front of `atomic_and`
  | fetchAnd (function : ℕ)
  -- behind it
  | clear (function : ℕ)
  | stopped
  deriving DecidableEq, Repr

/-- The fields of a `Thread_Build_Context` that tell its function, and where its thread is. -/
structure BuildContext where
  pc : BuildPc := .idle
  currentFunctionId : FunctionId := 0
  currentFunction : Option ℕ := none
  deriving DecidableEq, Repr

/-- The functions of the module, with what has happened to them: the calls of
`build_function_begin` that have passed their assertions, and the functions of the calls of
`build_function_end` that have cleared `_In_Progress`. -/
structure BuildModule (ι : Type) where
  functionCount : ℕ
  flags : ℕ → FunctionFlags
  passed : List (ι × ℕ) := []
  cleared : List ℕ := []

def BuildModule.setFlags (s : BuildModule ι) (function : ℕ) (flags : FunctionFlags) :
    BuildModule ι :=
  { s with flags := fun f => if f = function then flags else s.flags f }

/-- What a step leaves open: the call that comes next, and whether the verifier panics. -/
inductive BuildChoice
  | functionBegin (id : FunctionId)
  | functionEnd
  | panic
  deriving DecidableEq, Repr

def FunctionFlags.Internal (flags : FunctionFlags) : Prop :=
  flags.inProgress = true ∨ flags.buildDone = true

instance (flags : FunctionFlags) : Decidable flags.Internal :=
  inferInstanceAs (Decidable (_ ∨ _))

def contextStep (i : ι) (choice : BuildChoice) (s : BuildModule ι) (l : BuildContext) :
    Option (BuildModule ι × BuildContext) :=
  match l.pc with
  | .idle =>
    match choice with
    | .functionBegin id =>
      if l.currentFunctionId = 0 ∧ id.toNat < s.functionCount then
        some (s, { l with pc := .fetchOr id })
      else some (s, { l with pc := .stopped })
    | .functionEnd =>
      match l.currentFunction with
      | some function => some (s, { l with pc := .read function })
      | none => some (s, { l with pc := .stopped })
    | .panic => none
  | .fetchOr id =>
    let oldFlags := s.flags id.toNat
    some (s.setFlags id.toNat { oldFlags with inProgress := true },
      { l with pc := .check id oldFlags })
  | .check id oldFlags =>
    if oldFlags.Internal then some (s, { l with pc := .stopped })
    else
      some ({ s with passed := (i, id.toNat) :: s.passed },
        { pc := .idle, currentFunctionId := id, currentFunction := some id.toNat })
  | .read function => some (s, { l with pc := .write function (s.flags function) })
  | .write function flags =>
    some (s.setFlags function { flags with buildDone := true }, { l with pc := .verify function })
  | .verify function =>
    if choice = .panic then some (s, { l with pc := .stopped })
    else some (s, { l with pc := .fetchAnd function })
  | .fetchAnd function =>
    some ({ s.setFlags function { s.flags function with inProgress := false } with
      cleared := function :: s.cleared }, { l with pc := .clear function })
  | .clear _ => some (s, { pc := .idle, currentFunctionId := 0, currentFunction := none })
  | .stopped => none

def ContextStep : ι → BuildModule ι → BuildContext → BuildModule ι → BuildContext → Prop :=
  Threads.Chosen contextStep

/-- The functions of a module, and contexts without one. -/
def contextsStart (functionCount : ℕ) (flags : ℕ → FunctionFlags) :
    Threads.Config ι (BuildModule ι) BuildContext :=
  ⟨{ functionCount, flags }, fun _ => {}⟩

/-! ### The owner of a function -/

/-- The number of calls of `build_function_begin` for the function that have passed. -/
def BuildModule.passes (s : BuildModule ι) (function : ℕ) : ℕ :=
  s.passed.countP fun pass => pass.2 = function

/-- The invariant: `owner` is the context whose `atomic_or` has found no internal flag. Such a
function has an internal flag from then on. -/
structure Owned (owner : ℕ → Option ι) (s : BuildModule ι) : Prop where
  internal : ∀ f, owner f ≠ none → (s.flags f).Internal
  passes : ∀ f, s.passes f ≤ 1
  untouched : ∀ f, owner f = none → s.passes f = 0
  cleared : ∀ f ∈ s.cleared, (s.flags f).buildDone = true

/-- What holds where a context is. -/
def BuildPc.Asserts (owner : ℕ → Option ι) (i : ι) (s : BuildModule ι) : BuildPc → Prop
  | .check id oldFlags =>
    ¬oldFlags.Internal → owner id.toNat = some i ∧ s.passes id.toNat = 0
  | .read function => owner function = some i
  | .write function _ => owner function = some i
  | .verify function => owner function = some i ∧ (s.flags function).buildDone = true
  | .fetchAnd function => owner function = some i ∧ (s.flags function).buildDone = true
  | _ => True

/-- A context owns its function. -/
def BuildContext.Asserts (owner : ℕ → Option ι) (i : ι) (s : BuildModule ι) (l : BuildContext) :
    Prop :=
  l.pc.Asserts owner i s ∧ ∀ f, l.currentFunction = some f → owner f = some i

/-- What a step of the context `i` leaves standing: owners, done marks, what was cleared, and the
number of passes of the functions that it does not own. -/
structure Leaves (i : ι) (owner owner' : ℕ → Option ι) (s s' : BuildModule ι) : Prop where
  owners : ∀ f j, owner f = some j → owner' f = some j
  done : ∀ f, (s.flags f).buildDone = true → (s'.flags f).buildDone = true
  cleared : ∀ f ∈ s.cleared, f ∈ s'.cleared
  passes : ∀ f, owner f ≠ some i → s'.passes f = s.passes f

variable {i j : ι} {owner owner' : ℕ → Option ι} {s s' : BuildModule ι}

theorem Leaves.refl (i : ι) (owner : ℕ → Option ι) (s : BuildModule ι) :
    Leaves i owner owner s s :=
  ⟨fun _ _ h => h, fun _ h => h, fun _ h => h, fun _ _ => rfl⟩

/-- The steps of one context do not break what holds of another one. -/
theorem Leaves.asserts (h : Leaves i owner owner' s s') (hne : j ≠ i) {l : BuildContext}
    (hl : l.Asserts owner j s) : l.Asserts owner' j s' := by
  refine ⟨?_, fun f hf => h.owners f j (hl.2 f hf)⟩
  have hpc := hl.1
  cases hcase : l.pc with
  | check id oldFlags =>
    rw [hcase] at hpc
    intro hflags
    obtain ⟨howner, hpasses⟩ := hpc hflags
    refine ⟨h.owners _ j howner, (h.passes _ ?_).trans hpasses⟩
    rw [howner]
    exact fun heq => hne (Option.some.inj heq)
  | read function =>
    rw [hcase] at hpc
    exact h.owners _ j hpc
  | write function flags =>
    rw [hcase] at hpc
    exact h.owners _ j hpc
  | verify function =>
    rw [hcase] at hpc
    exact ⟨h.owners _ j hpc.1, h.done _ hpc.2⟩
  | fetchAnd function =>
    rw [hcase] at hpc
    exact ⟨h.owners _ j hpc.1, h.done _ hpc.2⟩
  | _ => trivial

/-- What a step has to show. -/
def ContextKeeps (owner : ℕ → Option ι) (i : ι) (s s' : BuildModule ι) (l' : BuildContext) : Prop :=
  ∃ owner', Owned owner' s' ∧ l'.Asserts owner' i s' ∧ Leaves i owner owner' s s'

@[simp]
theorem flags_setFlags_self (s : BuildModule ι) (f : ℕ) (flags : FunctionFlags) :
    (s.setFlags f flags).flags f = flags := if_pos rfl

theorem flags_setFlags_ne (s : BuildModule ι) {f g : ℕ} (flags : FunctionFlags) (h : g ≠ f) :
    (s.setFlags f flags).flags g = s.flags g := if_neg h

/-- A write that keeps the done mark and leaves an internal flag. -/
theorem Owned.setFlags (h : Owned owner s) (i : ι) {f : ℕ} {flags : FunctionFlags}
    (hinternal : flags.Internal)
    (hdone : (s.flags f).buildDone = true → flags.buildDone = true) :
    Owned owner (s.setFlags f flags) ∧ Leaves i owner owner s (s.setFlags f flags) := by
  have hkeep : ∀ g, (s.flags g).buildDone = true →
      ((s.setFlags f flags).flags g).buildDone = true := by
    intro g hg
    rcases eq_or_ne g f with rfl | hne
    · rw [flags_setFlags_self]
      exact hdone hg
    · rwa [flags_setFlags_ne s flags hne]
  refine ⟨⟨fun g hg => ?_, h.passes, h.untouched, fun g hg => hkeep g (h.cleared g hg)⟩,
    fun _ _ hg => hg, hkeep, fun _ hg => hg, fun _ _ => rfl⟩
  rcases eq_or_ne g f with rfl | hne
  · rwa [flags_setFlags_self]
  · rw [flags_setFlags_ne s flags hne]
    exact h.internal g hg

/-- A function without an owner gets one. -/
theorem Owned.claim (h : Owned owner s) {f : ℕ} (hf : owner f = none)
    (hinternal : (s.flags f).Internal) (i : ι) :
    Owned (Function.update owner f (some i)) s := by
  refine ⟨fun g hg => ?_, h.passes, fun g hg => ?_, h.cleared⟩
  · rcases eq_or_ne g f with rfl | hne
    · exact hinternal
    · rw [Function.update_of_ne hne] at hg
      exact h.internal g hg
  · rcases eq_or_ne g f with rfl | hne
    · rw [Function.update_self] at hg
      cases hg
    · rw [Function.update_of_ne hne] at hg
      exact h.untouched g hg

/-- `atomic_or`: who finds no internal flag becomes the owner. -/
theorem ContextKeeps.fetchOr (h : Owned owner s) {l : BuildContext} (hl : l.Asserts owner i s)
    (id : FunctionId) :
    ContextKeeps owner i s
      (s.setFlags id.toNat { s.flags id.toNat with inProgress := true })
      { l with pc := .check id (s.flags id.toNat) } := by
  have hinternal : FunctionFlags.Internal { s.flags id.toNat with inProgress := true } := .inl rfl
  obtain ⟨howned, hleaves⟩ := h.setFlags i hinternal fun hdone => hdone
  by_cases hflags : (s.flags id.toNat).Internal
  · exact ⟨owner, howned, ⟨fun hno => absurd hflags hno, hl.2⟩, hleaves⟩
  · have hnone : owner id.toNat = none := by
      by_contra hsome
      exact hflags (h.internal _ hsome)
    have hne : ∀ {f j}, owner f = some j → f ≠ id.toNat := by
      rintro f j hf rfl
      cases hnone.symm.trans hf
    refine ⟨_, howned.claim hnone ?_ i, ⟨fun _ => ⟨Function.update_self .., ?_⟩, fun f hf => ?_⟩,
      fun f j hf => ?_, hleaves.done, hleaves.cleared, hleaves.passes⟩
    · rwa [flags_setFlags_self]
    · exact h.untouched _ hnone
    · have hown := hl.2 f hf
      rwa [Function.update_of_ne (hne hown)]
    · rwa [Function.update_of_ne (hne hf)]

/-- A call of `build_function_begin` that passes its assertions. -/
theorem ContextKeeps.pass (h : Owned owner s) {id : FunctionId} (howner : owner id.toNat = some i)
    (hpasses : s.passes id.toNat = 0) :
    ContextKeeps owner i s { s with passed := (i, id.toNat) :: s.passed }
      { pc := .idle, currentFunctionId := id, currentFunction := some id.toNat } := by
  have hcount : ∀ f, BuildModule.passes { s with passed := (i, id.toNat) :: s.passed } f =
      s.passes f + if id.toNat = f then 1 else 0 := by
    intro f
    simp only [BuildModule.passes, List.countP_cons, decide_eq_true_eq]
  refine ⟨owner, ⟨h.internal, fun f => ?_, fun f hf => ?_, h.cleared⟩, ⟨trivial, fun f hf => ?_⟩,
    fun _ _ hf => hf, fun _ hf => hf, fun _ hf => hf, fun f hf => ?_⟩
  · rw [hcount]
    have := h.passes f
    split
    · rename_i heq
      rw [heq] at hpasses
      omega
    · exact this
  · have hne : id.toNat ≠ f := by
      rintro rfl
      cases howner.symm.trans hf
    rw [hcount, if_neg hne]
    exact h.untouched f hf
  · obtain rfl := Option.some.inj hf
    exact howner
  · have hne : id.toNat ≠ f := by
      rintro rfl
      exact hf howner
    rw [hcount, if_neg hne, Nat.add_zero]

/-- `atomic_and`: the function of a context that has set the done mark. -/
theorem ContextKeeps.fetchAnd (h : Owned owner s) {l : BuildContext} (hl : l.Asserts owner i s)
    {f : ℕ} (hdone : (s.flags f).buildDone = true) :
    ContextKeeps owner i s
      { s.setFlags f { s.flags f with inProgress := false } with cleared := f :: s.cleared }
      { l with pc := .clear f } := by
  have hinternal : FunctionFlags.Internal { s.flags f with inProgress := false } := .inr hdone
  obtain ⟨howned, hleaves⟩ := h.setFlags i hinternal fun hdone => hdone
  refine ⟨owner, ⟨howned.internal, howned.passes, howned.untouched, fun g hg => ?_⟩,
    ⟨trivial, hl.2⟩, hleaves.owners, hleaves.done, fun _ hg => List.mem_cons_of_mem _ hg,
    hleaves.passes⟩
  rcases List.mem_cons.mp hg with rfl | hg
  · exact hleaves.done g hdone
  · exact howned.cleared g hg

/-- Every step keeps the invariant, what holds of its context, and what holds of the others. -/
theorem contextStep_keeps (h : Owned owner s) {l l' : BuildContext} (hl : l.Asserts owner i s)
    {choice : BuildChoice} (hstep : contextStep i choice s l = some (s', l')) :
    ContextKeeps owner i s s' l' := by
  have hread : ∀ {pc : BuildPc}, pc.Asserts owner i s → ContextKeeps owner i s s { l with pc } :=
    fun hpc => ⟨owner, h, ⟨hpc, hl.2⟩, .refl i owner s⟩
  have hpc := hl.1
  simp only [contextStep] at hstep
  cases hcase : l.pc with
  | idle =>
    rw [hcase] at hstep
    simp only at hstep
    split at hstep
    · split at hstep
      · obtain ⟨rfl, rfl⟩ := Prod.mk.inj (Option.some.inj hstep)
        exact hread trivial
      · obtain ⟨rfl, rfl⟩ := Prod.mk.inj (Option.some.inj hstep)
        exact hread trivial
    · split at hstep
      · rename_i function hfunction
        obtain ⟨rfl, rfl⟩ := Prod.mk.inj (Option.some.inj hstep)
        exact hread (hl.2 function hfunction)
      · obtain ⟨rfl, rfl⟩ := Prod.mk.inj (Option.some.inj hstep)
        exact hread trivial
    · cases hstep
  | fetchOr id =>
    rw [hcase] at hstep
    obtain ⟨rfl, rfl⟩ := Prod.mk.inj (Option.some.inj hstep)
    exact .fetchOr h hl id
  | check id oldFlags =>
    rw [hcase] at hstep hpc
    simp only at hstep
    split at hstep
    · obtain ⟨rfl, rfl⟩ := Prod.mk.inj (Option.some.inj hstep)
      exact hread trivial
    · rename_i hflags
      obtain ⟨rfl, rfl⟩ := Prod.mk.inj (Option.some.inj hstep)
      obtain ⟨howner, hpasses⟩ := hpc hflags
      exact .pass h howner hpasses
  | read function =>
    rw [hcase] at hstep hpc
    obtain ⟨rfl, rfl⟩ := Prod.mk.inj (Option.some.inj hstep)
    exact hread hpc
  | write function flags =>
    rw [hcase] at hstep hpc
    obtain ⟨rfl, rfl⟩ := Prod.mk.inj (Option.some.inj hstep)
    -- whatever was read, the write sets the done mark
    have hinternal : FunctionFlags.Internal { flags with buildDone := true } := .inr rfl
    obtain ⟨howned, hleaves⟩ := h.setFlags (f := function) i hinternal fun _ => rfl
    refine ⟨owner, howned, ⟨⟨hpc, ?_⟩, hl.2⟩, hleaves⟩
    rw [flags_setFlags_self]
  | verify function =>
    rw [hcase] at hstep hpc
    simp only at hstep
    split at hstep
    · obtain ⟨rfl, rfl⟩ := Prod.mk.inj (Option.some.inj hstep)
      exact hread trivial
    · obtain ⟨rfl, rfl⟩ := Prod.mk.inj (Option.some.inj hstep)
      exact hread hpc
  | fetchAnd function =>
    rw [hcase] at hstep hpc
    obtain ⟨rfl, rfl⟩ := Prod.mk.inj (Option.some.inj hstep)
    exact .fetchAnd h hl hpc.2
  | clear function =>
    rw [hcase] at hstep
    obtain ⟨rfl, rfl⟩ := Prod.mk.inj (Option.some.inj hstep)
    exact ⟨owner, h, ⟨trivial, fun f hf => nomatch hf⟩, .refl i owner s⟩
  | stopped =>
    rw [hcase] at hstep
    cases hstep

/-! ### Runs -/

section Runs

variable [DecidableEq ι] {functionCount : ℕ} {flags : ℕ → FunctionFlags}
  {c d : Threads.Config ι (BuildModule ι) BuildContext}

/-- What the contexts of a module can reach. -/
def ContextReach (functionCount : ℕ) (flags : ℕ → FunctionFlags)
    (c : Threads.Config ι (BuildModule ι) BuildContext) : Prop :=
  Threads.Reach ContextStep (contextsStart functionCount flags) c

theorem ContextReach.invariant (h : ContextReach functionCount flags c) :
    ∃ owner, Owned owner c.shared ∧ ∀ i, (c.locals i).Asserts owner i c.shared := by
  refine Threads.Reach.invariant ?_ h ⟨fun _ => none, ?_, fun i => ⟨trivial, fun f hf => ?_⟩⟩
  · rintro owner i s l s' l' howned hl ⟨choice, hstep⟩
    obtain ⟨owner', howned', hl', hleaves⟩ := contextStep_keeps howned hl hstep
    exact ⟨owner', howned', hl', fun j hne m hm => hleaves.asserts hne hm⟩
  · exact ⟨fun f hf => absurd rfl hf, fun f => Nat.zero_le _, fun f _ => rfl,
      fun f hf => nomatch hf⟩
  · cases hf

theorem ContextReach.cleared_stays (h : ContextReach functionCount flags c)
    (hd : Threads.Reach ContextStep c d) {f : ℕ} (hf : f ∈ c.shared.cleared) :
    f ∈ d.shared.cleared := by
  induction hd with
  | refl => exact hf
  | tail hc hstep ih =>
    have hreach : ContextReach functionCount flags _ := Relation.ReflTransGen.trans h hc
    obtain ⟨owner, howned, hcontexts⟩ := hreach.invariant
    obtain ⟨i, s, l, ⟨choice, hi⟩, rfl⟩ := hstep
    obtain ⟨_, -, -, hleaves⟩ := contextStep_keeps howned (hcontexts i) hi
    exact hleaves.cleared f ih

/-- **One thread builds a function.** In every state that the contexts reach, in any order of
their steps: at most one call of `build_function_begin` for a function has ever passed its
assertions, no two contexts have the same current function, and a function whose `_In_Progress`
was cleared by `build_function_end` has `_Build_Done` from then on. -/
theorem build_once (h : ContextReach functionCount flags c) (f : ℕ) :
    c.shared.passes f ≤ 1 ∧
    (∀ i j, (c.locals i).currentFunction = some f → (c.locals j).currentFunction = some f →
      i = j) ∧
    (f ∈ c.shared.cleared → ∀ d, Threads.Reach ContextStep c d →
      (d.shared.flags f).buildDone = true) := by
  obtain ⟨owner, howned, hcontexts⟩ := h.invariant
  refine ⟨howned.passes f, fun i j hi hj => ?_, fun hf d hd => ?_⟩
  · have howner := ((hcontexts i).2 f hi).symm.trans ((hcontexts j).2 f hj)
    exact Option.some.inj howner
  · have hlater : ContextReach functionCount flags d := Relation.ReflTransGen.trans h hd
    obtain ⟨owner', howned', -⟩ := hlater.invariant
    exact howned'.cleared f (h.cleared_stays hd hf)

end Runs

/-- Two contexts: the second one tries to begin the function between the read and the write of
the first one, and is stopped. -/
def twoContexts : List (Fin 2 × BuildChoice) :=
  [(0, .functionBegin 1), (0, .functionEnd), (0, .functionEnd),
    (0, .functionEnd), (0, .functionEnd),
    (1, .functionBegin 1), (1, .functionEnd), (1, .functionEnd),
    (0, .functionEnd), (0, .functionEnd), (0, .functionEnd), (0, .functionEnd)]

theorem build_once_two :
    ∃ c, ContextReach 2 (fun _ => {}) c ∧ (c.locals (1 : Fin 2)).pc = .stopped ∧
      1 ∈ c.shared.cleared ∧ c.shared.passes 1 ≤ 1 ∧
      ∀ d, Threads.Reach ContextStep c d → (d.shared.flags 1).buildDone = true := by
  have hexec : (Threads.exec contextStep twoContexts (contextsStart 2 fun _ => {})).map
      (fun c => ((c.locals 1).pc, c.shared.cleared)) = some (.stopped, [1]) := by
    decide
  obtain ⟨c, hc, hdone⟩ := Option.map_eq_some_iff.mp hexec
  obtain ⟨hstopped, hcleared⟩ := Prod.mk.inj hdone
  have hreach : ContextReach 2 (fun _ => {}) c := Threads.exec_sound _ hc
  have hmem : 1 ∈ c.shared.cleared := by
    rw [hcleared]
    exact List.mem_singleton_self 1
  obtain ⟨hpasses, -, hstays⟩ := build_once hreach 1
  exact ⟨c, hreach, hstopped, hmem, hpasses, hstays hmem⟩

end Wasim.Wopt
