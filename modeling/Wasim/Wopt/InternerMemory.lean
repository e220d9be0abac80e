import Wasim.Wopt.InternerRuns
import Wasim.Wopt.ThreadArena

/-!
# The interner on its arena

The calls of `type_interner_intern` that threads make one after another, each thread with an
arena of its own, over the arena that `type_interner_new` makes: the steps of a call that need
memory are taken when `type_interner_thread_arena_alloc` has returned it. An id is an offset from
the start of the arena.

The interner was modelled with any memory that is free. It is given no other memory here: every
run is a run of that model, and no call asks the arena of the interner twice for the same data
(`internThreads_refine`).
-/

namespace Wasim.Wopt

open Territory

/-! ### The system -/

/-- The interner and its arena. The calls of a thread are numbered. -/
structure InternerMemory (τ : Type) where
  interner : TypeInterner (τ × ℕ)
  shared : SharedArena τ

/-- What a call has allocated for its next step. -/
inductive InternAlloc
  | idle
  -- it allocates the type
  | type (pc : AllocPc)
  -- it allocates the members, and has the type
  | members (address : ℕ) (pc : AllocPc)
  -- it allocates a cell
  | cell (pc : AllocPc)
  deriving DecidableEq, Repr

/-- A thread with its arena, the ids that its calls have returned, and where the next one is. -/
structure InternThread where
  arena : TypeInternerThreadArena := {}
  returned : List TypeId := []
  pc : InternPc := .start
  alloc : InternAlloc := .idle

def AllocPc.served? : AllocPc → Option ℕ
  | served address => some address
  | _ => none

def offsetFrom (base address : ℕ) : ℕ := (address + (2 ^ 64 - base)) % 2 ^ 64

/-- An address as an offset in the arena of the interner. -/
def InternerMemory.offset {τ : Type} (s : InternerMemory τ) (address : ℕ) : ℕ :=
  offsetFrom s.shared.arena.first.data address

/-- The arena of a new interner, with the interner, the cells and the mutexes in it. -/
def typeInternerNewArena (memory : VirtualMemory) : Outcome ArenaChain := do
  let s ← arenaBootstrapNew memory memory 256 128 0 arenaReservedDefault { noGrowing := true }
  let (arena, _) ← arenaPushAlignedNonZeroed memory s.chain (2 ^ 17 * 256) 128
  let (arena, _) ← arenaPushAlignedNonZeroed memory arena (2 ^ 10 * 128) 128
  return arena

section Step

variable {τ : Type} (digest : TypeKey → UInt64) (keys : τ → ℕ → TypeKey)

/-- A step of `type_interner_thread_arena_alloc`. -/
def internThreadAlloc (i : τ) (memory : VirtualMemory) (size align : ℤ) (pc : AllocPc)
    (alloc : AllocPc → InternAlloc) (s : InternerMemory τ) (l : InternThread) :
    Option (InternerMemory τ × InternThread) :=
  (allocStep i memory size align s.shared l.arena pc).map fun r =>
    ({ s with shared := r.1 }, { l with arena := r.2.1, alloc := alloc r.2.2 })

/-- A step of `type_interner_intern` itself. -/
def internThreadCall (i : τ) (address members : ℕ) (s : InternerMemory τ) (l : InternThread) :
    Option (InternerMemory τ × InternThread) :=
  (internStep digest (i, l.returned.length) (keys i l.returned.length) address members s.interner
    l.pc).map fun r => ({ s with interner := r.1 }, { l with pc := r.2, alloc := .idle })

def internThreadStep (i : τ) (memory : VirtualMemory) (s : InternerMemory τ) (l : InternThread) :
    Option (InternerMemory τ × InternThread) :=
  match l.alloc with
  | .idle =>
    match l.pc with
    | .create _ => some (s, { l with alloc := .type (.fit 0) })
    | .newCell _ _ => some (s, { l with alloc := .cell (.fit 0) })
    | .done id => some (s, { l with returned := l.returned ++ [id], pc := .start })
    | _ => internThreadCall digest keys i 0 0 s l
  | .type pc =>
    match pc.served? with
    | some address => some (s, { l with alloc := .members address (.fit 0) })
    | none => internThreadAlloc i memory sizeOfType 8 pc .type s l
  | .members address pc =>
    match pc.served? with
    | some members => internThreadCall digest keys i (s.offset address) (s.offset members) s l
    | none =>
      let size := sizeOfTypeMember * (keys i l.returned.length).members.length
      internThreadAlloc i memory size 8 pc (.members address) s l
  | .cell pc =>
    match pc.served? with
    | some cell => internThreadCall digest keys i (s.offset cell) 0 s l
    | none => internThreadAlloc i memory sizeOfTypeInternerCell 128 pc .cell s l

/-- The threads take their steps in any order, and the system answers each as it should. -/
def InternThreadStep (i : τ) (s : InternerMemory τ) (l : InternThread) (s' : InternerMemory τ)
    (l' : InternThread) : Prop :=
  ∃ memory : VirtualMemory, memory.Fresh s.shared.arena.blocks ∧
    internThreadStep digest keys i memory s l = some (s', l')

/-- No thread has called. -/
def internThreadsStart (arena : ArenaChain) :
    Threads.Config τ (InternerMemory τ) InternThread :=
  ⟨⟨typeInternerNew, ⟨arena, none⟩⟩, fun _ => {}⟩

end Step

/-- Where the call with a number is. -/
def InternThread.calls (l : InternThread) (n : ℕ) : InternPc :=
  match l.returned[n]? with
  | some id => .done id
  | none => if n = l.returned.length then l.pc else .start

/-- The calls of all threads, as the model of the interner has them. -/
def internCalls {τ : Type} (c : Threads.Config τ (InternerMemory τ) InternThread) :
    Threads.Config (τ × ℕ) (TypeInterner (τ × ℕ)) InternPc :=
  ⟨c.shared.interner, fun call => (c.locals call.1).calls call.2⟩

/-! ### Offsets -/

variable {base : ℕ} {r r' : ℕ × ℕ}

/-- A range of the address space that does not reach over the start of the arena. -/
def Located (base : ℕ) (r : ℕ × ℕ) : Prop := r.1 + r.2 ≤ 2 ^ 63 ∧ (r.1 + r.2 ≤ base ∨ base ≤ r.1)

theorem apart_offset (hbase : 0 < base) (hle : base ≤ 2 ^ 63) (hr : Located base r)
    (hr' : Located base r') (h : Apart r r') :
    Apart (offsetFrom base r.1, r.2) (offsetFrom base r'.1, r'.2) := by
  obtain ⟨a, n⟩ := r
  obtain ⟨b, m⟩ := r'
  obtain ⟨hstop, hr⟩ := hr
  obtain ⟨hstop', hr'⟩ := hr'
  simp only [Apart, offsetFrom] at *
  -- in front of the arena nothing is cut off, and behind its start everything is
  have hoffset : ∀ x, x < base → (x + (2 ^ 64 - base)) % 2 ^ 64 = x + 2 ^ 64 - base := by omega
  have hoffset' : ∀ x, base ≤ x → x ≤ 2 ^ 63 → (x + (2 ^ 64 - base)) % 2 ^ 64 = x - base := by
    omega
  rcases lt_or_ge a base with ha | ha <;> rcases lt_or_ge b base with hb | hb
  · rw [hoffset a ha, hoffset b hb]
    omega
  · rw [hoffset a ha, hoffset' b hb (by omega)]
    omega
  · rw [hoffset' a ha (by omega), hoffset b hb]
    omega
  · rw [hoffset' a ha (by omega), hoffset' b hb (by omega)]
    omega

theorem offsetFrom_mod {align a : ℕ} (hdvd : align ∣ 2 ^ 64) (hbase : align ∣ base)
    (ha : align ∣ a) : offsetFrom base a % align = 0 := by
  rw [offsetFrom, Nat.mod_mod_of_dvd _ hdvd]
  exact Nat.mod_eq_zero_of_dvd (Nat.dvd_add ha (Nat.dvd_sub hdvd hbase))

/-- What is in use lies in blocks that are apart from the first one, or in the first one. -/
theorem located_of_placed {c : ArenaChain} (hc : c.Valid) (h : c.Placed r) :
    Located c.first.data r := by
  obtain rfl | ⟨b, hb, hlo, hhi⟩ := h
  · exact ⟨Nat.zero_le _, Or.inl (Nat.zero_le _)⟩
  have hb' := hc.block b hb
  have hfirst := hc.block c.first c.first_mem
  have hused := hb'.used_le
  have hstop := hb'.stop_le
  have hpos := hb'.reserved_pos
  have hpos' := hfirst.reserved_pos
  refine ⟨by dsimp only at hhi; omega, ?_⟩
  by_cases heq : b = c.first
  · rw [← heq]
    exact Or.inr hlo
  · have hsymm : Std.Symm fun b b' : Arena => Disjoint b.region b'.region :=
      ⟨fun _ _ hd => hd.symm⟩
    have hdisjoint := hc.apart.forall hb c.first_mem heq
    have hapart := apart_of_disjoint hdisjoint hpos hpos'
    rw [Apart] at hapart
    dsimp only at hapart hlo hhi
    omega

/-! ### The invariant -/

variable {τ : Type} {digest : TypeKey → UInt64} {keys : τ → ℕ → TypeKey}

/-- The ranges that a call has allocated for its next step. -/
def InternAlloc.ranges (key : TypeKey) : InternAlloc → List (ℕ × ℕ)
  | idle => []
  | type pc => pc.ranges sizeOfType
  | members address pc =>
    pc.ranges (sizeOfTypeMember * key.members.length) ++ [(address, sizeOfType)]
  | cell pc => pc.ranges sizeOfTypeInternerCell

def InternAlloc.Asserts (i : τ) (s : SharedArena τ) (a : TypeInternerThreadArena) (key : TypeKey)
    (pc : InternPc) : InternAlloc → Prop
  | idle => True
  | type alloc => (∃ cell, pc = .create cell) ∧ alloc.Asserts i s a sizeOfType 8
  | members address alloc => (∃ cell, pc = .create cell) ∧ 8 ∣ address ∧
      alloc.Asserts i s a (sizeOfTypeMember * key.members.length) 8
  | cell alloc => (∃ cell id, pc = .newCell cell id) ∧
      alloc.Asserts i s a sizeOfTypeInternerCell 128

/-- The memory is divided between the threads, and the interner. Its offsets are those of ranges
that are taken. -/
structure InternerMemory.Divides (base : ℕ) (own : τ → List (ℕ × ℕ)) (taken : List (ℕ × ℕ))
    (s : InternerMemory τ) : Prop where
  chain : s.shared.arena.Valid
  base_eq : s.shared.arena.first.data = base
  page : pageSize ∣ base
  divided : Divided own taken
  placed : ∀ i, ∀ r ∈ own i, s.shared.arena.Placed r
  placed_taken : ∀ r ∈ taken, s.shared.arena.Placed r
  allocated : ∀ p ∈ s.interner.allocated, ∃ r ∈ taken, p = (offsetFrom base r.1, r.2)

structure InternThread.Asserts (keys : τ → ℕ → TypeKey) (own : τ → List (ℕ × ℕ)) (i : τ)
    (s : InternerMemory τ) (l : InternThread) : Prop where
  own : own i = l.arena.rest :: l.alloc.ranges (keys i l.returned.length)
  arena : l.arena.Valid s.shared.arena
  alloc : l.alloc.Asserts i s.shared l.arena (keys i l.returned.length) l.pc

variable {i : τ} {s s' : InternerMemory τ} {l l' : InternThread} {own : τ → List (ℕ × ℕ)}
  {taken : List (ℕ × ℕ)} {memory : VirtualMemory}

theorem AllocPc.Asserts.mono {s s' : SharedArena τ} {a : TypeInternerThreadArena} {n k : ℕ}
    {pc : AllocPc} (h : pc.Asserts i s a n k) (hmutex : s.mutex = some i → s'.mutex = some i) :
    pc.Asserts i s' a n k := by
  cases pc with
  | push depth => exact ⟨h.1, hmutex h.2⟩
  | unlock depth => exact ⟨h.1, h.2.1, hmutex h.2.2⟩
  | crashed => exact hmutex h
  | _ => exact h

theorem InternAlloc.Asserts.mono {s s' : SharedArena τ} {a : TypeInternerThreadArena}
    {key : TypeKey} {pc : InternPc} {alloc : InternAlloc} (h : alloc.Asserts i s a key pc)
    (hmutex : s.mutex = some i → s'.mutex = some i) : alloc.Asserts i s' a key pc := by
  cases alloc with
  | idle => trivial
  | type alloc => exact ⟨h.1, h.2.mono hmutex⟩
  | members address alloc => exact ⟨h.1, h.2.1, h.2.2.mono hmutex⟩
  | cell alloc => exact ⟨h.1, h.2.mono hmutex⟩

theorem InternerMemory.Divides.apart_offset (h : s.Divides base own taken)
    (hr : s.shared.arena.Placed r) (hr' : s.shared.arena.Placed r') (hapart : Apart r r') :
    Apart (s.offset r.1, r.2) (s.offset r'.1, r'.2) := by
  have hfirst := h.chain.block _ s.shared.arena.first_mem
  have hstop := hfirst.stop_le
  exact Wopt.apart_offset hfirst.data_pos (by omega) (located_of_placed h.chain hr)
    (located_of_placed h.chain hr') hapart

/-- A range that a thread has is free in the interner. -/
theorem InternerMemory.Divides.free (h : s.Divides base own taken) (hr : r ∈ own i) {align : ℕ}
    (hdvd : align ∣ r.1) (hpage : align ∣ pageSize) :
    s.interner.Free (s.offset r.1) r.2 align := by
  have hpages : pageSize ∣ 2 ^ 64 := by decide
  have hbase : align ∣ s.shared.arena.first.data := h.base_eq ▸ hpage.trans h.page
  refine ⟨offsetFrom_mod (hpage.trans hpages) hbase hdvd, fun p hp => ?_⟩
  obtain ⟨r', hr', rfl⟩ := h.allocated p hp
  rw [← h.base_eq]
  exact h.apart_offset (h.placed i r hr) (h.placed_taken r' hr') (h.divided.taken i r hr r' hr')

/-- So are two of them together. -/
theorem InternerMemory.Divides.free_allocate (h : s.Divides base own taken) (hr : r ∈ own i)
    (hr' : r' ∈ own i) (hapart : Apart r r') {align : ℕ} (hdvd : align ∣ r.1)
    (hpage : align ∣ pageSize) :
    (s.interner.allocate (s.offset r'.1) r'.2).Free (s.offset r.1) r.2 align := by
  have hfree := h.free hr hdvd hpage
  refine ⟨hfree.1, fun p hp => ?_⟩
  obtain rfl | hp := List.mem_cons.mp hp
  · exact h.apart_offset (h.placed i r hr) (h.placed i r' hr') hapart
  · exact hfree.2 p hp

/-- A step of the interner allocates only what it is given, when it creates a type or a cell. -/
theorem internStep_allocated {ι : Type} {i : ι} {key : TypeKey}
    {address members : ℕ} {s s' : TypeInterner ι} {pc pc' : InternPc}
    (h : internStep digest i key address members s pc = some (s', pc')) :
    ∀ p ∈ s'.allocated, p ∈ s.allocated ∨
      ((∃ cell, pc = .create cell) ∧ (p = (address, sizeOfType) ∨
        p = (members, sizeOfTypeMember * key.members.length))) ∨
      ((∃ cell id, pc = .newCell cell id) ∧ p = (address, sizeOfTypeInternerCell)) := by
  intro p hp
  cases pc with
  | create cell =>
    simp only [internStep] at h
    split_ifs at h
    · obtain ⟨rfl, rfl⟩ := by simpa using h
      obtain rfl | hp := List.mem_cons.mp hp
      · exact Or.inr (Or.inl ⟨⟨cell, rfl⟩, Or.inr rfl⟩)
      obtain rfl | hp := List.mem_cons.mp hp
      · exact Or.inr (Or.inl ⟨⟨cell, rfl⟩, Or.inl rfl⟩)
      · exact Or.inl hp
    · obtain ⟨rfl, rfl⟩ := by simpa using h
      exact Or.inl hp
  | newCell cell id =>
    simp only [internStep] at h
    split_ifs at h
    obtain ⟨rfl, rfl⟩ := by simpa using h
    obtain rfl | hp := List.mem_cons.mp hp
    · exact Or.inr (Or.inr ⟨⟨cell, id, rfl⟩, rfl⟩)
    · exact Or.inl hp
  | _ =>
    refine Or.inl ?_
    simp only [internStep] at h
    repeat' split at h
    all_goals cases h
    all_goals exact hp

/-- What a step of a thread leaves of the invariant and of the assertions of all threads. -/
def InternKeeps (keys : τ → ℕ → TypeKey) (base : ℕ) (i : τ) (own : τ → List (ℕ × ℕ))
    (s s' : InternerMemory τ) (l' : InternThread) : Prop :=
  ∃ own' taken', s'.Divides base own' taken' ∧ l'.Asserts keys own' i s' ∧
    ∀ j, j ≠ i → ∀ m : InternThread, m.Asserts keys own j s → m.Asserts keys own' j s'

theorem InternThread.Asserts.others {own' : τ → List (ℕ × ℕ)} (h : l.Asserts keys own i s)
    (hown : own' i = own i) (hplaced : ∀ r, s.shared.arena.Placed r → s'.shared.arena.Placed r)
    (hmutex : s.shared.mutex = some i → s'.shared.mutex = some i) : l.Asserts keys own' i s' :=
  ⟨hown.trans h.own, ⟨h.arena.used_le, h.arena.length_lt, hplaced _ h.arena.placed⟩,
    h.alloc.mono hmutex⟩

/-- The thread only goes on to what it allocates next. -/
theorem InternKeeps.of_local (hs : s.Divides base own taken) (hl : l'.Asserts keys own i s) :
    InternKeeps keys base i own s s l' :=
  ⟨own, taken, hs, hl, fun _ _ _ hm => hm⟩

/-- A step of the allocation of `n` bytes. The ranges `held` are there already. -/
theorem InternKeeps.alloc [DecidableEq τ] (hs : s.Divides base own taken)
    (hl : l.Asserts keys own i s) (hmemory : memory.Fresh s.shared.arena.blocks) (n k : ℕ) (hn : n < 2 ^ 63)
    (hk : k.isPowerOfTwo) (hle : k ≤ pageSize) {pc : AllocPc} (alloc : AllocPc → InternAlloc)
    (held : List (ℕ × ℕ)) (hown : own i = l.arena.rest :: held)
    (hranges : ∀ pc, (alloc pc).ranges (keys i l.returned.length) = pc.ranges n ++ held)
    (hpc : pc.Asserts i s.shared l.arena n k)
    (hasserts : ∀ s' a' pc', pc'.Asserts i s' a' n k →
      (alloc pc').Asserts i s' a' (keys i l.returned.length) l.pc)
    (h : internThreadAlloc i memory n k pc alloc s l = some (s', l')) :
    InternKeeps keys base i own s s' l' := by
  obtain ⟨⟨shared, a', pc'⟩, hstep, heq⟩ := Option.map_eq_some_iff.mp h
  obtain ⟨rfl, rfl⟩ := Prod.mk.inj heq
  have hkeeps := allocStep_keeps hs.chain hl.arena hmemory hn hk hle hpc hstep
  have hdivided := hkeeps.divided hs.divided hown hs.placed hs.placed_taken
  rw [← hranges] at hdivided
  refine ⟨_, taken, ⟨hkeeps.chain, hkeeps.first.trans hs.base_eq, hs.page, hdivided, ?_, ?_,
    hs.allocated⟩, ⟨Function.update_self .., hkeeps.arena, hasserts _ _ _ hkeeps.asserts⟩, ?_⟩
  · intro j r hr
    rcases eq_or_ne j i with rfl | hj
    · rw [Function.update_self, hranges] at hr
      obtain rfl | hr := List.mem_cons.mp hr
      · exact hkeeps.arena.placed
      obtain hr | hr := List.mem_append.mp hr
      · exact hkeeps.placed_ranges hl.arena hr
      · exact hkeeps.placed r (hs.placed j r (hown ▸ List.mem_cons_of_mem _ hr))
    · rw [Function.update_of_ne hj] at hr
      exact hkeeps.placed r (hs.placed j r hr)
  · exact fun r hr => hkeeps.placed r (hs.placed_taken r hr)
  · exact fun j hj m hm =>
      hm.others (Function.update_of_ne hj _ _) hkeeps.placed (hkeeps.mutex j hj)

/-- A step of the call. It stores the ranges that it allocates. -/
theorem InternKeeps.call [DecidableEq τ] (hs : s.Divides base own taken)
    (hl : l.Asserts keys own i s) {address members : ℕ}
    (hcreate : (∃ cell, l.pc = .create cell) →
      (address, sizeOfType) ∈ (l.alloc.ranges (keys i l.returned.length)).map
        (fun r => (offsetFrom base r.1, r.2)) ∧
      (members, sizeOfTypeMember * (keys i l.returned.length).members.length) ∈
        (l.alloc.ranges (keys i l.returned.length)).map fun r => (offsetFrom base r.1, r.2))
    (hcell : (∃ cell id, l.pc = .newCell cell id) →
      (address, sizeOfTypeInternerCell) ∈ (l.alloc.ranges (keys i l.returned.length)).map
        fun r => (offsetFrom base r.1, r.2))
    (h : internThreadCall digest keys i address members s l = some (s', l')) :
    InternKeeps keys base i own s s' l' := by
  obtain ⟨⟨interner, pc'⟩, hstep, heq⟩ := Option.map_eq_some_iff.mp h
  obtain ⟨rfl, rfl⟩ := Prod.mk.inj heq
  refine ⟨_, _, ⟨hs.chain, hs.base_eq, hs.page, hs.divided.give i hl.own, ?_, ?_, ?_⟩,
    ⟨Function.update_self .., hl.arena, trivial⟩,
    fun j hj m hm => hm.others (Function.update_of_ne hj _ _) (fun _ hr => hr) fun hj => hj⟩
  · intro j r hr
    rcases eq_or_ne j i with rfl | hj
    · rw [Function.update_self] at hr
      exact List.mem_singleton.mp hr ▸ hl.arena.placed
    · rw [Function.update_of_ne hj] at hr
      exact hs.placed j r hr
  · intro r hr
    obtain hr | hr := List.mem_append.mp hr
    · exact hs.placed i r (hl.own ▸ List.mem_cons_of_mem _ hr)
    · exact hs.placed_taken r hr
  · intro p hp
    have hheld : p ∈ (l.alloc.ranges (keys i l.returned.length)).map
          (fun r => (offsetFrom base r.1, r.2)) →
        ∃ r ∈ l.alloc.ranges (keys i l.returned.length) ++ taken,
          p = (offsetFrom base r.1, r.2) := by
      intro hmem
      obtain ⟨r, hr, rfl⟩ := List.mem_map.mp hmem
      exact ⟨r, List.mem_append_left _ hr, rfl⟩
    obtain hp | ⟨hpc, rfl | rfl⟩ | ⟨hpc, rfl⟩ := internStep_allocated hstep p hp
    · obtain ⟨r, hr, rfl⟩ := hs.allocated p hp
      exact ⟨r, List.mem_append_right _ hr, rfl⟩
    · exact hheld (hcreate hpc).1
    · exact hheld (hcreate hpc).2
    · exact hheld (hcell hpc)

theorem served?_eq_none {pc : AllocPc} (h : pc.served? = none) (n : ℕ) : pc.ranges n = [] := by
  cases pc with
  | served address => cases h
  | _ => rfl

theorem eq_of_served? {pc : AllocPc} {address : ℕ} (h : pc.served? = some address) :
    pc = .served address := by
  cases pc with
  | served address' => exact congrArg AllocPc.served (Option.some.inj h)
  | _ => cases h

theorem internThreadStep_keeps [DecidableEq τ]
    (hkeys : ∀ i n, sizeOfTypeMember * (keys i n).members.length < 2 ^ 63)
    (hs : s.Divides base own taken) (hl : l.Asserts keys own i s)
    (h : InternThreadStep digest keys i s l s' l') : InternKeeps keys base i own s s' l' := by
  obtain ⟨memory, hmemory, hstep⟩ := h
  have hoffset : ∀ address, s.offset address = offsetFrom base address := by
    intro address
    rw [InternerMemory.offset, hs.base_eq]
  have howns := hl.own
  have halloc := hl.alloc
  obtain ⟨arena, returned, pc, alloc⟩ := l
  cases alloc with
  | idle =>
    cases pc with
    | create cell =>
      obtain ⟨rfl, rfl⟩ := by simpa [internThreadStep] using hstep
      exact .of_local hs ⟨howns, hl.arena, ⟨cell, rfl⟩, Or.inl rfl⟩
    | newCell cell id =>
      obtain ⟨rfl, rfl⟩ := by simpa [internThreadStep] using hstep
      exact .of_local hs ⟨howns, hl.arena, ⟨cell, id, rfl⟩, Or.inl rfl⟩
    | done id =>
      obtain ⟨rfl, rfl⟩ := by simpa [internThreadStep] using hstep
      exact .of_local hs ⟨howns, hl.arena, trivial⟩
    | _ =>
      refine InternKeeps.call hs hl ?_ ?_ hstep
      · rintro ⟨cell, hcell⟩
        cases hcell
      · rintro ⟨cell, id, hcell⟩
        cases hcell
  | type pc' =>
    obtain ⟨hcreate, hasserts⟩ := halloc
    rcases hserved : pc'.served? with _ | address
    · simp only [internThreadStep, hserved] at hstep
      refine InternKeeps.alloc hs hl hmemory sizeOfType 8 (by decide) ⟨3, rfl⟩ (by decide) .type []
        ?_ (fun _ => (List.append_nil _).symm) hasserts (fun _ _ _ h => ⟨hcreate, h⟩) hstep
      rw [howns, InternAlloc.ranges, served?_eq_none hserved]
    · obtain rfl := eq_of_served? hserved
      obtain ⟨rfl, rfl⟩ := by simpa [internThreadStep, hserved] using hstep
      exact .of_local hs ⟨howns, hl.arena, hcreate, hasserts, Or.inl rfl⟩
  | members address pc' =>
    obtain ⟨hcreate, hdvd, hasserts⟩ := halloc
    rcases hserved : pc'.served? with _ | members
    · simp only [internThreadStep, hserved] at hstep
      refine InternKeeps.alloc hs hl hmemory _ 8 (hkeys _ _) ⟨3, rfl⟩ (by decide)
        (.members address) [(address, sizeOfType)] ?_ (fun _ => rfl) hasserts
        (fun _ _ _ h => ⟨hcreate, hdvd, h⟩) hstep
      rw [howns, InternAlloc.ranges, served?_eq_none hserved, List.nil_append]
    · obtain rfl := eq_of_served? hserved
      simp only [internThreadStep, hserved, hoffset] at hstep
      refine InternKeeps.call hs hl (fun _ => ?_) ?_ hstep
      · simp [InternAlloc.ranges, AllocPc.ranges]
      · rintro ⟨cell, id, hcell⟩
        obtain ⟨cell', hcell'⟩ := hcreate
        rw [hcell] at hcell'
        cases hcell'
  | cell pc' =>
    obtain ⟨hcell, hasserts⟩ := halloc
    rcases hserved : pc'.served? with _ | address
    · simp only [internThreadStep, hserved] at hstep
      refine InternKeeps.alloc hs hl hmemory sizeOfTypeInternerCell 128 (by decide) ⟨7, rfl⟩
        (by decide) .cell [] ?_ (fun _ => (List.append_nil _).symm) hasserts
        (fun _ _ _ h => ⟨hcell, h⟩) hstep
      rw [howns, InternAlloc.ranges, served?_eq_none hserved]
    · obtain rfl := eq_of_served? hserved
      simp only [internThreadStep, hserved, hoffset] at hstep
      refine InternKeeps.call hs hl ?_ (fun _ => ?_) hstep
      · rintro ⟨cell, hcreate⟩
        obtain ⟨cell', id, hcell'⟩ := hcell
        rw [hcreate] at hcell'
        cases hcell'
      · simp [InternAlloc.ranges, AllocPc.ranges]

/-! ### Threads that go on -/

def AllocPc.depth : AllocPc → ℕ
  | fit depth => depth
  | lock depth => depth
  | push depth => depth
  | unlock depth => depth
  | _ => 0

/-- The mutex of the arena is held. -/
def AllocPc.Locks : AllocPc → Prop
  | push _ => True
  | unlock _ => True
  | _ => False

def InternAlloc.pc? : InternAlloc → Option AllocPc
  | idle => none
  | type pc => some pc
  | members _ pc => some pc
  | cell pc => some pc

/-- The thread waits for a mutex that is taken, or was stopped. -/
def InternThread.Waits (digest : TypeKey → UInt64) (keys : τ → ℕ → TypeKey) (i : τ)
    (s : InternerMemory τ) (l : InternThread) : Prop :=
  l.pc = .crashed ∨ l.alloc.pc? = some .crashed ∨
    (∃ depth, l.alloc.pc? = some (.lock depth) ∧ s.shared.mutex ≠ none) ∨
    ∃ cell, l.pc = .lock cell ∧
      s.interner.mutexes (internMutexIndex digest (keys i l.returned.length)) ≠ none

theorem allocStep_eq_none {size align : ℤ} {s : SharedArena τ} {a : TypeInternerThreadArena}
    {pc : AllocPc} (h : allocStep i memory size align s a pc = none) (hserved : pc.served? = none) :
    pc = .crashed ∨ ∃ depth, pc = .lock depth ∧ s.mutex ≠ none := by
  cases pc with
  | lock depth =>
    refine Or.inr ⟨depth, rfl, fun hmutex => ?_⟩
    rw [allocStep, hmutex] at h
    cases h
  | crashed => exact Or.inl rfl
  | served address => cases hserved
  | unlock depth => cases h
  | _ =>
    rw [allocStep] at h
    split at h <;> cases h

/-- A step of the interner waits for a mutex, or for memory. -/
theorem internStep_eq_none {ι : Type} {i : ι} {key : TypeKey}
    {address members : ℕ} {s : TypeInterner ι} {pc : InternPc}
    (h : internStep digest i key address members s pc = none) :
    pc = .crashed ∨ (∃ id, pc = .done id) ∨
      (∃ cell, pc = .lock cell ∧ s.mutexes (internMutexIndex digest key) ≠ none) ∨
      ((∃ cell, pc = .create cell) ∧ ¬(s.Free address sizeOfType 8 ∧
        (s.allocate address sizeOfType).Free members
          (sizeOfTypeMember * key.members.length) 8)) ∨
      ((∃ cell id, pc = .newCell cell id) ∧ ¬s.Free address sizeOfTypeInternerCell 128) := by
  cases pc with
  | crashed => exact Or.inl rfl
  | done id => exact Or.inr (Or.inl ⟨id, rfl⟩)
  | lock cell =>
    refine Or.inr (Or.inr (Or.inl ⟨cell, rfl, fun hmutex => ?_⟩))
    simp [internStep, hmutex] at h
  | create cell =>
    refine Or.inr (Or.inr (Or.inr (Or.inl ⟨⟨cell, rfl⟩, fun hfree => ?_⟩)))
    simp only [internStep, if_pos hfree] at h
    split at h <;> cases h
  | newCell cell id =>
    refine Or.inr (Or.inr (Or.inr (Or.inr ⟨⟨cell, id, rfl⟩, fun hfree => ?_⟩)))
    simp [internStep, hfree] at h
  | _ =>
    simp only [internStep] at h
    repeat' split at h
    all_goals cases h

/-- A thread that does not wait can take a step: what it was served is free. -/
theorem internThreadStep_isSome (hs : s.Divides base own taken) (hl : l.Asserts keys own i s)
    (h : ¬l.Waits digest keys i s) : ∃ r, internThreadStep digest keys i memory s l = some r := by
  rw [← Option.isSome_iff_exists, ← Option.ne_none_iff_isSome]
  intro hnone
  refine h ?_
  have howns := hl.own
  have halloc := hl.alloc
  obtain ⟨arena, returned, pc, alloc⟩ := l
  have hcall : ∀ {address members}, (∀ cell, pc = .create cell →
      s.interner.Free address sizeOfType 8 ∧
        (s.interner.allocate address sizeOfType).Free members
          (sizeOfTypeMember * (keys i returned.length).members.length) 8) →
      (∀ cell id, pc = .newCell cell id → s.interner.Free address sizeOfTypeInternerCell 128) →
      (∀ id, pc ≠ .done id) → internThreadCall digest keys i address members s
        ⟨arena, returned, pc, alloc⟩ = none →
      InternThread.Waits digest keys i s ⟨arena, returned, pc, alloc⟩ := by
    intro address members hcreate hcell hdone hnone
    obtain h | ⟨id, h⟩ | ⟨cell, h, hmutex⟩ | ⟨⟨cell, h⟩, hfree⟩ | ⟨⟨cell, id, h⟩, hfree⟩ :=
      internStep_eq_none (Option.map_eq_none_iff.mp hnone)
    · exact Or.inl h
    · exact absurd h (hdone id)
    · exact Or.inr (Or.inr (Or.inr ⟨cell, h, hmutex⟩))
    · exact absurd (hcreate cell h) hfree
    · exact absurd (hcell cell id h) hfree
  have halloc' : ∀ {pc' size align alloc'}, alloc.pc? = some pc' → pc'.served? = none →
      internThreadAlloc i memory size align pc' alloc' s ⟨arena, returned, pc, alloc⟩ = none →
      InternThread.Waits digest keys i s ⟨arena, returned, pc, alloc⟩ := by
    intro pc' size align alloc' hpc hserved hnone
    obtain rfl | ⟨depth, rfl, hmutex⟩ :=
      allocStep_eq_none (Option.map_eq_none_iff.mp hnone) hserved
    · exact Or.inr (Or.inl hpc)
    · exact Or.inr (Or.inr (Or.inl ⟨depth, hpc, hmutex⟩))
  cases alloc with
  | idle =>
    cases pc with
    | create cell => simp [internThreadStep] at hnone
    | newCell cell id => simp [internThreadStep] at hnone
    | done id => simp [internThreadStep] at hnone
    | _ =>
      refine hcall (fun cell hpc => ?_) (fun cell id hpc => ?_) (fun id hpc => ?_) hnone <;>
        cases hpc
  | type pc' =>
    rcases hserved : pc'.served? with _ | address
    · simp only [internThreadStep, hserved] at hnone
      exact halloc' rfl hserved hnone
    · simp [internThreadStep, hserved] at hnone
  | members address pc' =>
    obtain ⟨⟨cell, rfl⟩, hdvd, hasserts⟩ := halloc
    rcases hserved : pc'.served? with _ | members
    · simp only [internThreadStep, hserved] at hnone
      exact halloc' rfl hserved hnone
    · obtain rfl := eq_of_served? hserved
      simp only [internThreadStep, hserved] at hnone
      have hself := (List.pairwise_cons.mp (howns ▸ hs.divided.self i)).2
      have hmem : ∀ r ∈ InternAlloc.ranges (keys i returned.length)
          (.members address (.served members)), r ∈ own i :=
        fun r hr => howns ▸ List.mem_cons_of_mem _ hr
      have hmembers := hmem _ List.mem_cons_self
      have haddress := hmem (address, sizeOfType) (by simp [InternAlloc.ranges])
      have hapart := (List.pairwise_cons.mp hself).1 (address, sizeOfType)
        (by simp)
      refine hcall (fun _ _ => ⟨hs.free haddress hdvd (by decide), ?_⟩) (fun cell id hpc => ?_)
        (fun id hpc => ?_) hnone
      · exact hs.free_allocate hmembers haddress hapart hasserts (by decide)
      · cases hpc
      · cases hpc
  | cell pc' =>
    obtain ⟨⟨cell, id, rfl⟩, hasserts⟩ := halloc
    rcases hserved : pc'.served? with _ | address
    · simp only [internThreadStep, hserved] at hnone
      exact halloc' rfl hserved hnone
    · obtain rfl := eq_of_served? hserved
      simp only [internThreadStep, hserved] at hnone
      have hmem : (address, sizeOfTypeInternerCell) ∈ own i :=
        howns ▸ List.mem_cons_of_mem _ List.mem_cons_self
      refine hcall (fun cell hpc => ?_) (fun _ _ _ => hs.free hmem hasserts (by decide))
        (fun id hpc => ?_) hnone
      · cases hpc
      · cases hpc

/-! ### The runs are runs of the interner -/

theorem calls_pc (l : InternThread) : l.calls l.returned.length = l.pc := by
  rw [InternThread.calls, List.getElem?_eq_none le_rfl, if_pos rfl]

theorem calls_done {l : InternThread} {id : TypeId} (h : l.pc = .done id) :
    InternThread.calls { l with returned := l.returned ++ [id], pc := .start } = l.calls := by
  funext n
  rw [InternThread.calls, InternThread.calls]
  rcases lt_trichotomy n l.returned.length with hn | rfl | hn
  · rw [List.getElem?_append_left hn, List.getElem?_eq_getElem hn]
  · rw [List.getElem?_concat_length, List.getElem?_eq_none le_rfl, if_pos rfl, h]
  · have hlength : (l.returned ++ [id]).length ≤ n := by
      rw [List.length_append, List.length_singleton]
      exact hn
    rw [List.getElem?_eq_none hlength, List.getElem?_eq_none hn.le, if_neg hn.ne']
    exact ite_self _

theorem calls_update {l l' : InternThread} (h : l'.returned = l.returned) :
    l'.calls = Function.update l.calls l.returned.length l'.pc := by
  funext n
  rcases eq_or_ne n l.returned.length with rfl | hn
  · rw [Function.update_self, ← h, calls_pc]
  · rw [Function.update_of_ne hn, InternThread.calls, InternThread.calls, h, if_neg hn, if_neg hn]

/-- A step of a thread is a step of one of its calls, or none. -/
theorem internThreadStep_cases (h : internThreadStep digest keys i memory s l = some (s', l')) :
    (s'.interner = s.interner ∧ l'.calls = l.calls) ∨
      ∃ address members, internThreadCall digest keys i address members s l = some (s', l') := by
  have hlocal : ∀ {l₁ : InternThread}, some (s, l₁) = some (s', l') → l₁.calls = l.calls →
      s'.interner = s.interner ∧ l'.calls = l.calls := by
    intro l₁ heq hcalls
    obtain ⟨rfl, rfl⟩ := Prod.mk.inj (Option.some.inj heq)
    exact ⟨rfl, hcalls⟩
  have halloc : ∀ {size align pc alloc},
      internThreadAlloc i memory size align pc alloc s l = some (s', l') →
        s'.interner = s.interner ∧ l'.calls = l.calls := by
    intro size align pc alloc hstep
    obtain ⟨r, -, heq⟩ := Option.map_eq_some_iff.mp hstep
    obtain ⟨rfl, rfl⟩ := Prod.mk.inj heq
    exact ⟨rfl, rfl⟩
  rw [internThreadStep] at h
  split at h
  · split at h
    · exact Or.inl (hlocal h rfl)
    · exact Or.inl (hlocal h rfl)
    · rename_i hpc
      exact Or.inl (hlocal h (calls_done hpc))
    · exact Or.inr ⟨_, _, h⟩
  · split at h
    · exact Or.inl (hlocal h rfl)
    · exact Or.inl (halloc h)
  · split at h
    · exact Or.inr ⟨_, _, h⟩
    · exact Or.inl (halloc h)
  · split at h
    · exact Or.inr ⟨_, _, h⟩
    · exact Or.inl (halloc h)

theorem internCalls_step [DecidableEq τ] {c : Threads.Config τ (InternerMemory τ) InternThread}
    (h : InternThreadStep digest keys i c.shared (c.locals i) s' l') :
    Threads.Reach (InternStep digest fun call : τ × ℕ => keys call.1 call.2) (internCalls c)
      (internCalls ⟨s', Function.update c.locals i l'⟩) := by
  obtain ⟨memory, -, hstep⟩ := h
  obtain ⟨hinterner, hcalls⟩ | ⟨address, members, hcall⟩ := internThreadStep_cases hstep
  · have heq : internCalls ⟨s', Function.update c.locals i l'⟩ = internCalls c := by
      rw [internCalls, internCalls, hinterner]
      refine congrArg (Threads.Config.mk _) (funext fun call => ?_)
      rcases eq_or_ne call.1 i with hi | hi
      · dsimp only
        rw [hi, Function.update_self, hcalls]
      · dsimp only
        rw [Function.update_of_ne hi]
    rw [heq]
    exact .refl
  · obtain ⟨⟨interner, pc⟩, hintern, heq⟩ := Option.map_eq_some_iff.mp hcall
    obtain ⟨rfl, rfl⟩ := Prod.mk.inj heq
    refine .single ⟨(i, (c.locals i).returned.length), interner, pc, ⟨(address, members), ?_⟩, ?_⟩
    · dsimp only [internCalls]
      rw [calls_pc]
      exact hintern
    · refine congrArg (Threads.Config.mk _) (funext fun call => ?_)
      obtain ⟨j, n⟩ := call
      dsimp only [internCalls]
      rcases eq_or_ne j i with rfl | hj
      · have hcalls := @calls_update (c.locals j)
          ⟨(c.locals j).arena, (c.locals j).returned, pc, .idle⟩ rfl
        rw [Function.update_self, hcalls]
        rcases eq_or_ne n (c.locals j).returned.length with rfl | hn
        · rw [Function.update_self, Function.update_self]
        · rw [Function.update_of_ne hn, Function.update_of_ne]
          exact fun heq => hn (Prod.mk.inj heq).2
      · rw [Function.update_of_ne hj, Function.update_of_ne]
        exact fun heq => hj (Prod.mk.inj heq).1

/-- A push that is aligned to 128 bytes in a block of whole pages. -/
theorem arenaPush_within {c c' : ArenaChain} {size : ℕ} {range : Option (ℕ × ℕ)} (hc : c.Valid)
    (hdata : pageSize ∣ c.curr.data) (hreserved : pageSize ∣ c.curr.reserved)
    (hcommit : memory.commit) (hsize : 0 < size)
    (hfits : Align.up c.curr.used 128 + size ≤ c.curr.reserved)
    (h : arenaPushAlignedNonZeroed memory c size 128 = .returned (c', range)) :
    c'.Valid ∧ c'.prev = c.prev ∧ c'.curr.data = c.curr.data ∧
      c'.curr.reserved = c.curr.reserved ∧ c'.curr.used = Align.up c.curr.used 128 + size := by
  have hcurr := hc.block c.curr List.mem_cons_self
  have hdvd : 128 ∣ pageSize := by decide
  have hstart : c.curr.startOf 128 = Align.up c.curr.used 128 := by
    rw [Arena.startOf, Align.add_up (by decide) (hdvd.trans hdata), Nat.add_sub_cancel_left]
  have hle : c.Fits size 128 := by
    rw [ArenaChain.Fits, hstart]
    exact hfits
  obtain ⟨commited, hpush, -⟩ :=
    arenaPush_fits hcurr hreserved hcommit hsize ⟨7, rfl⟩ (by decide) hle
  obtain ⟨rfl, -⟩ := Prod.mk.inj (Outcome.returned.inj (hpush.symm.trans h))
  have hused := Align.le_up (show 0 < 128 by decide) c.curr.used
  have hheader := hcurr.header_le
  rw [hstart]
  exact ⟨hc.setUsed commited (by omega) hfits, rfl, rfl, rfl, rfl⟩

/-- The arena of a new interner is one block, with a header and the data of the interner. -/
theorem typeInternerNewArena_spec {arena : ArenaChain} (hmemory : memory.Fresh [])
    (h : typeInternerNewArena memory = .returned arena) :
    arena.Valid ∧ pageSize ∣ arena.curr.data ∧ arena.prev = [] ∧
      arena.curr.used = 384 + 2 ^ 17 * 256 + 2 ^ 10 * 128 := by
  obtain ⟨s, hboot, h⟩ := Outcome.bind_eq_returned.mp h
  obtain ⟨⟨c₂, range₂⟩, hcells, h⟩ := Outcome.bind_eq_returned.mp h
  obtain ⟨⟨c₃, range₃⟩, hmutexes, h⟩ := Outcome.bind_eq_returned.mp h
  obtain rfl := Outcome.returned.inj h
  obtain ⟨a, halloc, hpush⟩ := Outcome.bind_eq_returned.mp hboot
  obtain ⟨⟨c₁, range₁⟩, hinterner, hreturn⟩ := Outcome.bind_eq_returned.mp hpush
  obtain rfl := Outcome.returned.inj hreturn
  rw [ArenaState.chain_pushed] at hcells
  obtain ⟨hcommit, hreserved⟩ : memory.commit ∧ a.reserved = 2 ^ 31 := by
    obtain ⟨commited, -, hrest⟩ := Outcome.bind_eq_returned.mp halloc
    obtain ⟨reserved, hreserved, hrest⟩ := Outcome.bind_eq_returned.mp hrest
    obtain rfl : 2 ^ 31 = reserved := (alignForward_eq_returned.mp hreserved).2
    rcases hdata : memory.reserve (2 ^ 31) with _ | data
    · rw [hdata] at hrest
      cases hrest
    rw [hdata] at hrest
    obtain ⟨_, hcommit, hrest⟩ := Outcome.bind_eq_returned.mp hrest
    obtain ⟨start, -, hrest⟩ := Outcome.bind_eq_returned.mp hrest
    obtain ⟨_, -, hrest⟩ := Outcome.bind_eq_returned.mp hrest
    obtain ⟨⟨a', lo, hi⟩, hplace, hrest⟩ := Outcome.bind_eq_returned.mp hrest
    obtain rfl := Outcome.returned.inj hrest
    obtain ⟨_, -, hplace⟩ := Outcome.bind_eq_returned.mp hplace
    obtain ⟨_, -, hplace⟩ := Outcome.bind_eq_returned.mp hplace
    obtain ⟨_, -, hplace⟩ := Outcome.bind_eq_returned.mp hplace
    obtain ⟨_, -, hplace⟩ := Outcome.bind_eq_returned.mp hplace
    obtain ⟨rfl, -⟩ := Prod.mk.inj (Outcome.returned.inj hplace)
    exact ⟨arenaAssert_eq_returned.mp hcommit, rfl⟩
  obtain ⟨hvalid, hused, hbase, hpaged, -⟩ := arenaAlloc_spec hmemory halloc
  have hc₀ : ArenaChain.Valid ⟨a, []⟩ :=
    ⟨List.forall_mem_singleton.mpr hvalid, List.pairwise_singleton _ a, hbase, trivial⟩
  have hpage : pageSize ∣ 2 ^ 31 := by decide
  obtain ⟨hc₁, hprev₁, hdata₁, hreserved₁, hused₁⟩ := arenaPush_within hc₀ hpaged.data
    hpaged.reserved hcommit (by decide) (by rw [hused, hreserved]; decide) hinterner
  rw [hused] at hused₁
  obtain ⟨hc₂, hprev₂, hdata₂, hreserved₂, hused₂⟩ := arenaPush_within hc₁ (hdata₁ ▸ hpaged.data)
    (hreserved₁ ▸ hpaged.reserved) hcommit (by decide)
    (by rw [hused₁, hreserved₁, hreserved]; decide) hcells
  rw [hused₁] at hused₂
  obtain ⟨hc₃, hprev₃, hdata₃, hreserved₃, hused₃⟩ := arenaPush_within hc₂
    (hdata₂ ▸ hdata₁ ▸ hpaged.data) (hreserved₂ ▸ hreserved₁ ▸ hpaged.reserved) hcommit
    (by decide) (by rw [hused₂, hreserved₂, hreserved₁, hreserved]; decide) hmutexes
  rw [hused₂] at hused₃
  refine ⟨hc₃, hdata₃ ▸ hdata₂ ▸ hdata₁ ▸ hpaged.data, hprev₃.trans (hprev₂.trans hprev₁), ?_⟩
  rw [hused₃]
  decide

/-- A new interner, in front of all calls. -/
theorem divides_start {arena : ArenaChain} (hmemory : memory.Fresh [])
    (h : typeInternerNewArena memory = .returned arena) :
    InternerMemory.Divides (τ := τ) arena.first.data (fun _ => [(0, 0)])
      (typeInternerNew (ι := τ × ℕ) |>.allocated.map fun p => (arena.first.data + p.1, p.2))
      ⟨typeInternerNew, ⟨arena, none⟩⟩ := by
  obtain ⟨hc, hpage, hprev, hused⟩ := typeInternerNewArena_spec hmemory h
  have hfirst : arena.first = arena.curr := by
    rw [ArenaChain.first, hprev, List.getLastD_nil]
  have hcurr := hc.block arena.curr List.mem_cons_self
  have hstop := hcurr.stop_le
  have hle := hcurr.used_le
  rw [hfirst]
  have hnone : ∀ b, Apart (0, 0) b := fun b => Or.inl (Nat.zero_le _)
  have hsize : ∀ p ∈ (typeInternerNew (ι := τ × ℕ)).allocated, p.1 + p.2 ≤ arena.curr.used := by
    intro p hp
    rw [hused]
    simp only [typeInternerNew, List.mem_cons, List.not_mem_nil, or_false] at hp
    obtain rfl | rfl | rfl | rfl := hp <;> decide
  refine ⟨hc, congrArg Arena.data hfirst, hpage,
    ⟨fun _ => List.pairwise_singleton _ _, fun _ _ _ a ha b _ => ?_, fun _ a ha b _ => ?_⟩,
    fun _ r hr => Or.inl (List.mem_singleton.mp hr), fun r hr => ?_, fun p hp => ?_⟩
  · exact List.mem_singleton.mp ha ▸ hnone b
  · exact List.mem_singleton.mp ha ▸ hnone b
  · obtain ⟨p, hp, rfl⟩ := List.mem_map.mp hr
    refine Or.inr ⟨arena.curr, List.mem_cons_self, Nat.le_add_right _ _, ?_⟩
    have := hsize p hp
    dsimp only
    omega
  · refine ⟨_, List.mem_map_of_mem hp, ?_⟩
    have := hsize p hp
    rw [offsetFrom]
    refine Prod.ext ?_ rfl
    dsimp only
    omega

theorem asserts_start (keys : τ → ℕ → TypeKey) (i : τ) (s : InternerMemory τ) :
    InternThread.Asserts keys (fun _ => [(0, 0)]) i s {} :=
  ⟨rfl, ⟨le_rfl, Nat.two_pow_pos 63, Or.inl rfl⟩, trivial⟩

theorem depth_le_of_asserts {s : SharedArena τ} {a : TypeInternerThreadArena} {n k : ℕ}
    {pc : AllocPc} (h : pc.Asserts i s a n k) : pc.depth ≤ 1 := by
  cases pc with
  | fit depth =>
    obtain rfl | ⟨rfl, -⟩ := h
    · exact Nat.zero_le 1
    · exact le_rfl
  | lock depth => exact (show depth = 0 from h).le.trans (Nat.zero_le 1)
  | push depth => exact h.1.le.trans (Nat.zero_le 1)
  | unlock depth => exact h.1.le.trans (Nat.zero_le 1)
  | _ => exact Nat.zero_le 1

theorem mutex_of_locks {s : SharedArena τ} {a : TypeInternerThreadArena} {n k : ℕ}
    {pc : AllocPc} (h : pc.Asserts i s a n k) (hlocks : pc.Locks) : s.mutex = some i := by
  cases pc with
  | push depth => exact h.2
  | unlock depth => exact h.2.2
  | _ => exact hlocks.elim

/-- What a call knows of its allocation, whatever it is for. -/
theorem InternThread.Asserts.pc (h : l.Asserts keys own i s) {pc : AllocPc}
    (hpc : l.alloc.pc? = some pc) : ∃ n k, pc.Asserts i s.shared l.arena n k := by
  have halloc := h.alloc
  obtain ⟨arena, returned, pc', alloc⟩ := l
  cases alloc with
  | idle => cases hpc
  | type alloc =>
    obtain rfl := Option.some.inj hpc
    exact ⟨_, _, halloc.2⟩
  | members address alloc =>
    obtain rfl := Option.some.inj hpc
    exact ⟨_, _, halloc.2.2⟩
  | cell alloc =>
    obtain rfl := Option.some.inj hpc
    exact ⟨_, _, halloc.2⟩

variable [DecidableEq τ] {arena : ArenaChain}
  {c : Threads.Config τ (InternerMemory τ) InternThread}

theorem internThreads_invariant (hmemory : memory.Fresh [])
    (hnew : typeInternerNewArena memory = .returned arena)
    (hkeys : ∀ i n, sizeOfTypeMember * (keys i n).members.length < 2 ^ 63)
    (h : Threads.Reach (InternThreadStep digest keys) (internThreadsStart arena) c) :
    (∃ own taken, c.shared.Divides arena.first.data own taken ∧
      ∀ i, (c.locals i).Asserts keys own i c.shared) ∧
    InternReach digest (fun call : τ × ℕ => keys call.1 call.2) (internCalls c) := by
  have hstep : ∀ (g : (τ → List (ℕ × ℕ)) × List (ℕ × ℕ)) i s (l : InternThread) s' l',
      InternerMemory.Divides arena.first.data g.1 g.2 s → l.Asserts keys g.1 i s →
      InternThreadStep digest keys i s l s' l' →
      ∃ g' : (τ → List (ℕ × ℕ)) × List (ℕ × ℕ), s'.Divides arena.first.data g'.1 g'.2 ∧
        l'.Asserts keys g'.1 i s' ∧ ∀ j, j ≠ i → ∀ m : InternThread,
          m.Asserts keys g.1 j s → m.Asserts keys g'.1 j s' := by
    intro g i s l s' l' hs hl hstep
    obtain ⟨own', taken', hkeeps⟩ := internThreadStep_keeps hkeys hs hl hstep
    exact ⟨(own', taken'), hkeeps⟩
  have hstart : ∃ g : (τ → List (ℕ × ℕ)) × List (ℕ × ℕ),
      InternerMemory.Divides arena.first.data g.1 g.2 (internThreadsStart (τ := τ) arena).shared ∧
      ∀ i, InternThread.Asserts keys g.1 i (internThreadsStart arena).shared
        ((internThreadsStart arena).locals i) :=
    ⟨(_, _), divides_start hmemory hnew, fun i => asserts_start keys i _⟩
  obtain ⟨⟨own, taken⟩, hinv⟩ := Threads.Reach.invariant hstep h hstart
  refine ⟨⟨own, taken, hinv⟩, ?_⟩
  have hrun := Threads.Reach.simulates internCalls hstep
    (fun g c i s l _ _ hi => internCalls_step hi) h hstart
  have heq : internCalls (internThreadsStart (τ := τ) arena) = internStart :=
    congrArg (Threads.Config.mk _) (funext fun call => ite_self _)
  rw [heq] at hrun
  exact hrun

/-- **The interner has all the memory it needs.** Threads that intern types, each with an arena
of its own over the arena of the interner, in any order of their steps: what they do is a run of
the calls with any free memory; a thread takes its next step unless it waits for a mutex that is
taken, or was stopped; one thread at a time pushes to the arena of the interner; and
`type_interner_thread_arena_alloc` calls itself at most once. -/
theorem internThreads_refine (hmemory : memory.Fresh [])
    (hnew : typeInternerNewArena memory = .returned arena)
    (hkeys : ∀ i n, sizeOfTypeMember * (keys i n).members.length < 2 ^ 63)
    (h : Threads.Reach (InternThreadStep digest keys) (internThreadsStart arena) c) :
    InternReach digest (fun call : τ × ℕ => keys call.1 call.2) (internCalls c) ∧
    (∀ i memory, ¬(c.locals i).Waits digest keys i c.shared →
      ∃ r, internThreadStep digest keys i memory c.shared (c.locals i) = some r) ∧
    (∀ i j pc pc', (c.locals i).alloc.pc? = some pc → (c.locals j).alloc.pc? = some pc' →
      pc.Locks → pc'.Locks → i = j) ∧
    ∀ i pc, (c.locals i).alloc.pc? = some pc → pc.depth ≤ 1 := by
  obtain ⟨⟨own, taken, hs, hl⟩, hrun⟩ := internThreads_invariant hmemory hnew hkeys h
  refine ⟨hrun, fun i memory hwaits => internThreadStep_isSome hs (hl i) hwaits,
    fun i j pc pc' hi hj hlocks hlocks' => ?_, fun i pc hi => ?_⟩
  · obtain ⟨n, k, hasserts⟩ := (hl i).pc hi
    obtain ⟨n', k', hasserts'⟩ := (hl j).pc hj
    have hmutex := mutex_of_locks hasserts hlocks
    exact Option.some.inj (hmutex.symm.trans (mutex_of_locks hasserts' hlocks'))
  · obtain ⟨n, k, hasserts⟩ := (hl i).pc hi
    exact depth_le_of_asserts hasserts

/-- Two gigabytes at an address, or no more memory. -/
def twoGigabytes : VirtualMemory where
  reserve size := if size ≤ 2 ^ 31 then some 0x10000 else none
  commit := true

def nothingReserved : VirtualMemory := ⟨fun _ => none, true⟩

def internerArena : ArenaChain where
  curr := { data := 0x10000, used := 33685888, reserved := 2 ^ 31, commited := 33689600 }
  prev := []

/-- Two threads with the key of `i32`. The first one takes memory, and inserts the type while the
second one waits in front of the lock. -/
theorem internThreads_refine_i32 :
    ∃ c : Threads.Config (Fin 2) (InternerMemory (Fin 2)) InternThread,
      (c.locals 0).pc = .done 4211200 ∧ (c.locals 1).pc = .done 4211200 ∧
      InternReach i32Digest (fun _ => i32Key) (internCalls c) := by
  have hmemory : twoGigabytes.Fresh [] := by
    intro size data hdata
    simp only [twoGigabytes, Option.ite_none_right_eq_some, Option.some.injEq] at hdata
    obtain ⟨hsize, rfl⟩ := hdata
    refine ⟨by decide, by decide, by omega, fun b hb => ?_⟩
    cases hb
  have hnew : typeInternerNewArena twoGigabytes = .returned internerArena := by decide +kernel
  have hexec : ((Threads.exec (fun i (_ : Unit) s l =>
      internThreadStep i32Digest (fun _ _ => i32Key) i nothingReserved s l)
      (List.replicate 11 (0, ()) ++ List.replicate 11 (1, ()) ++ List.replicate 25 (0, ()) ++
        List.replicate 4 (1, ())) (internThreadsStart internerArena)).map
      fun c : Threads.Config (Fin 2) (InternerMemory (Fin 2)) InternThread =>
        ((c.locals 0).pc, (c.locals 1).pc)) = some (.done 4211200, .done 4211200) := by
    decide +kernel
  obtain ⟨c, hc, hdone⟩ := Option.map_eq_some_iff.mp hexec
  obtain ⟨h0, h1⟩ := Prod.mk.inj hdone
  have hreach : Threads.Reach (InternThreadStep i32Digest fun _ _ => i32Key)
      (internThreadsStart internerArena) c := by
    refine (Threads.exec_sound _ hc).mono fun i s l s' l' hi => ?_
    obtain ⟨_, hi⟩ := hi
    refine ⟨nothingReserved, fun size data hdata => ?_, hi⟩
    cases hdata
  exact ⟨c, h0, h1, (internThreads_refine hmemory hnew (fun _ _ => by decide) hreach).1⟩

end Wasim.Wopt
