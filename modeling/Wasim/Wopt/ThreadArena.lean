import Wasim.Base.ArenaGrowth
import Wasim.Library.Territory

/-!
# The arenas of threads

`type_interner_thread_arena_alloc`: a thread takes memory from a piece of the interner's arena
that it has for itself, and asks for a new piece, behind the mutex of the arena, when the rest of
the piece is too short. The procedure calls itself then, and one step is one visit of it up to the
lock, the lock, the push, or the unlock.

A call with an alignment up to a page asks for at most one piece (`AllocPc.Asserts`), and what it
is served lies in the rest of the thread's piece (`allocStep_cases`). Pushes are placed behind all
that is in use (`arenaPush_placed`).
-/

namespace Wasim

open Territory

/-! ### Memory in use -/

/-- The range lies in what is in use of a block, or is none. -/
def ArenaChain.Placed (c : ArenaChain) (r : ℕ × ℕ) : Prop :=
  r = (0, 0) ∨ ∃ b ∈ c.blocks, Inside r (b.data, b.used)

variable {c c' : ArenaChain} {memory : VirtualMemory} {size align : ℕ}

theorem ArenaChain.Placed.inside {r r' : ℕ × ℕ} (h : c.Placed r) (hr : Inside r' r) :
    c.Placed r' := by
  obtain rfl | ⟨b, hb, hin⟩ := h
  · obtain ⟨hlo, hhi⟩ := hr
    refine Or.inl (Prod.ext ?_ ?_) <;> dsimp only at hlo hhi ⊢ <;> omega
  · exact Or.inr ⟨b, hb, hr.trans hin⟩

theorem apart_of_disjoint {a n b m : ℕ} (h : Disjoint (Finset.Ico a (a + n)) (Finset.Ico b (b + m)))
    (hn : 0 < n) (hm : 0 < m) : Apart (a, n) (b, m) := by
  by_contra hapart
  rw [Apart, not_or] at hapart
  dsimp only at hapart
  have hmem : max a b ∈ Finset.Ico a (a + n) := Finset.mem_Ico.mpr (by omega)
  exact Finset.disjoint_left.mp h hmem (Finset.mem_Ico.mpr (by omega))

theorem Arena.Valid.reserved_pos {a : Arena} (h : a.Valid) : 0 < a.reserved := by
  have hheader := h.header_le
  have hused := h.used_le
  rw [sizeOfArena] at hheader
  omega

/-- A push is placed apart from all memory that is in use. -/
theorem arenaPush_placed {range : Option (ℕ × ℕ)} (hc : c.Valid) (hmemory : memory.Fresh c.blocks)
    (hpos : 0 < size) (hsize : size < 2 ^ 64) (halign : align < 2 ^ 64)
    (h : arenaPushAlignedNonZeroed memory c size align = .returned (c', range)) :
    c'.Valid ∧ c'.first.data = c.first.data ∧ (∀ r, c.Placed r → c'.Placed r) ∧
      ∃ lo, range = some (lo, lo + size) ∧ align ∣ lo ∧ c'.Placed (lo, size) ∧
        ∀ r, c.Placed r → Apart (lo, size) r := by
  have hcurr := hc.block c.curr List.mem_cons_self
  obtain ⟨hzero, -⟩ | ⟨target, start, commited, htarget, -, hused, hstop, hdvd, rfl, rfl⟩ :=
    arenaPush_cases hcurr hmemory hsize halign h
  · omega
  have hvalid : target.Valid := by
    obtain rfl | ⟨a, ha, -, -, hapart, rfl⟩ := htarget
    · exact hc
    · exact hc.cons ha hapart
  have hfirst : target.first.data = c.first.data := by
    obtain rfl | ⟨a, -, -, -, -, rfl⟩ := htarget
    · rfl
    · rw [ArenaChain.first, ArenaChain.blocks, List.getLastD_cons]
      rfl
  have hblocks : ∀ b ∈ c.blocks, b ∈ target.blocks := by
    obtain rfl | ⟨a, -, -, -, -, rfl⟩ := htarget
    · exact fun b hb => hb
    · exact fun b hb => List.mem_cons_of_mem _ hb
  have hheader := (hvalid.block _ List.mem_cons_self).header_le
  refine ⟨hvalid.setUsed commited (by omega) hstop, ?_, fun r hr => ?_, target.curr.data + start,
    by rw [Nat.add_assoc], hdvd, Or.inr ⟨_, List.mem_cons_self, ?_⟩, fun r hr => ?_⟩
  · rw [← hfirst, ArenaChain.first, ArenaChain.first]
    rcases hprev : target.prev with _ | ⟨b, bs⟩
    · rfl
    · rw [List.getLastD_cons, List.getLastD_cons]
  · obtain rfl | ⟨b, hb, hin⟩ := hr
    · exact Or.inl rfl
    obtain rfl | hb := List.mem_cons.mp (hblocks b hb)
    · refine Or.inr ⟨_, List.mem_cons_self, hin.trans ⟨le_rfl, ?_⟩⟩
      dsimp only
      omega
    · exact Or.inr ⟨b, List.mem_cons_of_mem _ hb, hin⟩
  · refine ⟨Nat.le_add_right _ _, ?_⟩
    dsimp only
    omega
  · obtain rfl | ⟨b, hb, hin⟩ := hr
    · exact Or.inr (Nat.zero_le _)
    obtain rfl | hb := List.mem_cons.mp (hblocks b hb)
    · exact Or.inr (hin.2.trans (Nat.add_le_add_left hused _))
    · -- another block has other pages
      have hb' := hvalid.block b (List.mem_cons_of_mem _ hb)
      have htarget' := hvalid.block _ List.mem_cons_self
      have hregions := (List.pairwise_cons.mp hvalid.apart).1 b hb
      have hapart := apart_of_disjoint hregions htarget'.reserved_pos hb'.reserved_pos
      refine ((hapart.inside ?_).symm.inside ?_).symm
      · exact ⟨Nat.le_add_right _ _, by dsimp only; omega⟩
      · exact hin.trans ⟨le_rfl, Nat.add_le_add_left hb'.used_le _⟩

namespace Wopt

/-! ### The procedure -/

/-- `Type_Interner_Thread_Arena`: the piece that a thread takes memory from. -/
structure TypeInternerThreadArena where
  used : ℕ := 0
  data : ℕ := 0
  length : ℕ := 0
  deriving DecidableEq, Repr

/-- `TYPE_INTERNER_THREAD_LOCAL_SIZE`. -/
def typeInternerThreadLocalSize : ℕ := 2 ^ 21

/-- The arena of the interner and the owner of its mutex. -/
structure SharedArena (τ : Type) where
  arena : ArenaChain
  mutex : Option τ := none

/-- Where a call of `type_interner_thread_arena_alloc` is, in the call of itself with the number
`depth`. -/
inductive AllocPc
  -- it looks at the rest of the piece
  | fit (depth : ℕ)
  -- it waits for the mutex
  | lock (depth : ℕ)
  -- it asks for a new piece
  | push (depth : ℕ)
  -- it gives the mutex back
  | unlock (depth : ℕ)
  -- it has returned data at the address
  | served (address : ℕ)
  | crashed
  deriving DecidableEq, Repr

/-- The address of the data, if there is enough space. -/
def threadArenaFit (a : TypeInternerThreadArena) (size align : ℤ) :
    Outcome (Option (TypeInternerThreadArena × ℕ)) := do
  arenaAssert (0 ≤ size)
  arenaAssert (0 < align)
  let aligned ← alignForward ((a.used + a.data) % 2 ^ 64) align.toNat
  let aligned := (aligned + (2 ^ 64 - a.data)) % 2 ^ 64
  let stop := (aligned + size.toNat) % 2 ^ 64
  if a.length < stop then return none
  else do
    sliceBounds aligned stop
    return some ({ a with used := stop }, a.data + aligned)

/-- A new piece, of whole pages. -/
def threadArenaRefill (memory : VirtualMemory) (arena : ArenaChain) (size : ℤ) :
    Outcome (ArenaChain × TypeInternerThreadArena) := do
  let length := max typeInternerThreadLocalSize size.toNat
  let (arena, data) ← arenaPushAlignedNonZeroed memory arena length pageSize
  match data with
  | some (lo, _) => return (arena, { data := lo, length })
  | none => return (arena, {})

def allocStep {τ : Type} (i : τ) (memory : VirtualMemory) (size align : ℤ) (s : SharedArena τ)
    (a : TypeInternerThreadArena) :
    AllocPc → Option (SharedArena τ × TypeInternerThreadArena × AllocPc)
  | .fit depth =>
    match threadArenaFit a size align with
    | .returned (some (a, address)) => some (s, a, .served address)
    | .returned none => some (s, a, .lock depth)
    | _ => some (s, a, .crashed)
  | .lock depth =>
    match s.mutex with
    | none => some ({ s with mutex := some i }, a, .push depth)
    | some _ => none
  | .push depth =>
    match threadArenaRefill memory s.arena size with
    | .returned (arena, a) => some ({ s with arena }, a, .unlock depth)
    | _ => some (s, a, .crashed)
  | .unlock depth => some ({ s with mutex := none }, a, .fit (depth + 1))
  | .served _ => none
  | .crashed => none

/-! ### What the procedure keeps -/

namespace TypeInternerThreadArena

/-- What is left of the piece. -/
def rest (a : TypeInternerThreadArena) : ℕ × ℕ := (a.data + a.used, a.length - a.used)

structure Valid (a : TypeInternerThreadArena) (c : ArenaChain) : Prop where
  used_le : a.used ≤ a.length
  length_lt : a.length < 2 ^ 63
  placed : c.Placed a.rest

/-- A new piece that is long enough. -/
structure Fresh (a : TypeInternerThreadArena) (size : ℕ) : Prop where
  used : a.used = 0
  data : pageSize ∣ a.data
  le_length : size ≤ a.length

theorem Valid.stop_le {a : TypeInternerThreadArena} (h : a.Valid c) (hc : c.Valid) :
    a.data + a.length ≤ 2 ^ 63 := by
  have hused := h.used_le
  obtain hnone | ⟨b, hb, -, hin⟩ := h.placed
  · obtain ⟨hlo, hlength⟩ := Prod.mk.inj hnone
    omega
  · have hb' := hc.block b hb
    have hle := hb'.used_le
    have hstop := hb'.stop_le
    dsimp only [rest] at hin
    omega

end TypeInternerThreadArena

variable {a a' : TypeInternerThreadArena} {n k : ℕ}

/-- The look at the rest does not fail. -/
theorem threadArenaFit_eq (hused : a.used ≤ a.length) (hstop : a.data + a.length ≤ 2 ^ 63)
    (hlength : a.length < 2 ^ 63) (hn : n < 2 ^ 63) (hk : k.isPowerOfTwo) (hle : k ≤ pageSize) :
    threadArenaFit a n k = .returned
      (if a.data + a.length < Align.up (a.data + a.used) k + n then none
      else some ({ a with used := Align.up (a.data + a.used) k - a.data + n },
        Align.up (a.data + a.used) k)) := by
  have hpage : pageSize = 4096 := rfl
  have hpos : 0 < k := Nat.pos_of_isPowerOfTwo hk
  have halign : alignForward ((a.used + a.data) % 2 ^ 64) k =
      .returned (Align.up (a.data + a.used) k) := by
    rw [Nat.mod_eq_of_lt (by omega), Nat.add_comm, alignForward_eq hk (by omega)]
  have hup := Align.le_up hpos (a.data + a.used)
  obtain ⟨-, hmiddle, -⟩ := alignForward_spec (by omega) (by omega) halign
  have haligned : (Align.up (a.data + a.used) k + (2 ^ 64 - a.data)) % 2 ^ 64 =
      Align.up (a.data + a.used) k - a.data := by omega
  have haddress : a.data + (Align.up (a.data + a.used) k - a.data) =
      Align.up (a.data + a.used) k := by omega
  rw [threadArenaFit, arenaAssert, if_pos (Int.natCast_nonneg n), Outcome.returned_bind,
    arenaAssert, if_pos (by omega), Outcome.returned_bind, Int.toNat_natCast, Int.toNat_natCast,
    halign, Outcome.returned_bind]
  simp only [haligned, haddress]
  rw [Nat.mod_eq_of_lt (by omega)]
  by_cases hfits : a.data + a.length < Align.up (a.data + a.used) k + n
  · rw [if_pos hfits, if_pos (by omega)]
    rfl
  · have hbounds : sliceBounds (Align.up (a.data + a.used) k - a.data)
        (Align.up (a.data + a.used) k - a.data + n) = .returned () := by
      rw [sliceBounds, arenaAssert, if_pos]
      rw [bmod_of_lt (by omega), bmod_of_lt (by omega)]
      exact Int.ofNat_le.mpr (Nat.le_add_right _ _)
    rw [if_neg hfits, if_neg (by omega), hbounds]
    rfl

variable {τ : Type} {i : τ} {s s' : SharedArena τ} {pc pc' : AllocPc}

/-- What a thread knows between two steps of a call. The mutex is held from the lock to the
unlock, and by a thread that has run out of memory. A call asks for a new piece only once. -/
def AllocPc.Asserts (i : τ) (s : SharedArena τ) (a : TypeInternerThreadArena) (n k : ℕ) :
    AllocPc → Prop
  | fit depth => depth = 0 ∨ (depth = 1 ∧ a.Fresh n)
  | lock depth => depth = 0
  | push depth => depth = 0 ∧ s.mutex = some i
  | unlock depth => depth = 0 ∧ a.Fresh n ∧ s.mutex = some i
  | served address => k ∣ address
  | crashed => s.mutex = some i

/-- The data that the call has returned. -/
def AllocPc.ranges (n : ℕ) : AllocPc → List (ℕ × ℕ)
  | served address => [(address, n)]
  | _ => []

/-- What a step of a call leaves behind. -/
structure AllocKeeps (i : τ) (n k : ℕ) (s s' : SharedArena τ) (a a' : TypeInternerThreadArena)
    (pc' : AllocPc) : Prop where
  chain : s'.arena.Valid
  first : s'.arena.first.data = s.arena.first.data
  placed : ∀ r, s.arena.Placed r → s'.arena.Placed r
  arena : a'.Valid s'.arena
  asserts : pc'.Asserts i s' a' n k
  mutex : ∀ j, j ≠ i → s.mutex = some j → s'.mutex = some j
  /-- It has split the rest, or has exchanged it for memory that was not in use, or has done
  neither. -/
  ranges : (pc'.ranges n = [] ∧ a' = a) ∨
    (pc'.ranges n = [] ∧ ∀ r, s.arena.Placed r → Apart a'.rest r) ∨
    ∃ address, pc'.ranges n = [(address, n)] ∧ Inside (address, n) a.rest ∧
      Inside a'.rest a.rest ∧ Apart a'.rest (address, n)

theorem allocStep_keeps (hs : s.arena.Valid) (ha : a.Valid s.arena)
    (hmemory : memory.Fresh s.arena.blocks) (hn : n < 2 ^ 63) (hk : k.isPowerOfTwo)
    (hle : k ≤ pageSize) (hpc : pc.Asserts i s a n k)
    (h : allocStep i memory n k s a pc = some (s', a', pc')) :
    AllocKeeps i n k s s' a a' pc' := by
  have hpos : 0 < k := Nat.pos_of_isPowerOfTwo hk
  have hpage : pageSize = 4096 := rfl
  have hused := ha.used_le
  have hstop := ha.stop_le hs
  cases pc with
  | fit depth =>
    have hup := Align.le_up hpos (a.data + a.used)
    rw [allocStep, threadArenaFit_eq hused hstop ha.length_lt hn hk hle] at h
    split_ifs at h with hshort
    · obtain ⟨rfl, rfl, rfl⟩ := by simpa using h
      refine ⟨hs, rfl, fun _ hr => hr, ha, ?_, fun _ _ hj => hj, Or.inl ⟨rfl, rfl⟩⟩
      obtain hdepth | ⟨-, hfresh⟩ := hpc
      · exact hdepth
      · -- behind a push the piece is long enough
        have hdvd : k ∣ a.data := (dvd_pageSize hk hle).trans hfresh.data
        have hlength := hfresh.le_length
        rw [hfresh.used, Nat.add_zero, Align.up_of_dvd hpos hdvd] at hshort
        omega
    · obtain ⟨rfl, rfl, rfl⟩ := by simpa using h
      have hinside : Inside (Align.up (a.data + a.used) k, n) a.rest :=
        ⟨hup, by dsimp only [TypeInternerThreadArena.rest]; omega⟩
      have hrest : Inside (a.data + (Align.up (a.data + a.used) k - a.data + n),
          a.length - (Align.up (a.data + a.used) k - a.data + n)) a.rest := by
        constructor <;> dsimp only [TypeInternerThreadArena.rest] <;> omega
      refine ⟨hs, rfl, fun _ hr => hr, ⟨by dsimp only; omega, ha.length_lt, ha.placed.inside hrest⟩,
        Align.dvd_up _ _, fun _ _ hj => hj, Or.inr (Or.inr ⟨_, rfl, hinside, hrest, Or.inr ?_⟩)⟩
      dsimp only [TypeInternerThreadArena.rest]
      omega
  | lock depth =>
    rw [allocStep] at h
    split at h
    · rename_i hmutex
      obtain ⟨rfl, rfl, rfl⟩ := by simpa using h
      refine ⟨hs, rfl, fun _ hr => hr, ha, ⟨hpc, rfl⟩, fun j _ hj => ?_, Or.inl ⟨rfl, rfl⟩⟩
      rw [hmutex] at hj
      cases hj
    · cases h
  | push depth =>
    rw [allocStep] at h
    split at h
    · rename_i arena a₁ hrefill
      obtain ⟨rfl, rfl, rfl⟩ := by simpa using h
      obtain ⟨⟨arena', range⟩, hpush, hreturn⟩ := Outcome.bind_eq_returned.mp hrefill
      have hlocal : 0 < typeInternerThreadLocalSize := by decide
      have hlength : max typeInternerThreadLocalSize n < 2 ^ 64 := by
        rw [typeInternerThreadLocalSize]
        omega
      rw [Int.toNat_natCast] at hpush hreturn
      obtain ⟨hs', hfirst, hmono, lo, rfl, hdvd, hplaced, hapart⟩ :=
        arenaPush_placed hs hmemory (by omega) hlength (by decide) hpush
      obtain ⟨rfl, rfl⟩ := by simpa using Outcome.returned.inj hreturn
      refine ⟨hs', hfirst, hmono, ⟨Nat.zero_le _, ?_, hplaced⟩,
        ⟨hpc.1, ⟨rfl, hdvd, le_max_right _ _⟩, hpc.2⟩, fun _ _ hj => hj,
        Or.inr (Or.inl ⟨rfl, hapart⟩)⟩
      rw [typeInternerThreadLocalSize]
      dsimp only
      omega
    · obtain ⟨rfl, rfl, rfl⟩ := by simpa using h
      exact ⟨hs, rfl, fun _ hr => hr, ha, hpc.2, fun _ _ hj => hj, Or.inl ⟨rfl, rfl⟩⟩
  | unlock depth =>
    obtain ⟨hdepth, hfresh, hmutex⟩ := hpc
    rw [allocStep] at h
    obtain ⟨rfl, rfl, rfl⟩ := by simpa using h
    refine ⟨hs, rfl, fun _ hr => hr, ha, Or.inr ⟨congrArg Nat.succ hdepth, hfresh⟩,
      fun j hne hj => ?_, Or.inl ⟨rfl, rfl⟩⟩
    rw [hmutex] at hj
    exact absurd (Option.some.inj hj).symm hne
  | served address => cases h
  | crashed => cases h

/-- The memory of the threads stays divided. -/
theorem AllocKeeps.divided [DecidableEq τ] {own : τ → List (ℕ × ℕ)} {taken held : List (ℕ × ℕ)}
    (h : AllocKeeps i n k s s' a a' pc') (hd : Divided own taken) (hown : own i = a.rest :: held)
    (hplaced : ∀ j, ∀ r ∈ own j, s.arena.Placed r) (htaken : ∀ r ∈ taken, s.arena.Placed r) :
    Divided (Function.update own i (a'.rest :: (pc'.ranges n ++ held))) taken := by
  obtain ⟨hranges, rfl⟩ | ⟨hranges, hnew⟩ | ⟨address, hranges, hpiece, hrest, hapart⟩ := h.ranges
  · rwa [hranges, List.nil_append, ← hown, Function.update_eq_self]
  · rw [hranges, List.nil_append]
    exact hd.claim i hown (fun j b hb => hnew b (hplaced j b hb)) fun b hb => hnew b (htaken b hb)
  · have hmem : a.rest ∈ own i := hown ▸ List.mem_cons_self
    have hheld := List.pairwise_cons.mp (hown ▸ hd.self i)
    rw [hranges, List.singleton_append]
    refine hd.split i ?_ fun r hr => ?_
    · refine List.pairwise_cons.mpr ⟨fun r hr => ?_, List.pairwise_cons.mpr ⟨fun r hr => ?_,
        hheld.2⟩⟩
      · obtain rfl | hr := List.mem_cons.mp hr
        · exact hapart
        · exact (hheld.1 r hr).inside hrest
      · exact (hheld.1 r hr).inside hpiece
    · obtain rfl | hr := List.mem_cons.mp hr
      · exact ⟨_, hmem, hrest⟩
      obtain rfl | hr := List.mem_cons.mp hr
      · exact ⟨_, hmem, hpiece⟩
      · exact ⟨r, hown ▸ List.mem_cons_of_mem _ hr, Inside.refl r⟩

/-- What is served was placed before. -/
theorem AllocKeeps.placed_ranges (h : AllocKeeps i n k s s' a a' pc') (ha : a.Valid s.arena)
    {r : ℕ × ℕ} (hr : r ∈ pc'.ranges n) : s'.arena.Placed r := by
  obtain ⟨hranges, -⟩ | ⟨hranges, -⟩ | ⟨address, hranges, hpiece, -⟩ := h.ranges
  · rw [hranges] at hr
    cases hr
  · rw [hranges] at hr
    cases hr
  · rw [hranges, List.mem_singleton] at hr
    exact h.placed r (ha.placed.inside (hr ▸ hpiece))

end Wopt

end Wasim
