import Mathlib.Data.Int.ModEq
import Mathlib.Order.Interval.Finset.Nat
import Wasim.Library.Outcome

/-!
# Arenas

The arena of `base/arena.odin`: a chain of blocks of reserved memory, of which only the last is
pushed to. A block starts with its header, which counts as used, and a position is the number of
bytes in use from the first block on. The headers are held here as a list in place of the
pointers between them, and the sanitizer's calls are left out.

Numbers are those of the source's `uint` and `uintptr`, so that sums are cut off to 64 bits. The
system may refuse to reserve or to commit memory; that, an assertion that fails and a slice out
of bounds all crash.
-/

namespace Wasim

/-- `size_of(Arena)`, and its alignment. -/
def sizeOfArena : ℕ := 72

def alignOfArena : ℕ := 8

def pageSize : ℕ := 4096

structure ArenaFlags where
  noGrowing : Bool := false
  deriving DecidableEq, Repr

/-- The header of a block. -/
structure Arena where
  flags : ArenaFlags := {}
  basePos : ℕ := 0
  data : ℕ := 0
  used : ℕ := 0
  reserved : ℕ := 0
  commited : ℕ := 0
  initialCommited : ℕ := 0
  deriving DecidableEq, Repr

/-- The blocks from the current one back to the first, which is the arena that is passed
around. -/
structure ArenaChain where
  curr : Arena
  prev : List Arena
  deriving DecidableEq, Repr

namespace ArenaChain

def blocks (c : ArenaChain) : List Arena := c.curr :: c.prev

def first (c : ArenaChain) : Arena := c.prev.getLastD c.curr

/-- The position of the arena. -/
def pos (c : ArenaChain) : ℕ := (c.curr.basePos + c.curr.used) % 2 ^ 64

end ArenaChain

/-- What the system answers during a call: the address of a region of the size that is asked for,
and whether it commits memory. -/
structure VirtualMemory where
  reserve : ℕ → Option ℕ
  commit : Bool

def arenaAssert (condition : Prop) [Decidable condition] : Outcome Unit :=
  if condition then .returned () else .crashed

/-- The least multiple of the alignment from `p` on. -/
def alignForward (p align : ℕ) : Outcome ℕ := do
  arenaAssert align.isPowerOfTwo
  return (p + (align - 1)) % 2 ^ 64 / align * align

/-- The bounds of a slice are compared as numbers with a sign. -/
def sliceBounds (lo hi : ℕ) : Outcome Unit :=
  arenaAssert ((lo : ℤ).bmod (2 ^ 64) ≤ (hi : ℤ).bmod (2 ^ 64))

def arenaAlignUsed (a : Arena) (align : ℕ) : Outcome ℕ := do
  let aligned ← alignForward ((a.used + a.data) % 2 ^ 64) align
  return (aligned + (2 ^ 64 - a.data)) % 2 ^ 64

/-- Commits the pages up to an offset. Returns how much is commited. -/
def arenaCommit (memory : VirtualMemory) (a : Arena) (stop : ℕ) : Outcome ℕ :=
  if a.commited < stop then do
    let nextCommitBoundary ← alignForward stop pageSize
    arenaAssert (a.commited < nextCommitBoundary)
    arenaAssert (nextCommitBoundary ≤ a.reserved)
    arenaAssert memory.commit
    return nextCommitBoundary
  else .returned a.commited

/-- The part of a push behind the choice of the block. Returns the block and the offsets of the
data in it. -/
def arenaPlace (memory : VirtualMemory) (a : Arena) (start size : ℕ) :
    Outcome (Arena × ℕ × ℕ) := do
  let stop := (start + size) % 2 ^ 64
  arenaAssert (stop ≤ a.reserved)
  let commited ← arenaCommit memory a stop
  sliceBounds start stop
  sliceBounds a.used start
  return ({ a with used := stop, commited }, start, stop)

/-- The flags are not stored. -/
def arenaAlloc (memory : VirtualMemory) (commited reserved : ℕ) (_flags : ArenaFlags) :
    Outcome Arena := do
  let commited ← alignForward commited pageSize
  let reserved ← alignForward reserved pageSize
  match memory.reserve reserved with
  | none => .crashed
  | some data =>
    arenaAssert memory.commit
    let a : Arena := { data, reserved, commited, initialCommited := commited }
    let start ← arenaAlignUsed a alignOfArena
    -- only a block of no bytes is too small for its header, and the system reserves no such block
    arenaAssert ((start + sizeOfArena) % 2 ^ 64 ≤ reserved)
    let (a, _, _) ← arenaPlace memory a start sizeOfArena
    return a

/-- Returns the addresses of the data, if there is any. -/
def arenaPushAlignedNonZeroed (memory : VirtualMemory) (c : ArenaChain) (size align : ℕ) :
    Outcome (ArenaChain × Option (ℕ × ℕ)) := do
  if size = 0 then return (c, none)
  else
    let start ← arenaAlignUsed c.curr align
    if c.curr.reserved < (start + size) % 2 ^ 64 then
      arenaAssert (!c.first.flags.noGrowing)
      let needed := (size + sizeOfArena) % 2 ^ 64
      let reserved ← alignForward (max c.curr.reserved needed) pageSize
      let commited ← alignForward (max c.curr.initialCommited needed) pageSize
      let new ← arenaAlloc memory commited reserved c.first.flags
      let new := { new with basePos := (c.curr.basePos + c.curr.used) % 2 ^ 64 }
      let start ← arenaAlignUsed new align
      let (new, start, stop) ← arenaPlace memory new start size
      return (⟨new, c.curr :: c.prev⟩, some (new.data + start, new.data + stop))
    else
      let (curr, start, stop) ← arenaPlace memory c.curr start size
      return (⟨curr, c.prev⟩, some (curr.data + start, curr.data + stop))

/-- Gives up the blocks that start at the position or behind it. -/
def arenaRelease (pos : ℕ) : Arena → List Arena → Outcome ArenaChain
  | curr, prev =>
    if pos ≤ curr.basePos then
      match prev with
      | [] => .crashed
      | b :: bs => arenaRelease pos b bs
    else .returned ⟨curr, prev⟩

def arenaPopTo (c : ArenaChain) (pos : ℕ) : Outcome ArenaChain := do
  -- the header of the first block is kept
  let pos := max pos sizeOfArena
  arenaAssert (pos ≤ c.pos)
  let c ← arenaRelease pos c.curr c.prev
  return ⟨{ c.curr with used := pos - c.curr.basePos }, c.prev⟩

def arenaPop (c : ArenaChain) (size : ℤ) : Outcome ArenaChain := do
  arenaAssert (0 ≤ size)
  arenaAssert (size.toNat ≤ c.pos)
  arenaPopTo c (c.pos - size.toNat)

def arenaClear (c : ArenaChain) : Outcome ArenaChain := arenaPopTo c 0

def arenaTempBegin (c : ArenaChain) : ℕ := c.pos

def arenaTempEnd (c : ArenaChain) (temp : ℕ) : Outcome ArenaChain := arenaPopTo c temp

/-! ### What the procedures return -/

theorem arenaAssert_eq_returned {condition : Prop} [Decidable condition] {u : Unit} :
    arenaAssert condition = .returned u ↔ condition := by
  rw [arenaAssert]
  split <;> simp_all

theorem alignForward_eq_returned {p align r : ℕ} :
    alignForward p align = .returned r ↔
      align.isPowerOfTwo ∧ (p + (align - 1)) % 2 ^ 64 / align * align = r := by
  simp [alignForward, Outcome.bind_eq_returned, arenaAssert_eq_returned]

/-- Below the middle of the address space nothing is cut off. -/
theorem alignForward_spec {p align r : ℕ} (hp : p ≤ 2 ^ 63) (halign : align < 2 ^ 64)
    (h : alignForward p align = .returned r) : p ≤ r ∧ r ≤ 2 ^ 63 ∧ align ∣ r := by
  obtain ⟨⟨k, rfl⟩, rfl⟩ := alignForward_eq_returned.mp h
  have hk : k ≤ 63 := Nat.lt_succ_iff.mp ((Nat.pow_lt_pow_iff_right (by decide)).mp halign)
  have hle : 2 ^ k ≤ 2 ^ 63 := Nat.pow_le_pow_right (by decide) hk
  have hpos : 0 < 2 ^ k := Nat.two_pow_pos k
  rw [Nat.mod_eq_of_lt (by omega)]
  refine ⟨?_, ?_, Nat.dvd_mul_left _ _⟩
  · have hlt := Nat.lt_div_mul_add (a := p + (2 ^ k - 1)) hpos
    omega
  · -- the middle is a multiple of the alignment as well
    have hdvd : 2 ^ 63 = 2 ^ (63 - k) * 2 ^ k := by rw [← pow_add, Nat.sub_add_cancel hk]
    rw [hdvd]
    refine Nat.mul_le_mul_right _ (Nat.lt_succ_iff.mp ((Nat.div_lt_iff_lt_mul hpos).mpr ?_))
    rw [Nat.succ_mul, ← hdvd]
    omega

/-- A block of memory that is in use from its header on. -/
structure Arena.Valid (a : Arena) : Prop where
  data_pos : 0 < a.data
  stop_le : a.data + a.reserved ≤ 2 ^ 63
  header_le : sizeOfArena ≤ a.used
  used_le : a.used ≤ a.reserved

theorem arenaAlignUsed_spec {a : Arena} {align start : ℕ} (hpos : 0 < a.data)
    (hstop : a.data + a.reserved ≤ 2 ^ 63) (hused : a.used ≤ a.reserved)
    (halign : align < 2 ^ 64) (h : arenaAlignUsed a align = .returned start) :
    a.used ≤ start ∧ a.data + start ≤ 2 ^ 63 ∧ align ∣ a.data + start := by
  obtain ⟨r, hr, hstart⟩ := Outcome.bind_eq_returned.mp h
  rw [Nat.mod_eq_of_lt (by omega)] at hr
  obtain ⟨hle, hmiddle, hdvd⟩ := alignForward_spec (by omega) halign hr
  obtain rfl : r - a.data = start := by
    have := Outcome.returned.inj hstart
    omega
  rw [Nat.add_sub_cancel' (by omega)]
  exact ⟨by omega, hmiddle, hdvd⟩

theorem bmod_of_lt {n : ℕ} (h : n < 2 ^ 63) : (n : ℤ).bmod (2 ^ 64) = n := by
  rw [Int.bmod_eq_of_le_mul_two] <;> omega

/-- A push is placed behind what is in use and inside of what is reserved. -/
theorem arenaPlace_spec {memory : VirtualMemory} {a a' : Arena} {start size lo hi : ℕ}
    (hstart : start < 2 ^ 63) (hreserved : a.reserved ≤ 2 ^ 63) (hsize : size < 2 ^ 64)
    (h : arenaPlace memory a start size = .returned (a', lo, hi)) :
    start + size ≤ a.reserved ∧ lo = start ∧ hi = start + size ∧
      ∃ commited, a' = { a with used := start + size, commited } := by
  obtain ⟨_, hle, h⟩ := Outcome.bind_eq_returned.mp h
  obtain ⟨commited, -, h⟩ := Outcome.bind_eq_returned.mp h
  obtain ⟨_, hbounds, h⟩ := Outcome.bind_eq_returned.mp h
  obtain ⟨_, -, h⟩ := Outcome.bind_eq_returned.mp h
  have hle := arenaAssert_eq_returned.mp hle
  have hbounds := arenaAssert_eq_returned.mp hbounds
  -- an end that is cut off lies before the start
  have hstop : (start + size) % 2 ^ 64 = start + size := by
    by_contra hne
    have hcut : (start + size) % 2 ^ 64 < start := by omega
    rw [bmod_of_lt hstart, bmod_of_lt (by omega)] at hbounds
    omega
  rw [hstop] at hle h
  obtain ⟨rfl, rfl, rfl⟩ := by simpa using Outcome.returned.inj h
  exact ⟨hle, rfl, rfl, commited, rfl⟩

/-- The addresses that are reserved for a block. -/
def Arena.region (a : Arena) : Finset ℕ := Finset.Ico a.data (a.data + a.reserved)

/-- The system reserves whole pages apart from the blocks there are, in the lower half of the
address space. -/
def VirtualMemory.Fresh (memory : VirtualMemory) (blocks : List Arena) : Prop :=
  ∀ size data, memory.reserve size = some data →
    0 < data ∧ pageSize ∣ data ∧ data + size ≤ 2 ^ 63 ∧
      ∀ b ∈ blocks, Disjoint (Finset.Ico data (data + size)) b.region

/-- A block of whole pages. -/
structure Arena.Paged (a : Arena) : Prop where
  data : pageSize ∣ a.data
  reserved : pageSize ∣ a.reserved
  growing : a.flags.noGrowing = false

/-- A new block uses its header only. -/
theorem arenaAlloc_spec {memory : VirtualMemory} {blocks : List Arena} {commited reserved : ℕ}
    {flags : ArenaFlags} {a : Arena} (hmemory : memory.Fresh blocks)
    (h : arenaAlloc memory commited reserved flags = .returned a) :
    a.Valid ∧ a.used = sizeOfArena ∧ a.basePos = 0 ∧ a.Paged ∧
      ∀ b ∈ blocks, Disjoint a.region b.region := by
  obtain ⟨commited, -, h⟩ := Outcome.bind_eq_returned.mp h
  obtain ⟨reserved, hreserved, h⟩ := Outcome.bind_eq_returned.mp h
  rcases hdata : memory.reserve reserved with _ | data
  · rw [hdata] at h
    cases h
  obtain ⟨hpos, hpage, hle, hapart⟩ := hmemory reserved data hdata
  rw [hdata] at h
  obtain ⟨_, -, h⟩ := Outcome.bind_eq_returned.mp h
  obtain ⟨start, hstart, h⟩ := Outcome.bind_eq_returned.mp h
  obtain ⟨_, -, h⟩ := Outcome.bind_eq_returned.mp h
  obtain ⟨⟨a', lo, hi⟩, hplace, h⟩ := Outcome.bind_eq_returned.mp h
  obtain rfl := Outcome.returned.inj h
  -- the data of a block is aligned for its header
  have hstart : start = 0 := by
    obtain ⟨r, hr, hstart⟩ := Outcome.bind_eq_returned.mp hstart
    have hr := (alignForward_eq_returned.mp hr).2
    have hstart := Outcome.returned.inj hstart
    simp only [alignOfArena, pageSize, Nat.zero_add] at hr hpage hstart
    omega
  subst hstart
  obtain ⟨hused, -, -, commited', rfl⟩ :=
    arenaPlace_spec (by decide) (show reserved ≤ 2 ^ 63 by omega) (by decide) hplace
  rw [Nat.zero_add] at hused
  have hpages : pageSize ∣ reserved :=
    (alignForward_eq_returned.mp hreserved).2 ▸ Nat.dvd_mul_left _ _
  exact ⟨⟨hpos, hle, (Nat.zero_add _).ge, (Nat.zero_add _).le.trans hused⟩, Nat.zero_add _, rfl,
    ⟨hpage, hpages, rfl⟩, hapart⟩

/-- A push is placed in the current block, or in a new one in front of it. -/
theorem arenaPush_cases {memory : VirtualMemory} {c c' : ArenaChain} {size align : ℕ}
    {range : Option (ℕ × ℕ)} (hcurr : c.curr.Valid) (hmemory : memory.Fresh c.blocks)
    (hsize : size < 2 ^ 64) (halign : align < 2 ^ 64)
    (h : arenaPushAlignedNonZeroed memory c size align = .returned (c', range)) :
    (size = 0 ∧ c' = c ∧ range = none) ∨
      ∃ (target : ArenaChain) (start commited : ℕ),
        (target = c ∨ ∃ a : Arena, a.Valid ∧ a.used = sizeOfArena ∧ a.Paged ∧
          (∀ b ∈ c.blocks, Disjoint a.region b.region) ∧
            target = ⟨{ a with basePos := c.pos }, c.blocks⟩) ∧
        0 < size ∧ target.curr.used ≤ start ∧ start + size ≤ target.curr.reserved ∧
        align ∣ target.curr.data + start ∧
        c' = ⟨{ target.curr with used := start + size, commited }, target.prev⟩ ∧
        range = some (target.curr.data + start, target.curr.data + (start + size)) := by
  rw [arenaPushAlignedNonZeroed] at h
  split at h
  · rename_i hzero
    obtain ⟨rfl, rfl⟩ := by simpa using Outcome.returned.inj h
    exact Or.inl ⟨hzero, rfl, rfl⟩
  rename_i hzero
  have hplace : ∀ {target : ArenaChain} {a : Arena} {start lo hi : ℕ}, target.curr.Valid →
      arenaAlignUsed target.curr align = .returned start →
      arenaPlace memory target.curr start size = .returned (a, lo, hi) →
      ∃ commited, target.curr.used ≤ start ∧ start + size ≤ target.curr.reserved ∧
        align ∣ target.curr.data + start ∧
        a = { target.curr with used := start + size, commited } ∧ lo = start ∧
          hi = start + size := by
    intro target a start lo hi hvalid hstart hplace
    obtain ⟨hused, hmiddle, hdvd⟩ := arenaAlignUsed_spec hvalid.data_pos hvalid.stop_le
      hvalid.used_le halign hstart
    have hpos := hvalid.data_pos
    have hstop := hvalid.stop_le
    obtain ⟨hle, rfl, rfl, commited, rfl⟩ :=
      arenaPlace_spec (by omega) (by omega) hsize hplace
    exact ⟨commited, hused, hle, hdvd, rfl, rfl, rfl⟩
  obtain ⟨start, hstart, h⟩ := Outcome.bind_eq_returned.mp h
  split at h
  · obtain ⟨_, -, h⟩ := Outcome.bind_eq_returned.mp h
    obtain ⟨reserved, -, h⟩ := Outcome.bind_eq_returned.mp h
    obtain ⟨commited, -, h⟩ := Outcome.bind_eq_returned.mp h
    obtain ⟨new, hnew, h⟩ := Outcome.bind_eq_returned.mp h
    obtain ⟨start', hstart', h⟩ := Outcome.bind_eq_returned.mp h
    obtain ⟨⟨a, lo, hi⟩, ha, h⟩ := Outcome.bind_eq_returned.mp h
    obtain ⟨hvalid, hused, -, hpaged, hapart⟩ := arenaAlloc_spec hmemory hnew
    have hvalid' : Arena.Valid { new with basePos := c.pos } :=
      ⟨hvalid.data_pos, hvalid.stop_le, hvalid.header_le, hvalid.used_le⟩
    obtain ⟨commited', hle, hreserved, hdvd, rfl, rfl, rfl⟩ :=
      @hplace ⟨{ new with basePos := c.pos }, c.blocks⟩ _ _ _ _ hvalid' hstart' ha
    obtain ⟨rfl, rfl⟩ := by simpa using Outcome.returned.inj h
    exact Or.inr ⟨⟨{ new with basePos := c.pos }, c.blocks⟩, _, commited',
      Or.inr ⟨new, hvalid, hused, hpaged, hapart, rfl⟩, Nat.pos_of_ne_zero hzero, hle, hreserved,
      hdvd, rfl, rfl⟩
  · obtain ⟨⟨a, lo, hi⟩, ha, h⟩ := Outcome.bind_eq_returned.mp h
    obtain ⟨commited', hle, hreserved, hdvd, rfl, rfl, rfl⟩ := hplace hcurr hstart ha
    obtain ⟨rfl, rfl⟩ := by simpa using Outcome.returned.inj h
    exact Or.inr ⟨c, _, commited', Or.inl rfl, Nat.pos_of_ne_zero hzero, hle, hreserved, hdvd,
      rfl, rfl⟩

/-- What is given up starts at the position or behind it, and what is left before it. -/
theorem arenaRelease_cases {pos : ℕ} {curr : Arena} {prev : List Arena} {c : ArenaChain}
    (h : arenaRelease pos curr prev = .returned c) :
    ∃ dropped, curr :: prev = dropped ++ c.blocks ∧ (∀ b ∈ dropped, pos ≤ b.basePos) ∧
      c.curr.basePos < pos := by
  induction prev generalizing curr with
  | nil =>
    rw [arenaRelease] at h
    split at h
    · cases h
    · rename_i hlt
      obtain rfl := Outcome.returned.inj h
      exact ⟨[], rfl, nofun, not_le.mp hlt⟩
  | cons b bs ih =>
    rw [arenaRelease] at h
    split at h
    · rename_i hle
      obtain ⟨dropped, heq, hdropped, hlt⟩ := ih h
      exact ⟨curr :: dropped, by rw [heq, List.cons_append],
        List.forall_mem_cons.mpr ⟨hle, hdropped⟩, hlt⟩
    · rename_i hlt
      obtain rfl := Outcome.returned.inj h
      exact ⟨[], rfl, nofun, not_le.mp hlt⟩

/-- A pop goes back to the block that the position lies in. -/
theorem arenaPopTo_cases {c c' : ArenaChain} {pos : ℕ} (h : arenaPopTo c pos = .returned c') :
    max pos sizeOfArena ≤ c.pos ∧ ∃ dropped b, c.blocks = dropped ++ b :: c'.prev ∧
      (∀ d ∈ dropped, max pos sizeOfArena ≤ d.basePos) ∧ b.basePos < max pos sizeOfArena ∧
      c'.curr = { b with used := max pos sizeOfArena - b.basePos } := by
  obtain ⟨_, hle, h⟩ := Outcome.bind_eq_returned.mp h
  obtain ⟨r, hr, h⟩ := Outcome.bind_eq_returned.mp h
  obtain rfl := Outcome.returned.inj h
  obtain ⟨dropped, heq, hdropped, hlt⟩ := arenaRelease_cases hr
  exact ⟨arenaAssert_eq_returned.mp hle, dropped, r.curr, heq, hdropped, hlt, rfl⟩

end Wasim
