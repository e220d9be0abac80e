import Wasim.Base.ArenaScopes
import Wasim.Library.Memory

/-!
# The allocator of an arena

`arena_allocator_proc` of `base/arena.odin`, over a memory that maps addresses to bytes. The
headers of the blocks lie in that memory: the procedures store to their fields, and what is
allocated is filled and copied. The fields are read from the chain.

The last allocation gives its bytes back before a resize takes the new ones, so the two ranges may
overlap, or a new block starts in front of a position that a temp has saved.
-/

namespace Wasim

/-! ### Headers in memory -/

def storeWord (m : ℕ → UInt8) (addr w : ℕ) : ℕ → UInt8 :=
  Memory.write m addr 8 fun k => UInt8.ofNat (w / 256 ^ k)

/-- The fields of a header, in order. -/
def headerWords (prev curr : ℕ) (a : Arena) : List ℕ :=
  [prev, curr, if a.flags.noGrowing then 1 else 0, a.basePos, a.data, a.used, a.reserved,
    a.commited, a.initialCommited]

def headerByte (words : List ℕ) (k : ℕ) : UInt8 :=
  UInt8.ofNat (words.getD (k / 8) 0 / 256 ^ (k % 8))

def storeHeader (m : ℕ → UInt8) (prev curr : ℕ) (a : Arena) : ℕ → UInt8 :=
  Memory.write m a.data sizeOfArena (headerByte (headerWords prev curr a))

/-- The addresses of the fields that are stored to. -/
def Arena.currField (a : Arena) : ℕ := a.data + 8

def Arena.usedField (a : Arena) : ℕ := a.data + 40

def Arena.commitedField (a : Arena) : ℕ := a.data + 56

/-- What a push stores to the headers: those of a new block and of the arena, or those of the
current block. -/
def arenaPushStores (m : ℕ → UInt8) (c c' : ArenaChain) : ℕ → UInt8 :=
  if c.prev.length < c'.prev.length then
    storeWord (storeHeader m c.curr.data c'.curr.data c'.curr) c.first.currField c'.curr.data
  else
    let m := if c.curr.commited < c'.curr.commited then
      storeWord m c.curr.commitedField c'.curr.commited else m
    storeWord m c.curr.usedField c'.curr.used

/-- What a pop stores to the headers. -/
def arenaPopStores (m : ℕ → UInt8) (c : ArenaChain) : ℕ → UInt8 :=
  storeWord (storeWord m c.first.currField c.curr.data) c.curr.usedField c.curr.used

/-! ### The procedure -/

structure ArenaMemory where
  bytes : ℕ → UInt8
  chain : ArenaChain

inductive AllocatorMode
  | alloc
  | free
  | freeAll
  | resize
  | queryFeatures
  | queryInfo
  | allocNonZeroed
  | resizeNonZeroed
  deriving DecidableEq, Repr

inductive AllocatorError
  | none
  | modeNotImplemented
  deriving DecidableEq, Repr

def zeroSlice (m : ℕ → UInt8) : Option (ℕ × ℕ) → ℕ → UInt8
  | none => m
  | some (lo, hi) => Memory.fill m lo (hi - lo) 0

namespace ArenaMemory

def pushAlignedNonZeroed (memory : VirtualMemory) (h : ArenaMemory) (size align : ℕ) :
    Outcome (ArenaMemory × Option (ℕ × ℕ)) := do
  let (chain, data) ← arenaPushAlignedNonZeroed memory h.chain size align
  return (⟨if size = 0 then h.bytes else arenaPushStores h.bytes h.chain chain, chain⟩, data)

def pushAligned (memory : VirtualMemory) (h : ArenaMemory) (size align : ℕ) :
    Outcome (ArenaMemory × Option (ℕ × ℕ)) := do
  let (h, data) ← h.pushAlignedNonZeroed memory size align
  return ({ h with bytes := zeroSlice h.bytes data }, data)

def clear (h : ArenaMemory) : Outcome ArenaMemory := do
  let chain ← arenaClear h.chain
  return ⟨arenaPopStores h.bytes chain, chain⟩

/-- The last bytes of the current block are not in use any more. -/
def giveBack (h : ArenaMemory) (size : ℕ) : ArenaMemory :=
  let used := (h.chain.curr.used + (2 ^ 64 - size)) % 2 ^ 64
  ⟨storeWord h.bytes h.chain.curr.usedField used, ⟨{ h.chain.curr with used }, h.chain.prev⟩⟩

/-- Whether the old memory ends where the current block is not in use any more. -/
def isLastAllocation (h : ArenaMemory) (oldMemory : ℕ) (oldSize : Int64) : Bool :=
  ((h.chain.curr.data + h.chain.curr.used) % 2 ^ 64 + (2 ^ 64 - oldSize.toUInt64.toNat)) % 2 ^ 64 =
    oldMemory

/-- The new memory of a resize, with zeros behind what will be copied. -/
def resizePush (memory : VirtualMemory) (h : ArenaMemory) (size align : Int64) (oldMemory : ℕ)
    (oldSize : Int64) : Outcome (ArenaMemory × Option (ℕ × ℕ)) := do
  if h.isLastAllocation oldMemory oldSize then
    let (h, data) ← (h.giveBack oldSize.toUInt64.toNat).pushAlignedNonZeroed memory
      size.toUInt64.toNat align.toUInt64.toNat
    if oldSize < size then
      let (lo, hi) := data.getD (0, 0)
      arenaAssert (0 ≤ oldSize.toInt ∧ lo + oldSize.toInt ≤ hi)
      return (⟨zeroSlice h.bytes (some (lo + oldSize.toInt.toNat, hi)), h.chain⟩, data)
    else return (h, data)
  else h.pushAligned memory size.toUInt64.toNat align.toUInt64.toNat

/-- The case of a resize. Zero is the address of no memory. -/
def resize (memory : VirtualMemory) (h : ArenaMemory) (size align : Int64) (oldMemory : ℕ)
    (oldSize : Int64) : Outcome (ArenaMemory × Option (ℕ × ℕ) × AllocatorError) := do
  if oldMemory = 0 then
    let (h, data) ← h.pushAligned memory size.toUInt64.toNat align.toUInt64.toNat
    return (h, data, .none)
  else if size = 0 ∧ ¬h.isLastAllocation oldMemory oldSize then
    return (h, none, .modeNotImplemented)
  else
    let (h, data) ← h.resizePush memory size align oldMemory oldSize
    arenaAssert (0 ≤ oldSize.toInt)
    let (lo, hi) := data.getD (0, 0)
    return (⟨Memory.copy h.bytes lo oldMemory (min (hi - lo) oldSize.toInt.toNat), h.chain⟩, data,
      .none)

end ArenaMemory

/-- The set of modes that a query stores is left out. -/
def arenaAllocatorProc (memory : VirtualMemory) (h : ArenaMemory) (mode : AllocatorMode)
    (size align : Int64) (oldMemory : ℕ) (oldSize : Int64) :
    Outcome (ArenaMemory × Option (ℕ × ℕ) × AllocatorError) :=
  match mode with
  | .alloc => do
    let (h, data) ← h.pushAligned memory size.toUInt64.toNat align.toUInt64.toNat
    return (h, data, .none)
  | .allocNonZeroed => do
    let (h, data) ← h.pushAlignedNonZeroed memory size.toUInt64.toNat align.toUInt64.toNat
    return (h, data, .none)
  | .resize => h.resize memory size align oldMemory oldSize
  | .freeAll => do
    let h ← h.clear
    return (h, none, .none)
  | .resizeNonZeroed => .returned (h, none, .modeNotImplemented)
  | .free => .returned (h, none, .modeNotImplemented)
  | .queryInfo => .returned (h, none, .modeNotImplemented)
  | .queryFeatures => .returned (h, none, .none)

/-! ### Runs -/

/-- An arena that is used by calls of its own and through the allocator, and its memory. -/
structure HeapState extends ArenaState where
  bytes : ℕ → UInt8

/-- A call of the arena or of the allocator, and a store to what was allocated. -/
inductive HeapCall
  | arena (call : ArenaCall)
  | allocator (memory : VirtualMemory) (mode : AllocatorMode) (size align : Int64)
      (old : Option ArenaPush)
  | store (addr : ℕ) (value : UInt8)

def ArenaPush.size (p : ArenaPush) : ℕ := p.hi - p.lo

/-- What a call of the arena stores. -/
def arenaCallStores (m : ℕ → UInt8) (c c' : ArenaChain) : ArenaCall → ℕ → UInt8
  | .push _ size _ => if size.toNat = 0 then m else arenaPushStores m c c'
  | .tempBegin => m
  | _ => arenaPopStores m c'

/-- The allocations that are left behind a call of the allocator: all pops give up what they go
back over, and a resize gives up the old memory. -/
def ArenaState.allocated (s : ArenaState) (mode : AllocatorMode) (old : Option ArenaPush)
    (c : ArenaChain) (data : Option (ℕ × ℕ)) : AllocatorError → ArenaState
  | .modeNotImplemented => s
  | .none =>
    match mode, old with
    | .freeAll, _ => s.popped c
    | .resize, some p => { s with live := s.live.erase p }.pushed c data
    | _, _ => s.pushed c data

def heapStep (s : HeapState) : HeapCall → Outcome HeapState
  | .arena call => do
    let s' ← arenaStep s.toArenaState call
    return ⟨s', arenaCallStores s.bytes s.chain s'.chain call⟩
  | .allocator memory mode size align old => do
    let (h, data, err) ← arenaAllocatorProc memory ⟨s.bytes, s.chain⟩ mode size align
      (old.elim 0 ArenaPush.lo) (.ofNat (old.elim 0 ArenaPush.size))
    return ⟨s.allocated mode old h.chain data err, h.bytes⟩
  | .store addr value => return { s with bytes := Memory.write s.bytes addr 1 fun _ => value }

/-- The system answers the call, and what it is about was allocated. -/
def HeapState.Legal (s : HeapState) : HeapCall → Prop
  | .arena call => s.Answered call
  | .allocator memory _ _ _ old => memory.Fresh s.chain.blocks ∧ ∀ p ∈ old, p ∈ s.live
  | .store addr _ => ∃ p ∈ s.live, addr ∈ Finset.Ico p.lo p.hi

/-- The calls of a run that is made of allocations, resizes and scopes. -/
def HeapCall.Scoped : HeapCall → Prop
  | .arena call => call.Scoped
  | .allocator _ mode _ _ _ => mode = .alloc ∨ mode = .allocNonZeroed ∨ mode = .resize
  | .store _ _ => True

/-- The call does not pop into a header. -/
def HeapState.KeepsHeaders (s : HeapState) (call : HeapCall) : Prop :=
  ∀ arenaCall, call = .arena arenaCall → s.toArenaState.KeepsHeaders arenaCall

/-- The states that calls of a kind lead to. -/
def HeapReach (ok : HeapState → HeapCall → Prop) : HeapState → HeapState → Prop :=
  Relation.ReflTransGen fun s s' =>
    ∃ call, s.Legal call ∧ ok s call ∧ heapStep s call = .returned s'

/-- A new arena, with its header in memory. -/
def HeapState.start (bytes : ℕ → UInt8) (a : Arena) : HeapState where
  chain := ⟨a, []⟩
  bytes := storeHeader bytes 0 a.data a

end Wasim
