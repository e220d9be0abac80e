import Wasim.Library.Threads
import Wasim.Wopt.Ir

/-!
# The type interner

`wopt_type_interner.odin`: a hash table of types that threads share. A bucket is a chain of
cells with eight slots each. A call of `type_interner_intern` looks for its key without a lock,
and takes the lock of its stripe to look again, and to insert, only if it found nothing.

One step of a call is one atomic access of the search without a lock, or one turn of a loop or
one store behind the lock. Memory is the arena of the interner, with offsets for addresses. The
allocator is a parameter: a step that allocates is given an address, and it can only be taken if
the memory there is free. Free memory is zero. The digest of a key is a parameter as well, since
`xxhash` is not part of the repository.
-/

namespace Wasim.Wopt

/-! ### Types -/

inductive TypeKind
  | none
  | i32
  | memory
  | struct
  deriving DecidableEq, Repr

structure TypeMember where
  offset : ℤ := 0
  type : TypeId := 0
  deriving DecidableEq, Repr

structure TypeKey where
  kind : TypeKind := .none
  size : ℤ := 0
  align : ℤ := 0
  members : List TypeMember := []
  deriving DecidableEq, Repr

def typeKeyEqual (a b : TypeKey) : Bool :=
  if a.kind ≠ b.kind then false
  else if a.size ≠ b.size then false
  else if a.align ≠ b.align then false
  else a.members == b.members

/-- A `Type` of the source. -/
structure IrType where
  key : TypeKey := {}
  id : TypeId := 0
  deriving DecidableEq, Repr

def typeCreate (key : TypeKey) : IrType := { key := key }

/-! ### Memory -/

abbrev TypeHash := UInt64

/-- The hash of a key, for the digest of its bytes. 0 is never a valid hash. -/
def typeHashFromTypeKey (digest : TypeKey → UInt64) (key : TypeKey) : TypeHash :=
  let id := digest key
  if id = 0 then 1 else id

/-- `TYPE_INTERNER_CELL_COUNT - 1`, for 2 ^ 17 cells. -/
def typeInternerCellMask : UInt64 := 0x1FFFF

/-- `TYPE_INTERNER_MUTEX_STRIPE_SIZE - 1`, for 2 ^ 10 mutexes. -/
def typeInternerMutexStripeMask : UInt64 := 0x3FF

/-- `TYPE_INTERNER_TYPE_ID_COMPRESS_SHIFT`: a type is aligned to eight bytes. -/
def typeIdCompressShift : UInt64 := 3

/-- A cell of the table, or one that was allocated at an address. -/
inductive CellPtr
  | cells (index : UInt64)
  | new (address : ℕ)
  deriving DecidableEq, Repr

structure TypeInternerCell where
  types : Fin 8 → TypeId := fun _ => 0
  hashes : Fin 8 → TypeHash := fun _ => 0
  next : Option CellPtr := none

/-- The interner of the calls `ι`: its cells, the types at their addresses, the owners of the
mutexes, and the start and the size of every piece of memory that was allocated. -/
structure TypeInterner (ι : Type) where
  cells : CellPtr → TypeInternerCell := fun _ => {}
  types : ℕ → IrType := fun _ => {}
  mutexes : UInt64 → Option ι := fun _ => none
  allocated : List (ℕ × ℕ) := []

variable {ι : Type}

/-- The `Arena` and the `Type_Interner` itself, the cells and the mutexes. -/
def typeInternerNew : TypeInterner ι where
  allocated := [(0, 72), (128, 256), (384, 2 ^ 17 * 256), (384 + 2 ^ 17 * 256, 2 ^ 10 * 128)]

namespace TypeInterner

/-- The memory is aligned and overlaps nothing that was allocated. -/
def Free (s : TypeInterner ι) (address size align : ℕ) : Prop :=
  address % align = 0 ∧
    ∀ piece ∈ s.allocated, address + size ≤ piece.1 ∨ piece.1 + piece.2 ≤ address

instance (s : TypeInterner ι) (address size align : ℕ) : Decidable (s.Free address size align) :=
  inferInstanceAs (Decidable (_ ∧ _))

def allocate (s : TypeInterner ι) (address size : ℕ) : TypeInterner ι :=
  { s with allocated := (address, size) :: s.allocated }

def setCell (s : TypeInterner ι) (cell : CellPtr) (value : TypeInternerCell) : TypeInterner ι :=
  { s with cells := fun c => if c = cell then value else s.cells c }

def setType (s : TypeInterner ι) (address : ℕ) (type : IrType) : TypeInterner ι :=
  { s with types := fun a => if a = address then type else s.types a }

def setMutex (s : TypeInterner ι) (mutex : UInt64) (owner : Option ι) : TypeInterner ι :=
  { s with mutexes := fun m => if m = mutex then owner else s.mutexes m }

end TypeInterner

open TypeInterner

def sizeOfType : ℕ := 48

def sizeOfTypeMember : ℕ := 16

def sizeOfTypeInternerCell : ℕ := 256

def typeInternerLoad (s : TypeInterner ι) (id : TypeId) : IrType :=
  if id = 0 then {}
  else
    let address := (id <<< typeIdCompressShift).toNat
    s.types address

/-! ### Interning -/

/-- Where a call of `type_interner_intern` is. From `check` to `unlock` it holds the lock. -/
inductive InternPc
  -- it has not begun
  | start
  -- it loads `cell.next`
  | scan (cell : CellPtr)
  -- it loads `cell.hashes[index]`
  | probe (cell : CellPtr) (next : Option CellPtr) (index : ℕ)
  -- it compares the key of `cell.types[index]`
  | compare (cell : CellPtr) (next : Option CellPtr) (index : Fin 8)
  -- it waits for the lock
  | lock (cell : CellPtr)
  -- it is at the head of the loop `outer_check`
  | check (loadCell cell : Option CellPtr)
  -- it checks `cell.hashes[index]`
  | checkSlot (loadCell : Option CellPtr) (cell : CellPtr) (index : ℕ)
  -- it allocates the type
  | create (loadCell : Option CellPtr)
  -- it looks for a free slot
  | findFree (loadCell : CellPtr) (id : TypeId) (index : ℕ)
  -- it stores `load_cell.types[index]`
  | storeType (loadCell : CellPtr) (id : TypeId) (index : Fin 8)
  -- it stores `load_cell.hashes[index]`
  | storeHash (loadCell : CellPtr) (id : TypeId) (index : Fin 8)
  -- it allocates and fills a cell
  | newCell (loadCell : CellPtr) (id : TypeId)
  -- it stores `load_cell.next`
  | storeNext (loadCell : CellPtr) (id : TypeId) (newCell : CellPtr)
  -- it gives the lock back
  | unlock (id : TypeId)
  -- it has returned
  | done (id : TypeId)
  -- it was stopped by an assertion or a nil pointer
  | crashed
  deriving DecidableEq, Repr

section Intern

variable [DecidableEq ι] (digest : TypeKey → UInt64)

def internCellIndex (key : TypeKey) : UInt64 :=
  typeHashFromTypeKey digest key &&& typeInternerCellMask

def internMutexIndex (key : TypeKey) : UInt64 :=
  internCellIndex digest key &&& typeInternerMutexStripeMask

/-- `create and allocate type/type_ptr`: the type at `address` and its members at `members`. -/
def internCreate (key : TypeKey) (address members : ℕ) (s : TypeInterner ι) : TypeInterner ι :=
  let id := UInt64.ofNat (address / 8)
  ((s.allocate address sizeOfType).allocate members (sizeOfTypeMember * key.members.length)).setType
    address { typeCreate key with id := id }

/-- The next step of the call `i` of `type_interner_intern` with `key`. What it allocates is at
`address`, and the members of a type are at `members`. -/
def internStep (i : ι) (key : TypeKey) (address members : ℕ) (s : TypeInterner ι) :
    InternPc → Option (TypeInterner ι × InternPc)
  | .start =>
    if key.kind = .none then some (s, .done 0)
    else some (s, .scan (.cells (internCellIndex digest key)))
  | .scan cell => some (s, .probe cell (s.cells cell).next 0)
  | .probe cell next index =>
    if h : index < 8 then
      if (s.cells cell).hashes ⟨index, h⟩ = typeHashFromTypeKey digest key then
        some (s, .compare cell next ⟨index, h⟩)
      else some (s, .probe cell next (index + 1))
    else
      match next with
      | none => some (s, .lock cell)
      | some next => some (s, .scan next)
  | .compare cell next index =>
    let id := (s.cells cell).types index
    if typeKeyEqual key (typeInternerLoad s id).key then
      if id ≠ 0 then some (s, .done id) else some (s, .lock cell)
    else some (s, .probe cell next (index + 1))
  | .lock cell =>
    let mutex := internMutexIndex digest key
    match s.mutexes mutex with
    | none => some (s.setMutex mutex (some i), .check none (some cell))
    | some _ => none
  | .check loadCell cell =>
    match cell with
    | some cell => some (s, .checkSlot loadCell cell 0)
    | none => some (s, .create loadCell)
  | .checkSlot loadCell cell index =>
    if h : index < 8 then
      let id := (s.cells cell).types ⟨index, h⟩
      if (s.cells cell).hashes ⟨index, h⟩ = typeHashFromTypeKey digest key ∧
          typeKeyEqual key (typeInternerLoad s id).key then
        if id ≠ 0 then some (s, .unlock id) else some (s, .create loadCell)
      else some (s, .checkSlot loadCell cell (index + 1))
    else some (s, .check (some cell) (s.cells cell).next)
  | .create loadCell =>
    if s.Free address sizeOfType 8 ∧
        (s.allocate address sizeOfType).Free members (sizeOfTypeMember * key.members.length) 8 then
      if address / 8 < 2 ^ 32 then
        some (internCreate key address members s,
          match loadCell with
          | some loadCell => .findFree loadCell (UInt64.ofNat (address / 8)) 0
          | none => .crashed)
      else some (s, .crashed)
    else none
  | .findFree loadCell id index =>
    if h : index < 8 then
      if (s.cells loadCell).hashes ⟨index, h⟩ = 0 then
        some (s, .storeType loadCell id ⟨index, h⟩)
      else some (s, .findFree loadCell id (index + 1))
    else some (s, .newCell loadCell id)
  | .storeType loadCell id index =>
    let cell := s.cells loadCell
    some (s.setCell loadCell { cell with types := Function.update cell.types index id },
      .storeHash loadCell id index)
  | .storeHash loadCell id index =>
    let cell := s.cells loadCell
    let hash := typeHashFromTypeKey digest key
    some (s.setCell loadCell { cell with hashes := Function.update cell.hashes index hash },
      .unlock id)
  | .newCell loadCell id =>
    let hash := typeHashFromTypeKey digest key
    if s.Free address sizeOfTypeInternerCell 128 then
      some ((s.allocate address sizeOfTypeInternerCell).setCell (.new address)
        { types := Function.update (fun _ => 0) 0 id
          hashes := Function.update (fun _ => 0) 0 hash },
        .storeNext loadCell id (.new address))
    else none
  | .storeNext loadCell id newCell =>
    let cell := s.cells loadCell
    some (s.setCell loadCell { cell with next := some newCell }, .unlock id)
  | .unlock id => some (s.setMutex (internMutexIndex digest key) none, .done id)
  | .done _ => none
  | .crashed => none

/-- The calls with the keys `keys` take their steps in any order, with any free memory. -/
def InternStep (keys : ι → TypeKey) :
    ι → TypeInterner ι → InternPc → TypeInterner ι → InternPc → Prop :=
  Threads.Chosen fun i (memory : ℕ × ℕ) => internStep digest i (keys i) memory.1 memory.2

/-- A new interner, and no call has begun. -/
def internStart : Threads.Config ι (TypeInterner ι) InternPc := ⟨typeInternerNew, fun _ => .start⟩

/-- What the calls with the keys `keys` can reach. -/
def InternReach (keys : ι → TypeKey) (c : Threads.Config ι (TypeInterner ι) InternPc) : Prop :=
  Threads.Reach (InternStep digest keys) internStart c

end Intern

end Wasim.Wopt
