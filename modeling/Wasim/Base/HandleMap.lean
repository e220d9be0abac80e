import Mathlib.Algebra.Ring.Nat
import Mathlib.Logic.Relation
import Mathlib.Data.List.Nodup
import Wasim.Library.Outcome

/-!
# The handle map

`base/dynamic_handle_map.odin`: items in slots that are reused, and handles that tell the item of a
slot from the items that were in it before. A handle is the index of its slot and a generation,
both of one unsigned type, here of `w` bits. A slot without an item has 0 for the index in its
handle, and keeps the generation.

An access past the items with `get_ptr_unsafe` crashes, as one past a bounds check does. An append
returns no memory when the allocator has none, which a step is told by `allocated`.
-/

namespace Wasim

structure Handle (w : ℕ) where
  idx : BitVec w
  gen : BitVec w
  deriving DecidableEq, Repr

/-- What the map stores: the handle in it, and the rest of its fields. -/
structure HmItem (α : Type) (w : ℕ) where
  handle : Handle w
  value : α
  deriving DecidableEq, Repr

/-- `unused_items` are numbers of 32 bits, the last one is taken first. -/
structure HandleMap (α : Type) (w : ℕ) where
  items : List (HmItem α w)
  unusedItems : List ℕ := []
  deriving DecidableEq, Repr

variable {α : Type} {w : ℕ}

def hmInit (zeroValue : HmItem α w) : HandleMap α w := { items := [zeroValue] }

/-- Returns no handle if there is no memory. -/
def hmAdd (m : HandleMap α w) (item : HmItem α w) (allocated : Bool) :
    Outcome (HandleMap α w × Option (Handle w)) :=
  match m.unusedItems.getLast? with
  | some i =>
    match m.items[i]? with
    | some ptr =>
      let handle : Handle w := ⟨BitVec.ofNat w i, ptr.handle.gen + 1⟩
      .returned ({
        items := m.items.set i { item with handle }
        unusedItems := m.unusedItems.dropLast }, some handle)
    | none => .crashed
  | none =>
    if allocated then
      let handle : Handle w := ⟨BitVec.ofNat w m.items.length, 1⟩
      .returned ({ m with items := m.items ++ [{ item with handle }] }, some handle)
    else .returned (m, none)

/-- `int(u32(h.idx)) >= xar.len(m.items)` -/
def hmOutside (m : HandleMap α w) (h : Handle w) : Prop :=
  m.items.length ≤ h.idx.toNat % 2 ^ 32

instance (m : HandleMap α w) (h : Handle w) : Decidable (hmOutside m h) :=
  inferInstanceAs (Decidable (_ ≤ _))

def hmGet (m : HandleMap α w) (h : Handle w) : Outcome (Option (HmItem α w)) :=
  if hmOutside m h then .returned none
  else
    match m.items[h.idx.toNat]? with
    | some e => .returned (if e.handle = h then some e else none)
    | none => .crashed

/-- Returns whether the item was found. It is not if there is no memory. -/
def hmRemove (m : HandleMap α w) (h : Handle w) (allocated : Bool) :
    Outcome (HandleMap α w × Bool) :=
  if hmOutside m h then .returned (m, false)
  else
    match m.items[h.idx.toNat]? with
    | some item =>
      if item.handle = h then
        if allocated then
          .returned ({
            items := m.items.set h.idx.toNat { item with handle := { item.handle with idx := 0 } }
            unusedItems := m.unusedItems ++ [h.idx.toNat % 2 ^ 32] }, true)
        else .returned (m, false)
      else .returned (m, false)
    | none => .crashed

def hmIsValid (m : HandleMap α w) (h : Handle w) : Outcome Bool :=
  if hmOutside m h then .returned false
  else
    match m.items[h.idx.toNat]? with
    | some e => .returned (e.handle = h)
    | none => .crashed

def hmClear (_ : HandleMap α w) : HandleMap α w := { items := [] }

/-- The loop of `hm_iterate` over the items from `index` on. Returns the next index as well. -/
def hmIterateFrom : List (HmItem α w) → ℕ → Option (HmItem α w × Handle w) × ℕ
  | [], _ => (none, 0)
  | e :: rest, index =>
    if e.handle.idx ≠ 0 then (some (e, e.handle), index + 1) else hmIterateFrom rest (index + 1)

/-- One call of `hm_iterate`, with the index of its iterator. -/
def hmIterate (m : HandleMap α w) (index : ℕ) : Option (HmItem α w × Handle w) × ℕ :=
  hmIterateFrom (m.items.drop index) index

/-- A pass of calls of `hm_iterate` from an index on, until it ends, and what it yields. -/
inductive HmPass (m : HandleMap α w) : ℕ → List (HmItem α w × Handle w) → Prop
  | stop {index next : ℕ} : hmIterate m index = (none, next) → HmPass m index []
  | next {index next : ℕ} {e : HmItem α w × Handle w} {rest : List (HmItem α w × Handle w)} :
      hmIterate m index = (some e, next) → HmPass m next rest → HmPass m index (e :: rest)

/-! ### Runs -/

inductive HmOp (α : Type) (w : ℕ)
  | add (item : HmItem α w) (allocated : Bool)
  | remove (h : Handle w) (allocated : Bool)
  | clear

/-- The map, the handles that `hm_add` has returned, with the values added, those that
`hm_remove` has found, and those that were returned before an `hm_clear`. -/
structure HmState (α : Type) (w : ℕ) where
  map : HandleMap α w
  issued : List (Handle w × α) := []
  removed : List (Handle w) := []
  stale : List (Handle w) := []

def hmApply (s : HmState α w) : HmOp α w → Outcome (HmState α w)
  | .add item allocated => do
    let (map, handle) ← hmAdd s.map item allocated
    return { s with map, issued := handle.toList.map (fun h => (h, item.value)) ++ s.issued }
  | .remove h allocated => do
    let (map, found) ← hmRemove s.map h allocated
    return { s with map, removed := if found then h :: s.removed else s.removed }
  | .clear => .returned { s with map := hmClear s.map, stale := s.issued.map Prod.fst }

def hmStart (zeroValue : HmItem α w) : HmState α w := { map := hmInit zeroValue }

/-- The states that operations lead to, of those that `ok` allows. -/
def HmRun (ok : HmState α w → HmOp α w → Prop) : HmState α w → HmState α w → Prop :=
  Relation.ReflTransGen fun s t => ∃ op, ok s op ∧ hmApply s op = .returned t

end Wasim
