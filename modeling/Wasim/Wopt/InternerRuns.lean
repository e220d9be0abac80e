import Wasim.Wopt.TypeInterner

/-!
# Interning is canonical

In every state that any number of calls of `type_interner_intern` reach, two calls that have
returned have the same id exactly when their keys are equal, and the id loads the type of the
key (`intern_canonical`).

The invariant of the table says which cells can still change. The cells of a bucket form a
chain, and only its last cell has free slots. A call that looks for its key without the lock
reads `next` before the slots of a cell: if there is a next cell, this cell is full, and nothing
it has not seen can come to it any more. So the calls agree on the cells before the one where
the lock is taken, and behind the lock the rest of the chain stands still.
-/

namespace Wasim.Wopt

open TypeInterner

variable {ι : Type}

/-! ### Slots -/

/-- The type `id` has the key `key`. -/
structure Registered (s : TypeInterner ι) (id : TypeId) (key : TypeKey) : Prop where
  ne_zero : id ≠ 0
  load : typeInternerLoad s id = ⟨key, id⟩
  allocated : ((id <<< typeIdCompressShift).toNat, sizeOfType) ∈ s.allocated

theorem Registered.key_eq {s : TypeInterner ι} {id : TypeId} {key key' : TypeKey}
    (h : Registered s id key) (h' : Registered s id key') : key = key' := by
  have heq := h.load.symm.trans h'.load
  exact congrArg IrType.key heq

/-- The slot holds the key under the id. -/
structure Holds (s : TypeInterner ι) (cell : CellPtr) (i : Fin 8) (key : TypeKey)
    (id : TypeId) : Prop where
  hash : (s.cells cell).hashes i ≠ 0
  type : (s.cells cell).types i = id
  registered : Registered s id key

/-- The cells of each bucket, in the order of the chain. -/
abbrev Chains := UInt64 → List CellPtr

/-- The cell is at position `p` of the bucket `b`. -/
def Chains.At (chain : Chains) (b : UInt64) (p : ℕ) (c : CellPtr) : Prop := (chain b)[p]? = some c

section Table

variable (digest : TypeKey → UInt64)

/-- The invariant of the table. -/
structure Table (chain : Chains) (s : TypeInterner ι) : Prop where
  head : ∀ b, chain.At b 0 (.cells b)
  next : ∀ {b p c}, chain.At b p c → (s.cells c).next = (chain b)[p + 1]?
  unique : ∀ {b p c b' p'}, chain.At b p c → chain.At b' p' c → b = b' ∧ p = p'
  cells : ∀ {b p a}, chain.At b p (.new a) → (a, sizeOfTypeInternerCell) ∈ s.allocated
  full : ∀ {b p c}, chain.At b p c → p + 1 < (chain b).length → ∀ i, (s.cells c).hashes i ≠ 0
  entry : ∀ {b p c}, chain.At b p c → ∀ i, (s.cells c).hashes i ≠ 0 →
    ∃ key, Registered s ((s.cells c).types i) key ∧ internCellIndex digest key = b ∧
      (s.cells c).hashes i = typeHashFromTypeKey digest key
  distinct : ∀ {b p c p' c'}, chain.At b p c → chain.At b p' c' →
    ∀ {i i' key id id'}, Holds s c i key id → Holds s c' i' key id' → id = id'
  header : (0, 72) ∈ s.allocated

/-- No cell of the bucket before position `p` holds the key. -/
def Absent (chain : Chains) (s : TypeInterner ι) (key : TypeKey) (p : ℕ) : Prop :=
  ∀ q < p, ∀ c, chain.At (internCellIndex digest key) q c →
    ∀ i id, ¬Holds s c i key id

/-- No slot of the cell before `index` holds the key. -/
def AbsentIn (s : TypeInterner ι) (key : TypeKey) (c : CellPtr) (index : ℕ) : Prop :=
  ∀ i : Fin 8, i.val < index → ∀ id, ¬Holds s c i key id

/-- The cell is in the bucket of the key, and no cell before it holds the key. -/
def Searched (chain : Chains) (s : TypeInterner ι) (key : TypeKey) (c : CellPtr) : Prop :=
  ∃ p, chain.At (internCellIndex digest key) p c ∧ Absent digest chain s key p

/-- The cell is the last one in the bucket of the key, which does not hold the key. -/
def AtEnd (chain : Chains) (s : TypeInterner ι) (key : TypeKey) (c : CellPtr) : Prop :=
  ∃ p, chain.At (internCellIndex digest key) p c ∧
    p + 1 = (chain (internCellIndex digest key)).length ∧ Absent digest chain s key (p + 1)

/-- The bucket of the key holds it under the id. -/
def Published (chain : Chains) (s : TypeInterner ι) (key : TypeKey) (id : TypeId) : Prop :=
  ∃ p c i, chain.At (internCellIndex digest key) p c ∧ Holds s c i key id

/-- A new cell with one type, that no chain has. -/
structure Pending (chain : Chains) (s : TypeInterner ι) (key : TypeKey) (id : TypeId)
    (a : ℕ) : Prop where
  allocated : (a, sizeOfTypeInternerCell) ∈ s.allocated
  apart : ∀ b p, ¬chain.At b p (.new a)
  cell : s.cells (.new a) =
    { types := Function.update (fun _ => 0) 0 id
      hashes := Function.update (fun _ => 0) 0 (typeHashFromTypeKey digest key) }

variable (keys : ι → TypeKey)

/-- The call holds the lock of its stripe. -/
def Locked (i : ι) (s : TypeInterner ι) : Prop :=
  s.mutexes (internMutexIndex digest (keys i)) = some i

/-- What holds of the call `i`, by where it is. -/
def Asserts (chain : Chains) (i : ι) (s : TypeInterner ι) : InternPc → Prop
  | .start => True
  | .scan cell => Searched digest chain s (keys i) cell
  | .probe cell next index =>
    ∃ p, chain.At (internCellIndex digest (keys i)) p cell ∧
      Absent digest chain s (keys i) p ∧
      (next ≠ none → next = (chain (internCellIndex digest (keys i)))[p + 1]? ∧
        AbsentIn s (keys i) cell index)
  | .compare cell next index =>
    ∃ p, chain.At (internCellIndex digest (keys i)) p cell ∧
      Absent digest chain s (keys i) p ∧
      (next ≠ none → next = (chain (internCellIndex digest (keys i)))[p + 1]? ∧
        AbsentIn s (keys i) cell index) ∧
      (s.cells cell).hashes index ≠ 0
  | .lock cell => Searched digest chain s (keys i) cell
  | .check loadCell cell => Locked digest keys i s ∧
      match cell with
      | some cell => Searched digest chain s (keys i) cell
      | none => ∃ c, loadCell = some c ∧ AtEnd digest chain s (keys i) c
  | .checkSlot _ cell index => Locked digest keys i s ∧
      ∃ p, chain.At (internCellIndex digest (keys i)) p cell ∧
        Absent digest chain s (keys i) p ∧ AbsentIn s (keys i) cell index
  | .create loadCell => Locked digest keys i s ∧
      ∃ c, loadCell = some c ∧ AtEnd digest chain s (keys i) c
  | .findFree loadCell id index => Locked digest keys i s ∧
      AtEnd digest chain s (keys i) loadCell ∧ Registered s id (keys i) ∧
      ∀ j : Fin 8, j.val < index → (s.cells loadCell).hashes j ≠ 0
  | .storeType loadCell id index => Locked digest keys i s ∧
      AtEnd digest chain s (keys i) loadCell ∧ Registered s id (keys i) ∧
      (s.cells loadCell).hashes index = 0
  | .storeHash loadCell id index => Locked digest keys i s ∧
      AtEnd digest chain s (keys i) loadCell ∧ Registered s id (keys i) ∧
      (s.cells loadCell).hashes index = 0 ∧ (s.cells loadCell).types index = id
  | .newCell loadCell id => Locked digest keys i s ∧
      AtEnd digest chain s (keys i) loadCell ∧ Registered s id (keys i) ∧
      ∀ j, (s.cells loadCell).hashes j ≠ 0
  | .storeNext loadCell id newCell => Locked digest keys i s ∧
      AtEnd digest chain s (keys i) loadCell ∧ Registered s id (keys i) ∧
      (∀ j, (s.cells loadCell).hashes j ≠ 0) ∧
      ∃ a, newCell = .new a ∧ Pending digest chain s (keys i) id a
  | .unlock id => Locked digest keys i s ∧ Published digest chain s (keys i) id
  | .done id => (keys i).kind = .none ∨ Published digest chain s (keys i) id
  | .crashed => True

end Table

theorem typeKeyEqual_iff (a b : TypeKey) : typeKeyEqual a b = true ↔ a = b := by
  obtain ⟨kind, size, align, members⟩ := a
  obtain ⟨kind', size', align', members'⟩ := b
  simp only [typeKeyEqual, TypeKey.mk.injEq]
  split
  · simp [*]
  · split
    · simp [*]
    · split
      · simp [*]
      · simp_all

theorem typeHashFromTypeKey_ne_zero (digest : TypeKey → UInt64) (key : TypeKey) :
    typeHashFromTypeKey digest key ≠ 0 := by
  simp only [typeHashFromTypeKey]
  split
  · decide
  · assumption

theorem Chains.At.lt {chain : Chains} {b : UInt64} {p : ℕ} {c : CellPtr} (h : chain.At b p c) :
    p < (chain b).length :=
  (List.getElem?_eq_some_iff.mp h).1

namespace Chains

/-- The chains with one more cell in the bucket `b`. -/
def push (chain : Chains) (b : UInt64) (c : CellPtr) : Chains :=
  Function.update chain b (chain b ++ [c])

variable (chain : Chains)

theorem push_of_ne {b b' : UInt64} {c : CellPtr} (h : b' ≠ b) : chain.push b c b' = chain b' :=
  Function.update_of_ne h _ _

theorem push_self (b : UInt64) (c : CellPtr) : chain.push b c b = chain b ++ [c] :=
  Function.update_self ..

theorem length_push_self (b : UInt64) (c : CellPtr) :
    (chain.push b c b).length = (chain b).length + 1 := by
  rw [push_self, List.length_append, List.length_singleton]

theorem prefix_push (b : UInt64) (c : CellPtr) (b' : UInt64) :
    chain b' <+: chain.push b c b' := by
  rcases eq_or_ne b' b with rfl | h
  · rw [push_self]
    exact List.prefix_append _ _
  · simp only [chain.push_of_ne h, List.prefix_rfl]

theorem at_push_self (b : UInt64) (c : CellPtr) : (chain.push b c).At b (chain b).length c := by
  rw [At, push_self, List.getElem?_append_right (Nat.le_refl _), Nat.sub_self]
  rfl

/-- Every other position has what it had. -/
theorem getElem?_push_of_ne {b b' : UInt64} {c : CellPtr} {q : ℕ}
    (h : ¬(b' = b ∧ q = (chain b).length)) : (chain.push b c b')[q]? = (chain b')[q]? := by
  rcases eq_or_ne b' b with rfl | hb
  · rw [push_self]
    rcases Nat.lt_trichotomy q (chain b').length with hlt | heq | hgt
    · rw [List.getElem?_append_left hlt]
    · exact absurd ⟨rfl, heq⟩ h
    · rw [List.getElem?_eq_none (by rw [List.length_append]; exact hgt),
        List.getElem?_eq_none (Nat.le_of_lt hgt)]
  · rw [chain.push_of_ne hb]

theorem at_push {chain : Chains} {b b' : UInt64} {c d : CellPtr} {q : ℕ} :
    (chain.push b c).At b' q d ↔ chain.At b' q d ∨ b' = b ∧ q = (chain b).length ∧ d = c := by
  by_cases h : b' = b ∧ q = (chain b).length
  · obtain ⟨rfl, rfl⟩ := h
    have hself := chain.at_push_self b' c
    constructor
    · intro hd
      exact .inr ⟨rfl, rfl, Option.some.inj (hd.symm.trans hself)⟩
    · rintro (hd | ⟨-, -, rfl⟩)
      · exact absurd hd.lt (Nat.lt_irrefl _)
      · exact hself
  · rw [At, chain.getElem?_push_of_ne h]
    constructor
    · exact .inl
    · rintro (hd | ⟨rfl, rfl, -⟩)
      · exact hd
      · exact absurd ⟨rfl, rfl⟩ h

end Chains

/-! ### What a step leaves alone -/

section Effects

variable {digest : TypeKey → UInt64} {keys : ι → TypeKey} {chain chain' : Chains}
  {s s' : TypeInterner ι} {b : UInt64}

/-- From `s` to `s'` the chains grow at their ends, and what was stored stays. -/
structure Grows (chain chain' : Chains) (s s' : TypeInterner ι) : Prop where
  chains : ∀ b, chain b <+: chain' b
  slots : ∀ {b p c}, chain.At b p c → ∀ i, (s.cells c).hashes i ≠ 0 →
    (s'.cells c).hashes i = (s.cells c).hashes i ∧ (s'.cells c).types i = (s.cells c).types i
  types : ∀ {id}, ((id <<< typeIdCompressShift).toNat, sizeOfType) ∈ s.allocated →
    typeInternerLoad s' id = typeInternerLoad s id
  allocated : ∀ x ∈ s.allocated, x ∈ s'.allocated

theorem Grows.at (h : Grows chain chain' s s') {b : UInt64} {p : ℕ} {c : CellPtr}
    (hc : chain.At b p c) : chain'.At b p c := by
  obtain ⟨hp, rfl⟩ := List.getElem?_eq_some_iff.mp hc
  exact List.prefix_iff_getElem?.mp (h.chains b) p hp

/-- A position that was there before has the cell it had. -/
theorem Grows.at_of_lt (h : Grows chain chain' s s') {b : UInt64} {p : ℕ} {c : CellPtr}
    (hc : chain'.At b p c) (hp : p < (chain b).length) : chain.At b p c := by
  have hold := h.at (List.getElem?_eq_getElem hp : chain.At b p _)
  obtain rfl := Option.some.inj (hold.symm.trans hc)
  exact List.getElem?_eq_getElem hp

theorem Grows.registered (h : Grows chain chain' s s') {id : TypeId} {key : TypeKey}
    (hr : Registered s id key) : Registered s' id key :=
  ⟨hr.ne_zero, (h.types hr.allocated).trans hr.load, h.allocated _ hr.allocated⟩

theorem Grows.holds (h : Grows chain chain' s s') {b : UInt64} {p : ℕ} {c : CellPtr}
    (hc : chain.At b p c) {i : Fin 8} {key : TypeKey} {id : TypeId} (hh : Holds s c i key id) :
    Holds s' c i key id := by
  obtain ⟨hhash, htype⟩ := h.slots hc i hh.hash
  exact ⟨hhash ▸ hh.hash, htype.trans hh.type, h.registered hh.registered⟩

/-- A slot that was taken before holds what it held. -/
theorem Grows.holds_of_taken (h : Grows chain chain' s s') (ht : Table digest chain s)
    {b : UInt64} {p : ℕ} {c : CellPtr} (hc : chain.At b p c) {i : Fin 8} {key : TypeKey}
    {id : TypeId} (htaken : (s.cells c).hashes i ≠ 0) (hh : Holds s' c i key id) :
    Holds s c i key id := by
  obtain ⟨hhash, htype⟩ := h.slots hc i htaken
  obtain ⟨key₀, hr, -⟩ := ht.entry hc i htaken
  have hid : (s.cells c).types i = id := htype.symm.trans hh.type
  rw [hid] at hr
  obtain rfl := (h.registered hr).key_eq hh.registered
  exact ⟨htaken, hid, hr⟩

/-- The cells before one of the chain are full, so what they lack they will lack. -/
theorem Grows.absent (h : Grows chain chain' s s') (ht : Table digest chain s) {key : TypeKey}
    {p : ℕ} (hp : p < (chain (internCellIndex digest key)).length)
    (ha : Absent digest chain s key p) : Absent digest chain' s' key p := by
  intro q hq c hc i id hh
  have hc' := h.at_of_lt hc (Nat.lt_trans hq hp)
  have htaken := ht.full hc' (by omega) i
  exact ha q hq c hc' i id (h.holds_of_taken ht hc' htaken hh)

theorem Grows.absentIn (h : Grows chain chain' s s') (ht : Table digest chain s) {key : TypeKey}
    {b : UInt64} {p : ℕ} {c : CellPtr} (hc : chain.At b p c) (hp : p + 1 < (chain b).length)
    {index : ℕ} (ha : AbsentIn s key c index) : AbsentIn s' key c index := by
  intro i hi id hh
  exact ha i hi id (h.holds_of_taken ht hc (ht.full hc hp i) hh)

theorem Grows.searched (h : Grows chain chain' s s') (ht : Table digest chain s) {key : TypeKey}
    {c : CellPtr} (hs : Searched digest chain s key c) : Searched digest chain' s' key c := by
  obtain ⟨p, hc, ha⟩ := hs
  exact ⟨p, h.at hc, h.absent ht hc.lt ha⟩

theorem Grows.published (h : Grows chain chain' s s') {key : TypeKey} {id : TypeId}
    (hp : Published digest chain s key id) : Published digest chain' s' key id := by
  obtain ⟨p, c, i, hc, hh⟩ := hp
  exact ⟨p, c, i, h.at hc, h.holds hc hh⟩

/-- The bucket `b` is as it was. -/
structure Untouched (chain chain' : Chains) (s s' : TypeInterner ι) (b : UInt64) : Prop where
  chains : chain' b = chain b
  cells : ∀ {p c}, chain.At b p c → s'.cells c = s.cells c

theorem Untouched.at (h : Untouched chain chain' s s' b) {p : ℕ} {c : CellPtr}
    (hc : chain'.At b p c) : chain.At b p c := by
  rw [Chains.At, h.chains] at hc
  exact hc

/-- In a bucket that is as it was, a slot holds what it held. -/
theorem Untouched.holds_of (h : Untouched chain chain' s s' b) (hg : Grows chain chain' s s')
    (ht : Table digest chain s) {p : ℕ} {c : CellPtr} (hc : chain.At b p c) {i : Fin 8}
    {key : TypeKey} {id : TypeId} (hh : Holds s' c i key id) : Holds s c i key id := by
  refine hg.holds_of_taken ht hc ?_ hh
  rw [← h.cells hc]
  exact hh.hash

theorem Untouched.absentIn (h : Untouched chain chain' s s' b) (hg : Grows chain chain' s s')
    (ht : Table digest chain s) {p : ℕ} {c : CellPtr} (hc : chain.At b p c) {key : TypeKey}
    {index : ℕ} (ha : AbsentIn s key c index) : AbsentIn s' key c index := by
  intro i hi id hh
  exact ha i hi id (h.holds_of hg ht hc hh)

theorem Untouched.atEnd {key : TypeKey}
    (h : Untouched chain chain' s s' (internCellIndex digest key)) (hg : Grows chain chain' s s')
    (ht : Table digest chain s) {c : CellPtr} (he : AtEnd digest chain s key c) :
    AtEnd digest chain' s' key c := by
  obtain ⟨p, hc, hlen, ha⟩ := he
  refine ⟨p, hg.at hc, by rw [h.chains, hlen], fun q hq c hc i id hh => ?_⟩
  have hc' := h.at hc
  exact ha q hq c hc' i id (h.holds_of hg ht hc' hh)

/-- What a step of the call `i` at `pc` does to the others: the table grows, the locks of the
others stay theirs, only the bucket that `i` has locked is changed, and so is no cell that is
not in a chain yet. -/
structure Harmless (digest : TypeKey → UInt64) (keys : ι → TypeKey) (i : ι) (pc : InternPc)
    (chain chain' : Chains) (s s' : TypeInterner ι) : Prop where
  grows : Grows chain chain' s s'
  owners : ∀ m j, j ≠ i → s.mutexes m = some j → s'.mutexes m = some j
  buckets : ∀ b, Untouched chain chain' s s' b ∨
    b = internCellIndex digest (keys i) ∧ Locked digest keys i s
  pending : ∀ a, (a, sizeOfTypeInternerCell) ∈ s.allocated → (∀ b p, ¬chain.At b p (.new a)) →
    s'.cells (.new a) = s.cells (.new a) ∧
      ((∀ b p, ¬chain'.At b p (.new a)) ∨ ∃ c id, pc = .storeNext c id (.new a))

variable {i j : ι} {pc : InternPc}

/-- Two calls that hold a lock have keys of different buckets. -/
theorem Locked.bucket_ne (hi : Locked digest keys i s) (hj : Locked digest keys j s)
    (hne : j ≠ i) : internCellIndex digest (keys j) ≠ internCellIndex digest (keys i) := by
  intro heq
  rw [Locked, internMutexIndex, heq] at hj
  rw [Locked, internMutexIndex, hj] at hi
  exact hne (Option.some.inj hi)

theorem Harmless.untouched (h : Harmless digest keys i pc chain chain' s s') (hne : j ≠ i)
    (hj : Locked digest keys j s) :
    Untouched chain chain' s s' (internCellIndex digest (keys j)) := by
  rcases h.buckets (internCellIndex digest (keys j)) with hb | ⟨hb, hi⟩
  · exact hb
  · exact absurd hb (hi.bucket_ne hj hne)

theorem Untouched.hashes (h : Untouched chain chain' s s' b) {p : ℕ} {c : CellPtr}
    (hc : chain.At b p c) (i : Fin 8) : (s'.cells c).hashes i = (s.cells c).hashes i := by
  rw [h.cells hc]

/-- A cell that waits to be linked by one call is not linked by another. -/
theorem Harmless.stillPending (h : Harmless digest keys i pc chain chain' s s')
    (hi : Asserts digest keys chain i s pc) (hne : j ≠ i) (hj : Locked digest keys j s)
    {id : TypeId} (hr : Registered s id (keys j)) {a : ℕ}
    (hp : Pending digest chain s (keys j) id a) : Pending digest chain' s' (keys j) id a := by
  obtain ⟨hcell, hapart⟩ := h.pending a hp.allocated hp.apart
  refine ⟨h.grows.allocated _ hp.allocated, ?_, hcell.trans hp.cell⟩
  rcases hapart with hapart | ⟨c, id', rfl⟩
  · exact hapart
  -- both calls would have filled the cell, so they have one key and one lock
  obtain ⟨hlocked, -, hr', -, a', ha', hp'⟩ := hi
  obtain rfl := CellPtr.new.inj ha'
  have htypes := congrArg (fun cell => cell.types 0) (hp.cell.symm.trans hp'.cell)
  simp only [Function.update_self] at htypes
  rw [htypes] at hr
  have hkey := hr.key_eq hr'
  exact absurd (congrArg (internCellIndex digest) hkey) (hlocked.bucket_ne hj hne)

/-- A step of one call leaves what holds of the others. -/
theorem Harmless.asserts (h : Harmless digest keys i pc chain chain' s s')
    (ht : Table digest chain s) (hi : Asserts digest keys chain i s pc) (hne : j ≠ i)
    {m : InternPc} (hj : Asserts digest keys chain j s m) :
    Asserts digest keys chain' j s' m := by
  have hg := h.grows
  have hlock : Locked digest keys j s → Locked digest keys j s' := h.owners _ j hne
  cases m with
  | start => trivial
  | crashed => trivial
  | scan cell => exact hg.searched ht hj
  | lock cell => exact hg.searched ht hj
  | probe cell next index =>
    obtain ⟨p, hc, ha, hnext⟩ := hj
    refine ⟨p, hg.at hc, hg.absent ht hc.lt ha, fun hne' => ?_⟩
    obtain ⟨heq, hin⟩ := hnext hne'
    obtain ⟨c', rfl⟩ := Option.ne_none_iff_exists'.mp hne'
    have hc' : chain.At _ (p + 1) c' := heq.symm
    exact ⟨(hg.at hc').symm, hg.absentIn ht hc hc'.lt hin⟩
  | compare cell next index =>
    obtain ⟨p, hc, ha, hnext, htaken⟩ := hj
    refine ⟨p, hg.at hc, hg.absent ht hc.lt ha, fun hne' => ?_, ?_⟩
    · obtain ⟨heq, hin⟩ := hnext hne'
      obtain ⟨c', rfl⟩ := Option.ne_none_iff_exists'.mp hne'
      have hc' : chain.At _ (p + 1) c' := heq.symm
      exact ⟨(hg.at hc').symm, hg.absentIn ht hc hc'.lt hin⟩
    · rw [(hg.slots hc index htaken).1]
      exact htaken
  | check loadCell cell =>
    obtain ⟨hl, hj⟩ := hj
    refine ⟨hlock hl, ?_⟩
    rcases cell with _ | cell
    · obtain ⟨c, hload, he⟩ := hj
      exact ⟨c, hload, (h.untouched hne hl).atEnd hg ht he⟩
    · exact hg.searched ht hj
  | checkSlot loadCell cell index =>
    obtain ⟨hl, p, hc, ha, hin⟩ := hj
    exact ⟨hlock hl, p, hg.at hc, hg.absent ht hc.lt ha,
      (h.untouched hne hl).absentIn hg ht hc hin⟩
  | create loadCell =>
    obtain ⟨hl, c, hload, he⟩ := hj
    exact ⟨hlock hl, c, hload, (h.untouched hne hl).atEnd hg ht he⟩
  | findFree loadCell id index =>
    obtain ⟨hl, he, hr, htaken⟩ := hj
    have hu := h.untouched hne hl
    have ⟨p, hc, _⟩ := he
    refine ⟨hlock hl, hu.atEnd hg ht he, hg.registered hr, fun k hk => ?_⟩
    rw [hu.hashes hc]
    exact htaken k hk
  | storeType loadCell id index =>
    obtain ⟨hl, he, hr, hfree⟩ := hj
    have hu := h.untouched hne hl
    have ⟨p, hc, _⟩ := he
    exact ⟨hlock hl, hu.atEnd hg ht he, hg.registered hr, (hu.hashes hc index).trans hfree⟩
  | storeHash loadCell id index =>
    obtain ⟨hl, he, hr, hfree, htype⟩ := hj
    have hu := h.untouched hne hl
    have ⟨p, hc, _⟩ := he
    refine ⟨hlock hl, hu.atEnd hg ht he, hg.registered hr, (hu.hashes hc index).trans hfree, ?_⟩
    rw [hu.cells hc]
    exact htype
  | newCell loadCell id =>
    obtain ⟨hl, he, hr, hfull⟩ := hj
    have hu := h.untouched hne hl
    have ⟨p, hc, _⟩ := he
    refine ⟨hlock hl, hu.atEnd hg ht he, hg.registered hr, fun k => ?_⟩
    rw [hu.hashes hc]
    exact hfull k
  | storeNext loadCell id newCell =>
    obtain ⟨hl, he, hr, hfull, a, rfl, hp⟩ := hj
    have hu := h.untouched hne hl
    have ⟨p, hc, _⟩ := he
    refine ⟨hlock hl, hu.atEnd hg ht he, hg.registered hr, fun k => ?_, a, rfl,
      h.stillPending hi hne hl hr hp⟩
    rw [hu.hashes hc]
    exact hfull k
  | unlock id =>
    obtain ⟨hl, hp⟩ := hj
    exact ⟨hlock hl, hg.published hp⟩
  | done id =>
    rcases hj with hj | hj
    · exact Or.inl hj
    · exact Or.inr (hg.published hj)

end Effects

/-! ### The stores -/

section Stores

variable {digest : TypeKey → UInt64} {keys : ι → TypeKey} {chain : Chains}
  {s s' : TypeInterner ι} {i : ι} {pc : InternPc}

theorem Grows.refl (chain : Chains) (s : TypeInterner ι) : Grows chain chain s s :=
  ⟨fun _ => List.prefix_rfl, fun _ _ _ => ⟨rfl, rfl⟩, fun _ => rfl, fun _ h => h⟩

theorem Harmless.refl (digest : TypeKey → UInt64) (keys : ι → TypeKey) (i : ι) (pc : InternPc)
    (chain : Chains) (s : TypeInterner ι) : Harmless digest keys i pc chain chain s s :=
  ⟨.refl chain s, fun _ _ _ h => h, fun _ => .inl ⟨rfl, fun _ => rfl⟩,
    fun _ _ h => ⟨rfl, .inl h⟩⟩

/-- A step that takes no slot and links no cell keeps the table. -/
theorem Table.of_grows (ht : Table digest chain s) (hg : Grows chain chain s s')
    (hnext : ∀ {b p c}, chain.At b p c → (s'.cells c).next = (s.cells c).next)
    (hhash : ∀ {b p c}, chain.At b p c → ∀ i, (s'.cells c).hashes i ≠ 0 →
      (s.cells c).hashes i ≠ 0) : Table digest chain s' where
  head := ht.head
  next hc := (hnext hc).trans (ht.next hc)
  unique := ht.unique
  cells hc := hg.allocated _ (ht.cells hc)
  full hc hp i := by
    have hfull := ht.full hc hp i
    rw [(hg.slots hc i hfull).1]
    exact hfull
  entry hc i hi := by
    have hold := hhash hc i hi
    obtain ⟨hhash', htype⟩ := hg.slots hc i hold
    obtain ⟨key, hr, hb, hkey⟩ := ht.entry hc i hold
    exact ⟨key, htype ▸ hg.registered hr, hb, hhash'.trans hkey⟩
  distinct hc hc' _ _ _ _ _ hh hh' :=
    ht.distinct hc hc' (hg.holds_of_taken ht hc (hhash hc _ hh.hash) hh)
      (hg.holds_of_taken ht hc' (hhash hc' _ hh'.hash) hh')
  header := hg.allocated _ ht.header

@[simp]
theorem cells_setMutex (s : TypeInterner ι) (m : UInt64) (o : Option ι) :
    (s.setMutex m o).cells = s.cells := rfl

theorem grows_setMutex (chain : Chains) (s : TypeInterner ι) (m : UInt64) (o : Option ι) :
    Grows chain chain s (s.setMutex m o) :=
  ⟨fun _ => List.prefix_rfl, fun _ _ _ => ⟨rfl, rfl⟩, fun _ => rfl, fun _ h => h⟩

theorem untouched_setMutex (chain : Chains) (s : TypeInterner ι) (m : UInt64) (o : Option ι)
    (b : UInt64) : Untouched chain chain s (s.setMutex m o) b := ⟨rfl, fun _ => rfl⟩

/-- A lock that is free, or one's own, can be set. -/
theorem harmless_setMutex {m : UInt64} {o : Option ι}
    (h : ∀ j, j ≠ i → s.mutexes m ≠ some j) :
    Harmless digest keys i pc chain chain s (s.setMutex m o) := by
  refine ⟨grows_setMutex chain s m o, fun m' j hne hj => ?_,
    fun b => .inl (untouched_setMutex chain s m o b), fun a _ h => ⟨rfl, .inl h⟩⟩
  rcases eq_or_ne m' m with rfl | hm
  · exact absurd hj (h j hne)
  · simpa [setMutex, hm] using hj

theorem setCell_self (s : TypeInterner ι) (c : CellPtr) (v : TypeInternerCell) :
    (s.setCell c v).cells c = v := if_pos rfl

theorem setCell_ne (s : TypeInterner ι) {c d : CellPtr} (v : TypeInternerCell) (h : d ≠ c) :
    (s.setCell c v).cells d = s.cells d := if_neg h

/-- A store into a cell that keeps the slots that are taken. -/
theorem grows_setCell {c : CellPtr} {v : TypeInternerCell}
    (hv : ∀ k, (s.cells c).hashes k ≠ 0 →
      v.hashes k = (s.cells c).hashes k ∧ v.types k = (s.cells c).types k) :
    Grows chain chain s (s.setCell c v) := by
  refine ⟨fun _ => List.prefix_rfl, fun {b p d} _ k hk => ?_, fun _ => rfl, fun _ h => h⟩
  rcases eq_or_ne d c with rfl | hne
  · rw [setCell_self]
    exact hv k hk
  · rw [setCell_ne s v hne]
    exact ⟨rfl, rfl⟩

/-- Such a store behind the lock of the bucket. -/
theorem harmless_setCell (ht : Table digest chain s) (hl : Locked digest keys i s) {p : ℕ}
    {c : CellPtr} (hc : chain.At (internCellIndex digest (keys i)) p c) {v : TypeInternerCell}
    (hv : ∀ k, (s.cells c).hashes k ≠ 0 →
      v.hashes k = (s.cells c).hashes k ∧ v.types k = (s.cells c).types k) :
    Harmless digest keys i pc chain chain s (s.setCell c v) := by
  refine ⟨grows_setCell hv, fun _ _ _ h => h, fun b => ?_, fun a _ hapart => ?_⟩
  · rcases eq_or_ne b (internCellIndex digest (keys i)) with hb | hb
    · exact .inr ⟨hb, hl⟩
    · refine .inl ⟨rfl, fun {q d} hd => setCell_ne s v ?_⟩
      rintro rfl
      exact hb (ht.unique hd hc).1
  · refine ⟨setCell_ne s v ?_, .inl hapart⟩
    rintro rfl
    exact hapart _ p hc

/-! ### Free memory -/

/-- Memory that is free is not allocated. -/
theorem TypeInterner.Free.not_allocated {a size align : ℕ} (h : s.Free a size align)
    (hsize : 0 < size) {n : ℕ} (hn : 0 < n) : (a, n) ∉ s.allocated := by
  intro hmem
  have := h.2 (a, n) hmem
  omega

/-- A new cell is in no chain. -/
theorem Table.apart_of_free (ht : Table digest chain s) {a align : ℕ}
    (h : s.Free a sizeOfTypeInternerCell align) (b : UInt64) (p : ℕ) :
    ¬chain.At b p (.new a) := fun hc =>
  h.not_allocated (by decide) (by decide) (ht.cells hc)

theorem toNat_compressed {a : ℕ} (halign : a % 8 = 0) (hlt : a / 8 < 2 ^ 32) :
    (UInt64.ofNat (a / 8) <<< typeIdCompressShift).toNat = a := by
  have hid : (UInt64.ofNat (a / 8)).toNat = a / 8 :=
    UInt64.toNat_ofNat_of_lt' (by simpa using Nat.lt_trans hlt (by decide))
  rw [UInt64.toNat_shiftLeft, hid]
  simp only [typeIdCompressShift, Nat.shiftLeft_eq, UInt64.reduceToNat, Nat.reduceMod,
    Nat.reducePow]
  omega

theorem grows_internCreate {key : TypeKey} {a members : ℕ} (h : s.Free a sizeOfType 8) :
    Grows chain chain s (internCreate key a members s) := by
  refine ⟨fun _ => List.prefix_rfl, fun _ _ _ => ⟨rfl, rfl⟩, fun {id} hid => ?_, fun x hx => ?_⟩
  · have hne : (id <<< typeIdCompressShift).toNat ≠ a := by
      rintro rfl
      exact h.not_allocated (by decide) (by decide) hid
    simp only [typeInternerLoad, internCreate, setType, allocate, if_neg hne]
  · exact List.mem_cons_of_mem _ (List.mem_cons_of_mem _ hx)

theorem registered_internCreate {key : TypeKey} {a members : ℕ} (ht : Table digest chain s)
    (h : s.Free a sizeOfType 8) (hlt : a / 8 < 2 ^ 32) :
    Registered (internCreate key a members s) (UInt64.ofNat (a / 8)) key := by
  have haddr := toNat_compressed h.1 hlt
  have hpos : 72 ≤ a := by
    have := h.2 _ ht.header
    simp only [sizeOfType] at this
    omega
  have hne : UInt64.ofNat (a / 8) ≠ 0 := by
    intro hz
    rw [hz] at haddr
    have : a = 0 := haddr.symm
    omega
  refine ⟨hne, ?_, ?_⟩
  · simp [typeInternerLoad, hne, haddr, internCreate, setType, typeCreate]
  · rw [haddr]
    exact List.mem_cons_of_mem _ List.mem_cons_self

end Stores

/-! ### Steps -/

section Steps

variable {digest : TypeKey → UInt64} {keys : ι → TypeKey} {chain : Chains}
  {s : TypeInterner ι} {i : ι}

/-- A slot with another hash does not hold the key. -/
theorem Table.not_holds_of_hash (ht : Table digest chain s) {b : UInt64} {p : ℕ} {c : CellPtr}
    (hc : chain.At b p c) {k : Fin 8} {key : TypeKey}
    (h : (s.cells c).hashes k ≠ typeHashFromTypeKey digest key) (id : TypeId) :
    ¬Holds s c k key id := by
  intro hh
  obtain ⟨key₀, hr, -, hkey⟩ := ht.entry hc k hh.hash
  rw [hh.type] at hr
  rw [hr.key_eq hh.registered] at hkey
  exact h hkey

/-- A slot whose type has another key does not hold the key. -/
theorem not_holds_of_key {c : CellPtr} {k : Fin 8} {key : TypeKey}
    (h : typeKeyEqual key (typeInternerLoad s ((s.cells c).types k)).key ≠ true) (id : TypeId) :
    ¬Holds s c k key id := by
  intro hh
  rw [hh.type, hh.registered.load, Ne, typeKeyEqual_iff] at h
  exact h rfl

/-- A slot that is taken by a type with the key holds it. -/
theorem Table.holds_of_key (ht : Table digest chain s) {b : UInt64} {p : ℕ} {c : CellPtr}
    (hc : chain.At b p c) {k : Fin 8} {key : TypeKey} (htaken : (s.cells c).hashes k ≠ 0)
    (h : typeKeyEqual key (typeInternerLoad s ((s.cells c).types k)).key = true) :
    Holds s c k key ((s.cells c).types k) := by
  obtain ⟨key₀, hr, -⟩ := ht.entry hc k htaken
  rw [hr.load, typeKeyEqual_iff] at h
  exact ⟨htaken, rfl, h ▸ hr⟩

theorem AbsentIn.succ {key : TypeKey} {c : CellPtr} {k : Fin 8} (ha : AbsentIn s key c k)
    (h : ∀ id, ¬Holds s c k key id) : AbsentIn s key c (k + 1) := by
  intro k' hk' id
  rcases Nat.lt_succ_iff_lt_or_eq.mp hk' with hlt | heq
  · exact ha k' hlt id
  · rw [Fin.ext heq]
    exact h id

theorem AbsentIn.zero (s : TypeInterner ι) (key : TypeKey) (c : CellPtr) : AbsentIn s key c 0 :=
  fun _ hk => absurd hk (Nat.not_lt_zero _)

/-- All slots of the cell at `p` are searched, so the cells before `p + 1` are. -/
theorem Absent.succ {key : TypeKey} {p : ℕ} {c : CellPtr} (ha : Absent digest chain s key p)
    (hc : chain.At (internCellIndex digest key) p c) {index : ℕ} (hindex : ¬index < 8)
    (hin : AbsentIn s key c index) : Absent digest chain s key (p + 1) := by
  intro q hq c' hc' k id
  rcases Nat.lt_succ_iff_lt_or_eq.mp hq with hlt | rfl
  · exact ha q hlt c' hc' k id
  · obtain rfl := Option.some.inj (hc.symm.trans hc')
    exact hin k (by omega) id

theorem absent_zero (chain : Chains) (s : TypeInterner ι) (key : TypeKey) :
    Absent digest chain s key 0 := fun _ hq => absurd hq (Nat.not_lt_zero _)

/-- What a step of the call `i` has to show. -/
def StepKeeps (digest : TypeKey → UInt64) (keys : ι → TypeKey) (i : ι) (chain : Chains)
    (s : TypeInterner ι) (pc : InternPc) (s' : TypeInterner ι) (pc' : InternPc) : Prop :=
  ∃ chain', Table digest chain' s' ∧ Asserts digest keys chain' i s' pc' ∧
    Harmless digest keys i pc chain chain' s s'

/-- A step that changes nothing. -/
theorem StepKeeps.of_read (ht : Table digest chain s) {pc pc' : InternPc}
    (h : Asserts digest keys chain i s pc') : StepKeeps digest keys i chain s pc s pc' :=
  ⟨chain, ht, h, .refl digest keys i pc chain s⟩

/-- Behind the lock nothing was found: the next cell is searched, or the chain is at its
end. -/
theorem StepKeeps.nextCell (ht : Table digest chain s) (hl : Locked digest keys i s) {p : ℕ}
    {c : CellPtr} (hc : chain.At (internCellIndex digest (keys i)) p c)
    (ha : Absent digest chain s (keys i) (p + 1)) {pc : InternPc} :
    StepKeeps digest keys i chain s pc s (.check (some c) (s.cells c).next) := by
  refine .of_read ht ⟨hl, ?_⟩
  rw [ht.next hc]
  cases hnext : (chain (internCellIndex digest (keys i)))[p + 1]? with
  | none =>
    have hlen := List.getElem?_eq_none_iff.mp hnext
    have hp := hc.lt
    exact ⟨c, rfl, p, hc, by omega, ha⟩
  | some c' => exact ⟨p + 1, hnext, ha⟩

/-- The type is created. -/
theorem StepKeeps.create (ht : Table digest chain s) (hl : Locked digest keys i s) {c : CellPtr}
    (he : AtEnd digest chain s (keys i) c) {a members : ℕ} (hfree : s.Free a sizeOfType 8)
    (hlt : a / 8 < 2 ^ 32) {pc : InternPc} :
    StepKeeps digest keys i chain s pc (internCreate (keys i) a members s)
      (.findFree c (UInt64.ofNat (a / 8)) 0) := by
  have hg : Grows chain chain s (internCreate (keys i) a members s) := grows_internCreate hfree
  have hu : ∀ b, Untouched chain chain s (internCreate (keys i) a members s) b := fun _ =>
    ⟨rfl, fun _ => rfl⟩
  refine ⟨chain, ht.of_grows hg (fun _ => rfl) fun _ _ h => h, ⟨hl, (hu _).atEnd hg ht he,
    registered_internCreate ht hfree hlt, fun k hk => absurd hk (Nat.not_lt_zero _)⟩,
    hg, fun _ _ _ h => h, fun b => .inl (hu b), fun _ _ h => ⟨rfl, .inl h⟩⟩

/-- The id is stored in a slot that is free. -/
theorem StepKeeps.storeType (ht : Table digest chain s) {c : CellPtr} {id : TypeId} {k : Fin 8}
    (hA : Asserts digest keys chain i s (.storeType c id k)) :
    StepKeeps digest keys i chain s (.storeType c id k)
      (s.setCell c { s.cells c with types := Function.update (s.cells c).types k id })
      (.storeHash c id k) := by
  obtain ⟨hl, he, hr, hfree⟩ := hA
  have ⟨p, hc, hlen, ha⟩ := he
  have hv : ∀ k', (s.cells c).hashes k' ≠ 0 →
      (s.cells c).hashes k' = (s.cells c).hashes k' ∧
        Function.update (s.cells c).types k id k' = (s.cells c).types k' := by
    intro k' hk'
    refine ⟨rfl, Function.update_of_ne ?_ _ _⟩
    rintro rfl
    exact hk' hfree
  have hg : Grows chain chain s
      (s.setCell c { s.cells c with types := Function.update (s.cells c).types k id }) :=
    grows_setCell hv
  have hhash : ∀ d k', ((s.setCell c { s.cells c with
      types := Function.update (s.cells c).types k id }).cells d).hashes k' =
      (s.cells d).hashes k' := by
    intro d k'
    rcases eq_or_ne d c with rfl | hne
    · rw [setCell_self]
    · rw [setCell_ne s _ hne]
  have hnext : ∀ d, ((s.setCell c { s.cells c with
      types := Function.update (s.cells c).types k id }).cells d).next = (s.cells d).next := by
    intro d
    rcases eq_or_ne d c with rfl | hne
    · rw [setCell_self]
    · rw [setCell_ne s _ hne]
  refine ⟨chain, ht.of_grows hg (fun _ => hnext _) fun _ k' hk' => hhash _ k' ▸ hk', ?_,
    harmless_setCell ht hl hc hv⟩
  refine ⟨hl, ⟨p, hc, hlen, fun q hq d hd k' id' hh => ?_⟩, hg.registered hr,
    (hhash c k).trans hfree, ?_⟩
  · -- the slot is free, so the table lacks the key as before
    have htaken := hh.hash
    rw [hhash] at htaken
    exact ha q hq d hd k' id' (hg.holds_of_taken ht hd htaken hh)
  · rw [setCell_self]
    exact Function.update_self ..

/-- A step that puts a key into the table which lacked it: every slot of the new chains is
taken by the key, or was there before. -/
theorem Table.of_insert (ht : Table digest chain s) {chain' : Chains} {s' : TypeInterner ι}
    (hg : Grows chain chain' s s') {key : TypeKey} (id : TypeId)
    (habsent : Absent digest chain s key (chain (internCellIndex digest key)).length)
    (hnext : ∀ {b p c}, chain'.At b p c → (s'.cells c).next = (chain' b)[p + 1]?)
    (hunique : ∀ {b p c b' p'}, chain'.At b p c → chain'.At b' p' c → b = b' ∧ p = p')
    (hcells : ∀ {b p a}, chain'.At b p (.new a) → (a, sizeOfTypeInternerCell) ∈ s'.allocated)
    (hfull : ∀ {b p c}, chain'.At b p c → p + 1 < (chain' b).length →
      ∀ i, (s'.cells c).hashes i ≠ 0)
    (hslots : ∀ {b p c}, chain'.At b p c → ∀ k, (s'.cells c).hashes k ≠ 0 →
      (Holds s' c k key id ∧ internCellIndex digest key = b ∧
        (s'.cells c).hashes k = typeHashFromTypeKey digest key) ∨
      chain.At b p c ∧ (s.cells c).hashes k ≠ 0) : Table digest chain' s' where
  head b := hg.at (ht.head b)
  next := hnext
  unique := hunique
  cells := hcells
  full := hfull
  entry hc k hk := by
    rcases hslots hc k hk with ⟨hh, hb, hhash⟩ | ⟨hold, htaken⟩
    · exact ⟨key, hh.type ▸ hh.registered, hb, hhash⟩
    · obtain ⟨key', hr, hb, hkey⟩ := ht.entry hold k htaken
      obtain ⟨hhash, htype⟩ := hg.slots hold k htaken
      exact ⟨key', htype ▸ hg.registered hr, hb, hhash.trans hkey⟩
  distinct {b p c p' c'} hc hc' {k k' key' id₁ id₂} hh₁ hh₂ := by
    -- an old slot of the bucket does not hold the new key
    have hold : ∀ {q d l id'}, chain.At (internCellIndex digest key) q d →
        (s.cells d).hashes l ≠ 0 → ¬Holds s' d l key id' := fun hd htaken hh =>
      habsent _ hd.lt _ hd _ _ (hg.holds_of_taken ht hd htaken hh)
    rcases hslots hc k hh₁.hash with ⟨hnew, rfl, -⟩ | ⟨hc₁, htaken₁⟩
    · obtain rfl := hh₁.type.symm.trans hnew.type
      obtain rfl := hh₁.registered.key_eq hnew.registered
      rcases hslots hc' k' hh₂.hash with ⟨hnew', -⟩ | ⟨hc₂, htaken₂⟩
      · exact hnew'.type.symm.trans hh₂.type
      · exact absurd hh₂ (hold hc₂ htaken₂)
    · rcases hslots hc' k' hh₂.hash with ⟨hnew, rfl, -⟩ | ⟨hc₂, htaken₂⟩
      · obtain rfl := hh₂.type.symm.trans hnew.type
        obtain rfl := hh₂.registered.key_eq hnew.registered
        exact absurd hh₁ (hold hc₁ htaken₁)
      · exact ht.distinct hc₁ hc₂ (hg.holds_of_taken ht hc₁ htaken₁ hh₁)
          (hg.holds_of_taken ht hc₂ htaken₂ hh₂)
  header := hg.allocated _ ht.header

/-- The hash is stored, and with it the slot is taken. -/
theorem StepKeeps.storeHash (ht : Table digest chain s) {c : CellPtr} {id : TypeId} {k : Fin 8}
    (hA : Asserts digest keys chain i s (.storeHash c id k)) :
    StepKeeps digest keys i chain s (.storeHash c id k)
      (s.setCell c { s.cells c with
        hashes := Function.update (s.cells c).hashes k (typeHashFromTypeKey digest (keys i)) })
      (.unlock id) := by
  obtain ⟨hl, ⟨p, hc, hlen, ha⟩, hr, hfree, htype⟩ := hA
  set v : TypeInternerCell := { s.cells c with
    hashes := Function.update (s.cells c).hashes k (typeHashFromTypeKey digest (keys i)) }
    with hvdef
  have hv : ∀ k', (s.cells c).hashes k' ≠ 0 →
      v.hashes k' = (s.cells c).hashes k' ∧ v.types k' = (s.cells c).types k' := by
    intro k' hk'
    refine ⟨Function.update_of_ne ?_ _ _, rfl⟩
    rintro rfl
    exact hk' hfree
  have hg : Grows chain chain s (s.setCell c v) := grows_setCell hv
  have hself : (s.setCell c v).cells c = v := setCell_self s c v
  have hvk : v.hashes k = typeHashFromTypeKey digest (keys i) := Function.update_self ..
  have hnew : Holds (s.setCell c v) c k (keys i) id := by
    refine ⟨?_, ?_, hg.registered hr⟩
    · rw [hself, hvk]
      exact typeHashFromTypeKey_ne_zero digest (keys i)
    · rw [hself]
      exact htype
  have hnext : ∀ d, ((s.setCell c v).cells d).next = (s.cells d).next := by
    intro d
    rcases eq_or_ne d c with rfl | hne
    · rw [hself]
    · rw [setCell_ne s v hne]
  refine ⟨chain, ht.of_insert hg id (hlen ▸ ha) (fun hd => (hnext _).trans (ht.next hd)) ht.unique
    ht.cells (fun {b q d} hd hq k' => ?_) (fun {b q d} hd k' hk' => ?_),
    ⟨hl, p, c, k, hc, hnew⟩, harmless_setCell ht hl hc hv⟩
  · have hfull := ht.full hd hq k'
    rw [(hg.slots hd k' hfull).1]
    exact hfull
  · rcases eq_or_ne d c with rfl | hne
    · rcases eq_or_ne k' k with rfl | hkk
      · exact .inl ⟨hnew, (ht.unique hc hd).1, by rw [hself, hvk]⟩
      · rw [hself, show v.hashes k' = (s.cells d).hashes k' from
          Function.update_of_ne hkk _ _] at hk'
        exact .inr ⟨hd, hk'⟩
    · rw [setCell_ne s v hne] at hk'
      exact .inr ⟨hd, hk'⟩

/-- A cell is filled that no chain has yet. -/
theorem StepKeeps.newCell (ht : Table digest chain s) {c : CellPtr} {id : TypeId} {a : ℕ}
    (hfree : s.Free a sizeOfTypeInternerCell 128)
    (hA : Asserts digest keys chain i s (.newCell c id)) :
    StepKeeps digest keys i chain s (.newCell c id)
      ((s.allocate a sizeOfTypeInternerCell).setCell (.new a)
        { types := Function.update (fun _ => 0) 0 id
          hashes := Function.update (fun _ => 0) 0 (typeHashFromTypeKey digest (keys i)) })
      (.storeNext c id (.new a)) := by
  obtain ⟨hl, he, hr, hfull⟩ := hA
  have ⟨p, hc, _⟩ := he
  set s' : TypeInterner ι := (s.allocate a sizeOfTypeInternerCell).setCell (.new a)
    { types := Function.update (fun _ => 0) 0 id
      hashes := Function.update (fun _ => 0) 0 (typeHashFromTypeKey digest (keys i)) } with hs'
  have hold : ∀ d, d ≠ .new a → s'.cells d = s.cells d := fun d hd =>
    setCell_ne (s.allocate a sizeOfTypeInternerCell) _ hd
  have hapart := ht.apart_of_free hfree
  have hsame : ∀ {b q d}, chain.At b q d → s'.cells d = s.cells d := by
    intro b q d hd
    refine hold d ?_
    rintro rfl
    exact hapart b q hd
  have hg : Grows chain chain s s' :=
    ⟨fun _ => List.prefix_rfl, fun hd _ _ => by rw [hsame hd]; exact ⟨rfl, rfl⟩, fun _ => rfl,
      fun _ hx => List.mem_cons_of_mem _ hx⟩
  have hu : ∀ b, Untouched chain chain s s' b := fun _ => ⟨rfl, hsame⟩
  refine ⟨chain, ht.of_grows hg (fun hd => by rw [hsame hd]) fun hd _ hk => hsame hd ▸ hk, ?_,
    hg, fun _ _ _ h => h, fun b => .inl (hu b), fun a' ha' hapart' => ⟨hold _ ?_, .inl hapart'⟩⟩
  · refine ⟨hl, (hu _).atEnd hg ht he, hg.registered hr, fun k => ?_, a, rfl,
      List.mem_cons_self, hapart, setCell_self (s.allocate a sizeOfTypeInternerCell) _ _⟩
    rw [hsame hc]
    exact hfull k
  · rintro heq
    obtain rfl := CellPtr.new.inj heq
    exact hfree.not_allocated (by decide) (by decide) ha'

/-- The new cell is linked behind the last one. -/
theorem StepKeeps.storeNext (ht : Table digest chain s) {c n : CellPtr} {id : TypeId}
    (hA : Asserts digest keys chain i s (.storeNext c id n)) :
    StepKeeps digest keys i chain s (.storeNext c id n)
      (s.setCell c { s.cells c with next := some n }) (.unlock id) := by
  obtain ⟨hl, ⟨p, hc, hlen, ha⟩, hr, hfull, a, rfl, hp⟩ := hA
  set b := internCellIndex digest (keys i) with hb
  set s' := s.setCell c { s.cells c with next := some (.new a) } with hs'
  have hself : s'.cells c = { s.cells c with next := some (.new a) } := setCell_self s c _
  have hold : ∀ d, d ≠ c → s'.cells d = s.cells d := fun d hd => setCell_ne s _ hd
  have hne : CellPtr.new a ≠ c := by
    rintro rfl
    exact hp.apart b p hc
  have hslots : ∀ d k, (s'.cells d).hashes k = (s.cells d).hashes k ∧
      (s'.cells d).types k = (s.cells d).types k := by
    intro d k
    rcases eq_or_ne d c with rfl | hd
    · rw [hself]
      exact ⟨rfl, rfl⟩
    · rw [hold d hd]
      exact ⟨rfl, rfl⟩
  have hg : Grows chain (chain.push b (.new a)) s s' :=
    ⟨chain.prefix_push b _, fun _ k _ => hslots _ k, fun _ => rfl, fun _ h => h⟩
  have hnew : Holds s' (.new a) 0 (keys i) id := by
    refine ⟨?_, ?_, hg.registered hr⟩
    · rw [hold _ hne, hp.cell]
      exact typeHashFromTypeKey_ne_zero digest (keys i)
    · rw [hold _ hne, hp.cell]
      rfl
  have htable : Table digest (chain.push b (.new a)) s' := by
    refine ht.of_insert hg id (hlen ▸ ha) (fun {b' q d} hd => ?_) (fun {b' q d b'' q'} hd hd' => ?_)
      (fun {b' q a'} hd => ?_) (fun {b' q d} hd hq k => ?_) (fun {b' q d} hd k hk => ?_)
    · -- the last cell has the new one behind it, and the new one is the last
      rcases chain.at_push.mp hd with hd | ⟨rfl, rfl, rfl⟩
      · rcases eq_or_ne d c with rfl | hdc
        · obtain ⟨rfl, rfl⟩ := ht.unique hc hd
          rw [hself, hlen]
          exact (chain.at_push_self b _).symm
        · rw [hold d hdc, ht.next hd]
          refine (chain.getElem?_push_of_ne ?_).symm
          rintro ⟨rfl, hq⟩
          obtain rfl : q = p := by omega
          exact hdc (Option.some.inj (hd.symm.trans hc))
      · rw [hold _ hne, hp.cell]
        exact (List.getElem?_eq_none (Nat.le_of_eq (chain.length_push_self b _))).symm
    · rcases chain.at_push.mp hd with h | ⟨rfl, rfl, rfl⟩
      · rcases chain.at_push.mp hd' with h' | ⟨rfl, rfl, rfl⟩
        · exact ht.unique h h'
        · exact absurd h (hp.apart b' q)
      · rcases chain.at_push.mp hd' with h' | ⟨rfl, rfl, -⟩
        · exact absurd h' (hp.apart b'' q')
        · exact ⟨rfl, rfl⟩
    · rcases chain.at_push.mp hd with h | ⟨-, -, heq⟩
      · exact ht.cells h
      · obtain rfl := CellPtr.new.inj heq
        exact hp.allocated
    · rw [(hslots d k).1]
      rcases chain.at_push.mp hd with h | ⟨rfl, rfl, rfl⟩
      · rcases eq_or_ne d c with rfl | hdc
        · exact hfull k
        · refine ht.full h ?_ k
          have hlt := h.lt
          rcases eq_or_ne b' b with rfl | hb'
          · by_contra hge
            obtain rfl : q = p := by omega
            exact hdc (Option.some.inj (h.symm.trans hc))
          · rwa [chain.push_of_ne hb'] at hq
      · rw [chain.length_push_self] at hq
        omega
    · rcases chain.at_push.mp hd with h | ⟨rfl, rfl, rfl⟩
      · rw [(hslots d k).1] at hk
        exact .inr ⟨h, hk⟩
      · rcases eq_or_ne k 0 with rfl | hk0
        · refine .inl ⟨hnew, rfl, ?_⟩
          rw [hold _ hne, hp.cell]
          rfl
        · rw [hold _ hne, hp.cell] at hk
          simp only [Function.update_of_ne hk0] at hk
          exact absurd rfl hk
  refine ⟨chain.push b (.new a), htable, ⟨hl, _, _, 0, chain.at_push_self b _, hnew⟩, hg,
    fun _ _ _ h => h, fun b' => ?_, fun a' _ hapart => ?_⟩
  · rcases eq_or_ne b' b with rfl | hb'
    · exact .inr ⟨rfl, hl⟩
    · refine .inl ⟨chain.push_of_ne hb', fun {q d} hd => hold d ?_⟩
      rintro rfl
      exact hb' (ht.unique hd hc).1
  · refine ⟨hold _ ?_, ?_⟩
    · rintro rfl
      exact hapart b p hc
    · rcases eq_or_ne a' a with rfl | ha'
      · exact .inr ⟨c, id, rfl⟩
      · refine .inl fun b' q hd => ?_
        rcases chain.at_push.mp hd with h | ⟨-, -, heq⟩
        · exact hapart b' q h
        · exact ha' (CellPtr.new.inj heq)

/-- Every step of a call keeps the table, what holds of the call, and what holds of the
others. -/
theorem internStep_keeps [DecidableEq ι] (ht : Table digest chain s) {pc pc' : InternPc}
    (hA : Asserts digest keys chain i s pc) {address members : ℕ} {s' : TypeInterner ι}
    (h : internStep digest i (keys i) address members s pc = some (s', pc')) :
    StepKeeps digest keys i chain s pc s' pc' := by
  cases pc with
  | start =>
    simp only [internStep] at h
    split at h
    · rename_i hkind
      obtain ⟨rfl, rfl⟩ := Prod.mk.inj (Option.some.inj h)
      exact .of_read ht (.inl hkind)
    · obtain ⟨rfl, rfl⟩ := Prod.mk.inj (Option.some.inj h)
      exact .of_read ht ⟨0, ht.head _, absent_zero chain s (keys i)⟩
  | scan cell =>
    obtain ⟨rfl, rfl⟩ := Prod.mk.inj (Option.some.inj h)
    obtain ⟨p, hc, ha⟩ := hA
    exact .of_read ht ⟨p, hc, ha, fun _ => ⟨ht.next hc, .zero s (keys i) cell⟩⟩
  | probe cell next index =>
    obtain ⟨p, hc, ha, hnext⟩ := hA
    simp only [internStep] at h
    split at h
    · rename_i hindex
      split at h
      · rename_i hhash
        obtain ⟨rfl, rfl⟩ := Prod.mk.inj (Option.some.inj h)
        exact .of_read ht ⟨p, hc, ha, hnext, hhash ▸ typeHashFromTypeKey_ne_zero digest (keys i)⟩
      · rename_i hhash
        obtain ⟨rfl, rfl⟩ := Prod.mk.inj (Option.some.inj h)
        refine .of_read ht ⟨p, hc, ha, fun hne => ⟨(hnext hne).1, ?_⟩⟩
        have hin : AbsentIn s (keys i) cell (⟨index, hindex⟩ : Fin 8) := (hnext hne).2
        exact hin.succ (ht.not_holds_of_hash hc hhash)
    · rename_i hindex
      split at h
      · obtain ⟨rfl, rfl⟩ := Prod.mk.inj (Option.some.inj h)
        exact .of_read ht ⟨p, hc, ha⟩
      · rename_i next
        obtain ⟨rfl, rfl⟩ := Prod.mk.inj (Option.some.inj h)
        obtain ⟨heq, hin⟩ := hnext (Option.some_ne_none next)
        exact .of_read ht ⟨p + 1, heq.symm, ha.succ hc hindex hin⟩
  | compare cell next index =>
    obtain ⟨p, hc, ha, hnext, htaken⟩ := hA
    simp only [internStep] at h
    split at h
    · rename_i hkey
      have hh := ht.holds_of_key hc htaken hkey
      split at h
      · obtain ⟨rfl, rfl⟩ := Prod.mk.inj (Option.some.inj h)
        exact .of_read ht (.inr ⟨p, cell, index, hc, hh⟩)
      · rename_i hid
        exact absurd hh.registered.ne_zero hid
    · rename_i hkey
      obtain ⟨rfl, rfl⟩ := Prod.mk.inj (Option.some.inj h)
      exact .of_read ht ⟨p, hc, ha,
        fun hne => ⟨(hnext hne).1, (hnext hne).2.succ (not_holds_of_key hkey)⟩⟩
  | lock cell =>
    simp only [internStep] at h
    split at h
    · rename_i hfree
      obtain ⟨rfl, rfl⟩ := Prod.mk.inj (Option.some.inj h)
      have hg := grows_setMutex chain s (internMutexIndex digest (keys i)) (some i)
      refine ⟨chain, ht.of_grows hg (fun _ => rfl) fun _ _ h => h,
        ⟨if_pos rfl, hg.searched ht hA⟩, harmless_setMutex fun j _ => ?_⟩
      rw [hfree]
      exact (Option.some_ne_none j).symm
    · cases h
  | check loadCell cell =>
    obtain ⟨hl, hA⟩ := hA
    simp only [internStep] at h
    split at h
    · rename_i cell
      obtain ⟨rfl, rfl⟩ := Prod.mk.inj (Option.some.inj h)
      obtain ⟨p, hc, ha⟩ := hA
      exact .of_read ht ⟨hl, p, hc, ha, .zero s (keys i) cell⟩
    · obtain ⟨rfl, rfl⟩ := Prod.mk.inj (Option.some.inj h)
      exact .of_read ht ⟨hl, hA⟩
  | checkSlot loadCell cell index =>
    obtain ⟨hl, p, hc, ha, hin⟩ := hA
    simp only [internStep] at h
    split at h
    · rename_i hindex
      have hin' : AbsentIn s (keys i) cell (⟨index, hindex⟩ : Fin 8) := hin
      split at h
      · rename_i hfound
        have htaken : (s.cells cell).hashes ⟨index, hindex⟩ ≠ 0 :=
          hfound.1 ▸ typeHashFromTypeKey_ne_zero digest (keys i)
        have hh := ht.holds_of_key hc htaken hfound.2
        split at h
        · obtain ⟨rfl, rfl⟩ := Prod.mk.inj (Option.some.inj h)
          exact .of_read ht ⟨hl, p, cell, _, hc, hh⟩
        · rename_i hid
          exact absurd hh.registered.ne_zero hid
      · rename_i hfound
        obtain ⟨rfl, rfl⟩ := Prod.mk.inj (Option.some.inj h)
        refine .of_read ht ⟨hl, p, hc, ha, hin'.succ fun id => ?_⟩
        rcases not_and_or.mp hfound with hhash | hkey
        · exact ht.not_holds_of_hash hc hhash id
        · exact not_holds_of_key hkey id
    · rename_i hindex
      obtain ⟨rfl, rfl⟩ := Prod.mk.inj (Option.some.inj h)
      exact .nextCell ht hl hc (ha.succ hc hindex hin)
  | create loadCell =>
    obtain ⟨hl, c, rfl, he⟩ := hA
    simp only [internStep] at h
    split at h
    · rename_i hfree
      split at h
      · rename_i hlt
        obtain ⟨rfl, rfl⟩ := Prod.mk.inj (Option.some.inj h)
        exact .create ht hl he hfree.1 hlt
      · obtain ⟨rfl, rfl⟩ := Prod.mk.inj (Option.some.inj h)
        exact .of_read ht trivial
    · cases h
  | findFree loadCell id index =>
    obtain ⟨hl, he, hr, htaken⟩ := hA
    simp only [internStep] at h
    split at h
    · split at h
      · rename_i hfree
        obtain ⟨rfl, rfl⟩ := Prod.mk.inj (Option.some.inj h)
        exact .of_read ht ⟨hl, he, hr, hfree⟩
      · rename_i hindex hslot
        obtain ⟨rfl, rfl⟩ := Prod.mk.inj (Option.some.inj h)
        refine .of_read ht ⟨hl, he, hr, fun k hk => ?_⟩
        rcases Nat.lt_succ_iff_lt_or_eq.mp hk with hlt | rfl
        · exact htaken k hlt
        · exact hslot
    · rename_i hindex
      obtain ⟨rfl, rfl⟩ := Prod.mk.inj (Option.some.inj h)
      exact .of_read ht ⟨hl, he, hr, fun k => htaken k (by omega)⟩
  | storeType loadCell id index =>
    obtain ⟨rfl, rfl⟩ := Prod.mk.inj (Option.some.inj h)
    exact .storeType ht hA
  | storeHash loadCell id index =>
    obtain ⟨rfl, rfl⟩ := Prod.mk.inj (Option.some.inj h)
    exact .storeHash ht hA
  | newCell loadCell id =>
    simp only [internStep] at h
    split at h
    · rename_i hfree
      obtain ⟨rfl, rfl⟩ := Prod.mk.inj (Option.some.inj h)
      exact .newCell ht hfree hA
    · cases h
  | storeNext loadCell id newCell =>
    obtain ⟨rfl, rfl⟩ := Prod.mk.inj (Option.some.inj h)
    exact .storeNext ht hA
  | unlock id =>
    obtain ⟨rfl, rfl⟩ := Prod.mk.inj (Option.some.inj h)
    obtain ⟨hl, hp⟩ := hA
    have hg := grows_setMutex chain s (internMutexIndex digest (keys i)) none
    refine ⟨chain, ht.of_grows hg (fun _ => rfl) fun _ _ h => h, .inr (hg.published hp),
      harmless_setMutex fun j hne => ?_⟩
    rw [hl]
    exact fun h => hne (Option.some.inj h).symm
  | done id => cases h
  | crashed => cases h

end Steps

/-! ### Runs -/

section Runs

variable {digest : TypeKey → UInt64} {keys : ι → TypeKey}

/-- The chains of a new interner: every bucket has the cell of the table. -/
theorem table_typeInternerNew :
    Table digest (fun b => [.cells b]) (typeInternerNew : TypeInterner ι) := by
  have hat : ∀ {b p c}, Chains.At (fun b => [.cells b]) b p c → p = 0 ∧ c = .cells b := by
    intro b p c hc
    obtain ⟨hlt, heq⟩ := List.getElem?_eq_some_iff.mp hc
    obtain rfl : p = 0 := by
      rw [List.length_singleton] at hlt
      omega
    exact ⟨rfl, heq.symm⟩
  refine ⟨fun _ => rfl, fun hc => ?_, fun hc hc' => ?_, fun hc => ?_, fun hc hp => ?_,
    fun _ k hk => absurd rfl hk, fun _ _ _ _ _ _ _ hh => absurd rfl hh.hash, List.mem_cons_self⟩
  · obtain ⟨rfl, rfl⟩ := hat hc
    rfl
  · obtain ⟨rfl, rfl⟩ := hat hc
    obtain ⟨rfl, heq⟩ := hat hc'
    exact ⟨CellPtr.cells.inj heq, rfl⟩
  · cases (hat hc).2
  · obtain ⟨rfl, rfl⟩ := hat hc
    exact absurd hp (Nat.lt_irrefl _)

variable {c d : Threads.Config ι (TypeInterner ι) InternPc}

/-- What holds of a call that has returned. -/
theorem published_of_done {chain : Chains}
    (hA : ∀ i, Asserts digest keys chain i c.shared (c.locals i)) {i : ι}
    (hkind : (keys i).kind ≠ .none) {id : TypeId} (hi : c.locals i = .done id) :
    Published digest chain c.shared (keys i) id := by
  have hAi := hA i
  rw [hi] at hAi
  exact hAi.resolve_left hkind

variable [DecidableEq ι]

/-- The invariant holds in every state that the calls reach. -/
theorem InternReach.invariant (h : InternReach digest keys c) :
    ∃ chain, Table digest chain c.shared ∧
      ∀ i, Asserts digest keys chain i c.shared (c.locals i) := by
  refine Threads.Reach.invariant (I := fun chain s => Table digest chain s)
    (A := fun chain i s pc => Asserts digest keys chain i s pc) ?_ h
    ⟨_, table_typeInternerNew, fun _ => trivial⟩
  rintro chain i s pc s' pc' ht hA ⟨memory, hstep⟩
  obtain ⟨chain', ht', hA', hharmless⟩ := internStep_keeps ht hA hstep
  exact ⟨chain', ht', hA', fun j hne m hj => hharmless.asserts ht hA hne hj⟩

/-- A call that has returned takes no more steps. -/
theorem done_stays (h : Threads.Reach (InternStep digest keys) c d) {i : ι} {id : TypeId}
    (hi : c.locals i = .done id) : d.locals i = .done id := by
  induction h with
  | refl => exact hi
  | tail _ hstep ih =>
    obtain ⟨j, s, pc, ⟨memory, hj⟩, rfl⟩ := hstep
    rcases eq_or_ne i j with rfl | hne
    · rw [ih] at hj
      cases hj
    · simpa [hne] using ih

/-- **Interning is canonical.** In every state that calls of `type_interner_intern` reach, in
any order of their steps: the id that a call with a key of a kind has returned is not 0, and
from then on it loads the type with this key and this id. Two such calls have the same id
exactly when their keys are equal. -/
theorem intern_canonical (h : InternReach digest keys c) :
    (∀ i id, (keys i).kind ≠ .none → c.locals i = .done id → id ≠ 0 ∧
      ∀ d, Threads.Reach (InternStep digest keys) c d →
        typeKeyEqual (typeInternerLoad d.shared id).key (keys i) = true ∧
          (typeInternerLoad d.shared id).id = id) ∧
    ∀ i j id id', (keys i).kind ≠ .none → (keys j).kind ≠ .none →
      c.locals i = .done id → c.locals j = .done id' →
      (id = id' ↔ typeKeyEqual (keys i) (keys j) = true) := by
  obtain ⟨chain, ht, hA⟩ := h.invariant
  constructor
  · intro i id hkind hi
    obtain ⟨p, cell, k, hc, hh⟩ := published_of_done hA hkind hi
    refine ⟨hh.registered.ne_zero, fun d hd => ?_⟩
    have hlater : InternReach digest keys d := Relation.ReflTransGen.trans h hd
    obtain ⟨chain', -, hA'⟩ := hlater.invariant
    obtain ⟨p', cell', k', hc', hh'⟩ := published_of_done hA' hkind (done_stays hd hi)
    rw [hh'.registered.load, typeKeyEqual_iff]
    exact ⟨rfl, rfl⟩
  · intro i j id id' hki hkj hi hj
    obtain ⟨p, cell, k, hc, hh⟩ := published_of_done hA hki hi
    obtain ⟨p', cell', k', hc', hh'⟩ := published_of_done hA hkj hj
    rw [typeKeyEqual_iff]
    constructor
    · rintro rfl
      exact hh.registered.key_eq hh'.registered
    · intro hkey
      rw [← hkey] at hc' hh'
      exact ht.distinct hc hc' hh hh'

/-- The key of `i32`, and the digest of its 17 bytes. -/
def i32Key : TypeKey := { kind := .i32, size := 4, align := 4 }

def i32Digest : TypeKey → UInt64 := fun _ => 0x770B656E5A983856

/-- Two calls with the key of `i32` both search the empty bucket. The first one inserts the
type, and the second one finds it behind the lock. -/
theorem intern_canonical_i32 :
    ∃ c : Threads.Config (Fin 2) (TypeInterner (Fin 2)) InternPc,
      InternReach i32Digest (fun _ => i32Key) c ∧
      c.locals 0 = .done 4211200 ∧ c.locals 1 = .done 4211200 ∧
      ∀ d, Threads.Reach (InternStep i32Digest fun _ => i32Key) c d →
        typeKeyEqual (typeInternerLoad d.shared 4211200).key i32Key = true ∧
          (typeInternerLoad d.shared 4211200).id = 4211200 := by
  have hexec : ((Threads.exec (fun i (memory : ℕ × ℕ) =>
      internStep i32Digest i i32Key memory.1 memory.2)
      (List.replicate 11 (0, 0, 0) ++ List.replicate 11 (1, 0, 0) ++
        List.replicate 17 (0, 33689600, 33689648) ++ List.replicate 4 (1, 0, 0))
      (internStart : Threads.Config (Fin 2) (TypeInterner (Fin 2)) InternPc)).map
      fun c => (c.locals 0, c.locals 1)) = some (.done 4211200, .done 4211200) := by
    decide +kernel
  obtain ⟨c, hc, hdone⟩ := Option.map_eq_some_iff.mp hexec
  obtain ⟨h0, h1⟩ := Prod.mk.inj hdone
  have hreach : InternReach i32Digest (fun _ => i32Key) c := Threads.exec_sound _ hc
  exact ⟨c, hreach, h0, h1, ((intern_canonical hreach).1 0 _ (by decide) h0).2⟩

end Runs

end Wasim.Wopt
