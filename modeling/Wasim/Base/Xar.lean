import Wasim.Base.AllocatorRuns

/-!
# Growing arrays in an arena

`core:container/xar` is not part of the sources. What is used of it is that an array allocates a
chunk from its allocator when its chunks are full, and does not move what it holds. The lengths of
the chunks are a parameter.

An array is stored (`Xar.Stored`) as long as nobody gives up its chunks: its elements lie in them,
off each other and off everything else that is allocated, and keep their bytes.
-/

namespace Wasim

/-! ### A heap with scopes -/

/-- Allocations lie off each other, and the temps are nested. -/
structure HeapState.Sound (h : HeapState) : Prop where
  nested : h.toArenaState.Nested
  apart : h.toArenaState.Apart

/-- Pushes zeroed memory and records it. Returns the addresses. -/
def HeapState.pushAligned (memory : VirtualMemory) (h : HeapState) (size align : UInt64) :
    Outcome (HeapState × Option (ℕ × ℕ)) := do
  let (g, data) ← (ArenaMemory.mk h.bytes h.chain).pushAligned memory size.toNat align.toNat
  return (⟨h.toArenaState.pushed g.chain data, g.bytes⟩, data)

/-- Scopes do not pop into headers. -/
theorem ArenaState.Nested.keepsHeaders {s : ArenaState} (hs : s.Nested) {call : ArenaCall}
    (hcall : call.Scoped) : s.KeepsHeaders call := by
  intro pos hpos
  cases call with
  | push _ _ _ => cases hpos
  | pop => exact hcall.elim
  | popTo => exact hcall.elim
  | clear => exact hcall.elim
  | tempBegin => cases hpos
  | tempEnd =>
    obtain ⟨hheader, -, hnot⟩ := hs.temps pos (List.mem_of_head? hpos)
    rwa [max_eq_left hheader]

/-- Pushes and scopes on a new arena. -/
theorem HeapState.Sound.reach {memory : VirtualMemory} {commited reserved : ℕ}
    {flags : ArenaFlags} {a : Arena} {h : HeapState} (hmemory : memory.Fresh [])
    (halloc : arenaAlloc memory commited reserved flags = .returned a)
    (hreach : ArenaReach (fun _ call => call.Scoped) { chain := ⟨a, []⟩ } h.toArenaState) :
    h.Sound := by
  have hstart := ArenaState.Nested.alloc hmemory halloc
  suffices ∀ {s}, ArenaReach (fun _ call => call.Scoped) { chain := ⟨a, []⟩ } s →
      s.Nested ∧ s.Apart from ⟨(this hreach).1, (this hreach).2⟩
  intro s hreach
  induction hreach with
  | refl => exact ⟨hstart, hstart.inv, .nil⟩
  | tail _ hstep ih =>
    obtain ⟨call, hanswered, hcall, hstep⟩ := hstep
    obtain ⟨hnested, hapart⟩ := ih
    exact ⟨hnested.step hcall hanswered hstep,
      hapart.step hanswered (hnested.keepsHeaders hcall) hstep⟩

section Heap

variable {h h' : HeapState}

/-- No allocation ends behind the position. -/
theorem ArenaState.Invariant.pos_le {s : ArenaState} (hs : s.Invariant) {p : ArenaPush}
    (hp : p ∈ s.live) : p.pos ≤ s.chain.pos := by
  obtain ⟨b, hb, hin⟩ := hs.live p hp
  have hle := hs.chain.block_le hb
  have hhi := hin.hi_le
  have hpos := hin.pos_eq
  omega

/-- A push of something moves the position on. -/
theorem ArenaState.Invariant.pos_lt_push {s : ArenaState} {c : ArenaChain} (hs : s.Invariant)
    {memory : VirtualMemory} (hmemory : memory.Fresh s.chain.blocks) {size align : UInt64}
    {range : ℕ × ℕ}
    (hpush : arenaPushAlignedNonZeroed memory s.chain size.toNat align.toNat =
      .returned (c, some range)) : s.chain.pos < c.pos := by
  have hcurr := hs.chain.block s.chain.curr List.mem_cons_self
  have hvalid : c.Valid := s.chain_pushed c (some range) ▸ (hs.push hmemory hpush).1.chain
  rw [hvalid.pos_eq]
  rcases arenaPush_cases hcurr hmemory size.toNat_lt align.toNat_lt hpush with
    ⟨-, -, hnone⟩ | ⟨target, start, commited, htarget, hpos, hle, -, -, rfl, -⟩
  · cases hnone
  dsimp only
  rcases htarget with rfl | ⟨a, -, -, -, -, rfl⟩
  · rw [hs.chain.pos_eq]
    omega
  · dsimp only
    omega

theorem eqOn_zeroSlice {m : ℕ → UInt8} {lo hi : ℕ} {t : Finset ℕ}
    (h : Disjoint (Finset.Ico lo hi) t) : Set.EqOn (zeroSlice m (some (lo, hi))) m t := by
  rw [zeroSlice, Memory.fill]
  refine Memory.eqOn_write (h.mono_left ?_)
  intro i hi
  rw [Finset.mem_Ico] at hi ⊢
  omega

/-- What a push keeps, and where it is placed. -/
theorem HeapState.Sound.pushAligned (hs : h.Sound) {memory : VirtualMemory}
    (hmemory : memory.Fresh h.chain.blocks) {size align : UInt64} {data : Option (ℕ × ℕ)}
    (hpush : h.pushAligned memory size align = .returned (h', data)) :
    h'.Sound ∧ h'.temps = h.temps ∧
      (∀ q ∈ h.live, q ∈ h'.live ∧ Set.EqOn h'.bytes h.bytes q.range) ∧
      ((data = none ∧ size.toNat = 0) ∨ ∃ lo, data = some (lo, lo + size.toNat) ∧
        0 < size.toNat ∧ h.chain.pos < h'.chain.pos ∧
        h'.live = ⟨lo, lo + size.toNat, h'.chain.pos⟩ :: h.live) := by
  obtain ⟨⟨g, range⟩, hpushed, hreturn⟩ := Outcome.bind_eq_returned.mp hpush
  obtain ⟨rfl, rfl⟩ := Prod.mk.inj (Outcome.returned.inj hreturn)
  obtain ⟨⟨g', range'⟩, hnonZeroed, hreturn⟩ := Outcome.bind_eq_returned.mp hpushed
  obtain ⟨rfl, rfl⟩ := Prod.mk.inj (Outcome.returned.inj hreturn)
  have hchain := pushAlignedNonZeroed_chain (g := ⟨h.bytes, h.chain⟩) hnonZeroed
  have hapart := hs.apart.push hmemory hchain
  have hlive : ∀ q ∈ h.live, q ∈ (h.toArenaState.pushed g'.chain range').live := by
    intro q hq
    rcases range' with _ | ⟨lo, hi⟩
    · exact hq
    · exact List.mem_cons_of_mem _ hq
  -- what is stored lies in headers, and what is zeroed in the new memory
  have hstores : g'.bytes =
      if size.toNat = 0 then h.bytes else arenaPushStores h.bytes h.chain g'.chain := by
    obtain ⟨⟨c, range⟩, hpush', hreturn⟩ := Outcome.bind_eq_returned.mp hnonZeroed
    obtain ⟨rfl, rfl⟩ := Prod.mk.inj (Outcome.returned.inj hreturn)
    rfl
  have hbytes : ∀ q ∈ h.live, Set.EqOn (zeroSlice g'.bytes range') h.bytes q.range := by
    intro q hq
    have hheaders : Set.EqOn g'.bytes h.bytes q.range := by
      rw [hstores]
      split
      · exact Set.eqOn_refl _ _
      · refine eqOn_arenaPushStores (fun b hb => hs.apart.inv.disjoint_header hq hb) ?_
        refine hapart.inv.disjoint_header (hlive q hq) ?_
        rw [ArenaState.chain_pushed]
        exact List.mem_cons_self
    rcases range' with _ | ⟨lo, hi⟩
    · exact hheaders
    · have hoff := (List.pairwise_cons.mp hapart.apart).1 q hq
      exact (eqOn_zeroSlice hoff).trans hheaders
  refine ⟨⟨hs.nested.push hmemory hchain, hapart⟩, h.toArenaState.temps_pushed _ _,
    fun q hq => ⟨hlive q hq, hbytes q hq⟩, ?_⟩
  by_cases hzero : size.toNat = 0
  · left
    rw [arenaPushAlignedNonZeroed, if_pos hzero] at hchain
    exact ⟨(Prod.mk.inj (Outcome.returned.inj hchain)).2.symm, hzero⟩
  · right
    obtain ⟨lo, rfl, -⟩ := hs.apart.inv.push_placed hmemory (Nat.pos_of_ne_zero hzero) hchain
    exact ⟨lo, rfl, Nat.pos_of_ne_zero hzero, hs.apart.inv.pos_lt_push hmemory hchain, rfl⟩

theorem HeapState.Sound.tempBegin (hs : h.Sound)
    (hstep : heapStep h (.arena .tempBegin) = .returned h') :
    h'.Sound ∧ h'.temps = h.chain.pos :: h.temps ∧ h'.live = h.live ∧ h'.bytes = h.bytes := by
  obtain rfl := Outcome.returned.inj hstep
  exact ⟨⟨hs.nested.tempBegin, ⟨hs.nested.tempBegin.inv, hs.apart.apart⟩⟩, rfl, rfl, rfl⟩

/-- The end of a temp goes back to its position and gives up what ends behind it. It stores to
headers only, so what was given up is not written over yet. -/
theorem HeapState.Sound.tempEnd (hs : h.Sound) {temp : ℕ} {temps : List ℕ}
    (htemps : h.temps = temp :: temps)
    (hstep : heapStep h (.arena .tempEnd) = .returned h') :
    h'.Sound ∧ h'.temps = temps ∧ h'.chain.pos = temp ∧ h'.live = h.live.filter (·.pos ≤ temp) ∧
      ∀ q ∈ h.live, Set.EqOn h'.bytes h.bytes q.range := by
  obtain ⟨s', harena, hreturn⟩ := Outcome.bind_eq_returned.mp hstep
  obtain rfl := Outcome.returned.inj hreturn
  have hnested := hs.nested.tempEnd harena
  rw [arenaStep, htemps] at harena
  obtain ⟨c, hpop, hreturn⟩ := Outcome.bind_eq_returned.mp harena
  obtain rfl := Outcome.returned.inj hreturn
  obtain ⟨hheader, -, hnot⟩ := hs.nested.temps temp (htemps ▸ List.mem_cons_self)
  have hmax : max temp sizeOfArena = temp := max_eq_left hheader
  have hpos : c.pos = temp :=
    ((hs.apart.inv.chain.popTo (hmax.symm ▸ hnot) hpop).2).trans hmax
  refine ⟨⟨hnested, ⟨hnested.inv, hs.apart.apart.filter _⟩⟩, rfl, hpos, ?_, fun q hq => ?_⟩
  · exact hpos ▸ rfl
  -- the headers that are stored to are headers of blocks that there were before
  have hheaders : ∀ b ∈ c.blocks, Disjoint b.header q.range := by
    obtain ⟨-, dropped, b, hblocks, -, -, hcurr⟩ := arenaPopTo_cases hpop
    have hbefore : ∀ d ∈ b :: c.prev, Disjoint d.header q.range := fun d hd =>
      hs.apart.inv.disjoint_header hq (hblocks ▸ List.mem_append_right dropped hd)
    obtain ⟨hb, hprev⟩ := List.forall_mem_cons.mp hbefore
    refine List.forall_mem_cons.mpr ⟨?_, hprev⟩
    rw [hcurr]
    exact hb
  have hcurr := hheaders _ List.mem_cons_self
  have hfirst := hheaders _ (ArenaChain.first_mem _)
  exact (eqOn_storeWord (hcurr.mono_left (c.curr.field_subset (by decide)))).trans
    (eqOn_storeWord (hfirst.mono_left (c.first.field_subset (by decide))))

/-- A store to memory. -/
def HeapState.store (h : HeapState) (addr n : ℕ) (f : ℕ → UInt8) : HeapState :=
  { h with bytes := Memory.write h.bytes addr n f }

theorem HeapState.Sound.store (hs : h.Sound) (addr n : ℕ) (f : ℕ → UInt8) :
    (h.store addr n f).Sound := ⟨hs.nested, hs.apart⟩

end Heap

/-! ### Arrays -/

/-- The lengths of the chunks of an array, the first one first. -/
abbrev ChunkLengths := { lengths : List ℕ // ∀ n ∈ lengths, 0 < n ∧ n < 2 ^ 60 }

/-- Where the chunks start, and where the last one ends. -/
def ChunkLengths.starts (lengths : ChunkLengths) : List ℕ :=
  (List.range (lengths.val.length + 1)).map fun j => (lengths.val.take j).sum

/-- None of the `k` elements from the one at `n` on is the first one of a chunk. -/
def ChunkLengths.Within (lengths : ChunkLengths) (n k : ℕ) : Prop :=
  ∀ i ∈ lengths.starts, i < n ∨ n + k ≤ i

instance (lengths : ChunkLengths) (n k : ℕ) : Decidable (lengths.Within n k) :=
  inferInstanceAs (Decidable (∀ i ∈ lengths.starts, i < n ∨ n + k ≤ i))

/-- The layout of the elements of an array: `byte v k` is the byte `k` of `v`. -/
structure XarLayout (α : Type) where
  size : ℕ
  align : UInt64
  byte : α → ℕ → UInt8
  size_pos : 0 < size
  size_le : size ≤ 8

def XarLayout.cell {α : Type} (t : XarLayout α) (addr : ℕ) : Finset ℕ :=
  Finset.Ico addr (addr + t.size)

/-- What was pushed to an array, its chunks, and the addresses of the slots in them. -/
structure Xar (α : Type) where
  values : List α := []
  chunks : List ArenaPush := []
  slots : List ℕ := []
  deriving DecidableEq, Repr

namespace Xar

variable {α : Type}

/-- A chunk is allocated when all slots are taken. -/
def reserve (t : XarLayout α) (lengths : ChunkLengths) (memory : VirtualMemory) (h : HeapState)
    (x : Xar α) : Outcome (HeapState × Xar α) :=
  if x.values.length < x.slots.length then .returned (h, x)
  else
    match lengths.val[x.chunks.length]? with
    | none => .crashed
    | some n => do
      let (h, data) ← h.pushAligned memory (.ofNat (t.size * n)) t.align
      let (lo, hi) := data.getD (0, 0)
      return (h, { x with
        chunks := x.chunks ++ [⟨lo, hi, h.chain.pos⟩]
        slots := x.slots ++ (List.range n).map (lo + t.size * ·) })

/-- A store to the element `i`, which changes it by `g`. -/
def update (h : HeapState) (x : Xar α) (i offset n : ℕ) (f : ℕ → UInt8) (g : α → α) :
    Outcome (HeapState × Xar α) :=
  match x.slots[i]? with
  | none => .crashed
  | some a => .returned (h.store (a + offset) n f, { x with values := x.values.modify i g })

def pushBack (t : XarLayout α) (lengths : ChunkLengths) (memory : VirtualMemory) (h : HeapState)
    (x : Xar α) (v : α) : Outcome (HeapState × Xar α) := do
  let (h, x) ← x.reserve t lengths memory h
  match x.slots[x.values.length]? with
  | none => .crashed
  | some a => return (h.store a t.size (t.byte v), { x with values := x.values ++ [v] })

/-- The slots hold what was pushed. -/
def Holds (t : XarLayout α) (bytes : ℕ → UInt8) (x : Xar α) : Prop :=
  ∀ (i : ℕ) (v : α), x.values[i]? = some v →
    ∃ a, x.slots[i]? = some a ∧ ∀ k < t.size, bytes (a + k) = t.byte v k

/-- What is read back from the slots. -/
def read {β : Type} (load : ℕ → β) (x : Xar α) : List β := (x.slots.take x.values.length).map load

/-- The chunks are allocated, the slots lie in them and off each other, and they hold what was
pushed. -/
structure Stored (t : XarLayout α) (h : HeapState) (x : Xar α) : Prop where
  chunks : ∀ p ∈ x.chunks, p ∈ h.live
  slots : ∀ a ∈ x.slots, ∃ p ∈ x.chunks, t.cell a ⊆ p.range
  apart : x.slots.Pairwise fun a b => Disjoint (t.cell a) (t.cell b)
  length_le : x.values.length ≤ x.slots.length
  holds : x.Holds t h.bytes

/-- The arrays before and after a push: there is a new chunk if there was no room. -/
def Grows (h : HeapState) (x x' : Xar α) : Prop :=
  (x'.chunks = x.chunks ∧ x'.slots = x.slots) ∨
    x.values.length = x.slots.length ∧ ∃ p slots, x'.chunks = x.chunks ++ [p] ∧
      x'.slots = x.slots ++ slots ∧ h.chain.pos < p.pos ∧ ∀ q ∈ h.live, Disjoint p.range q.range

variable {t : XarLayout α} {lengths : ChunkLengths} {h h' : HeapState} {x x' : Xar α}

theorem reserve_values {memory : VirtualMemory}
    (hreserve : x.reserve t lengths memory h = .returned (h', x')) : x'.values = x.values := by
  rw [Xar.reserve] at hreserve
  split at hreserve
  · obtain ⟨-, rfl⟩ := Prod.mk.inj (Outcome.returned.inj hreserve)
    rfl
  · split at hreserve
    · cases hreserve
    · obtain ⟨_, -, hreturn⟩ := Outcome.bind_eq_returned.mp hreserve
      obtain ⟨-, rfl⟩ := Prod.mk.inj (Outcome.returned.inj hreturn)
      rfl

theorem pushBack_values {memory : VirtualMemory} {v : α}
    (hpush : x.pushBack t lengths memory h v = .returned (h', x')) :
    x'.values = x.values ++ [v] := by
  obtain ⟨⟨h₁, x₁⟩, hreserve, hpush⟩ := Outcome.bind_eq_returned.mp hpush
  dsimp only at hpush
  split at hpush
  · cases hpush
  · obtain ⟨-, rfl⟩ := Prod.mk.inj (Outcome.returned.inj hpush)
    exact congrArg (· ++ [v]) (reserve_values hreserve)

theorem update_values {i offset n : ℕ} {f : ℕ → UInt8} {g : α → α}
    (hupdate : update h x i offset n f g = .returned (h', x')) :
    x'.values = x.values.modify i g := by
  rw [Xar.update] at hupdate
  split at hupdate
  · cases hupdate
  · obtain ⟨-, rfl⟩ := Prod.mk.inj (Outcome.returned.inj hupdate)
    rfl

/-- An array of `n` elements, whose slots are those of the first chunks. -/
structure Chunked (lengths : ChunkLengths) (n : ℕ) (x : Xar α) : Prop where
  length : x.values.length = n
  chunks_le : x.chunks.length ≤ lengths.val.length
  slots : x.slots.length = (lengths.val.take x.chunks.length).sum
  length_le : n ≤ x.slots.length

theorem Chunked.empty : Chunked lengths 0 ({} : Xar α) := ⟨rfl, Nat.zero_le _, rfl, le_rfl⟩

/-- An array has slots for elements that begin no chunk. -/
theorem Chunked.within {n k : ℕ} (hx : x.Chunked lengths n) (h : lengths.Within n k) :
    n + k ≤ x.slots.length := by
  have hmem : x.slots.length ∈ lengths.starts :=
    List.mem_map.mpr ⟨_, List.mem_range.mpr (Nat.lt_succ_of_le hx.chunks_le), hx.slots.symm⟩
  exact (h _ hmem).resolve_left (not_lt.mpr hx.length_le)

theorem Chunked.reserve {n : ℕ} (hx : x.Chunked lengths n) {memory : VirtualMemory}
    (hreserve : x.reserve t lengths memory h = .returned (h', x')) : x'.Chunked lengths n := by
  have hvalues := (congrArg List.length (reserve_values hreserve)).trans hx.length
  rw [Xar.reserve] at hreserve
  split at hreserve
  · obtain ⟨-, rfl⟩ := Prod.mk.inj (Outcome.returned.inj hreserve)
    exact hx
  split at hreserve
  · cases hreserve
  rename_i k hk
  obtain ⟨⟨h₁, data⟩, -, hreturn⟩ := Outcome.bind_eq_returned.mp hreserve
  obtain ⟨-, rfl⟩ := Prod.mk.inj (Outcome.returned.inj hreturn)
  obtain ⟨hlt, rfl⟩ := List.getElem?_eq_some_iff.mp hk
  have hslots : ∀ lo : ℕ, (x.slots ++ (List.range lengths.val[x.chunks.length]).map
      (lo + t.size * ·)).length = x.slots.length + lengths.val[x.chunks.length] := by
    intro lo
    rw [List.length_append, List.length_map, List.length_range]
  refine ⟨hvalues, ?_, ?_, ?_⟩
  · rw [List.length_append, List.length_singleton]
    exact hlt
  · rw [hslots, hx.slots, List.length_append, List.length_singleton, List.take_add_one,
      List.getElem?_eq_getElem hlt, List.sum_append, Option.toList_some, List.sum_singleton]
  · rw [hslots]
    exact hx.length_le.trans (Nat.le_add_right _ _)

theorem Chunked.pushBack {n : ℕ} (hx : x.Chunked lengths n) {memory : VirtualMemory} {v : α}
    (hpush : x.pushBack t lengths memory h v = .returned (h', x')) :
    x'.Chunked lengths (n + 1) := by
  obtain ⟨⟨h₁, x₁⟩, hreserve, hpush⟩ := Outcome.bind_eq_returned.mp hpush
  have hx₁ := hx.reserve hreserve
  dsimp only at hpush
  split at hpush
  · cases hpush
  · rename_i a ha
    obtain ⟨-, rfl⟩ := Prod.mk.inj (Outcome.returned.inj hpush)
    refine ⟨?_, hx₁.chunks_le, hx₁.slots, ?_⟩
    · rw [List.length_append, List.length_singleton, hx₁.length]
    · rw [← hx₁.length]
      exact (List.getElem?_eq_some_iff.mp ha).1

theorem Chunked.update {n : ℕ} (hx : x.Chunked lengths n) {i offset k : ℕ} {f : ℕ → UInt8}
    {g : α → α} (hupdate : update h x i offset k f g = .returned (h', x')) :
    x'.Chunked lengths n := by
  rw [Xar.update] at hupdate
  split at hupdate
  · cases hupdate
  · obtain ⟨-, rfl⟩ := Prod.mk.inj (Outcome.returned.inj hupdate)
    exact ⟨(List.length_modify ..).trans hx.length, hx.chunks_le, hx.slots, hx.length_le⟩

/-- The slots hold it as long as the chunks keep their bytes. -/
theorem Stored.holds_of_eqOn (hx : x.Stored t h) {bytes : ℕ → UInt8}
    (hbytes : ∀ p ∈ x.chunks, Set.EqOn bytes h.bytes p.range) : x.Holds t bytes := by
  intro i v hv
  obtain ⟨a, ha, hheld⟩ := hx.holds i v hv
  obtain ⟨p, hp, hcell⟩ := hx.slots a (List.mem_of_getElem? ha)
  refine ⟨a, ha, fun k hk => (hbytes p hp (hcell ?_)).trans (hheld k hk)⟩
  exact Finset.mem_Ico.mpr ⟨Nat.le_add_right _ _, Nat.add_lt_add_left hk _⟩

theorem Stored.frame (hx : x.Stored t h)
    (hkept : ∀ p ∈ x.chunks, p ∈ h'.live ∧ Set.EqOn h'.bytes h.bytes p.range) :
    x.Stored t h' where
  chunks p hp := (hkept p hp).1
  slots := hx.slots
  apart := hx.apart
  length_le := hx.length_le
  holds := hx.holds_of_eqOn fun p hp => (hkept p hp).2

/-- What the slots hold is read back. -/
theorem Holds.read {bytes : ℕ → UInt8} {load : ℕ → α} (hx : x.Holds t bytes)
    (hload : ∀ a v, (∀ k < t.size, bytes (a + k) = t.byte v k) → load a = v) :
    x.read load = x.values := by
  refine List.ext_getElem? fun i => ?_
  rw [Xar.read, List.getElem?_map, List.getElem?_take]
  rcases hv : x.values[i]? with _ | v
  · rw [if_neg (not_lt.mpr (List.getElem?_eq_none_iff.mp hv)), Option.map_none]
  · obtain ⟨a, ha, hheld⟩ := hx i v hv
    rw [if_pos (List.getElem?_eq_some_iff.mp hv).1, ha, Option.map_some, hload a v hheld]

/-- Different slots lie apart. -/
theorem Stored.disjoint_cell (hx : x.Stored t h) {i j a b : ℕ} (hne : i ≠ j)
    (ha : x.slots[i]? = some a) (hb : x.slots[j]? = some b) : Disjoint (t.cell a) (t.cell b) := by
  obtain ⟨hi, rfl⟩ := List.getElem?_eq_some_iff.mp ha
  obtain ⟨hj, rfl⟩ := List.getElem?_eq_some_iff.mp hb
  rcases Nat.lt_or_gt_of_ne hne with hlt | hlt
  · exact List.pairwise_iff_getElem.mp hx.apart i j hi hj hlt
  · exact (List.pairwise_iff_getElem.mp hx.apart j i hj hi hlt).symm

/-- A store to a part of a cell. -/
theorem cell_part {a offset n : ℕ} (hn : offset + n ≤ t.size) :
    Finset.Ico (a + offset) (a + offset + n) ⊆ t.cell a :=
  Finset.Ico_subset_Ico (Nat.le_add_right _ _) (by omega)

/-- A store to a slot leaves everything alone that lies off the chunks. -/
theorem Stored.eqOn_store (hx : x.Stored t h) {i a n : ℕ} {f : ℕ → UInt8}
    (ha : x.slots[i]? = some a) (offset : ℕ) (hn : offset + n ≤ t.size) {q : ArenaPush}
    (hq : ∀ p ∈ x.chunks, Disjoint p.range q.range) :
    Set.EqOn (h.store (a + offset) n f).bytes h.bytes q.range := by
  obtain ⟨p, hp, hcell⟩ := hx.slots a (List.mem_of_getElem? ha)
  exact Memory.eqOn_write ((hq p hp).mono_left ((cell_part hn).trans hcell))

/-- A store to a slot, and what the array is to hold behind it. -/
theorem Stored.store (hx : x.Stored t h) {i a n : ℕ} {f : ℕ → UInt8}
    (ha : x.slots[i]? = some a) (offset : ℕ) (hn : offset + n ≤ t.size) {values : List α}
    (hlength : values.length ≤ x.slots.length)
    (hothers : ∀ j ≠ i, ∀ v, values[j]? = some v → x.values[j]? = some v)
    (hvalue : ∀ v, values[i]? = some v →
      ∀ k < t.size, (h.store (a + offset) n f).bytes (a + k) = t.byte v k) :
    Stored t (h.store (a + offset) n f) { x with values } where
  chunks := hx.chunks
  slots := hx.slots
  apart := hx.apart
  length_le := hlength
  holds j v hv := by
    by_cases hj : j = i
    · subst hj
      exact ⟨a, ha, hvalue v hv⟩
    obtain ⟨b, hb, hbytes⟩ := hx.holds j v (hothers j hj v hv)
    have hoff := (hx.disjoint_cell (Ne.symm hj) ha hb).mono_left (cell_part hn)
    refine ⟨b, hb, fun k hk => (Memory.eqOn_write hoff ?_).trans (hbytes k hk)⟩
    exact Finset.mem_Ico.mpr ⟨Nat.le_add_right _ _, Nat.add_lt_add_left hk _⟩

/-- A store that changes an element as `g` does. -/
theorem Stored.update (hx : x.Stored t h) {i offset n : ℕ} {f : ℕ → UInt8} {g : α → α}
    (hn : offset + n ≤ t.size)
    (hg : ∀ v, ∀ k < t.size,
      t.byte (g v) k = if offset ≤ k ∧ k < offset + n then f (k - offset) else t.byte v k)
    (hupdate : update h x i offset n f g = .returned (h', x')) :
    x'.Stored t h' ∧ x' = { x with values := x.values.modify i g } ∧
      h'.toArenaState = h.toArenaState ∧
      ∀ q ∈ h.live, (∀ p ∈ x.chunks, Disjoint p.range q.range) →
        Set.EqOn h'.bytes h.bytes q.range := by
  rw [Xar.update] at hupdate
  rcases ha : x.slots[i]? with _ | a
  · rw [ha] at hupdate
    cases hupdate
  rw [ha] at hupdate
  obtain ⟨rfl, rfl⟩ := Prod.mk.inj (Outcome.returned.inj hupdate)
  refine ⟨hx.store ha offset hn (by simpa using hx.length_le) ?_ ?_, rfl, rfl,
    fun q _ hq => hx.eqOn_store ha offset hn hq⟩
  · intro j hj v hv
    simpa [List.getElem?_modify, Ne.symm hj] using hv
  · intro v hv k hk
    obtain ⟨w, hw, rfl⟩ : ∃ w, x.values[i]? = some w ∧ g w = v := by
      simpa [List.getElem?_modify] using hv
    obtain ⟨b, hb, hbytes⟩ := hx.holds i w hw
    obtain rfl : a = b := Option.some.inj (ha.symm.trans hb)
    have hk' : (a + offset ≤ a + k ∧ a + k < a + offset + n) ↔
        offset ≤ k ∧ k < offset + n := by omega
    have hsub : a + k - (a + offset) = k - offset := by omega
    simp only [HeapState.store, Memory.write, hk', hsub, hg w k hk, hbytes k hk]

/-- A new chunk gives room for at least one element. -/
theorem Stored.reserve (hx : x.Stored t h) (hs : h.Sound) {memory : VirtualMemory}
    (hmemory : memory.Fresh h.chain.blocks)
    (hreserve : x.reserve t lengths memory h = .returned (h', x')) :
    h'.Sound ∧ h'.temps = h.temps ∧ x'.Stored t h' ∧ x'.values = x.values ∧
      x.values.length < x'.slots.length ∧ x.Grows h x' ∧
      ∀ q ∈ h.live, q ∈ h'.live ∧ Set.EqOn h'.bytes h.bytes q.range := by
  rw [Xar.reserve] at hreserve
  split at hreserve
  · rename_i hroom
    obtain ⟨rfl, rfl⟩ := Prod.mk.inj (Outcome.returned.inj hreserve)
    exact ⟨hs, rfl, hx, rfl, hroom, Or.inl ⟨rfl, rfl⟩, fun q hq => ⟨hq, Set.eqOn_refl _ _⟩⟩
  rename_i hfull
  split at hreserve
  · cases hreserve
  rename_i n hlength
  obtain ⟨⟨h₁, data⟩, hpush, hreturn⟩ := Outcome.bind_eq_returned.mp hreserve
  obtain ⟨rfl, rfl⟩ := Prod.mk.inj (Outcome.returned.inj hreturn)
  obtain ⟨hsound, htemps, hkept, hnew⟩ := hs.pushAligned hmemory hpush
  obtain ⟨hpos, hlt⟩ := lengths.property n (List.mem_of_getElem? hlength)
  have hsize := t.size_pos
  have hbytes : (UInt64.ofNat (t.size * n)).toNat = t.size * n := by
    refine UInt64.toNat_ofNat_of_lt ?_
    calc t.size * n ≤ 8 * n := Nat.mul_le_mul_right n t.size_le
      _ < 2 ^ 64 := by omega
  have hprod : 0 < t.size * n := Nat.mul_pos hsize hpos
  rw [hbytes] at hnew
  obtain ⟨-, hzero⟩ | ⟨lo, rfl, -, hmoved, hlive⟩ := hnew
  · omega
  have hpushed := hsound.apart.apart
  rw [hlive] at hpushed
  have hoff := (List.pairwise_cons.mp hpushed).1
  -- a cell of the new chunk
  have hcell : ∀ i < n, t.cell (lo + t.size * i) ⊆ Finset.Ico lo (lo + t.size * n) := by
    intro i hi
    refine Finset.Ico_subset_Ico (Nat.le_add_right _ _) ?_
    rw [Nat.add_assoc, ← Nat.mul_succ]
    exact Nat.add_le_add_left (Nat.mul_le_mul_left _ hi) _
  have hlen : x.values.length = x.slots.length := le_antisymm hx.length_le (not_lt.mp hfull)
  refine ⟨hsound, htemps, ?_, rfl, ?_, Or.inr ⟨hlen, _, _, rfl, rfl, hmoved, hoff⟩, hkept⟩
  swap
  · rw [List.length_append, List.length_map, List.length_range]
    omega
  have hframe := hx.frame fun p hp => hkept p (hx.chunks p hp)
  exact
    { chunks := fun p hp => by
        rcases List.mem_append.mp hp with hp | hp
        · exact (hkept p (hx.chunks p hp)).1
        · rw [List.mem_singleton.mp hp, hlive]
          exact List.mem_cons_self
      slots := fun a ha => by
        rcases List.mem_append.mp ha with ha | ha
        · obtain ⟨p, hp, hcell⟩ := hx.slots a ha
          exact ⟨p, List.mem_append_left _ hp, hcell⟩
        · obtain ⟨i, hi, rfl⟩ := List.mem_map.mp ha
          exact ⟨_, List.mem_append_right _ (List.mem_singleton_self _),
            hcell i (List.mem_range.mp hi)⟩
      apart := by
        refine List.pairwise_append.mpr ⟨hx.apart, ?_, fun a ha b hb => ?_⟩
        · refine List.pairwise_map.mpr (List.pairwise_lt_range.imp fun {i j} hij => ?_)
          rw [Finset.disjoint_left]
          intro k hk hk'
          rw [XarLayout.cell, Finset.mem_Ico] at hk hk'
          have hle : t.size * (i + 1) ≤ t.size * j := Nat.mul_le_mul_left _ hij
          rw [Nat.mul_succ] at hle
          omega
        · obtain ⟨p, hp, hsub⟩ := hx.slots a ha
          obtain ⟨i, hi, rfl⟩ := List.mem_map.mp hb
          exact ((hoff p (hx.chunks p hp)).symm.mono hsub (hcell i (List.mem_range.mp hi)))
      length_le := hx.length_le.trans (by simp)
      holds := fun i v hv => by
        obtain ⟨a, ha, hbytes⟩ := hframe.holds i v hv
        obtain ⟨hi, rfl⟩ := List.getElem?_eq_some_iff.mp ha
        exact ⟨_, List.getElem?_append_left hi ▸ ha, hbytes⟩ }

/-- What a push stores, and what it keeps. -/
theorem Stored.pushBack (hx : x.Stored t h) (hs : h.Sound) {memory : VirtualMemory}
    (hmemory : memory.Fresh h.chain.blocks) {v : α}
    (hpush : x.pushBack t lengths memory h v = .returned (h', x')) :
    h'.Sound ∧ h'.temps = h.temps ∧ x'.Stored t h' ∧ x'.values = x.values ++ [v] ∧
      x.Grows h x' ∧ (∀ q ∈ h.live, q ∈ h'.live) ∧
      ∀ q ∈ h.live, (∀ p ∈ x.chunks, Disjoint p.range q.range) →
        Set.EqOn h'.bytes h.bytes q.range := by
  obtain ⟨⟨h₁, x₁⟩, hreserve, hpush⟩ := Outcome.bind_eq_returned.mp hpush
  obtain ⟨hsound, htemps, hx₁, hvalues, hroom, hgrows, hkept⟩ := hx.reserve hs hmemory hreserve
  dsimp only at hpush
  rcases ha : x₁.slots[x₁.values.length]? with _ | a
  · rw [ha] at hpush
    cases hpush
  rw [ha] at hpush
  obtain ⟨rfl, rfl⟩ := Prod.mk.inj (Outcome.returned.inj hpush)
  have hall : 0 + t.size ≤ t.size := (Nat.zero_add _).le
  refine ⟨hsound.store _ _ _, htemps, ?_, by rw [← hvalues], hgrows, fun q hq => (hkept q hq).1,
    fun q hq hoff => ?_⟩
  · refine hx₁.store ha 0 hall ?_ ?_ ?_
    · rw [List.length_append, hvalues, List.length_singleton]
      exact hroom
    · intro j hj w hw
      rw [List.getElem?_append] at hw
      split at hw
      · exact hw
      · rename_i hge
        obtain ⟨hlt, -⟩ := List.getElem?_eq_some_iff.mp hw
        rw [List.length_singleton] at hlt
        omega
    · intro w hw k hk
      rw [List.getElem?_concat_length] at hw
      obtain rfl := Option.some.inj hw
      exact Memory.write_add hk
  · -- also the new chunk lies off what was allocated
    have hoff' : ∀ p ∈ x₁.chunks, Disjoint p.range q.range := by
      rcases hgrows with ⟨hchunks, -⟩ | ⟨-, p, _, hchunks, -, -, hnew⟩
      · rwa [hchunks]
      · rw [hchunks]
        intro r hr
        rcases List.mem_append.mp hr with hr | hr
        · exact hoff r hr
        · exact List.mem_singleton.mp hr ▸ hnew q hq
    exact (hx₁.eqOn_store ha 0 hall hoff').trans (hkept q hq).2

/-- A push to one array keeps another one. -/
theorem Stored.pushBack_other {β : Type} {u : XarLayout β} {y : Xar β} (hx : x.Stored t h)
    (hy : y.Stored u h) (hs : h.Sound) {memory : VirtualMemory}
    (hmemory : memory.Fresh h.chain.blocks) {v : α}
    (hoff : ∀ p ∈ x.chunks, ∀ q ∈ y.chunks, Disjoint p.range q.range)
    (hpush : x.pushBack t lengths memory h v = .returned (h', x')) :
    y.Stored u h' ∧ ∀ p ∈ x'.chunks, ∀ q ∈ y.chunks, Disjoint p.range q.range := by
  obtain ⟨-, -, -, -, hgrows, hlive, hbytes⟩ := hx.pushBack hs hmemory hpush
  refine ⟨hy.frame fun q hq => ⟨hlive q (hy.chunks q hq), hbytes q (hy.chunks q hq) fun p hp =>
    hoff p hp q hq⟩, ?_⟩
  rcases hgrows with ⟨hchunks, -⟩ | ⟨-, p, _, hchunks, -, -, hnew⟩
  · rwa [hchunks]
  · rw [hchunks]
    intro r hr q hq
    rcases List.mem_append.mp hr with hr | hr
    · exact hoff r hr q hq
    · exact List.mem_singleton.mp hr ▸ hnew q (hy.chunks q hq)

end Xar

end Wasim
