import Wasim.Base.Allocator

/-!
# Runs of the allocator

Allocations lie in their blocks, behind the headers, and off each other (`ArenaState.Apart`).
Every call that does not pop into a header keeps this, and it is all that a resize needs: what is
stored, filled and copied on the way lies in headers and in the new memory, and the part that is
filled lies off the old one (`arenaResize_preserves`).

A resize in a temp may move what was allocated in front of it to a new block, which then starts in
front of the position of the temp. The end of the temp leaves the block and not its header, and the
next allocation is placed there (`not_arenaResize_preserves_header`).
-/

namespace Wasim

variable {s s' : ArenaState} {c c' : ArenaChain} {p : ArenaPush}

/-- The addresses of a header. -/
def Arena.header (a : Arena) : Finset ℕ := Finset.Ico a.data (a.data + sizeOfArena)

/-- The addresses of an allocation. -/
def ArenaPush.range (p : ArenaPush) : Finset ℕ := Finset.Ico p.lo p.hi

/-- Allocations lie in their blocks, behind the headers, and off each other. -/
structure ArenaState.Apart (s : ArenaState) : Prop where
  inv : s.Invariant
  apart : s.live.Pairwise fun p q => Disjoint p.range q.range

/-! ### Blocks -/

theorem ArenaChain.Valid.disjoint_region (h : c.Valid) {b d : Arena} (hb : b ∈ c.blocks)
    (hd : d ∈ c.blocks) (hne : b ≠ d) : Disjoint b.region d.region := by
  have : Std.Symm fun b d : Arena => Disjoint b.region d.region := ⟨fun _ _ h => h.symm⟩
  exact h.apart.forall hb hd hne

theorem ArenaState.Apart.disjoint_range (h : s.Apart) {p q : ArenaPush} (hp : p ∈ s.live)
    (hq : q ∈ s.live) (hne : p ≠ q) : Disjoint p.range q.range := by
  have : Std.Symm fun p q : ArenaPush => Disjoint p.range q.range := ⟨fun _ _ h => h.symm⟩
  exact h.apart.forall hp hq hne

/-- An allocation lies off the headers. -/
theorem ArenaState.Invariant.disjoint_header (h : s.Invariant) (hp : p ∈ s.live) {b : Arena}
    (hb : b ∈ s.chain.blocks) : Disjoint b.header p.range := by
  obtain ⟨d, hd, hin⟩ := h.live p hp
  by_cases hne : b = d
  · subst hne
    have hlo := hin.lo_ge
    rw [Arena.header, ArenaPush.range, Finset.disjoint_left]
    intro i hi hi'
    simp only [Finset.mem_Ico] at hi hi'
    omega
  · exact (h.chain.disjoint_region hb hd hne).mono (h.chain.block b hb).header_subset
      (hin.subset_region (h.chain.block d hd))

/-- The last allocation of the current block, by its end. -/
theorem ArenaState.Invariant.in_curr (h : s.Invariant) (hp : p ∈ s.live)
    (hend : p.hi = s.chain.curr.data + s.chain.curr.used) : p.In s.chain.curr := by
  obtain ⟨b, hb, hin⟩ := h.live p hp
  by_cases hne : b = s.chain.curr
  · exact hne ▸ hin
  -- the byte in front of the end lies in one block only
  have hcurr := h.chain.block s.chain.curr List.mem_cons_self
  have hregion := h.chain.disjoint_region hb List.mem_cons_self hne
  have hlt := hin.lt
  have hlo := hin.lo_ge
  have hheader := hcurr.header_le
  have hused := hcurr.used_le
  have hsize : sizeOfArena = 72 := rfl
  have hmem : p.hi - 1 ∈ b.region :=
    hin.subset_region (h.chain.block b hb) (Finset.mem_Ico.mpr (by omega))
  refine absurd (Finset.mem_Ico.mpr ?_) (Finset.disjoint_left.mp hregion hmem)
  omega

/-! ### What a call keeps -/

theorem ArenaState.Apart.push (h : s.Apart) {memory : VirtualMemory}
    (hmemory : memory.Fresh s.chain.blocks) {size align : UInt64} {range : Option (ℕ × ℕ)}
    (hpush : arenaPushAlignedNonZeroed memory s.chain size.toNat align.toNat =
      .returned (c, range)) : (s.pushed c range).Apart := by
  obtain ⟨hinv, hoff⟩ := h.inv.push hmemory hpush
  refine ⟨hinv, ?_⟩
  rcases range with _ | ⟨lo, hi⟩
  · exact h.apart
  · exact List.pairwise_cons.mpr ⟨(hoff lo hi rfl).2, h.apart⟩

theorem ArenaState.Apart.popTo (h : s.Apart) {pos : ℕ}
    (hheader : ¬s.chain.InHeader (max pos sizeOfArena))
    (hpop : arenaPopTo s.chain pos = .returned c) : (s.popped c).Apart :=
  ⟨h.inv.popTo hheader hpop, h.apart.filter _⟩

theorem ArenaState.Apart.erase (h : s.Apart) (p : ArenaPush) :
    ArenaState.Apart { s with live := s.live.erase p } where
  inv := ⟨h.inv.chain, fun q hq => h.inv.live q (List.mem_of_mem_erase hq)⟩
  apart := h.apart.sublist List.erase_sublist

theorem ArenaState.Apart.step (h : s.Apart) {call : ArenaCall} (hanswered : s.Answered call)
    (hkeeps : s.KeepsHeaders call) (hstep : arenaStep s call = .returned s') : s'.Apart := by
  refine ⟨h.inv.step hanswered hkeeps hstep, ?_⟩
  rcases arenaStep_cases hstep with ⟨memory, size, align, c, range, rfl, hpush, rfl⟩ |
    ⟨pos, c, temps, -, -, rfl⟩ | ⟨rfl, rfl⟩
  · exact (h.push (hanswered memory size align rfl) hpush).apart
  · exact h.apart.filter _
  · exact h.apart

/-! ### The last allocation -/

/-- The chain that the new memory of a resize is pushed to: the last allocation of the current
block is given back before. -/
def ArenaChain.forResize (c : ArenaChain) (p : ArenaPush) : ArenaChain :=
  if p.hi = c.curr.data + c.curr.used then
    ⟨{ c.curr with used := c.curr.used - p.size }, c.prev⟩
  else c

theorem ArenaChain.forResize_last (h : p.hi = c.curr.data + c.curr.used) :
    c.forResize p = ⟨{ c.curr with used := c.curr.used - p.size }, c.prev⟩ := if_pos h

theorem ArenaChain.forResize_other (h : p.hi ≠ c.curr.data + c.curr.used) :
    c.forResize p = c := if_neg h

theorem fresh_forResize {memory : VirtualMemory} (h : memory.Fresh c.blocks) :
    memory.Fresh (c.forResize p).blocks := by
  by_cases hend : p.hi = c.curr.data + c.curr.used
  · intro size data hdata
    obtain ⟨hpos, hpage, hle, hapart⟩ := h size data hdata
    obtain ⟨hcurr, hprev⟩ := List.forall_mem_cons.mp hapart
    rw [ArenaChain.forResize_last hend]
    exact ⟨hpos, hpage, hle, List.forall_mem_cons.mpr ⟨hcurr, hprev⟩⟩
  · rwa [ArenaChain.forResize_other hend]

/-- What was not resized is kept. -/
theorem ArenaState.Apart.forResize (h : s.Apart) (hp : p ∈ s.live) :
    ArenaState.Apart { s with chain := s.chain.forResize p, live := s.live.erase p } := by
  by_cases hend : p.hi = s.chain.curr.data + s.chain.curr.used
  swap
  · rw [ArenaChain.forResize_other hend]
    exact h.erase p
  rw [ArenaChain.forResize_last hend]
  have hcurr := h.inv.chain.block s.chain.curr List.mem_cons_self
  have hin := h.inv.in_curr hp hend
  have hlo := hin.lo_ge
  have hlt := hin.lt
  have hused := hcurr.used_le
  have hstart : p.lo = s.chain.curr.data + (s.chain.curr.used - p.size) := by
    rw [ArenaPush.size]
    omega
  refine ⟨⟨h.inv.chain.setUsed _ (show sizeOfArena ≤ _ by omega) (show _ ≤ _ by omega), ?_⟩,
    (h.erase p).apart⟩
  intro q hq
  obtain ⟨b, hb, hqin⟩ := h.inv.live q (List.mem_of_mem_erase hq)
  rcases List.mem_cons.mp hb with rfl | hb
  · refine ⟨_, List.mem_cons_self, hqin.lo_ge, hqin.lt, ?_, hqin.pos_eq⟩
    -- the others end in front of the last one
    have hne : q ≠ p := by
      rintro rfl
      have hnodup : s.live.Nodup := by
        refine h.apart.imp_of_mem fun {a b} ha hb hdisjoint heq => ?_
        obtain ⟨d, -, hain⟩ := h.inv.live a ha
        subst heq
        have hmem : a.lo ∈ a.range := Finset.mem_Ico.mpr ⟨le_rfl, hain.lt⟩
        exact Finset.disjoint_left.mp hdisjoint hmem hmem
      exact hnodup.not_mem_erase hq
    have hdisjoint := h.disjoint_range (List.mem_of_mem_erase hq) hp hne
    have hqlt := hqin.lt
    have hqhi := hqin.hi_le
    by_contra hover
    refine Finset.disjoint_left.mp hdisjoint (show q.hi - 1 ∈ _ from Finset.mem_Ico.mpr (by omega))
      (Finset.mem_Ico.mpr ?_)
    dsimp only at hover
    omega
  · exact ⟨b, List.mem_cons_of_mem _ hb, hqin⟩

/-! ### What is stored -/

theorem eqOn_storeWord {m : ℕ → UInt8} {addr w : ℕ} {t : Finset ℕ}
    (h : Disjoint (Finset.Ico addr (addr + 8)) t) : Set.EqOn (storeWord m addr w) m t :=
  Memory.eqOn_write h

/-- A field lies in its header. -/
theorem Arena.field_subset (a : Arena) {offset : ℕ} (h : offset + 8 ≤ sizeOfArena) :
    Finset.Ico (a.data + offset) (a.data + offset + 8) ⊆ a.header :=
  Finset.Ico_subset_Ico (Nat.le_add_right _ _) (by omega)

theorem eqOn_arenaPushStores {m : ℕ → UInt8} {t : Finset ℕ}
    (hoff : ∀ b ∈ c.blocks, Disjoint b.header t) (hoff' : Disjoint c'.curr.header t) :
    Set.EqOn (arenaPushStores m c c') m t := by
  have hcurr := hoff c.curr List.mem_cons_self
  have hfirst := hoff c.first c.first_mem
  rw [arenaPushStores]
  split
  · exact (eqOn_storeWord (hfirst.mono_left (c.first.field_subset (by decide)))).trans
      (Memory.eqOn_write hoff')
  · refine (eqOn_storeWord (hcurr.mono_left (c.curr.field_subset (by decide)))).trans ?_
    split
    · exact eqOn_storeWord (hcurr.mono_left (c.curr.field_subset (by decide)))
    · exact Set.eqOn_refl _ _

theorem eqOn_giveBack (h : ArenaMemory) (size : ℕ) {t : Finset ℕ}
    (hoff : Disjoint h.chain.curr.header t) : Set.EqOn (h.giveBack size).bytes h.bytes t :=
  eqOn_storeWord (hoff.mono_left (h.chain.curr.field_subset (by decide)))

/-! ### Resizing -/

/-- A push is placed behind what is in use of the current block, or in a block of its own. -/
theorem ArenaState.Invariant.push_placed (h : s.Invariant) {memory : VirtualMemory}
    (hmemory : memory.Fresh s.chain.blocks) {size align : UInt64} (hsize : 0 < size.toNat)
    {range : Option (ℕ × ℕ)}
    (hpush : arenaPushAlignedNonZeroed memory s.chain size.toNat align.toNat =
      .returned (c, range)) :
    ∃ lo, range = some (lo, lo + size.toNat) ∧
      (c.curr.data = s.chain.curr.data ∧ s.chain.curr.data + s.chain.curr.used ≤ lo ∨
        Finset.Ico lo (lo + size.toNat) ⊆ c.curr.region ∧
          ∀ b ∈ s.chain.blocks, Disjoint c.curr.region b.region) := by
  have hcurr := h.chain.block s.chain.curr List.mem_cons_self
  rcases arenaPush_cases hcurr hmemory size.toNat_lt align.toNat_lt hpush with
    ⟨hzero, -⟩ | ⟨target, start, commited, htarget, -, hle, hend, -, rfl, rfl⟩
  · omega
  refine ⟨target.curr.data + start, by rw [Nat.add_assoc], ?_⟩
  rcases htarget with rfl | ⟨a, -, -, -, hapart, rfl⟩
  · exact Or.inl ⟨rfl, Nat.add_le_add_left hle _⟩
  · refine Or.inr ⟨Finset.Ico_subset_Ico (Nat.le_add_right _ _) ?_, hapart⟩
    rw [Nat.add_assoc]
    exact Nat.add_le_add_left hend _

/-- An allocation ends below the middle of the address space. -/
theorem ArenaState.Invariant.range_bounds (h : s.Invariant) (hp : p ∈ s.live) :
    0 < p.lo ∧ p.lo < p.hi ∧ p.hi ≤ 2 ^ 63 ∧ p.size < 2 ^ 63 ∧ p.lo + p.size = p.hi := by
  obtain ⟨b, hb, hin⟩ := h.live p hp
  have hblock := h.chain.block b hb
  have hused := hblock.used_le
  have hstop := hblock.stop_le
  have hpos := hblock.data_pos
  have hlo := hin.lo_ge
  have hlt := hin.lt
  have hhi := hin.hi_le
  rw [ArenaPush.size]
  omega

theorem toNat_ofNat_size (h : s.Invariant) (hp : p ∈ s.live) :
    (Int64.ofNat p.size).toUInt64.toNat = p.size ∧ (Int64.ofNat p.size).toInt = p.size := by
  obtain ⟨-, -, -, hlt, -⟩ := h.range_bounds hp
  refine ⟨?_, Int64.toInt_ofNat_of_lt hlt⟩
  rw [Int64.toUInt64_ofNat', UInt64.toNat_ofNat']
  exact Nat.mod_eq_of_lt (by omega)

theorem isLastAllocation_iff (h : s.Invariant) (hp : p ∈ s.live) (bytes : ℕ → UInt8) :
    (ArenaMemory.mk bytes s.chain).isLastAllocation p.lo (.ofNat p.size) ↔
      p.hi = s.chain.curr.data + s.chain.curr.used := by
  obtain ⟨-, hlt, hhi, hsize, hend⟩ := h.range_bounds hp
  have hcurr := h.chain.block s.chain.curr List.mem_cons_self
  have hused := hcurr.used_le
  have hstop := hcurr.stop_le
  rw [ArenaMemory.isLastAllocation, decide_eq_true_iff, (toNat_ofNat_size h hp).1]
  dsimp only
  omega

/-- What is given back is the last allocation. -/
theorem giveBack_last (h : s.Invariant) (hp : p ∈ s.live) (bytes : ℕ → UInt8)
    (hend : p.hi = s.chain.curr.data + s.chain.curr.used) :
    ((ArenaMemory.mk bytes s.chain).giveBack (Int64.ofNat p.size).toUInt64.toNat).chain =
      s.chain.forResize p := by
  have hin := h.in_curr hp hend
  have hlo := hin.lo_ge
  have hlt := hin.lt
  have hcurr := h.chain.block s.chain.curr List.mem_cons_self
  have hused := hcurr.used_le
  have hstop := hcurr.stop_le
  have heq : (s.chain.curr.used + (2 ^ 64 - p.size)) % 2 ^ 64 = s.chain.curr.used - p.size := by
    rw [ArenaPush.size]
    omega
  rw [ArenaMemory.giveBack, (toNat_ofNat_size h hp).1, ArenaChain.forResize_last hend]
  dsimp only
  rw [heq]

theorem ArenaChain.map_forResize {β : Type} (f : Arena → β)
    (hf : ∀ (a : Arena) (used : ℕ), f { a with used } = f a) (c : ArenaChain) (p : ArenaPush) :
    (c.forResize p).blocks.map f = c.blocks.map f := by
  by_cases hend : p.hi = c.curr.data + c.curr.used
  · rw [ArenaChain.forResize_last hend, ArenaChain.blocks, List.map_cons, hf]
    rfl
  · rw [ArenaChain.forResize_other hend]

/-- The headers lie off all allocations, also the one that is resized. -/
theorem ArenaState.Apart.resize_headers (h : s.Apart) (hp : p ∈ s.live) {memory : VirtualMemory}
    (hmemory : memory.Fresh s.chain.blocks) {size align : UInt64} (hsize : 0 < size.toNat)
    {range : Option (ℕ × ℕ)}
    (hpush : arenaPushAlignedNonZeroed memory (s.chain.forResize p) size.toNat align.toNat =
      .returned (c, range)) {q : ArenaPush} (hq : q ∈ s.live) :
    (∀ b ∈ (s.chain.forResize p).blocks, Disjoint b.header q.range) ∧
      Disjoint c.curr.header q.range := by
  have hpushed := (h.forResize hp).push (fresh_forResize hmemory) hpush
  have hheaders : ∀ b ∈ (s.chain.forResize p).blocks, Disjoint b.header q.range := by
    intro b hb
    have hmem : b.header ∈ (s.chain.forResize p).blocks.map Arena.header :=
      List.mem_map.mpr ⟨b, hb, rfl⟩
    rw [s.chain.map_forResize Arena.header fun _ _ => rfl] at hmem
    obtain ⟨d, hd, heq⟩ := List.mem_map.mp hmem
    exact heq ▸ h.inv.disjoint_header hq hd
  refine ⟨hheaders, ?_⟩
  obtain ⟨lo, -, ⟨hdata, -⟩ | ⟨-, hapart⟩⟩ :=
    (h.forResize hp).inv.push_placed (fresh_forResize hmemory) hsize hpush
  · have hsame : c.curr.header = (s.chain.forResize p).curr.header := by
      rw [Arena.header, Arena.header, hdata]
    exact hsame ▸ hheaders _ List.mem_cons_self
  · obtain ⟨b, hb, hin⟩ := h.inv.live q hq
    have hmem : b.region ∈ s.chain.blocks.map Arena.region := List.mem_map.mpr ⟨b, hb, rfl⟩
    rw [← s.chain.map_forResize Arena.region fun _ _ => rfl] at hmem
    obtain ⟨d, hd, heq⟩ := List.mem_map.mp hmem
    have hcurr : c.curr.Valid := by
      have hvalid := hpushed.inv.chain
      rw [ArenaState.chain_pushed] at hvalid
      exact hvalid.block c.curr List.mem_cons_self
    refine (hapart d hd).mono hcurr.header_subset ?_
    rw [heq]
    exact hin.subset_region (h.inv.chain.block b hb)

/-- The new size, and how it compares to the old one. -/
theorem size_facts (h : s.Invariant) (hp : p ∈ s.live) {size : Int64} (hsize : 0 < size) :
    0 < size.toUInt64.toNat ∧ (size.toUInt64.toNat : ℤ) = size.toInt ∧
      (Int64.ofNat p.size < size ↔ p.size < size.toUInt64.toNat) := by
  have hnat := Int64.toNat_toUInt64_of_le (Int64.le_of_lt hsize)
  have hint := Int64.cast_toNatClampNeg size (Int64.le_of_lt hsize)
  rw [← hnat] at hint
  have hpos := Int64.lt_iff_toInt_lt.mp hsize
  rw [Int64.toInt_zero] at hpos
  refine ⟨by omega, hint, ?_⟩
  rw [Int64.lt_iff_toInt_lt, (toNat_ofNat_size h hp).2]
  omega

/-- The new memory for the last allocation. -/
theorem ArenaState.Apart.resizePush_last (h : s.Apart) (hp : p ∈ s.live) {memory : VirtualMemory}
    {size align : Int64} (hsize : 0 < size) {lo : ℕ} (bytes : ℕ → UInt8)
    (hend : p.hi = s.chain.curr.data + s.chain.curr.used)
    (hpush : arenaPushAlignedNonZeroed memory (s.chain.forResize p) size.toUInt64.toNat
      align.toUInt64.toNat = .returned (c, some (lo, lo + size.toUInt64.toNat))) :
    (ArenaMemory.mk bytes s.chain).resizePush memory size align p.lo (.ofNat p.size) =
      .returned (⟨Memory.fill (arenaPushStores
        ((ArenaMemory.mk bytes s.chain).giveBack p.size).bytes (s.chain.forResize p) c)
        (lo + p.size) (size.toUInt64.toNat - p.size) 0, c⟩,
        some (lo, lo + size.toUInt64.toNat)) := by
  obtain ⟨hcast, hint⟩ := toNat_ofNat_size h.inv hp
  obtain ⟨hpos, -, hless⟩ := size_facts h.inv hp hsize
  rw [ArenaMemory.resizePush, if_pos ((isLastAllocation_iff h.inv hp bytes).mpr hend),
    ArenaMemory.pushAlignedNonZeroed, giveBack_last h.inv hp bytes hend, hpush, hcast]
  simp only [Outcome.returned_bind, Outcome.pure_eq, if_neg hpos.ne', Option.getD_some]
  split
  · rename_i hlt
    have hroom := hless.mp hlt
    rw [arenaAssert, if_pos (by omega), Outcome.returned_bind, hint, Int.toNat_natCast, zeroSlice,
      Nat.add_sub_add_left]
  · rename_i hge
    have hroom := not_lt.mp (hless.not.mp hge)
    rw [Nat.sub_eq_zero_of_le hroom, Memory.fill_zero]

/-- The new memory for another allocation. -/
theorem ArenaState.Apart.resizePush_other (h : s.Apart) (hp : p ∈ s.live) {memory : VirtualMemory}
    {size align : Int64} (hsize : 0 < size) {lo : ℕ} (bytes : ℕ → UInt8)
    (hend : p.hi ≠ s.chain.curr.data + s.chain.curr.used)
    (hpush : arenaPushAlignedNonZeroed memory (s.chain.forResize p) size.toUInt64.toNat
      align.toUInt64.toNat = .returned (c, some (lo, lo + size.toUInt64.toNat))) :
    (ArenaMemory.mk bytes s.chain).resizePush memory size align p.lo (.ofNat p.size) =
      .returned (⟨Memory.fill (arenaPushStores bytes (s.chain.forResize p) c) (lo + 0)
        (size.toUInt64.toNat - 0) 0, c⟩, some (lo, lo + size.toUInt64.toNat)) := by
  obtain ⟨hpos, -, -⟩ := size_facts h.inv hp hsize
  rw [ArenaChain.forResize_other hend] at hpush ⊢
  rw [ArenaMemory.resizePush, if_neg ((isLastAllocation_iff h.inv hp bytes).not.mpr hend),
    ArenaMemory.pushAligned, ArenaMemory.pushAlignedNonZeroed, hpush]
  simp only [Outcome.returned_bind, Outcome.pure_eq, if_neg hpos.ne', zeroSlice,
    Nat.add_sub_cancel_left, Nat.add_zero, Nat.sub_zero]

/-- The new memory of a resize: it is filled with zeros from an offset on that is not behind the
old size, and off the old memory. -/
theorem ArenaState.Apart.resizePush (h : s.Apart) (hp : p ∈ s.live) {memory : VirtualMemory}
    (hmemory : memory.Fresh s.chain.blocks) {size align : Int64} (hsize : 0 < size)
    {range : Option (ℕ × ℕ)} (bytes : ℕ → UInt8)
    (hpush : arenaPushAlignedNonZeroed memory (s.chain.forResize p) size.toUInt64.toNat
      align.toUInt64.toNat = .returned (c, range)) :
    ∃ lo j stored, range = some (lo, lo + size.toUInt64.toNat) ∧
      (ArenaMemory.mk bytes s.chain).resizePush memory size align p.lo (.ofNat p.size) =
        .returned (⟨Memory.fill stored (lo + j) (size.toUInt64.toNat - j) 0, c⟩, range) ∧
      j ≤ p.size ∧ Disjoint (Finset.Ico (lo + j) (lo + size.toUInt64.toNat)) p.range ∧
      ∀ q ∈ s.live, Set.EqOn stored bytes q.range := by
  obtain ⟨-, -, -, -, hends⟩ := h.inv.range_bounds hp
  obtain ⟨hpos, -, -⟩ := size_facts h.inv hp hsize
  obtain ⟨lo, rfl, hplaced⟩ :=
    (h.forResize hp).inv.push_placed (fresh_forResize hmemory) hpos hpush
  have hheaders := fun q (hq : q ∈ s.live) => h.resize_headers hp hmemory hpos hpush hq
  by_cases hend : p.hi = s.chain.curr.data + s.chain.curr.used
  · refine ⟨lo, p.size, _, rfl, h.resizePush_last hp hsize bytes hend hpush, le_rfl, ?_, ?_⟩
    · rcases hplaced with ⟨-, hle⟩ | ⟨hsub, hapart⟩
      · -- in place, or shifted to a greater address
        have hin := h.inv.in_curr hp hend
        have hlo := hin.lo_ge
        rw [ArenaChain.forResize_last hend] at hle
        rw [ArenaPush.range, Finset.disjoint_left]
        intro i hi hi'
        simp only [Finset.mem_Ico] at hi hi'
        dsimp only at hle
        omega
      · have hin := h.inv.in_curr hp hend
        have hregion := hapart (s.chain.forResize p).curr List.mem_cons_self
        rw [ArenaChain.forResize_last hend] at hregion
        have hcurr := h.inv.chain.block s.chain.curr List.mem_cons_self
        exact hregion.mono ((Finset.Ico_subset_Ico (Nat.le_add_right _ _) le_rfl).trans hsub)
          (hin.subset_region hcurr)
    · intro q hq
      obtain ⟨hblocks, hcurr⟩ := hheaders q hq
      exact (eqOn_arenaPushStores hblocks hcurr).trans
        (eqOn_giveBack _ _ (h.inv.disjoint_header hq List.mem_cons_self))
  · refine ⟨lo, 0, _, rfl, h.resizePush_other hp hsize bytes hend hpush, Nat.zero_le _, ?_, ?_⟩
    · rw [ArenaChain.forResize_other hend] at hpush
      rw [Nat.add_zero]
      exact ((h.inv.push hmemory hpush).2 lo _ rfl).2 p hp
    · intro q hq
      obtain ⟨hblocks, hcurr⟩ := hheaders q hq
      exact eqOn_arenaPushStores hblocks hcurr

/-- A resize moves the bytes of an allocation, fills the rest with zeros, and leaves the other
allocations alone. -/
theorem ArenaState.Apart.resize (h : s.Apart) (hp : p ∈ s.live) {memory : VirtualMemory}
    (hmemory : memory.Fresh s.chain.blocks) {size align : Int64} (hsize : 0 < size)
    {range : Option (ℕ × ℕ)} (bytes : ℕ → UInt8)
    (hpush : arenaPushAlignedNonZeroed memory (s.chain.forResize p) size.toUInt64.toNat
      align.toUInt64.toNat = .returned (c, range)) :
    ∃ lo bytes', range = some (lo, lo + size.toUInt64.toNat) ∧
      arenaAllocatorProc memory ⟨bytes, s.chain⟩ .resize size align p.lo (.ofNat p.size) =
        .returned (⟨bytes', c⟩, range, .none) ∧
      (∀ i < min p.size size.toUInt64.toNat, bytes' (lo + i) = bytes (p.lo + i)) ∧
      (∀ i, p.size ≤ i → i < size.toUInt64.toNat → bytes' (lo + i) = 0) ∧
      ∀ q ∈ s.live, q ≠ p → ∀ i ∈ q.range, bytes' i = bytes i := by
  obtain ⟨hlopos, -, -, -, hends⟩ := h.inv.range_bounds hp
  obtain ⟨hpos, -, -⟩ := size_facts h.inv hp hsize
  obtain ⟨lo, j, stored, rfl, hresize, hj, hoff, hstored⟩ :=
    h.resizePush hp hmemory hsize bytes hpush
  have hrange : p.range = Finset.Ico p.lo (p.lo + p.size) := by rw [hends, ArenaPush.range]
  obtain ⟨hcopied, hfilled, hkept⟩ := Memory.move_spec (m := stored) (z := 0) hj (hrange ▸ hoff)
  have hzero : ¬(size = 0 ∧ ¬(ArenaMemory.mk bytes s.chain).isLastAllocation p.lo
      (.ofNat p.size)) := by
    rintro ⟨rfl, -⟩
    exact absurd hsize (by decide)
  have hint := (toNat_ofNat_size h.inv hp).2
  refine ⟨lo, Memory.move stored lo size.toUInt64.toNat j 0 p.lo p.size, rfl, ?_, ?_, hfilled,
    ?_⟩
  · rw [arenaAllocatorProc, ArenaMemory.resize, if_neg hlopos.ne', if_neg hzero, hresize,
      Outcome.returned_bind, arenaAssert, hint, if_pos (Int.natCast_nonneg _), Memory.move]
    simp only [Outcome.returned_bind, Option.getD_some, Nat.add_sub_cancel_left, Int.toNat_natCast,
      Outcome.pure_eq]
  · intro i hi
    rw [hcopied i (by rwa [min_comm])]
    exact hstored p hp (Finset.mem_Ico.mpr (by omega))
  · intro q hq hne i hi
    have hnew : i ∉ Finset.Ico lo (lo + size.toUInt64.toNat) := by
      have hothers := ((h.forResize hp).inv.push (fresh_forResize hmemory) hpush).2 lo _ rfl
      exact Finset.disjoint_right.mp
        (hothers.2 q ((List.mem_erase_of_ne hne).mpr hq)) hi
    rw [hkept i hnew]
    exact hstored q hq hi

/-! ### Runs -/

theorem pushAlignedNonZeroed_chain {memory : VirtualMemory} {g g' : ArenaMemory} {size align : ℕ}
    {data : Option (ℕ × ℕ)}
    (h : g.pushAlignedNonZeroed memory size align = .returned (g', data)) :
    arenaPushAlignedNonZeroed memory g.chain size align = .returned (g'.chain, data) := by
  obtain ⟨⟨c, range⟩, hpush, hreturn⟩ := Outcome.bind_eq_returned.mp h
  obtain ⟨rfl, rfl⟩ := Prod.mk.inj (Outcome.returned.inj hreturn)
  exact hpush

theorem pushAligned_chain {memory : VirtualMemory} {g g' : ArenaMemory} {size align : ℕ}
    {data : Option (ℕ × ℕ)} (h : g.pushAligned memory size align = .returned (g', data)) :
    arenaPushAlignedNonZeroed memory g.chain size align = .returned (g'.chain, data) := by
  obtain ⟨⟨h', range⟩, hpush, hreturn⟩ := Outcome.bind_eq_returned.mp h
  obtain ⟨rfl, rfl⟩ := Prod.mk.inj (Outcome.returned.inj hreturn)
  exact @pushAlignedNonZeroed_chain memory g h' size align range hpush

theorem resizePush_chain (h : s.Invariant) (hp : p ∈ s.live) {memory : VirtualMemory}
    {size align : Int64} {bytes : ℕ → UInt8} {g : ArenaMemory} {data : Option (ℕ × ℕ)}
    (hpush : (ArenaMemory.mk bytes s.chain).resizePush memory size align p.lo (.ofNat p.size) =
      .returned (g, data)) :
    arenaPushAlignedNonZeroed memory (s.chain.forResize p) size.toUInt64.toNat
      align.toUInt64.toNat = .returned (g.chain, data) := by
  have hlast := isLastAllocation_iff h hp bytes
  rw [ArenaMemory.resizePush] at hpush
  by_cases hend : p.hi = s.chain.curr.data + s.chain.curr.used
  · rw [if_pos (hlast.mpr hend)] at hpush
    obtain ⟨⟨g', range⟩, hback, hpush⟩ := Outcome.bind_eq_returned.mp hpush
    have hchain := pushAlignedNonZeroed_chain hback
    rw [giveBack_last h hp bytes hend] at hchain
    dsimp only at hpush
    split at hpush
    · obtain ⟨_, -, hreturn⟩ := Outcome.bind_eq_returned.mp hpush
      obtain ⟨rfl, rfl⟩ := Prod.mk.inj (Outcome.returned.inj hreturn)
      exact hchain
    · obtain ⟨rfl, rfl⟩ := Prod.mk.inj (Outcome.returned.inj hpush)
      exact hchain
  · rw [if_neg (hlast.not.mpr hend)] at hpush
    rw [ArenaChain.forResize_other hend]
    exact pushAligned_chain (g := ArenaMemory.mk bytes s.chain) hpush

/-- Blocks start at the first position, or behind a header. -/
theorem Stacked.basePos {bs : List Arena} (h : Stacked bs) (hvalid : ∀ b ∈ bs, b.Valid) :
    ∀ b ∈ bs, b.basePos = 0 ∨ sizeOfArena ≤ b.basePos := by
  induction bs with
  | nil => nofun
  | cons b bs ih =>
    obtain ⟨-, hvalid'⟩ := List.forall_mem_cons.mp hvalid
    refine List.forall_mem_cons.mpr ⟨?_, ih h.2 hvalid'⟩
    rw [h.1]
    rcases bs with _ | ⟨d, bs⟩
    · exact Or.inl rfl
    · have hheader := (hvalid' d List.mem_cons_self).header_le
      rw [List.map_cons, List.sum_cons]
      exact Or.inr (by omega)

/-- All that is allocated is given up in front of the first position. -/
theorem ArenaState.Apart.clear (h : s.Apart) (hclear : arenaClear s.chain = .returned c) :
    (s.popped c).Apart := by
  refine h.popTo ?_ hclear
  rintro ⟨b, hb, hgt, hlt⟩
  rw [Nat.max_eq_right (Nat.zero_le _)] at hgt hlt
  rcases h.inv.chain.stacked.basePos h.inv.chain.block b hb with hbase | hbase
  · omega
  · omega

theorem ArenaState.Apart.allocator (h : s.Apart) {memory : VirtualMemory}
    (hmemory : memory.Fresh s.chain.blocks) {mode : AllocatorMode} {size align : Int64}
    {old : Option ArenaPush} (hold : ∀ p ∈ old, p ∈ s.live) {bytes : ℕ → UInt8} {g : ArenaMemory}
    {data : Option (ℕ × ℕ)} {err : AllocatorError}
    (hproc : arenaAllocatorProc memory ⟨bytes, s.chain⟩ mode size align
      (old.elim 0 ArenaPush.lo) (.ofNat (old.elim 0 ArenaPush.size)) =
        .returned (g, data, err)) : (s.allocated mode old g.chain data err).Apart := by
  have hpushed : ∀ {g' : ArenaMemory} {range : Option (ℕ × ℕ)},
      (ArenaMemory.mk bytes s.chain).pushAligned memory size.toUInt64.toNat
        align.toUInt64.toNat = .returned (g', range) → (s.pushed g'.chain range).Apart :=
    fun hpush => h.push hmemory (pushAligned_chain (g := ArenaMemory.mk bytes s.chain) hpush)
  cases mode with
  | alloc =>
    obtain ⟨⟨g', range⟩, hpush, hreturn⟩ := Outcome.bind_eq_returned.mp hproc
    obtain ⟨rfl, rfl, rfl⟩ := by simpa using Outcome.returned.inj hreturn
    exact hpushed hpush
  | allocNonZeroed =>
    obtain ⟨⟨g', range⟩, hpush, hreturn⟩ := Outcome.bind_eq_returned.mp hproc
    obtain ⟨rfl, rfl, rfl⟩ := by simpa using Outcome.returned.inj hreturn
    exact h.push hmemory
      (pushAlignedNonZeroed_chain (g := ArenaMemory.mk bytes s.chain) hpush)
  | freeAll =>
    obtain ⟨g', hcleared, hreturn⟩ := Outcome.bind_eq_returned.mp hproc
    obtain ⟨rfl, rfl, rfl⟩ := by simpa using Outcome.returned.inj hreturn
    obtain ⟨c, hclear, hreturn⟩ := Outcome.bind_eq_returned.mp hcleared
    obtain rfl := Outcome.returned.inj hreturn
    exact h.clear (c := c) hclear
  | resize =>
    rw [arenaAllocatorProc, ArenaMemory.resize] at hproc
    rcases old with _ | p
    · rw [Option.elim_none, if_pos rfl] at hproc
      obtain ⟨⟨g', range⟩, hpush, hreturn⟩ := Outcome.bind_eq_returned.mp hproc
      obtain ⟨rfl, rfl, rfl⟩ := by simpa using Outcome.returned.inj hreturn
      exact hpushed hpush
    have hp := hold p rfl
    obtain ⟨hlopos, -⟩ := h.inv.range_bounds hp
    rw [Option.elim_some, Option.elim_some, if_neg hlopos.ne'] at hproc
    split at hproc
    · obtain ⟨rfl, rfl, rfl⟩ := by simpa using Outcome.returned.inj hproc
      exact h
    · obtain ⟨⟨g', range⟩, hpush, hproc⟩ := Outcome.bind_eq_returned.mp hproc
      obtain ⟨_, -, hreturn⟩ := Outcome.bind_eq_returned.mp hproc
      obtain ⟨rfl, rfl, rfl⟩ := by simpa using Outcome.returned.inj hreturn
      have hnew := (h.forResize hp).push (fresh_forResize hmemory)
        (resizePush_chain h.inv hp hpush)
      rcases range with _ | ⟨lo, hi⟩
      · exact hnew
      · exact hnew
  | free =>
    obtain ⟨rfl, rfl, rfl⟩ := by simpa using Outcome.returned.inj hproc
    exact h
  | queryFeatures =>
    obtain ⟨rfl, rfl, rfl⟩ := by simpa using Outcome.returned.inj hproc
    rcases old with _ | p
    · exact h
    · exact h
  | queryInfo =>
    obtain ⟨rfl, rfl, rfl⟩ := by simpa using Outcome.returned.inj hproc
    exact h
  | resizeNonZeroed =>
    obtain ⟨rfl, rfl, rfl⟩ := by simpa using Outcome.returned.inj hproc
    exact h

theorem HeapState.step_apart {s s' : HeapState} {call : HeapCall} (h : s.toArenaState.Apart)
    (hlegal : s.Legal call) (hkeeps : s.KeepsHeaders call)
    (hstep : heapStep s call = .returned s') : s'.toArenaState.Apart := by
  rcases call with call | ⟨memory, mode, size, align, old⟩ | ⟨addr, value⟩
  · obtain ⟨t, hcall, hreturn⟩ := Outcome.bind_eq_returned.mp hstep
    obtain rfl := Outcome.returned.inj hreturn
    exact h.step hlegal (hkeeps call rfl) hcall
  · obtain ⟨⟨g, data, err⟩, hproc, hreturn⟩ := Outcome.bind_eq_returned.mp hstep
    obtain rfl := Outcome.returned.inj hreturn
    exact h.allocator hlegal.1 hlegal.2 hproc
  · obtain rfl := Outcome.returned.inj hstep
    exact h

theorem HeapReach.apart {s s' : HeapState} (h : s.toArenaState.Apart)
    (hreach : HeapReach HeapState.KeepsHeaders s s') : s'.toArenaState.Apart := by
  induction hreach with
  | refl => exact h
  | tail _ hstep ih =>
    obtain ⟨call, hlegal, hkeeps, hstep⟩ := hstep
    exact HeapState.step_apart ih hlegal hkeeps hstep

/-- In a run that keeps the headers, a resize for which there is memory returns the old bytes and
zeros behind them, and leaves the other allocations alone. -/
theorem arenaResize_preserves {memory memory' : VirtualMemory} {commited reserved : ℕ}
    {flags : ArenaFlags} {a : Arena} {bytes : ℕ → UInt8} {s : HeapState} {p : ArenaPush}
    {size align : Int64} (hmemory : memory.Fresh [])
    (halloc : arenaAlloc memory commited reserved flags = .returned a)
    (hreach : HeapReach HeapState.KeepsHeaders (.start bytes a) s) (hp : p ∈ s.live)
    (hmemory' : memory'.Fresh s.chain.blocks) (hsize : 0 < size)
    (hpush : ∃ r, arenaPushAlignedNonZeroed memory' (s.chain.forResize p) size.toUInt64.toNat
      align.toUInt64.toNat = .returned r) :
    ∃ h lo, arenaAllocatorProc memory' ⟨s.bytes, s.chain⟩ .resize size align p.lo
        (.ofNat p.size) = .returned (h, some (lo, lo + size.toUInt64.toNat), .none) ∧
      (∀ i < min p.size size.toUInt64.toNat, h.bytes (lo + i) = s.bytes (p.lo + i)) ∧
      (∀ i, p.size ≤ i → i < size.toUInt64.toNat → h.bytes (lo + i) = 0) ∧
      ∀ q ∈ s.live, q ≠ p → ∀ i ∈ q.range, h.bytes i = s.bytes i := by
  have hstart : (HeapState.start bytes a).toArenaState.Apart :=
    ⟨.alloc hmemory halloc, .nil⟩
  obtain ⟨⟨c, range⟩, hpush⟩ := hpush
  obtain ⟨lo, bytes', rfl, hproc, hcopied, hfilled, hkept⟩ :=
    (HeapReach.apart hstart hreach).resize hp hmemory' hsize s.bytes hpush
  exact ⟨⟨bytes', c⟩, lo, hproc, hcopied, hfilled, hkept⟩

theorem heapStep_arena {s : HeapState} {s' : ArenaState} {call : ArenaCall}
    (h : arenaStep s.toArenaState call = .returned s') :
    heapStep s (.arena call) =
      .returned ⟨s', arenaCallStores s.bytes s.chain s'.chain call⟩ := by
  rw [heapStep, h]
  rfl

theorem heapStep_allocNonZeroed {s : HeapState} {s' : ArenaState} {memory : VirtualMemory}
    {size align : Int64} {data : Option (ℕ × ℕ)} (hsize : size.toUInt64.toNat ≠ 0)
    (hpush : arenaPushAlignedNonZeroed memory s.chain size.toUInt64.toNat align.toUInt64.toNat =
      .returned (c, data)) (hpushed : s.pushed c data = s') :
    heapStep s (.allocator memory .allocNonZeroed size align none) =
      .returned ⟨s', arenaPushStores s.bytes s.chain c⟩ := by
  rw [heapStep, arenaAllocatorProc, ArenaMemory.pushAlignedNonZeroed, hpush, ← hpushed]
  simp only [Outcome.returned_bind, Outcome.pure_eq, if_neg hsize]
  rfl

theorem HeapReach.step {ok : HeapState → HeapCall → Prop} {s s' s'' : HeapState} {call : HeapCall}
    (h : HeapReach ok s s') (hlegal : s'.Legal call) (hok : ok s' call)
    (hstep : heapStep s' call = .returned s'') : HeapReach ok s s'' :=
  h.tail ⟨call, hlegal, hok, hstep⟩

/-- 40 bytes of the one page. -/
def pagePush : ArenaPush := ⟨0x10048, 0x10070, 112⟩

/-- The one page with 40 bytes allocated. -/
def pageState : ArenaState where
  chain := ⟨{ pageArena with used := 112 }, []⟩
  live := [pagePush]

theorem fresh_pageState : (memoryAt 0x100000).Fresh pageState.chain.blocks :=
  fresh_memoryAt (by decide) (by decide) (by decide) (by decide)

theorem heapReach_pageState (ok : HeapState → HeapCall → Prop)
    (hok : ∀ s, ok s (.allocator (memoryAt 0x100000) .allocNonZeroed 40 8 none)) :
    ∃ bytes, HeapReach ok (.start (fun _ => 0) pageArena) ⟨pageState, bytes⟩ := by
  have hlegal : HeapState.Legal (.start (fun _ => 0) pageArena)
      (.allocator (memoryAt 0x100000) .allocNonZeroed 40 8 none) :=
    ⟨fresh_memoryAt (by decide) (by decide) (by decide) (by decide), nofun⟩
  have hpush : arenaPushAlignedNonZeroed (memoryAt 0x100000) ⟨pageArena, []⟩
      (40 : Int64).toUInt64.toNat (8 : Int64).toUInt64.toNat =
        .returned (⟨{ pageArena with used := 112 }, []⟩, some (0x10048, 0x10070)) := by
    decide +kernel
  have hpushed : ArenaState.pushed { chain := ⟨pageArena, []⟩ }
      ⟨{ pageArena with used := 112 }, []⟩ (some (0x10048, 0x10070)) = pageState := by
    decide +kernel
  have hsize : (40 : Int64).toUInt64.toNat ≠ 0 := by decide
  have hstep := @heapStep_allocNonZeroed _ (.start (fun _ => 0) pageArena) _ _ _ _ _ hsize hpush
    hpushed
  exact ⟨_, HeapReach.step .refl hlegal (hok _) hstep⟩

/-- The 40 bytes are resized with another alignment, which shifts them over each other. -/
theorem arenaResize_preserves_shift :
    ∃ bytes h lo, HeapReach HeapState.KeepsHeaders (.start (fun _ => 0) pageArena)
        ⟨pageState, bytes⟩ ∧
      arenaAllocatorProc (memoryAt 0x100000) ⟨bytes, pageState.chain⟩ .resize 64 16 pagePush.lo
        (.ofNat pagePush.size) = .returned (h, some (lo, lo + 64), .none) ∧
      (∀ i < 40, h.bytes (lo + i) = bytes (pagePush.lo + i)) ∧
      ∀ i, 40 ≤ i → i < 64 → h.bytes (lo + i) = 0 := by
  obtain ⟨bytes, hreach⟩ := heapReach_pageState HeapState.KeepsHeaders nofun
  have hpush : arenaPushAlignedNonZeroed (memoryAt 0x100000)
      (pageState.chain.forResize pagePush) (64 : Int64).toUInt64.toNat
      (16 : Int64).toUInt64.toNat =
        .returned (⟨{ pageArena with used := 144 }, []⟩, some (0x10050, 0x10090)) := by
    decide +kernel
  obtain ⟨h, lo, hproc, hcopied, hfilled, -⟩ := arenaResize_preserves
    (fresh_memoryAt (by decide) (by decide) (by decide) nofun) arenaAlloc_pageArena hreach
    List.mem_cons_self fresh_pageState (show (0 : Int64) < 64 by decide) ⟨_, hpush⟩
  exact ⟨bytes, h, lo, hreach, hproc, hcopied, hfilled⟩

/-- The block that the 40 bytes are moved to when they are resized to 5000. It starts in front of
the position that a temp was begun at, so behind the end of the temp 40 bytes of it are in use. -/
def movedBlock : Arena where
  basePos := 72
  data := 0x100000
  used := 40
  reserved := 0x2000
  commited := 0x2000
  initialCommited := 0x2000

/-- A temp is begun. -/
def begunState : ArenaState where
  chain := ⟨{ pageArena with used := 112 }, []⟩
  temps := [112]
  live := [pagePush]

/-- The 5000 bytes, in the temp. -/
def movedState : ArenaState where
  chain := ⟨{ movedBlock with used := 5072 }, [pageArena]⟩
  temps := [112]
  live := [⟨0x100048, 0x1013D0, 5144⟩]

/-- Eight bytes of the header. -/
def headerPush : ArenaPush := ⟨0x100028, 0x100030, 120⟩

def headerState : ArenaState where
  chain := ⟨{ movedBlock with used := 48 }, [pageArena]⟩
  live := [headerPush]

theorem heapReach_headerState :
    ∃ bytes, HeapReach (fun _ call => call.Scoped) (.start (fun _ => 0) pageArena)
      ⟨headerState, arenaPushStores bytes ⟨movedBlock, [pageArena]⟩ headerState.chain⟩ := by
  obtain ⟨bytes, hreach⟩ :=
    heapReach_pageState (fun _ call => call.Scoped) fun _ => Or.inr (Or.inl rfl)
  -- the temp
  have hbegin : arenaStep pageState .tempBegin = .returned begunState := by decide +kernel
  have hstep : heapStep ⟨pageState, bytes⟩ (.arena .tempBegin) = .returned ⟨begunState, bytes⟩ :=
    heapStep_arena hbegin
  have hlegal : HeapState.Legal ⟨pageState, bytes⟩ (.arena .tempBegin) := nofun
  have hreach := hreach.step hlegal trivial hstep
  -- the resize
  have hapart : begunState.Apart := by
    obtain ⟨_, hkeeps⟩ := heapReach_pageState HeapState.KeepsHeaders nofun
    have hstart : ArenaState.Apart { chain := ⟨pageArena, []⟩ } :=
      ⟨.alloc (fresh_memoryAt (by decide) (by decide) (by decide) nofun) arenaAlloc_pageArena, .nil⟩
    have hpage : pageState.Apart := HeapReach.apart hstart hkeeps
    have hanswered : pageState.Answered .tempBegin := nofun
    exact hpage.step hanswered nofun hbegin
  have hpush : arenaPushAlignedNonZeroed (memoryAt 0x100000) (begunState.chain.forResize pagePush)
      (5000 : Int64).toUInt64.toNat (8 : Int64).toUInt64.toNat =
        .returned (movedState.chain, some (0x100048, 0x1013D0)) := by decide +kernel
  have hmem : pagePush ∈ begunState.live := List.mem_cons_self
  obtain ⟨lo, bytes', -, hresize, -⟩ := hapart.resize hmem fresh_pageState
    (show (0 : Int64) < 5000 by decide) bytes hpush
  have hallocated : begunState.allocated .resize (some pagePush) movedState.chain
      (some (0x100048, 0x1013D0)) .none = movedState := by decide +kernel
  have hstep : heapStep ⟨begunState, bytes⟩
      (.allocator (memoryAt 0x100000) .resize 5000 8 (some pagePush)) =
        .returned ⟨movedState, bytes'⟩ := by
    rw [heapStep, ← hallocated]
    exact congrArg (· >>= _) hresize
  have hlegal : HeapState.Legal ⟨begunState, bytes⟩
      (.allocator (memoryAt 0x100000) .resize 5000 8 (some pagePush)) := by
    refine ⟨fresh_pageState, ?_⟩
    rintro _ ⟨⟩
    exact hmem
  have hreach := hreach.step hlegal (Or.inr (Or.inr rfl)) hstep
  -- the end of the temp
  have hend : arenaStep movedState .tempEnd = .returned { chain := ⟨movedBlock, [pageArena]⟩ } := by
    decide +kernel
  have hlegal : HeapState.Legal ⟨movedState, bytes'⟩ (.arena .tempEnd) := nofun
  have hreach := hreach.step hlegal trivial (heapStep_arena hend)
  -- the push
  have hpush : arenaPushAlignedNonZeroed (memoryAt 0x200000) ⟨movedBlock, [pageArena]⟩
      (8 : Int64).toUInt64.toNat (8 : Int64).toUInt64.toNat =
        .returned (headerState.chain, some (0x100028, 0x100030)) := by decide +kernel
  have hpushed : ArenaState.pushed { chain := ⟨movedBlock, [pageArena]⟩ } headerState.chain
      (some (0x100028, 0x100030)) = headerState := by decide +kernel
  have hsize : (8 : Int64).toUInt64.toNat ≠ 0 := by decide
  have hfresh : (memoryAt 0x200000).Fresh [movedBlock, pageArena] :=
    fresh_memoryAt (by decide) (by decide) (by decide) (by decide)
  have hlegal : ∀ bytes, HeapState.Legal ⟨{ chain := ⟨movedBlock, [pageArena]⟩ }, bytes⟩
      (.allocator (memoryAt 0x200000) .allocNonZeroed 8 8 none) := fun _ => ⟨hfresh, nofun⟩
  exact ⟨_, hreach.step (hlegal _) (Or.inr (Or.inl rfl))
    (heapStep_allocNonZeroed hsize hpush hpushed)⟩

/-- The resize of the eight bytes stores to the header. -/
theorem arenaResize_headerState (m : ℕ → UInt8) :
    ∃ h, arenaAllocatorProc (memoryAt 0x200000) ⟨m, headerState.chain⟩ .resize 16 8 0x100028
        (.ofNat 8) = .returned (h, some (0x100028, 0x100038), .none) ∧
      h.bytes 0x100028 = 56 := by
  have hpush : arenaPushAlignedNonZeroed (memoryAt 0x200000) ⟨movedBlock, [pageArena]⟩ 16 8 =
      .returned (⟨{ movedBlock with used := 56 }, [pageArena]⟩, some (0x100028, 0x100038)) := by
    decide +kernel
  have hlast : (ArenaMemory.mk m headerState.chain).isLastAllocation 0x100028
      (.ofNat 8) = true := by
    rw [ArenaMemory.isLastAllocation, decide_eq_true_iff]
    dsimp only
    decide +kernel
  have hsizes : (Int64.ofNat 8).toUInt64.toNat = 8 ∧
      (16 : Int64).toUInt64.toNat = 16 ∧ (8 : Int64).toUInt64.toNat = 8 := by decide +kernel
  have hback : ((ArenaMemory.mk m headerState.chain).giveBack 8).chain =
      ⟨movedBlock, [pageArena]⟩ := by
    rw [ArenaMemory.giveBack]
    dsimp only
    decide +kernel
  have hnew : (ArenaMemory.mk m headerState.chain).resizePush (memoryAt 0x200000) 16 8
      0x100028 (.ofNat 8) = .returned (⟨zeroSlice (arenaPushStores
        ((ArenaMemory.mk m headerState.chain).giveBack 8).bytes ⟨movedBlock, [pageArena]⟩
          ⟨{ movedBlock with used := 56 }, [pageArena]⟩) (some (0x100030, 0x100038)),
        ⟨{ movedBlock with used := 56 }, [pageArena]⟩⟩, some (0x100028, 0x100038)) := by
    rw [ArenaMemory.resizePush, if_pos hlast, ArenaMemory.pushAlignedNonZeroed, hsizes.1,
      hsizes.2.1, hsizes.2.2, hback, hpush]
    rfl
  rw [arenaAllocatorProc, ArenaMemory.resize, if_neg (by decide), if_neg (by rw [hlast]; decide),
    hnew]
  refine ⟨_, rfl, ?_⟩
  rfl

/-- The eight bytes were those of a number in the header, and now they are those of another. -/
theorem not_arenaResize_preserves_header :
    ∃ s h, (memoryAt 0x10000).Fresh [] ∧
      arenaAlloc (memoryAt 0x10000) 0 pageSize {} = .returned pageArena ∧
      HeapReach (fun _ call => call.Scoped) (.start (fun _ => 0) pageArena) s ∧
      headerPush ∈ s.live ∧
      (memoryAt 0x200000).Fresh s.chain.blocks ∧
      arenaAllocatorProc (memoryAt 0x200000) ⟨s.bytes, s.chain⟩ .resize 16 8 headerPush.lo
        (.ofNat headerPush.size) = .returned (h, some (headerPush.lo, headerPush.lo + 16), .none) ∧
      h.bytes headerPush.lo ≠ s.bytes headerPush.lo := by
  obtain ⟨bytes, hreach⟩ := heapReach_headerState
  have hbefore : arenaPushStores bytes ⟨movedBlock, [pageArena]⟩ headerState.chain
      headerPush.lo = 48 := rfl
  obtain ⟨h, hproc, hbehind⟩ := arenaResize_headerState
    (arenaPushStores bytes ⟨movedBlock, [pageArena]⟩ headerState.chain)
  have hfresh : (memoryAt 0x200000).Fresh headerState.chain.blocks :=
    fresh_memoryAt (by decide) (by decide) (by decide) (by decide)
  have hchanged : (56 : UInt8) ≠ 48 := by decide
  exact ⟨_, h, fresh_memoryAt (by decide) (by decide) (by decide) nofun, arenaAlloc_pageArena,
    hreach, List.mem_cons_self, hfresh, hproc,
    fun heq => hchanged (hbehind.symm.trans (heq.trans hbefore))⟩

end Wasim
