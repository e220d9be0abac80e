import Wasim.Base.ArenaScopes
import Wasim.Library.Align

/-!
# Pushes that fit

What `_arena_push_aligned_non_zeroed` returns, computed: a push goes to the current block when it
fits what is left there (`arenaPush_fits`), else to a new block whose size is rounded to pages
(`arenaPush_new`). The size of the new block is computed without the padding behind its header, so
with an alignment of more than eight bytes a push may not even fit the block that was made for it;
then the assertion on the end of the push fails (`arenaPush_short`).
-/

namespace Wasim

variable {memory : VirtualMemory} {a : Arena} {c c' : ArenaChain} {size align start : ℕ}

theorem pageSize_pos : 0 < pageSize := by decide

theorem alignForward_eq {p : ℕ} (halign : align.isPowerOfTwo) (hp : p + align ≤ 2 ^ 64) :
    alignForward p align = .returned (Align.up p align) := by
  have hpos := Nat.pos_of_isPowerOfTwo halign
  rw [alignForward_eq_returned, Nat.mod_eq_of_lt (by omega)]
  exact ⟨halign, rfl⟩

theorem isPowerOfTwo_pageSize : pageSize.isPowerOfTwo := ⟨12, rfl⟩

/-- The offset of a push in a block. -/
def Arena.startOf (a : Arena) (align : ℕ) : ℕ := Align.up (a.data + a.used) align - a.data

theorem arenaAlignUsed_eq (ha : a.Valid) (halign : align.isPowerOfTwo) (hle : align ≤ pageSize) :
    arenaAlignUsed a align = .returned (a.startOf align) := by
  have hstop := ha.stop_le
  have hused := ha.used_le
  have hpage : pageSize = 4096 := rfl
  have hpos := Nat.pos_of_isPowerOfTwo halign
  have hge := Align.le_up hpos (a.data + a.used)
  have hlt := Align.up_lt hpos (a.data + a.used)
  rw [arenaAlignUsed, Nat.mod_eq_of_lt (by omega), Nat.add_comm a.used, alignForward_eq halign
    (by omega), Outcome.returned_bind, Outcome.pure_eq, Arena.startOf]
  congr 1
  omega

theorem Arena.Valid.used_le_startOf (halign : 0 < align) (a : Arena) :
    a.used ≤ a.startOf align := by
  have := Align.le_up halign (a.data + a.used)
  rw [Arena.startOf]
  omega

theorem Arena.dvd_data_startOf (halign : 0 < align) (a : Arena) :
    align ∣ a.data + a.startOf align := by
  have := Align.le_up halign (a.data + a.used)
  rw [Arena.startOf, Nat.add_sub_cancel' (by omega)]
  exact Align.dvd_up _ _

/-- The pages up to the end of a push are in the block when the push is. -/
theorem arenaPlace_eq (hpos : 0 < a.data) (hle : a.data + a.reserved ≤ 2 ^ 63)
    (hpage : pageSize ∣ a.reserved) (hcommit : memory.commit) (hstart : a.used ≤ start)
    (hstop : start + size ≤ a.reserved) :
    ∃ commited, arenaPlace memory a start size =
        .returned ({ a with used := start + size, commited }, start, start + size) ∧
      start + size ≤ commited ∧ a.commited ≤ commited := by
  have hbounds : sliceBounds start (start + size) = .returned () := by
    rw [sliceBounds, arenaAssert, if_pos]
    rw [bmod_of_lt (by omega), bmod_of_lt (by omega)]
    omega
  have hpadding : sliceBounds a.used start = .returned () := by
    rw [sliceBounds, arenaAssert, if_pos]
    rw [bmod_of_lt (by omega), bmod_of_lt (by omega)]
    omega
  obtain ⟨commited, hcommited, hend, hmono⟩ : ∃ commited,
      arenaCommit memory a (start + size) = .returned commited ∧ start + size ≤ commited ∧
        a.commited ≤ commited := by
    rw [arenaCommit]
    split
    · rename_i hlt
      have hup := Align.le_up pageSize_pos (start + size)
      have hlast := Align.up_le pageSize_pos hpage hstop
      refine ⟨Align.up (start + size) pageSize, ?_, hup, by omega⟩
      have hfar : start + size + pageSize ≤ 2 ^ 64 := by
        rw [show pageSize = 4096 from rfl]
        omega
      rw [alignForward_eq isPowerOfTwo_pageSize hfar, Outcome.returned_bind, arenaAssert,
        if_pos (by omega), Outcome.returned_bind, arenaAssert, if_pos hlast,
        Outcome.returned_bind, arenaAssert, if_pos hcommit, Outcome.returned_bind, Outcome.pure_eq]
    · rename_i hge
      exact ⟨a.commited, rfl, not_lt.mp hge, le_rfl⟩
  refine ⟨commited, ?_, hend, hmono⟩
  rw [arenaPlace]
  rw [Nat.mod_eq_of_lt (by omega), arenaAssert, if_pos hstop, Outcome.returned_bind, hcommited,
    Outcome.returned_bind, hbounds, Outcome.returned_bind, hpadding, Outcome.returned_bind]
  rfl

/-- The header is at the start of its block. -/
theorem arenaAlignUsed_header (hused : a.used = 0) (hpage : pageSize ∣ a.data)
    (hlt : a.data ≤ 2 ^ 63) : arenaAlignUsed a alignOfArena = .returned 0 := by
  have hdvd : alignOfArena ∣ a.data := Dvd.dvd.trans (by decide) hpage
  have hsize : alignOfArena = 8 := rfl
  have hpow : alignOfArena.isPowerOfTwo := ⟨3, rfl⟩
  rw [arenaAlignUsed, hused, Nat.zero_add, Nat.mod_eq_of_lt (by omega),
    alignForward_eq hpow (by omega), Align.up_of_dvd (by decide) hdvd, Outcome.returned_bind,
    Outcome.pure_eq, Nat.add_sub_cancel' (by omega), Nat.mod_self]

/-- A new block holds its header. -/
theorem arenaAlloc_eq {blocks : List Arena} {commited reserved data : ℕ} (flags : ArenaFlags)
    (hmemory : memory.Fresh blocks) (hcommit : memory.commit) (hpage : pageSize ∣ reserved)
    (hheader : sizeOfArena ≤ reserved) (hdata : memory.reserve reserved = some data) :
    ∃ commited' initialCommited, arenaAlloc memory commited reserved flags = .returned
      { data, reserved, used := sizeOfArena, commited := commited', initialCommited } := by
  obtain ⟨hpos, hdvd, hle, -⟩ := hmemory reserved data hdata
  have hsize : pageSize = 4096 := rfl
  obtain ⟨initialCommited, hinitial⟩ : ∃ r, alignForward commited pageSize = .returned r :=
    ⟨_, alignForward_eq_returned.mpr ⟨isPowerOfTwo_pageSize, rfl⟩⟩
  have hreserved : alignForward reserved pageSize = .returned reserved := by
    rw [alignForward_eq isPowerOfTwo_pageSize (by omega), Align.up_of_dvd pageSize_pos hpage]
  have halign := @arenaAlignUsed_header
    { data, reserved, commited := initialCommited, initialCommited } rfl hdvd
    (show data ≤ 2 ^ 63 by omega)
  obtain ⟨commited', hplace, -, -⟩ := @arenaPlace_eq memory
    { data, reserved, commited := initialCommited, initialCommited } sizeOfArena 0 hpos hle hpage
    hcommit le_rfl ((Nat.zero_add _).le.trans hheader)
  refine ⟨commited', initialCommited, ?_⟩
  rw [arenaAlloc, hinitial, Outcome.returned_bind, hreserved, Outcome.returned_bind, hdata]
  dsimp only
  rw [arenaAssert, if_pos hcommit, Outcome.returned_bind, halign, Outcome.returned_bind,
    arenaAssert, if_pos (by rw [Nat.zero_add, Nat.mod_eq_of_lt (by decide)]; exact hheader),
    Outcome.returned_bind, hplace]
  rfl

/-! ### Pushes -/

/-- The push fits what is left of the current block. -/
def ArenaChain.Fits (c : ArenaChain) (size align : ℕ) : Prop :=
  c.curr.startOf align + size ≤ c.curr.reserved

/-- The size of the block that is made for a push. -/
def ArenaChain.newReserved (c : ArenaChain) (size : ℕ) : ℕ :=
  Align.up (max c.curr.reserved (size + sizeOfArena)) pageSize

/-- The push fits a new block, with the padding behind the header. -/
def ArenaChain.FitsNew (c : ArenaChain) (size align : ℕ) : Prop :=
  Align.up sizeOfArena align + size ≤ c.newReserved size

/-- The system answers a push: it commits memory, and if the push needs a new block, there is one
of that size. -/
def VirtualMemory.Enough (memory : VirtualMemory) (c : ArenaChain) (size align : ℕ) : Prop :=
  memory.Fresh c.blocks ∧ memory.commit ∧
    (¬c.Fits size align → ∃ data, memory.reserve (c.newReserved size) = some data)

theorem arenaPush_fits (hc : c.curr.Valid) (hpage : pageSize ∣ c.curr.reserved)
    (hcommit : memory.commit) (hsize : 0 < size) (halign : align.isPowerOfTwo)
    (hle : align ≤ pageSize) (hfits : c.Fits size align) :
    ∃ commited, arenaPushAlignedNonZeroed memory c size align = .returned
        (⟨{ c.curr with used := c.curr.startOf align + size, commited }, c.prev⟩,
          some (c.curr.data + c.curr.startOf align,
            c.curr.data + (c.curr.startOf align + size))) ∧
      c.curr.startOf align + size ≤ commited := by
  have hpos := Nat.pos_of_isPowerOfTwo halign
  have hstop := hc.stop_le
  have hused := Arena.Valid.used_le_startOf hpos c.curr
  obtain ⟨commited, hplace, hend, -⟩ := arenaPlace_eq hc.data_pos hstop hpage hcommit hused hfits
  refine ⟨commited, ?_, hend⟩
  rw [ArenaChain.Fits] at hfits
  rw [arenaPushAlignedNonZeroed, if_neg hsize.ne', arenaAlignUsed_eq hc halign hle,
    Outcome.returned_bind, Nat.mod_eq_of_lt (by omega), if_neg (not_lt.mpr hfits), hplace]
  rfl

/-- The block that is made for a push. -/
theorem arenaPush_block (hc : c.curr.Valid) (hsize : 0 < size) (halign : align.isPowerOfTwo)
    (hle : align ≤ pageSize) (hgrowing : c.first.flags.noGrowing = false)
    (henough : memory.Enough c size align) (hfits : ¬c.Fits size align) :
    ∃ new : Arena, new.Valid ∧ new.Paged ∧ new.used = sizeOfArena ∧
      new.reserved = c.newReserved size ∧ new.basePos = c.pos ∧
      (∀ b ∈ c.blocks, Disjoint new.region b.region) ∧
      arenaPushAlignedNonZeroed memory c size align = do
        let (curr, start, stop) ← arenaPlace memory new (new.startOf align) size
        return (⟨curr, c.blocks⟩, some (curr.data + start, curr.data + stop)) := by
  obtain ⟨hmemory, hcommit, hreserve⟩ := henough
  obtain ⟨data, hdata⟩ := hreserve hfits
  obtain ⟨hdatapos, hdvd, hstop, hapart⟩ := hmemory _ data hdata
  have hpos := Nat.pos_of_isPowerOfTwo halign
  have hsizes : pageSize = 4096 ∧ sizeOfArena = 72 := ⟨rfl, rfl⟩
  have hup := Align.le_up pageSize_pos (max c.curr.reserved (size + sizeOfArena))
  have hup' := Align.up_lt pageSize_pos (max c.curr.reserved (size + sizeOfArena))
  have hneeded := le_max_right c.curr.reserved (size + sizeOfArena)
  have hsmall : data + max c.curr.reserved (size + sizeOfArena) ≤ 2 ^ 63 := by
    rw [ArenaChain.newReserved] at hstop
    omega
  -- the padding stays in the page in front of which the address space ends
  have hstart : c.curr.startOf align + pageSize < c.curr.reserved + align + pageSize := by
    have := Align.up_lt hpos (c.curr.data + c.curr.used)
    have := hc.used_le
    rw [Arena.startOf]
    omega
  have hdata' : pageSize ≤ data := Nat.le_of_dvd hdatapos hdvd
  have hpage : pageSize ∣ c.newReserved size := Align.dvd_up _ _
  have hheader : sizeOfArena ≤ c.newReserved size := by
    rw [ArenaChain.newReserved]
    omega
  obtain ⟨commited, hcommited⟩ : ∃ r,
      alignForward (max c.curr.initialCommited (size + sizeOfArena)) pageSize = .returned r :=
    ⟨_, alignForward_eq_returned.mpr ⟨isPowerOfTwo_pageSize, rfl⟩⟩
  obtain ⟨commited', initialCommited, halloc⟩ :=
    @arenaAlloc_eq memory c.blocks commited (c.newReserved size) data c.first.flags hmemory
      hcommit hpage hheader hdata
  have hnew : Arena.Valid
      { basePos := c.pos, data := data, used := sizeOfArena, reserved := c.newReserved size,
        commited := commited', initialCommited := initialCommited } :=
    ⟨hdatapos, hstop, le_rfl, hheader⟩
  refine ⟨_, hnew, ⟨hdvd, hpage, rfl⟩, rfl, rfl, rfl, hapart, ?_⟩
  rw [ArenaChain.Fits] at hfits
  rw [ArenaChain.newReserved] at hstop
  rw [arenaPushAlignedNonZeroed, if_neg hsize.ne', arenaAlignUsed_eq hc halign hle,
    Outcome.returned_bind, Nat.mod_eq_of_lt (by omega), if_pos (by omega), hgrowing, arenaAssert,
    if_pos (by decide), Outcome.returned_bind, Nat.mod_eq_of_lt (by omega)]
  dsimp only
  rw [alignForward_eq isPowerOfTwo_pageSize (by omega), Outcome.returned_bind, hcommited,
    Outcome.returned_bind, ← ArenaChain.newReserved, halloc, Outcome.returned_bind]
  refine (congrArg (· >>= _) (arenaAlignUsed_eq hnew halign hle)).trans ?_
  rfl

theorem dvd_pageSize (halign : align.isPowerOfTwo) (hle : align ≤ pageSize) :
    align ∣ pageSize := by
  obtain ⟨k, rfl⟩ := halign
  exact Nat.pow_dvd_pow 2 ((Nat.pow_le_pow_iff_right (m := 12) (by decide)).mp hle)

/-- In a new block a push is placed behind the header. -/
theorem Arena.Paged.startOf_eq (ha : a.Paged) (hused : a.used = sizeOfArena)
    (halign : align.isPowerOfTwo) (hle : align ≤ pageSize) :
    a.startOf align = Align.up sizeOfArena align := by
  have hdvd := (dvd_pageSize halign hle).trans ha.data
  rw [Arena.startOf, hused, Align.add_up (Nat.pos_of_isPowerOfTwo halign) hdvd,
    Nat.add_sub_cancel_left]

/-- A push is returned when it fits the block that is made for it. -/
theorem arenaPush_new (hc : c.Valid) (hsize : 0 < size) (halign : align.isPowerOfTwo)
    (hle : align ≤ pageSize) (hgrowing : c.first.flags.noGrowing = false)
    (henough : memory.Enough c size align) (hfits : ¬c.Fits size align)
    (hnew : c.FitsNew size align) :
    ∃ (new : Arena) (commited : ℕ), new.Paged ∧ new.used = sizeOfArena ∧
      ArenaChain.Valid ⟨{ new with used := new.startOf align + size, commited }, c.blocks⟩ ∧
      arenaPushAlignedNonZeroed memory c size align = .returned
        (⟨{ new with used := new.startOf align + size, commited }, c.blocks⟩,
          some (new.data + new.startOf align, new.data + (new.startOf align + size))) ∧
      new.startOf align + size ≤ new.reserved ∧ new.startOf align + size ≤ commited := by
  have hpos := Nat.pos_of_isPowerOfTwo halign
  obtain ⟨new, hvalid, hpaged, hused, hreserved, hbase, hapart, hpush⟩ :=
    arenaPush_block (hc.block c.curr List.mem_cons_self) hsize halign hle hgrowing henough hfits
  have hstart := hpaged.startOf_eq hused halign hle
  have hend : new.startOf align + size ≤ new.reserved := by rwa [hstart, hreserved]
  obtain ⟨commited, hplace, hcommited, -⟩ := arenaPlace_eq hvalid.data_pos hvalid.stop_le
    hpaged.reserved henough.2.1
    (Arena.Valid.used_le_startOf hpos new) hend
  have hchain : ArenaChain.Valid ⟨new, c.blocks⟩ := by
    have := hc.cons hvalid hapart
    rwa [← hbase] at this
  have hheader := (Arena.Valid.used_le_startOf hpos new).trans (Nat.le_add_right _ size)
  refine ⟨new, commited, hpaged, hused, hchain.setUsed commited (hused ▸ hheader) hend, ?_, hend,
    hcommited⟩
  rw [hpush, hplace]
  rfl

/-- Else the assertion on its end fails. -/
theorem arenaPush_short (hc : c.curr.Valid) (hsize : 0 < size) (halign : align.isPowerOfTwo)
    (hle : align ≤ pageSize) (hgrowing : c.first.flags.noGrowing = false)
    (henough : memory.Enough c size align) (hfits : ¬c.Fits size align)
    (hnew : ¬c.FitsNew size align) :
    arenaPushAlignedNonZeroed memory c size align = .crashed := by
  obtain ⟨new, hvalid, hpaged, hused, hreserved, -, -, hpush⟩ :=
    arenaPush_block hc hsize halign hle hgrowing henough hfits
  have hstart := hpaged.startOf_eq hused halign hle
  have hstop := hvalid.stop_le
  have hup := Align.up_lt (Nat.pos_of_isPowerOfTwo halign) sizeOfArena
  have hneeded := Align.le_up pageSize_pos (max c.curr.reserved (size + sizeOfArena))
  have hsizes : pageSize = 4096 ∧ sizeOfArena = 72 := ⟨rfl, rfl⟩
  rw [ArenaChain.FitsNew, ← hstart, ← hreserved] at hnew
  rw [ArenaChain.newReserved] at hreserved
  rw [hpush, arenaPlace, Nat.mod_eq_of_lt (by omega), arenaAssert, if_neg hnew]
  rfl

/-- A push returns as many bytes as it is asked for, aligned and inside of what is reserved and
commited. -/
def ArenaChain.Serves (c : ArenaChain) (memory : VirtualMemory) (size align : ℕ) : Prop :=
  ∃ c' lo, arenaPushAlignedNonZeroed memory c size align = .returned (c', some (lo, lo + size)) ∧
    align ∣ lo ∧ c'.curr.data ≤ lo ∧ lo + size ≤ c'.curr.data + c'.curr.reserved ∧
    lo + size ≤ c'.curr.data + c'.curr.commited

/-- In a run of pushes and scopes, a push is served exactly when it fits the current block, or the
one that is made for it. -/
theorem arenaPush_serves_iff {memory memory' : VirtualMemory} {commited reserved : ℕ}
    {flags : ArenaFlags} {a : Arena} {s : ArenaState} {size align : ℕ} (hmemory : memory.Fresh [])
    (halloc : arenaAlloc memory commited reserved flags = .returned a)
    (hreach : ArenaReach (fun _ call => call.Scoped) { chain := ⟨a, []⟩ } s) (hsize : 0 < size)
    (halign : align.isPowerOfTwo) (hle : align ≤ pageSize)
    (henough : memory'.Enough s.chain size align) :
    s.chain.Serves memory' size align ↔ s.chain.Fits size align ∨ s.chain.FitsNew size align := by
  have hs := (ArenaState.Nested.alloc hmemory halloc).reach hreach
  have hcurr := hs.inv.chain.block s.chain.curr List.mem_cons_self
  have hgrowing := (hs.paged s.chain.first s.chain.first_mem).growing
  have hpos := Nat.pos_of_isPowerOfTwo halign
  by_cases hfits : s.chain.Fits size align
  · refine iff_of_true ?_ (Or.inl hfits)
    obtain ⟨commited', hpush, hend⟩ := arenaPush_fits hcurr
      (hs.paged s.chain.curr List.mem_cons_self).reserved henough.2.1 hsize halign hle hfits
    rw [← Nat.add_assoc] at hpush
    rw [ArenaChain.Fits] at hfits
    refine ⟨_, _, hpush, Arena.dvd_data_startOf hpos _, Nat.le_add_right _ _, ?_, ?_⟩
    · exact (Nat.add_assoc _ _ _).trans_le (Nat.add_le_add_left hfits _)
    · exact (Nat.add_assoc _ _ _).trans_le (Nat.add_le_add_left hend _)
  by_cases hnew : s.chain.FitsNew size align
  · refine iff_of_true ?_ (Or.inr hnew)
    obtain ⟨new, commited', -, -, -, hpush, hreserved, hend⟩ :=
      arenaPush_new hs.inv.chain hsize halign hle hgrowing henough hfits hnew
    rw [← Nat.add_assoc] at hpush
    refine ⟨_, _, hpush, Arena.dvd_data_startOf hpos _, Nat.le_add_right _ _, ?_, ?_⟩
    · exact (Nat.add_assoc _ _ _).trans_le (Nat.add_le_add_left hreserved _)
    · exact (Nat.add_assoc _ _ _).trans_le (Nat.add_le_add_left hend _)
  · refine iff_of_false ?_ (not_or.mpr ⟨hfits, hnew⟩)
    rintro ⟨c', lo, hpush, -⟩
    rw [arenaPush_short hcurr hsize halign hle hgrowing henough hfits hnew] at hpush
    cases hpush

theorem enough_pageArena {size align : ℕ}
    (hsize : ArenaChain.newReserved ⟨pageArena, []⟩ size ≤ 0x100000) :
    (memoryAt 0x100000).Enough ⟨pageArena, []⟩ size align :=
  ⟨fresh_memoryAt (by decide) (by decide) (by decide) (by decide), rfl,
    fun _ => ⟨0x100000, if_pos hsize⟩⟩

/-- A push that needs a block of 25 pages. -/
theorem arenaPush_serves_pages :
    ArenaChain.Serves ⟨pageArena, []⟩ (memoryAt 0x100000) 100000 16 :=
  (arenaPush_serves_iff (fresh_memoryAt (by decide) (by decide) (by decide) nofun)
    arenaAlloc_pageArena .refl (by decide) ⟨4, rfl⟩ (by decide)
    (enough_pageArena (by decide))).mpr (Or.inr (by unfold ArenaChain.FitsNew; decide))

/-- With its header 4024 bytes fill a page, but aligned to 16 bytes they end behind it. -/
theorem not_arenaPush_serves_padding :
    ∃ s : ArenaState, (memoryAt 0x10000).Fresh [] ∧
      arenaAlloc (memoryAt 0x10000) 0 pageSize {} = .returned pageArena ∧
      ArenaReach (fun _ call => call.Scoped) { chain := ⟨pageArena, []⟩ } s ∧
      Nat.isPowerOfTwo 16 ∧ 16 ≤ pageSize ∧ (memoryAt 0x100000).Enough s.chain 4024 16 ∧
      arenaPushAlignedNonZeroed (memoryAt 0x100000) s.chain 4024 16 = .crashed ∧
      ¬s.chain.Serves (memoryAt 0x100000) 4024 16 := by
  have hcrashed : arenaPushAlignedNonZeroed (memoryAt 0x100000) ⟨pageArena, []⟩ 4024 16 =
      .crashed := by decide +kernel
  refine ⟨{ chain := ⟨pageArena, []⟩ },
    fresh_memoryAt (by decide) (by decide) (by decide) nofun, arenaAlloc_pageArena, .refl,
    ⟨4, rfl⟩, by decide, enough_pageArena (by decide), hcrashed, ?_⟩
  rintro ⟨c', lo, hpush, -⟩
  rw [hcrashed] at hpush
  cases hpush

/-! ### A buffer that is trimmed -/

theorem Align.up_one (n : ℕ) : Align.up n 1 = n := Align.up_of_dvd Nat.one_pos (one_dvd n)

/-- A pop of bytes behind the header of the current block. -/
theorem ArenaChain.Valid.pop_within (h : c.Valid) {n : ℕ} (hn : n + sizeOfArena ≤ c.curr.used) :
    arenaPop c n = .returned ⟨{ c.curr with used := c.curr.used - n }, c.prev⟩ := by
  have hpos := h.pos_eq
  have hsize : sizeOfArena = 72 := rfl
  have hmax : max (c.pos - n) sizeOfArena = c.pos - n := max_eq_left (by omega)
  have hrelease : arenaRelease (c.pos - n) c.curr c.prev = .returned ⟨c.curr, c.prev⟩ :=
    arenaRelease_append (List.nil_append _).symm nofun (by omega)
  have hle : n ≤ c.pos := by omega
  have hused : c.pos - n - c.curr.basePos = c.curr.used - n := by omega
  rw [arenaPop, arenaAssert, if_pos (Int.natCast_nonneg n), Outcome.returned_bind,
    Int.toNat_natCast, arenaAssert, if_pos hle, Outcome.returned_bind, arenaPopTo]
  dsimp only
  rw [hmax, arenaAssert, if_pos (Nat.sub_le _ _), Outcome.returned_bind, hrelease,
    Outcome.returned_bind, Outcome.pure_eq, hused]

/-- A push of bytes is returned, in front of nothing else in its block. -/
theorem arenaPush_bytes (hc : c.Valid) (hpaged : ∀ b ∈ c.blocks, b.Paged) (hsize : 0 < size)
    (henough : memory.Enough c size 1) :
    ∃ c' range, arenaPushAlignedNonZeroed memory c size 1 = .returned (c', range) ∧ c'.Valid ∧
      size + sizeOfArena ≤ c'.curr.used ∧ (c.Fits size 1 →
        c'.prev = c.prev ∧ c'.curr.basePos = c.curr.basePos ∧
          c'.curr.used = c.curr.used + size) := by
  have hone : Nat.isPowerOfTwo 1 := ⟨0, rfl⟩
  have hcurr := hc.block c.curr List.mem_cons_self
  by_cases hfits : c.Fits size 1
  · obtain ⟨commited, hpush, -⟩ := arenaPush_fits hcurr
      (hpaged c.curr List.mem_cons_self).reserved henough.2.1 hsize hone (by decide) hfits
    have hstart : c.curr.startOf 1 = c.curr.used := by
      rw [Arena.startOf, Align.up_one, Nat.add_sub_cancel_left]
    have hheader := hcurr.header_le
    rw [ArenaChain.Fits, hstart] at hfits
    rw [hstart] at hpush
    refine ⟨_, _, hpush, hc.setUsed commited (by omega) hfits, ?_, fun _ => ⟨rfl, rfl, rfl⟩⟩
    dsimp only
    omega
  · have hgrowing := (hpaged c.first c.first_mem).growing
    have hnew : c.FitsNew size 1 := by
      have hup := Align.le_up pageSize_pos (max c.curr.reserved (size + sizeOfArena))
      rw [ArenaChain.FitsNew, ArenaChain.newReserved, Align.up_one]
      omega
    obtain ⟨new, commited, -, hused, hvalid, hpush, -, -⟩ :=
      arenaPush_new hc hsize hone (by decide) hgrowing henough hfits hnew
    have hstart := Arena.Valid.used_le_startOf Nat.one_pos new
    refine ⟨_, _, hpush, hvalid, ?_, fun h => absurd h hfits⟩
    dsimp only
    omega

end Wasim
