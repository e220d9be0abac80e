import Wasim.Base.ArenaFits

/-!
# Arenas that must not grow

`arena_alloc` takes flags and does not store them, and `arena_bootstrap_new` passes none of its
arguments on to it. An arena that is asked for with `noGrowing` therefore grows like any other: it
stays one block exactly as long as what is pushed fits its reservation
(`noGrowing_oneBlock_iff`).
-/

namespace Wasim

variable {c c' : ArenaChain} {s s' : ArenaState} {call : ArenaCall}

/-- What `arena_alloc` reserves by default. -/
def arenaReservedDefault : ℕ := 2 ^ 31

/-- An arena with a value of a type in it. The field of the value that the arena is written to is
left out. -/
def arenaBootstrapNew (memory memory' : VirtualMemory) (size align : UInt64)
    (_commited _reserved : ℕ) (_flags : ArenaFlags) : Outcome ArenaState := do
  let a ← arenaAlloc memory 0 arenaReservedDefault {}
  arenaStep { chain := ⟨a, []⟩ } (.push memory' size align)

/-! ### One block -/

/-- The current block is the arena itself. -/
def ArenaChain.OneBlock (c : ArenaChain) : Prop := c.prev = []

/-- The call is not a push, or a push of nothing, or it fits the current block. -/
def ArenaState.FitsCall (s : ArenaState) (call : ArenaCall) : Prop :=
  ∀ memory size align, call = .push memory size align →
    size.toNat = 0 ∨ s.chain.Fits size.toNat align.toNat

/-- A call behind which the arena is one block. -/
def OneBlockStep (s s' : ArenaState) : Prop :=
  s'.chain.OneBlock ∧ ∃ call, s.Answered call ∧ arenaStep s call = .returned s'

theorem arenaAlignUsed_startOf {a : Arena} {align start : ℕ} (ha : a.Valid)
    (halign : align < 2 ^ 64) (h : arenaAlignUsed a align = .returned start) :
    start = a.startOf align := by
  obtain ⟨r, hr, hstart⟩ := Outcome.bind_eq_returned.mp h
  have hstop := ha.stop_le
  have hused := ha.used_le
  obtain ⟨⟨k, rfl⟩, -⟩ := alignForward_eq_returned.mp hr
  have hk : k ≤ 63 := Nat.lt_succ_iff.mp ((Nat.pow_lt_pow_iff_right (by decide)).mp halign)
  have hle : 2 ^ k ≤ 2 ^ 63 := Nat.pow_le_pow_right (by decide) hk
  have hge := Align.le_up (Nat.two_pow_pos k) (a.data + a.used)
  have hlt := Align.up_lt (Nat.two_pow_pos k) (a.data + a.used)
  have hmiddle := Align.up_le (Nat.two_pow_pos k) (Nat.pow_dvd_pow 2 hk)
    (show a.data + a.used ≤ 2 ^ 63 by omega)
  rw [Nat.mod_eq_of_lt (by omega), Nat.add_comm a.used, alignForward_eq ⟨k, rfl⟩ (by omega)] at hr
  obtain rfl := Outcome.returned.inj hr
  obtain rfl := Outcome.returned.inj hstart
  rw [Arena.startOf]
  omega

/-- A push that is returned makes a block exactly when it does not fit the current one. -/
theorem arenaPush_prev {memory : VirtualMemory} {size align : ℕ} {range : Option (ℕ × ℕ)}
    (hc : c.curr.Valid) (hsize : size < 2 ^ 64) (halign : align < 2 ^ 64)
    (h : arenaPushAlignedNonZeroed memory c size align = .returned (c', range)) :
    (c'.prev = c.prev ∧ (size = 0 ∨ c.Fits size align)) ∨
      (c'.prev = c.blocks ∧ ¬(size = 0 ∨ c.Fits size align)) := by
  rw [arenaPushAlignedNonZeroed] at h
  split at h
  · rename_i hzero
    obtain ⟨rfl, rfl⟩ := by simpa using Outcome.returned.inj h
    exact Or.inl ⟨rfl, Or.inl hzero⟩
  rename_i hzero
  obtain ⟨start, hstart, h⟩ := Outcome.bind_eq_returned.mp h
  obtain rfl := arenaAlignUsed_startOf hc halign hstart
  have hstop := hc.stop_le
  have hpos := hc.data_pos
  split at h
  · rename_i hlt
    obtain ⟨_, -, h⟩ := Outcome.bind_eq_returned.mp h
    obtain ⟨reserved, -, h⟩ := Outcome.bind_eq_returned.mp h
    obtain ⟨commited, -, h⟩ := Outcome.bind_eq_returned.mp h
    obtain ⟨new, -, h⟩ := Outcome.bind_eq_returned.mp h
    obtain ⟨start', -, h⟩ := Outcome.bind_eq_returned.mp h
    obtain ⟨⟨a, lo, hi⟩, -, h⟩ := Outcome.bind_eq_returned.mp h
    obtain ⟨rfl, rfl⟩ := by simpa using Outcome.returned.inj h
    refine Or.inr ⟨rfl, not_or.mpr ⟨hzero, fun hfits => ?_⟩⟩
    rw [ArenaChain.Fits] at hfits
    exact absurd ((Nat.mod_le _ _).trans hfits) (not_le.mpr hlt)
  · obtain ⟨⟨a, lo, hi⟩, hplace, h⟩ := Outcome.bind_eq_returned.mp h
    obtain ⟨rfl, rfl⟩ := by simpa using Outcome.returned.inj h
    obtain ⟨-, hmiddle, -⟩ := arenaAlignUsed_spec hpos hstop hc.used_le halign hstart
    have hfits := (arenaPlace_spec (by omega) (by omega) hsize hplace).1
    exact Or.inl ⟨rfl, Or.inr hfits⟩

/-- A pop keeps the one block. -/
theorem ArenaChain.OneBlock.popTo (h : c.OneBlock) {pos : ℕ}
    (hpop : arenaPopTo c pos = .returned c') : c'.OneBlock := by
  obtain ⟨-, dropped, b, heq, -⟩ := arenaPopTo_cases hpop
  rw [ArenaChain.blocks, h] at heq
  have hlength := congrArg List.length heq
  rw [List.length_append, List.length_cons, List.length_cons, List.length_nil] at hlength
  exact List.eq_nil_of_length_eq_zero (by omega)

/-- There is no header to pop into in front of the first block. -/
theorem ArenaChain.OneBlock.not_inHeader (h : c.OneBlock) (hc : c.Valid) (pos : ℕ) :
    ¬c.InHeader (max pos sizeOfArena) := by
  rintro ⟨b, hb, -, hlt⟩
  rw [ArenaChain.blocks, h, List.mem_singleton] at hb
  have hbase : c.curr.basePos = 0 := by
    have := hc.stacked.1
    rwa [h] at this
  have hge := le_max_right pos sizeOfArena
  rw [hb, hbase] at hlt
  omega

/-- One call: the arena stays one block exactly when the call fits. -/
theorem ArenaState.Invariant.oneBlock_step (h : s.Invariant) (hone : s.chain.OneBlock)
    (hanswered : s.Answered call) (hstep : arenaStep s call = .returned s') :
    s'.Invariant ∧ (s'.chain.OneBlock ↔ s.FitsCall call) := by
  refine ⟨h.step hanswered (fun pos _ => hone.not_inHeader h.chain pos) hstep, ?_⟩
  rcases arenaStep_cases hstep with ⟨memory, size, align, c, range, rfl, hpush, rfl⟩ |
    ⟨pos, c, temps, hpos, hpop, rfl⟩ | ⟨rfl, rfl⟩
  · have hcurr := h.chain.block s.chain.curr List.mem_cons_self
    rw [ArenaState.chain_pushed]
    rcases arenaPush_prev hcurr size.toNat_lt align.toNat_lt hpush with
      ⟨hprev, hfits⟩ | ⟨hprev, hfits⟩
    · refine iff_of_true (hprev.trans hone) ?_
      rintro _ _ _ ⟨⟩
      exact hfits
    · refine iff_of_false (fun hone' => ?_) fun hcall => hfits (hcall memory size align rfl)
      exact List.cons_ne_nil _ _ (hprev.symm.trans hone')
  · refine iff_of_true (hone.popTo hpop) ?_
    rintro _ _ _ rfl
    cases hpos
  · exact iff_of_true hone nofun

/-! ### Runs -/

theorem ArenaState.Invariant.oneBlock_iff (h : s.Invariant) (hone : s.chain.OneBlock) :
    ArenaReach ArenaState.FitsCall s s' ↔ Relation.ReflTransGen OneBlockStep s s' := by
  constructor
  · intro hreach
    suffices Relation.ReflTransGen OneBlockStep s s' ∧ s'.Invariant ∧ s'.chain.OneBlock from this.1
    induction hreach with
    | refl => exact ⟨.refl, h, hone⟩
    | tail _ hstep ih =>
      obtain ⟨call, hanswered, hfits, hstep⟩ := hstep
      obtain ⟨hrun, hinv, hone⟩ := ih
      obtain ⟨hinv', hiff⟩ := hinv.oneBlock_step hone hanswered hstep
      exact ⟨hrun.tail ⟨hiff.mpr hfits, call, hanswered, hstep⟩, hinv', hiff.mpr hfits⟩
  · intro hrun
    suffices ArenaReach ArenaState.FitsCall s s' ∧ s'.Invariant ∧ s'.chain.OneBlock from this.1
    induction hrun with
    | refl => exact ⟨.refl, h, hone⟩
    | tail _ hstep ih =>
      obtain ⟨hone', call, hanswered, hstep⟩ := hstep
      obtain ⟨hreach, hinv, hone⟩ := ih
      obtain ⟨hinv', hiff⟩ := hinv.oneBlock_step hone hanswered hstep
      exact ⟨hreach.tail ⟨call, hanswered, hiff.mp hone', hstep⟩, hinv', hone'⟩

/-- The runs of an arena that was asked for with any flags: all states are one block exactly when
all calls fit. With `arena_bootstrap_new` the first of them is the push of the value, to two
gigabytes whatever is asked for. -/
theorem noGrowing_oneBlock_iff (flags : ArenaFlags) (commited reserved : ℕ)
    (memory : VirtualMemory) (hmemory : memory.Fresh []) :
    (∀ a, arenaAlloc memory commited reserved flags = .returned a →
      ∀ s, ArenaReach ArenaState.FitsCall { chain := ⟨a, []⟩ } s ↔
        Relation.ReflTransGen OneBlockStep { chain := ⟨a, []⟩ } s) ∧
    ∀ (memory' : VirtualMemory) (size align : UInt64) (s₀ : ArenaState),
      arenaBootstrapNew memory memory' size align commited reserved flags = .returned s₀ →
      ∃ a, arenaAlloc memory 0 arenaReservedDefault {} = .returned a ∧
        (memory'.Fresh [a] →
          (s₀.chain.OneBlock ↔
            ArenaState.FitsCall { chain := ⟨a, []⟩ } (.push memory' size align)) ∧
          (s₀.chain.OneBlock → ∀ s, ArenaReach ArenaState.FitsCall s₀ s ↔
            Relation.ReflTransGen OneBlockStep s₀ s)) := by
  refine ⟨fun a halloc s => (ArenaState.Invariant.alloc hmemory halloc).oneBlock_iff rfl, ?_⟩
  intro memory' size align s₀ h
  obtain ⟨a, halloc, hpush⟩ := Outcome.bind_eq_returned.mp h
  refine ⟨a, halloc, fun hmemory' => ?_⟩
  have hanswered : ArenaState.Answered { chain := ⟨a, []⟩ } (.push memory' size align) := by
    rintro _ _ _ ⟨⟩
    exact hmemory'
  obtain ⟨hinv, hiff⟩ :=
    (ArenaState.Invariant.alloc hmemory halloc).oneBlock_step rfl hanswered hpush
  exact ⟨hiff, fun hone s => hinv.oneBlock_iff hone⟩

/-- A push into the one page. -/
theorem noGrowing_oneBlock_iff_page :
    Relation.ReflTransGen OneBlockStep { chain := ⟨pageArena, []⟩ }
      { chain := ⟨{ pageArena with used := 88 }, []⟩, live := [⟨0x10048, 0x10058, 88⟩] } := by
  have hmemory : (memoryAt 0x10000).Fresh [] :=
    fresh_memoryAt (by decide) (by decide) (by decide) nofun
  have halloc : arenaAlloc (memoryAt 0x10000) 0 pageSize { noGrowing := true } =
      .returned pageArena := by decide +kernel
  refine ((noGrowing_oneBlock_iff { noGrowing := true } 0 pageSize _ hmemory).1 _ halloc _).mp
    (.single ⟨.push (memoryAt 0x100000) 16 8, ?_, ?_, by decide +kernel⟩)
  · rintro _ _ _ ⟨⟩
    exact fresh_memoryAt (by decide) (by decide) (by decide) (by decide)
  · rintro _ _ _ ⟨⟩
    exact Or.inr (by unfold ArenaChain.Fits; decide)

/-- An arena of one page that must not grow, and a push of 100000 bytes. -/
theorem not_oneBlock_noGrowing :
    ∃ s, (memoryAt 0x10000).Fresh [] ∧
      arenaAlloc (memoryAt 0x10000) 0 pageSize { noGrowing := true } = .returned pageArena ∧
      ArenaReach (fun _ _ => True) { chain := ⟨pageArena, []⟩ } s ∧ ¬s.chain.OneBlock :=
  ⟨_, fresh_memoryAt (by decide) (by decide) (by decide) nofun, by decide +kernel,
    arenaStep_secondBlock _ trivial, List.cons_ne_nil _ _⟩

end Wasim
