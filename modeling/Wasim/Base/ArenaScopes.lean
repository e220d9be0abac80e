import Wasim.Base.ArenaRuns

/-!
# Scopes of an arena

Pushes and temps that are properly nested. A temp saves the position as one number, and its end
finds the block that the position lies in: blocks made in between start at the position or behind
it, and the block that was the current one starts in front of it (`ArenaChain.Grown`). So the end
of a scope leaves the chain as it was at its beginning, but for the pages that were commited
(`arenaTempEnd_restores`). Scopes never pop into a header (`ArenaState.Nested`).
-/

namespace Wasim

variable {c c' : ArenaChain} {s s' : ArenaState} {pos : ℕ}

/-- The calls of a run that is made of pushes and scopes. -/
def ArenaCall.Scoped : ArenaCall → Prop
  | .push _ _ _ => True
  | .tempBegin => True
  | .tempEnd => True
  | _ => False

/-- The temps were begun one inside the other, at positions that are still there. -/
structure ArenaState.Nested (s : ArenaState) : Prop where
  inv : s.Invariant
  paged : ∀ b ∈ s.chain.blocks, b.Paged
  temps : ∀ temp ∈ s.temps, sizeOfArena ≤ temp ∧ temp ≤ s.chain.pos ∧ ¬s.chain.InHeader temp
  sorted : s.temps.Pairwise (· ≥ ·)

/-! ### Positions -/

theorem Stacked.le {bs : List Arena} (h : Stacked bs) {b : Arena} (hb : b ∈ bs) :
    b.basePos + b.used ≤ (bs.map Arena.used).sum := by
  induction bs with
  | nil => cases hb
  | cons d bs ih =>
    rw [List.map_cons, List.sum_cons]
    rcases List.mem_cons.mp hb with rfl | hb
    · rw [h.1, Nat.add_comm]
    · exact (ih h.2 hb).trans (Nat.le_add_left _ _)

/-- No block ends behind the position. -/
theorem ArenaChain.Valid.block_le (h : c.Valid) {b : Arena} (hb : b ∈ c.blocks) :
    b.basePos + b.used ≤ c.pos := by
  have hle := h.stacked.le hb
  have hbase := h.stacked.1
  rw [ArenaChain.blocks, List.map_cons, List.sum_cons, ← hbase] at hle
  rw [h.pos_eq]
  omega

theorem ArenaChain.Valid.header_le_pos (h : c.Valid) : sizeOfArena ≤ c.pos := by
  have hle := h.block_le List.mem_cons_self
  have hheader := (h.block c.curr List.mem_cons_self).header_le
  omega

/-- The position itself is not in a header. -/
theorem ArenaChain.Valid.pos_not_inHeader (h : c.Valid) : ¬c.InHeader c.pos := by
  rintro ⟨b, hb, -, hlt⟩
  have hle := h.block_le hb
  have hheader := (h.block b hb).header_le
  omega

/-- Headers are where their blocks start. -/
theorem ArenaChain.InHeader.mono (hbase : ∀ b ∈ c'.blocks, ∃ d ∈ c.blocks, d.basePos = b.basePos)
    (h : c'.InHeader pos) : c.InHeader pos := by
  obtain ⟨b, hb, hgt, hlt⟩ := h
  obtain ⟨d, hd, heq⟩ := hbase b hb
  exact ⟨d, hd, heq ▸ hgt, heq ▸ hlt⟩

/-! ### The steps -/

/-- A push moves the position on, and a block that was not there before starts behind it. -/
theorem ArenaState.Invariant.push_blocks (h : s.Invariant) {memory : VirtualMemory}
    (hmemory : memory.Fresh s.chain.blocks) {size align : UInt64} {range : Option (ℕ × ℕ)}
    (hpush : arenaPushAlignedNonZeroed memory s.chain size.toNat align.toNat =
      .returned (c, range)) :
    s.chain.pos ≤ c.pos ∧ ∀ b ∈ c.blocks, (b.Paged ∧ s.chain.pos ≤ b.basePos) ∨
      ∃ d ∈ s.chain.blocks, d.basePos = b.basePos ∧ (d.Paged → b.Paged) := by
  have hcurr := h.chain.block s.chain.curr List.mem_cons_self
  have hvalid : c.Valid := s.chain_pushed c range ▸ (h.push hmemory hpush).1.chain
  rcases arenaPush_cases hcurr hmemory size.toNat_lt align.toNat_lt hpush with
    ⟨-, rfl, -⟩ | ⟨target, start, commited, htarget, -, hle, -, -, rfl, -⟩
  · exact ⟨le_rfl, fun b hb => Or.inr ⟨b, hb, rfl, id⟩⟩
  rw [h.chain.pos_eq, hvalid.pos_eq]
  dsimp only
  rcases htarget with rfl | ⟨a, -, -, hpaged, -, rfl⟩
  · refine ⟨by omega, List.forall_mem_cons.mpr ⟨Or.inr ⟨_, List.mem_cons_self, rfl, ?_⟩,
      fun b hb => Or.inr ⟨b, List.mem_cons_of_mem _ hb, rfl, id⟩⟩⟩
    exact fun hcurr => ⟨hcurr.data, hcurr.reserved, hcurr.growing⟩
  · have hpos := h.chain.pos_eq
    refine ⟨by dsimp only; omega, List.forall_mem_cons.mpr ⟨Or.inl ⟨?_, hpos.ge⟩,
      fun b hb => Or.inr ⟨b, hb, rfl, id⟩⟩⟩
    exact ⟨hpaged.data, hpaged.reserved, hpaged.growing⟩

theorem ArenaState.Nested.push (h : s.Nested) {memory : VirtualMemory}
    (hmemory : memory.Fresh s.chain.blocks) {size align : UInt64} {range : Option (ℕ × ℕ)}
    (hpush : arenaPushAlignedNonZeroed memory s.chain size.toNat align.toNat =
      .returned (c, range)) : (s.pushed c range).Nested := by
  obtain ⟨hpos, hblocks⟩ := h.inv.push_blocks hmemory hpush
  refine ⟨(h.inv.push hmemory hpush).1, fun b hb => ?_, ?_, by rw [s.temps_pushed]; exact h.sorted⟩
  · rw [s.chain_pushed] at hb
    rcases hblocks b hb with ⟨hpaged, -⟩ | ⟨d, hd, -, hpaged⟩
    · exact hpaged
    · exact hpaged (h.paged d hd)
  rw [s.temps_pushed, s.chain_pushed]
  intro temp htemp
  obtain ⟨hheader, hle, hnot⟩ := h.temps temp htemp
  refine ⟨hheader, hle.trans hpos, ?_⟩
  rintro ⟨b, hb, hgt, hlt⟩
  -- a new block starts behind the temps
  rcases hblocks b hb with ⟨-, hnew⟩ | ⟨d, hd, heq, -⟩
  · omega
  · exact hnot ⟨d, hd, heq ▸ hgt, heq ▸ hlt⟩

theorem ArenaState.Nested.tempBegin (h : s.Nested) :
    ArenaState.Nested { s with temps := arenaTempBegin s.chain :: s.temps } where
  inv := ⟨h.inv.chain, h.inv.live⟩
  paged := h.paged
  temps := List.forall_mem_cons.mpr
    ⟨⟨h.inv.chain.header_le_pos, le_rfl, h.inv.chain.pos_not_inHeader⟩, h.temps⟩
  sorted := List.pairwise_cons.mpr ⟨fun temp htemp => (h.temps temp htemp).2.1, h.sorted⟩

theorem ArenaState.Nested.tempEnd (h : s.Nested) (hstep : arenaStep s .tempEnd = .returned s') :
    s'.Nested := by
  rw [arenaStep] at hstep
  split at hstep
  · cases hstep
  rename_i temp temps htemps
  obtain ⟨c, hpop, hreturn⟩ := Outcome.bind_eq_returned.mp hstep
  obtain rfl := Outcome.returned.inj hreturn
  have hall := h.temps
  have hsorted := h.sorted
  rw [htemps] at hall hsorted
  obtain ⟨⟨hheader, -, hnot⟩, hall⟩ := List.forall_mem_cons.mp hall
  obtain ⟨hle, hsorted⟩ := List.pairwise_cons.mp hsorted
  have hmax : max temp sizeOfArena = temp := max_eq_left hheader
  have hinv := h.inv.popTo (hmax.symm ▸ hnot) hpop
  obtain ⟨-, hpos⟩ := h.inv.chain.popTo (hmax.symm ▸ hnot) hpop
  obtain ⟨-, dropped, b, heq, -, -, hcurr⟩ := arenaPopTo_cases hpop
  -- what is left are blocks of before
  have hkept : ∀ d ∈ c.blocks,
      ∃ e ∈ s.chain.blocks, e.basePos = d.basePos ∧ (e.Paged → d.Paged) := by
    rw [heq]
    refine List.forall_mem_cons.mpr ⟨⟨b, by simp, ?_⟩, fun d hd => ⟨d, by simp [hd], rfl, id⟩⟩
    rw [hcurr]
    exact ⟨rfl, fun hb => ⟨hb.data, hb.reserved, hb.growing⟩⟩
  refine ⟨⟨hinv.chain, hinv.live⟩, fun d hd => ?_, fun temp' htemp' => ?_, hsorted⟩
  · obtain ⟨e, he, -, hpaged⟩ := hkept d hd
    exact hpaged (h.paged e he)
  · obtain ⟨hheader', -, hnot'⟩ := hall temp' htemp'
    refine ⟨hheader', ?_, fun hin => hnot' (hin.mono fun d hd => ?_)⟩
    · change temp' ≤ c.pos
      rw [hpos, hmax]
      exact hle temp' htemp'
    · obtain ⟨e, he, hbase, -⟩ := hkept d hd
      exact ⟨e, he, hbase⟩

theorem ArenaState.Nested.step (h : s.Nested) {call : ArenaCall} (hcall : call.Scoped)
    (hanswered : s.Answered call) (hstep : arenaStep s call = .returned s') : s'.Nested := by
  rcases call with ⟨memory, size, align⟩ | _ | _ | _ | _ | _
  · obtain ⟨⟨c, range⟩, hpush, hreturn⟩ := Outcome.bind_eq_returned.mp hstep
    obtain rfl := Outcome.returned.inj hreturn
    exact h.push (hanswered memory size align rfl) hpush
  · exact hcall.elim
  · exact hcall.elim
  · exact hcall.elim
  · obtain rfl := Outcome.returned.inj hstep
    exact h.tempBegin
  · exact h.tempEnd hstep

theorem ArenaState.Nested.reach (h : s.Nested)
    (hreach : ArenaReach (fun _ call => call.Scoped) s s') : s'.Nested := by
  induction hreach with
  | refl => exact h
  | tail _ hstep ih =>
    obtain ⟨call, hanswered, hcall, hstep⟩ := hstep
    exact ih.step hcall hanswered hstep

theorem ArenaState.Nested.alloc {memory : VirtualMemory} {commited reserved : ℕ}
    {flags : ArenaFlags} {a : Arena} (hmemory : memory.Fresh [])
    (halloc : arenaAlloc memory commited reserved flags = .returned a) :
    ArenaState.Nested { chain := ⟨a, []⟩ } := by
  obtain ⟨-, -, -, hpaged, -⟩ := arenaAlloc_spec hmemory halloc
  exact ⟨.alloc hmemory halloc, List.forall_mem_singleton.mpr hpaged, nofun, .nil⟩

/-! ### Scopes -/

/-- Pushes, and temps each of which is ended behind what is inside of it. -/
inductive ArenaBalanced : ArenaState → ArenaState → Prop
  | done (s : ArenaState) : ArenaBalanced s s
  | push {s s₁ s₂ : ArenaState} {memory : VirtualMemory} {size align : UInt64} :
      ArenaBalanced s s₁ → s₁.Answered (.push memory size align) →
      arenaStep s₁ (.push memory size align) = .returned s₂ → ArenaBalanced s s₂
  | scope {s s₁ s₂ s₃ s₄ : ArenaState} :
      ArenaBalanced s s₁ → arenaStep s₁ .tempBegin = .returned s₂ →
      ArenaBalanced s₂ s₃ → arenaStep s₃ .tempEnd = .returned s₄ → ArenaBalanced s s₄

/-- The blocks of the one chain are there in the other, unchanged but for the last of them, and
the blocks in front of them start behind the position. -/
def ArenaChain.Grown (c c' : ArenaChain) : Prop :=
  ∃ created used commited, c'.blocks = created ++ { c.curr with used, commited } :: c.prev ∧
    (∀ d ∈ created, c.pos ≤ d.basePos) ∧ c.pos ≤ c'.pos

theorem ArenaChain.Grown.refl (c : ArenaChain) : c.Grown c :=
  ⟨[], c.curr.used, c.curr.commited, rfl, nofun, le_rfl⟩

/-- The current block changes, but not where it starts. -/
theorem ArenaChain.Grown.setUsed (h : c.Grown c') (used commited : ℕ)
    (hpos : c.pos ≤ (⟨{ c'.curr with used, commited }, c'.prev⟩ : ArenaChain).pos) :
    c.Grown ⟨{ c'.curr with used, commited }, c'.prev⟩ := by
  obtain ⟨created, used', commited', heq, hcreated, -⟩ := h
  rcases created with _ | ⟨d, created⟩
  · obtain ⟨hcurr, hprev⟩ := List.cons.inj heq
    refine ⟨[], used, commited, ?_, nofun, hpos⟩
    rw [ArenaChain.blocks, hcurr, hprev]
    rfl
  · obtain ⟨hcurr, hprev⟩ := List.cons.inj heq
    obtain ⟨hd, hcreated⟩ := List.forall_mem_cons.mp hcreated
    refine ⟨{ d with used, commited } :: created, used', commited', ?_,
      List.forall_mem_cons.mpr ⟨hd, hcreated⟩, hpos⟩
    rw [ArenaChain.blocks, hcurr, hprev]
    rfl

theorem ArenaChain.Grown.push (h : c.Grown s.chain) (hs : s.Nested) {memory : VirtualMemory}
    (hmemory : memory.Fresh s.chain.blocks) {size align : UInt64} {range : Option (ℕ × ℕ)}
    (hpush : arenaPushAlignedNonZeroed memory s.chain size.toNat align.toNat =
      .returned (c', range)) : c.Grown c' := by
  have hpos := (hs.inv.push_blocks hmemory hpush).1
  have hcurr := hs.inv.chain.block s.chain.curr List.mem_cons_self
  have hpos' : c.pos ≤ s.chain.pos := by
    obtain ⟨_, _, _, -, -, hle⟩ := h
    exact hle
  rcases arenaPush_cases hcurr hmemory size.toNat_lt align.toNat_lt hpush with
    ⟨-, rfl, -⟩ | ⟨target, start, commited, rfl | ⟨a, -, -, -, -, rfl⟩, -, -, -, -, rfl, -⟩
  · exact h
  · exact h.setUsed _ _ (hpos'.trans hpos)
  · obtain ⟨created, used', commited', heq, hcreated, -⟩ := h
    refine ⟨{ a with basePos := s.chain.pos, used := start + size.toNat, commited } :: created,
      used', commited', ?_, List.forall_mem_cons.mpr ⟨hpos', hcreated⟩, hpos'.trans hpos⟩
    rw [ArenaChain.blocks, List.cons_append, ← heq]

/-- Giving up blocks ends in front of the first that starts before the position. -/
theorem arenaRelease_append {dropped prev bs : List Arena} {curr b : Arena}
    (h : curr :: prev = dropped ++ b :: bs) (hdropped : ∀ d ∈ dropped, pos ≤ d.basePos)
    (hb : b.basePos < pos) : arenaRelease pos curr prev = .returned ⟨b, bs⟩ := by
  induction dropped generalizing curr prev with
  | nil =>
    obtain ⟨rfl, rfl⟩ := List.cons.inj h
    rw [arenaRelease.eq_def]
    dsimp only
    rw [if_neg (not_le.mpr hb)]
  | cons d ds ih =>
    obtain ⟨rfl, hprev⟩ := List.cons.inj h
    obtain ⟨hd, hdropped⟩ := List.forall_mem_cons.mp hdropped
    rcases prev with _ | ⟨e, es⟩
    · exact absurd hprev.symm (by simp)
    · rw [arenaRelease.eq_def]
      dsimp only
      rw [if_pos hd]
      exact ih hprev hdropped

/-- The end of a temp, when the chain has grown from where it was begun. -/
theorem arenaTempEnd_grown (hc : c.Valid) (h : c.Grown c') :
    ∃ commited created b, arenaTempEnd c' (arenaTempBegin c) =
        .returned ⟨{ c.curr with commited }, c.prev⟩ ∧
      c'.blocks = created ++ b :: c.prev ∧ (∃ used, b = { c.curr with used, commited }) ∧
      ∀ d ∈ created, c.pos ≤ d.basePos := by
  obtain ⟨created, used, commited, heq, hcreated, hpos⟩ := h
  have hheader := (hc.block c.curr List.mem_cons_self).header_le
  have hposeq := hc.pos_eq
  have hsize : sizeOfArena = 72 := rfl
  have hrelease := arenaRelease_append heq hcreated (show c.curr.basePos < c.pos by omega)
  refine ⟨commited, created, _, ?_, heq, ⟨used, rfl⟩, hcreated⟩
  rw [arenaTempEnd, arenaTempBegin, arenaPopTo, max_eq_left hc.header_le_pos, arenaAssert,
    if_pos hpos, Outcome.returned_bind, hrelease, Outcome.returned_bind, Outcome.pure_eq]
  dsimp only
  rw [hposeq, Nat.add_sub_cancel_left]

/-- Pushes and scopes inside of a temp keep the temps and the blocks that were there. -/
theorem ArenaBalanced.grown (h : ArenaBalanced s s') (hs : s.Nested) :
    s'.Nested ∧ s'.temps = s.temps ∧ s.chain.Grown s'.chain := by
  induction h with
  | done s => exact ⟨hs, rfl, .refl _⟩
  | @push s s₁ s₂ memory size align _ hanswered hstep ih =>
    obtain ⟨hnested, htemps, hgrown⟩ := ih hs
    have hcall : ArenaCall.Scoped (.push memory size align) := trivial
    have hnested' := hnested.step hcall hanswered hstep
    obtain ⟨⟨c, range⟩, hpush, hreturn⟩ := Outcome.bind_eq_returned.mp hstep
    obtain rfl := Outcome.returned.inj hreturn
    have hgrown' := hgrown.push hnested (hanswered memory size align rfl) hpush
    refine ⟨hnested', ?_, ?_⟩
    · rw [s₁.temps_pushed, htemps]
    · rwa [s₁.chain_pushed]
  | @scope s s₁ s₂ s₃ s₄ _ hbegin _ hend ih ih' =>
    obtain ⟨hnested, htemps, hgrown⟩ := ih hs
    obtain rfl := Outcome.returned.inj hbegin
    obtain ⟨hnested', htemps', hgrown'⟩ := ih' hnested.tempBegin
    have hnested'' := hnested'.tempEnd hend
    rw [arenaStep, htemps'] at hend
    obtain ⟨commited, _, _, hreturned, -⟩ := arenaTempEnd_grown hnested.inv.chain hgrown'
    dsimp only at hend
    rw [hreturned, Outcome.returned_bind] at hend
    obtain rfl := Outcome.returned.inj hend
    refine ⟨hnested'', htemps, hgrown.setUsed _ _ ?_⟩
    obtain ⟨_, _, _, -, -, hle⟩ := hgrown
    exact hle

/-- Pushes and scopes between the beginning of a temp and its end: the end gives up the blocks that
were made in between and leaves the chain as it was, but for the pages commited to its current
block. -/
theorem arenaTempEnd_restores {memory : VirtualMemory} {commited reserved : ℕ}
    {flags : ArenaFlags} {a : Arena} {s s₁ s₂ : ArenaState} (hmemory : memory.Fresh [])
    (halloc : arenaAlloc memory commited reserved flags = .returned a)
    (hreach : ArenaReach (fun _ call => call.Scoped) { chain := ⟨a, []⟩ } s)
    (hbegin : arenaStep s .tempBegin = .returned s₁) (hbody : ArenaBalanced s₁ s₂) :
    ∃ s₃ commited' created b, arenaStep s₂ .tempEnd = .returned s₃ ∧
      s₃.chain = ⟨{ s.chain.curr with commited := commited' }, s.chain.prev⟩ ∧
      s₃.chain.pos = s.chain.pos ∧ s₃.temps = s.temps ∧
      s₂.chain.blocks = created ++ b :: s.chain.prev ∧
      (∃ used, b = { s.chain.curr with used, commited := commited' }) ∧
      ∀ d ∈ created, ∀ e ∈ s.chain.blocks, Disjoint d.region e.region := by
  have hs := (ArenaState.Nested.alloc hmemory halloc).reach hreach
  obtain rfl := Outcome.returned.inj hbegin
  obtain ⟨hnested, htemps, hgrown⟩ := hbody.grown hs.tempBegin
  obtain ⟨commited', created, b, hreturned, hblocks, ⟨used, rfl⟩, -⟩ :=
    arenaTempEnd_grown hs.inv.chain hgrown
  have hend : arenaStep s₂ .tempEnd = .returned { s₂.popped
      ⟨{ s.chain.curr with commited := commited' }, s.chain.prev⟩ with temps := s.temps } := by
    rw [arenaStep, htemps]
    dsimp only
    rw [hreturned]
    rfl
  refine ⟨_, commited', created, _, hend, rfl, rfl, rfl, hblocks, ⟨used, rfl⟩, ?_⟩
  -- the blocks of a chain lie apart
  have hapart := hnested.inv.chain.apart
  rw [hblocks] at hapart
  intro d hd
  obtain ⟨hcurr, hprev⟩ :=
    List.forall_mem_cons.mp fun e he => (List.pairwise_append.mp hapart).2.2 d hd e he
  exact List.forall_mem_cons.mpr ⟨hcurr, hprev⟩

/-- A scope that needs a second block. -/
theorem arenaTempEnd_restores_page :
    ∃ s₃ commited created b, arenaStep
        ⟨⟨secondBlock, [pageArena]⟩, [72], [⟨0x100048, 0x1186E8, 100144⟩]⟩ .tempEnd =
          .returned s₃ ∧
      s₃.chain = ⟨{ pageArena with commited }, []⟩ ∧
      [secondBlock, pageArena] = created ++ [b] := by
  have hpush : arenaStep { chain := ⟨pageArena, []⟩, temps := [72] }
      (.push (memoryAt 0x100000) 100000 1) =
        .returned ⟨⟨secondBlock, [pageArena]⟩, [72], [⟨0x100048, 0x1186E8, 100144⟩]⟩ := by
    decide +kernel
  have hanswered : ArenaState.Answered { chain := ⟨pageArena, []⟩, temps := [72] }
      (.push (memoryAt 0x100000) 100000 1) := by
    rintro memory size align ⟨⟩
    exact fresh_memoryAt (by decide) (by decide) (by decide) (by decide)
  obtain ⟨s₃, commited, created, b, hend, hchain, -, -, hblocks, -⟩ := arenaTempEnd_restores
    (fresh_memoryAt (by decide) (by decide) (by decide) nofun) arenaAlloc_pageArena .refl rfl
    (.push (.done _) hanswered hpush)
  exact ⟨s₃, commited, created, b, hend, hchain, hblocks⟩

end Wasim
