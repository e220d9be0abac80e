import Mathlib.Algebra.Order.BigOperators.Group.List
import Mathlib.Algebra.Order.Ring.Nat
import Mathlib.Logic.Relation
import Wasim.Base.Arena
import Wasim.Library.Packing

/-!
# Runs of an arena

An arena that is pushed to and popped, with temps that are begun and ended. The state carries
the pushes that were not popped, each with the position behind it; a pop gives up those that end
behind the position it goes back to.

The header of the first block is kept by every pop. A pop into the header of a later block keeps
the block and not the header, so the next push may overwrite it (`arenaPush_inside_header`). As
long as there is no such pop, pushes stay off the headers and off each other
(`arenaPush_apart`).
-/

namespace Wasim

/-! ### States -/

/-- The addresses of a push, and the position of the arena behind it. -/
structure ArenaPush where
  lo : ℕ
  hi : ℕ
  pos : ℕ
  deriving DecidableEq, Repr

/-- An arena with its open temps, the last one first, and the pushes that were not popped. -/
structure ArenaState where
  chain : ArenaChain
  temps : List ℕ := []
  live : List ArenaPush := []
  deriving DecidableEq, Repr

/-- The calls, and what the system answers during a push. -/
inductive ArenaCall
  | push (memory : VirtualMemory) (size align : UInt64)
  | pop (size : Int64)
  | popTo (pos : UInt64)
  | clear
  | tempBegin
  | tempEnd

namespace ArenaState

def pushed (s : ArenaState) (c : ArenaChain) : Option (ℕ × ℕ) → ArenaState
  | none => { s with chain := c }
  | some (lo, hi) => { s with chain := c, live := ⟨lo, hi, c.pos⟩ :: s.live }

theorem chain_pushed (s : ArenaState) (c : ArenaChain) (range : Option (ℕ × ℕ)) :
    (s.pushed c range).chain = c := by
  rcases range with _ | ⟨lo, hi⟩
  · rfl
  · rfl

theorem temps_pushed (s : ArenaState) (c : ArenaChain) (range : Option (ℕ × ℕ)) :
    (s.pushed c range).temps = s.temps := by
  rcases range with _ | ⟨lo, hi⟩
  · rfl
  · rfl

def popped (s : ArenaState) (c : ArenaChain) : ArenaState :=
  { s with chain := c, live := s.live.filter (·.pos ≤ c.pos) }

/-- The position that a call pops to. -/
def popsTo? (s : ArenaState) : ArenaCall → Option ℕ
  | .push _ _ _ => none
  | .pop size => some (s.chain.pos - size.toInt.toNat)
  | .popTo pos => some pos.toNat
  | .clear => some 0
  | .tempBegin => none
  | .tempEnd => s.temps.head?

end ArenaState

def arenaStep (s : ArenaState) : ArenaCall → Outcome ArenaState
  | .push memory size align => do
    let (c, range) ← arenaPushAlignedNonZeroed memory s.chain size.toNat align.toNat
    return s.pushed c range
  | .pop size => do
    let c ← arenaPop s.chain size.toInt
    return s.popped c
  | .popTo pos => do
    let c ← arenaPopTo s.chain pos.toNat
    return s.popped c
  | .clear => do
    let c ← arenaClear s.chain
    return s.popped c
  | .tempBegin => return { s with temps := arenaTempBegin s.chain :: s.temps }
  | .tempEnd =>
    match s.temps with
    | [] => .crashed
    | temp :: temps => do
      let c ← arenaTempEnd s.chain temp
      return { s.popped c with temps }

/-- What a call does: it pushes, pops to a position, or begins a temp. -/
theorem arenaStep_cases {s s' : ArenaState} {call : ArenaCall}
    (h : arenaStep s call = .returned s') :
    (∃ memory size align c range, call = .push memory size align ∧
      arenaPushAlignedNonZeroed memory s.chain size.toNat align.toNat = .returned (c, range) ∧
      s' = s.pushed c range) ∨
    (∃ pos c temps, s.popsTo? call = some pos ∧ arenaPopTo s.chain pos = .returned c ∧
      s' = { s.popped c with temps }) ∨
    (call = .tempBegin ∧ s' = { s with temps := arenaTempBegin s.chain :: s.temps }) := by
  rcases call with ⟨memory, size, align⟩ | size | pos | _ | _ | _
  · obtain ⟨⟨c, range⟩, hpush, hreturn⟩ := Outcome.bind_eq_returned.mp h
    exact Or.inl ⟨memory, size, align, c, range, rfl, hpush, (Outcome.returned.inj hreturn).symm⟩
  · obtain ⟨c, hpop, hreturn⟩ := Outcome.bind_eq_returned.mp h
    obtain ⟨_, -, hpop⟩ := Outcome.bind_eq_returned.mp hpop
    obtain ⟨_, -, hpop⟩ := Outcome.bind_eq_returned.mp hpop
    exact Or.inr (Or.inl ⟨_, c, s.temps, rfl, hpop, (Outcome.returned.inj hreturn).symm⟩)
  · obtain ⟨c, hpop, hreturn⟩ := Outcome.bind_eq_returned.mp h
    exact Or.inr (Or.inl ⟨_, c, s.temps, rfl, hpop, (Outcome.returned.inj hreturn).symm⟩)
  · obtain ⟨c, hpop, hreturn⟩ := Outcome.bind_eq_returned.mp h
    exact Or.inr (Or.inl ⟨_, c, s.temps, rfl, hpop, (Outcome.returned.inj hreturn).symm⟩)
  · exact Or.inr (Or.inr ⟨rfl, (Outcome.returned.inj h).symm⟩)
  · rw [arenaStep] at h
    split at h
    · cases h
    · rename_i temp temps htemps
      obtain ⟨c, hpop, hreturn⟩ := Outcome.bind_eq_returned.mp h
      refine Or.inr (Or.inl ⟨temp, c, temps, ?_, hpop, (Outcome.returned.inj hreturn).symm⟩)
      rw [ArenaState.popsTo?, htemps]
      rfl

/-- The position is inside of a header, not at its start or behind it. -/
def ArenaChain.InHeader (c : ArenaChain) (pos : ℕ) : Prop :=
  ∃ b ∈ c.blocks, b.basePos < pos ∧ pos < b.basePos + sizeOfArena

/-- The call does not pop into a header. The first one is out of reach. -/
def ArenaState.KeepsHeaders (s : ArenaState) (call : ArenaCall) : Prop :=
  ∀ pos, s.popsTo? call = some pos → ¬s.chain.InHeader (max pos sizeOfArena)

/-- The system answers the call as it should. -/
def ArenaState.Answered (s : ArenaState) (call : ArenaCall) : Prop :=
  ∀ memory size align, call = .push memory size align → memory.Fresh s.chain.blocks

/-- The states that calls of a kind lead to. -/
def ArenaReach (ok : ArenaState → ArenaCall → Prop) : ArenaState → ArenaState → Prop :=
  Relation.ReflTransGen fun s s' =>
    ∃ call, s.Answered call ∧ ok s call ∧ arenaStep s call = .returned s'

/-! ### Chains -/

theorem ArenaChain.first_mem (c : ArenaChain) : c.first ∈ c.blocks := by
  obtain ⟨curr, prev⟩ := c
  rw [ArenaChain.first, ArenaChain.blocks]
  rcases List.eq_nil_or_concat prev with rfl | ⟨bs, b, rfl⟩
  · exact List.mem_cons_self
  · simp

/-- Every block starts at the position where the blocks before it end. -/
def Stacked : List Arena → Prop
  | [] => True
  | b :: bs => b.basePos = (bs.map Arena.used).sum ∧ Stacked bs

theorem Stacked.of_append {as bs : List Arena} (h : Stacked (as ++ bs)) : Stacked bs := by
  induction as with
  | nil => exact h
  | cons a as ih => exact ih h.2

structure ArenaChain.Valid (c : ArenaChain) : Prop where
  block : ∀ b ∈ c.blocks, b.Valid
  apart : c.blocks.Pairwise fun b b' => Disjoint b.region b'.region
  stacked : Stacked c.blocks

theorem Arena.Valid.card_region {a : Arena} : a.region.card = a.reserved := by
  rw [Arena.region, Nat.card_Ico, Nat.add_sub_cancel_left]

/-- Positions do not leave the address space either. -/
theorem sum_used_le {blocks : List Arena} (hblock : ∀ b ∈ blocks, b.Valid)
    (hapart : blocks.Pairwise fun b b' => Disjoint b.region b'.region) :
    (blocks.map Arena.used).sum ≤ 2 ^ 63 := by
  have hsub : ∀ t ∈ blocks.map Arena.region, t ⊆ Finset.range (2 ^ 63) := by
    intro t ht
    obtain ⟨b, hb, rfl⟩ := List.mem_map.mp ht
    intro i hi
    have hstop := (hblock b hb).stop_le
    rw [Arena.region, Finset.mem_Ico] at hi
    exact Finset.mem_range.mpr (by omega)
  calc (blocks.map Arena.used).sum
      ≤ (blocks.map Arena.reserved).sum :=
        List.sum_le_sum fun b hb => (hblock b hb).used_le
    _ = ((blocks.map Arena.region).map Finset.card).sum := by
        rw [List.map_map]
        exact congrArg List.sum (List.map_congr_left fun b _ => Arena.Valid.card_region.symm)
    _ ≤ (Finset.range (2 ^ 63)).card :=
        Packing.sum_card_le (List.pairwise_map.mpr hapart) hsub
    _ = 2 ^ 63 := Finset.card_range _

theorem ArenaChain.Valid.pos_eq {c : ArenaChain} (h : c.Valid) :
    c.pos = c.curr.basePos + c.curr.used := by
  have hsum := sum_used_le h.block h.apart
  have hbase := h.stacked.1
  rw [blocks, List.map_cons, List.sum_cons] at hsum
  rw [pos, Nat.mod_eq_of_lt (by omega)]

/-- A new block goes in front of the others. -/
theorem ArenaChain.Valid.cons {c : ArenaChain} {a : Arena} (h : c.Valid) (ha : a.Valid)
    (hapart : ∀ b ∈ c.blocks, Disjoint a.region b.region) :
    ArenaChain.Valid ⟨{ a with basePos := c.pos }, c.blocks⟩ where
  block := List.forall_mem_cons.mpr
    ⟨⟨ha.data_pos, ha.stop_le, ha.header_le, ha.used_le⟩, h.block⟩
  apart := List.pairwise_cons.mpr ⟨hapart, h.apart⟩
  stacked := by
    refine ⟨?_, h.stacked⟩
    rw [h.pos_eq, h.stacked.1, blocks, List.map_cons, List.sum_cons, Nat.add_comm]

/-- What is in use of the current block changes. -/
theorem ArenaChain.Valid.setUsed {c : ArenaChain} (h : c.Valid) {used : ℕ} (commited : ℕ)
    (hheader : sizeOfArena ≤ used) (hused : used ≤ c.curr.reserved) :
    ArenaChain.Valid ⟨{ c.curr with used, commited }, c.prev⟩ where
  block := by
    obtain ⟨hcurr, hprev⟩ := List.forall_mem_cons.mp h.block
    exact List.forall_mem_cons.mpr ⟨⟨hcurr.data_pos, hcurr.stop_le, hheader, hused⟩, hprev⟩
  apart := List.pairwise_cons.mpr (List.pairwise_cons.mp h.apart)
  stacked := h.stacked

/-- The later blocks are given up. -/
theorem ArenaChain.Valid.of_append {c : ArenaChain} (h : c.Valid) {dropped : List Arena}
    {b : Arena} {bs : List Arena} (heq : c.blocks = dropped ++ b :: bs) :
    ArenaChain.Valid ⟨b, bs⟩ where
  block d hd := h.block d (by rw [heq]; exact List.mem_append_right dropped hd)
  apart := (List.pairwise_append.mp (heq ▸ h.apart)).2.1
  stacked := Stacked.of_append (heq ▸ h.stacked)

/-- A position that is not behind the blocks given up is not behind the end of the one before. -/
theorem ArenaChain.Valid.pos_le_of_append {c : ArenaChain} (h : c.Valid) {dropped : List Arena}
    {b : Arena} {bs : List Arena} (heq : c.blocks = dropped ++ b :: bs) {pos : ℕ}
    (hpos : pos ≤ c.pos) (hdropped : ∀ d ∈ dropped, pos ≤ d.basePos) :
    pos ≤ b.basePos + b.used := by
  have hbase : b.basePos = (bs.map Arena.used).sum := (h.of_append heq).stacked.1
  rcases List.eq_nil_or_concat dropped with rfl | ⟨ds, d, rfl⟩
  · rw [List.nil_append, blocks, List.cons.injEq] at heq
    rw [h.pos_eq, heq.1] at hpos
    exact hpos
  · have hle := hdropped d (by simp)
    rw [List.concat_eq_append, List.append_assoc, List.singleton_append] at heq
    rw [(h.of_append heq).stacked.1, List.map_cons, List.sum_cons] at hle
    omega

/-- A pop that keeps the headers leaves a chain behind that ends at its position. -/
theorem ArenaChain.Valid.popTo {c c' : ArenaChain} (h : c.Valid) {pos : ℕ}
    (hheader : ¬c.InHeader (max pos sizeOfArena)) (hpop : arenaPopTo c pos = .returned c') :
    c'.Valid ∧ c'.pos = max pos sizeOfArena := by
  obtain ⟨curr, prev⟩ := c'
  obtain ⟨hle, dropped, b, heq, hdropped, hlt, hcurr⟩ := arenaPopTo_cases hpop
  obtain rfl : curr = { b with used := max pos sizeOfArena - b.basePos } := hcurr
  have hvalid := h.of_append heq
  have hb := hvalid.block b List.mem_cons_self
  have hend := h.pos_le_of_append heq hle hdropped
  have hmem : b ∈ c.blocks := by
    rw [heq]
    exact List.mem_append_right dropped List.mem_cons_self
  have hstart : b.basePos + sizeOfArena ≤ max pos sizeOfArena :=
    not_lt.mp fun hinside => hheader ⟨b, hmem, hlt, hinside⟩
  have hused := hb.used_le
  have hvalid' : ArenaChain.Valid ⟨{ b with used := max pos sizeOfArena - b.basePos }, prev⟩ :=
    hvalid.setUsed b.commited (by omega) (show _ ≤ b.reserved by omega)
  exact ⟨hvalid', hvalid'.pos_eq.trans (Nat.add_sub_cancel' hlt.le)⟩

/-! ### The invariant -/

/-- A push lies in a block, behind its header. -/
structure ArenaPush.In (p : ArenaPush) (b : Arena) : Prop where
  lo_ge : b.data + sizeOfArena ≤ p.lo
  lt : p.lo < p.hi
  hi_le : p.hi ≤ b.data + b.used
  pos_eq : p.pos = b.basePos + (p.hi - b.data)

structure ArenaState.Invariant (s : ArenaState) : Prop where
  chain : s.chain.Valid
  live : ∀ p ∈ s.live, ∃ b ∈ s.chain.blocks, p.In b

theorem ArenaPush.In.subset_region {p : ArenaPush} {b : Arena} (h : p.In b) (hb : b.Valid) :
    Finset.Ico p.lo p.hi ⊆ b.region :=
  Finset.Ico_subset_Ico ((Nat.le_add_right _ _).trans h.lo_ge)
    (h.hi_le.trans (Nat.add_le_add_left hb.used_le _))

theorem Arena.Valid.header_subset {b : Arena} (hb : b.Valid) :
    Finset.Ico b.data (b.data + sizeOfArena) ⊆ b.region :=
  Finset.Ico_subset_Ico le_rfl (Nat.add_le_add_left (hb.header_le.trans hb.used_le) _)

/-- What a push does: it goes behind what is in use of a block that is in front of the others. -/
theorem ArenaState.Invariant.push {s : ArenaState} (h : s.Invariant) {memory : VirtualMemory}
    (hmemory : memory.Fresh s.chain.blocks) {size align : UInt64} {c : ArenaChain}
    {range : Option (ℕ × ℕ)}
    (hpush : arenaPushAlignedNonZeroed memory s.chain size.toNat align.toNat =
      .returned (c, range)) :
    (s.pushed c range).Invariant ∧ ∀ lo hi, range = some (lo, hi) →
      (∀ b ∈ c.blocks, Disjoint (Finset.Ico lo hi)
        (Finset.Ico b.data (b.data + sizeOfArena))) ∧
      ∀ p ∈ s.live, Disjoint (Finset.Ico lo hi) (Finset.Ico p.lo p.hi) := by
  have hcurr := h.chain.block s.chain.curr List.mem_cons_self
  rcases arenaPush_cases hcurr hmemory size.toNat_lt align.toNat_lt hpush with
    ⟨-, rfl, rfl⟩ | ⟨target, start, commited, htarget, hpos, hle, hend, -, rfl, rfl⟩
  · exact ⟨⟨h.chain, h.live⟩, nofun⟩
  have hvalid : target.Valid := by
    rcases htarget with rfl | ⟨a, ha, -, -, hapart, rfl⟩
    · exact h.chain
    · exact h.chain.cons ha hapart
  -- a push that is there lies in the target or in a block behind it
  have hlive : ∀ p ∈ s.live, (target = s.chain ∧ p.In target.curr) ∨
      ∃ b ∈ target.prev, p.In b := by
    intro p hp
    obtain ⟨b, hb, hin⟩ := h.live p hp
    rcases htarget with rfl | ⟨a, -, -, -, -, rfl⟩
    · rcases List.mem_cons.mp hb with rfl | hb
      · exact Or.inl ⟨rfl, hin⟩
      · exact Or.inr ⟨b, hb, hin⟩
    · exact Or.inr ⟨b, hb, hin⟩
  obtain ⟨htarget', hprev⟩ := List.forall_mem_cons.mp hvalid.block
  obtain ⟨hcurrapart, -⟩ := List.pairwise_cons.mp hvalid.apart
  have hheader := htarget'.header_le
  have hvalid' := hvalid.setUsed commited (hheader.trans (by omega)) hend
  have hsub : Finset.Ico (target.curr.data + start) (target.curr.data + (start + size.toNat)) ⊆
      target.curr.region :=
    Finset.Ico_subset_Ico (Nat.le_add_right _ _) (Nat.add_le_add_left hend _)
  refine ⟨⟨hvalid', fun p hp => ?_⟩, fun lo hi hrange => ?_⟩
  · rcases List.mem_cons.mp hp with rfl | hp
    · refine ⟨_, List.mem_cons_self, ?_, ?_, le_rfl, ?_⟩
      · exact Nat.add_le_add_left (hheader.trans hle) _
      · exact Nat.add_lt_add_left (Nat.lt_add_of_pos_right hpos) _
      · exact hvalid'.pos_eq.trans
          (congrArg (target.curr.basePos + ·) (Nat.add_sub_cancel_left _ _).symm)
    · rcases hlive p hp with ⟨-, hin⟩ | ⟨b, hb, hin⟩
      · exact ⟨_, List.mem_cons_self, hin.lo_ge, hin.lt,
          hin.hi_le.trans (Nat.add_le_add_left (hle.trans (Nat.le_add_right _ _)) _),
          hin.pos_eq⟩
      · exact ⟨b, List.mem_cons_of_mem _ hb, hin⟩
  · obtain ⟨rfl, rfl⟩ := by simpa using hrange
    refine ⟨List.forall_mem_cons.mpr ⟨?_, fun b hb => ?_⟩, fun p hp => ?_⟩
    · rw [Finset.disjoint_left]
      intro i hi hi'
      simp only [Finset.mem_Ico] at hi hi'
      omega
    · exact (hcurrapart b hb).mono hsub (hprev b hb).header_subset
    · rcases hlive p hp with ⟨-, hin⟩ | ⟨b, hb, hin⟩
      · have hhi := hin.hi_le
        rw [Finset.disjoint_left]
        intro i hi hi'
        simp only [Finset.mem_Ico] at hi hi'
        omega
      · exact (hcurrapart b hb).mono hsub (hin.subset_region (hprev b hb))

/-- What a pop leaves: the pushes that end before its position, each in its block. -/
theorem ArenaState.Invariant.popTo {s : ArenaState} (h : s.Invariant) {pos : ℕ}
    (hheader : ¬s.chain.InHeader (max pos sizeOfArena)) {c : ArenaChain}
    (hpop : arenaPopTo s.chain pos = .returned c) : (s.popped c).Invariant := by
  obtain ⟨hvalid, hpos⟩ := h.chain.popTo hheader hpop
  obtain ⟨-, dropped, b, heq, hdropped, -, hcurr⟩ := arenaPopTo_cases hpop
  refine ⟨hvalid, fun p hp => ?_⟩
  obtain ⟨hp, hle⟩ := List.mem_filter.mp hp
  rw [decide_eq_true_iff, hpos] at hle
  obtain ⟨d, hd, hin⟩ := h.live p hp
  have hlo := hin.lo_ge
  have hlt := hin.lt
  have hend := hin.pos_eq
  rw [heq, List.mem_append] at hd
  rcases hd with hd | hd
  · -- a block that is given up starts at the position or behind it
    have hbase := hdropped d hd
    omega
  · rcases List.mem_cons.mp hd with rfl | hd
    · refine ⟨c.curr, List.mem_cons_self, ?_⟩
      rw [hcurr]
      exact ⟨hlo, hlt, show p.hi ≤ d.data + (max pos sizeOfArena - d.basePos) by omega, hend⟩
    · exact ⟨d, List.mem_cons_of_mem _ hd, hin⟩

theorem ArenaState.Invariant.step {s s' : ArenaState} {call : ArenaCall} (h : s.Invariant)
    (hanswered : s.Answered call) (hkeeps : s.KeepsHeaders call)
    (hstep : arenaStep s call = .returned s') : s'.Invariant := by
  rcases arenaStep_cases hstep with ⟨memory, size, align, c, range, rfl, hpush, rfl⟩ |
    ⟨pos, c, temps, hpos, hpop, rfl⟩ | ⟨rfl, rfl⟩
  · exact (h.push (hanswered memory size align rfl) hpush).1
  · have hinv := h.popTo (hkeeps pos hpos) hpop
    exact ⟨hinv.chain, hinv.live⟩
  · exact ⟨h.chain, h.live⟩

theorem ArenaState.Invariant.reach {s s' : ArenaState} (h : s.Invariant)
    (hreach : ArenaReach ArenaState.KeepsHeaders s s') : s'.Invariant := by
  induction hreach with
  | refl => exact h
  | tail _ hstep ih =>
    obtain ⟨call, hanswered, hkeeps, hstep⟩ := hstep
    exact ih.step hanswered hkeeps hstep

theorem ArenaState.Invariant.alloc {memory : VirtualMemory} {commited reserved : ℕ}
    {flags : ArenaFlags} {a : Arena} (hmemory : memory.Fresh [])
    (halloc : arenaAlloc memory commited reserved flags = .returned a) :
    ArenaState.Invariant { chain := ⟨a, []⟩ } := by
  obtain ⟨hvalid, -, hbase, -⟩ := arenaAlloc_spec hmemory halloc
  exact ⟨⟨List.forall_mem_singleton.mpr hvalid, List.pairwise_singleton _ _, hbase, trivial⟩,
    nofun⟩

/-! ### Pushes -/

/-- In a run from a new arena none of whose calls pops into a header, a push lies off all headers
and off all pushes that were not popped. -/
theorem arenaPush_apart {memory memory' : VirtualMemory} {commited reserved : ℕ}
    {flags : ArenaFlags} {a : Arena} {s : ArenaState} {size align : UInt64} {c : ArenaChain}
    {lo hi : ℕ} (hmemory : memory.Fresh [])
    (halloc : arenaAlloc memory commited reserved flags = .returned a)
    (hreach : ArenaReach ArenaState.KeepsHeaders { chain := ⟨a, []⟩ } s)
    (hmemory' : memory'.Fresh s.chain.blocks)
    (hpush : arenaPushAlignedNonZeroed memory' s.chain size.toNat align.toNat =
      .returned (c, some (lo, hi))) :
    (∀ b ∈ c.blocks, Disjoint (Finset.Ico lo hi)
      (Finset.Ico b.data (b.data + sizeOfArena))) ∧
    ∀ p ∈ s.live, Disjoint (Finset.Ico lo hi) (Finset.Ico p.lo p.hi) :=
  (((ArenaState.Invariant.alloc hmemory halloc).reach hreach).push hmemory' hpush).2 lo hi rfl

/-- Up to a megabyte at the address is reserved. -/
def memoryAt (data : ℕ) : VirtualMemory where
  reserve size := if size ≤ 0x100000 then some data else none
  commit := true

theorem fresh_memoryAt {data : ℕ} {blocks : List Arena} (hpos : 0 < data) (hpage : pageSize ∣ data)
    (hle : data + 0x100000 ≤ 2 ^ 63)
    (hapart : ∀ b ∈ blocks, b.data + b.reserved ≤ data) : (memoryAt data).Fresh blocks := by
  intro size d hd
  simp only [memoryAt, Option.ite_none_right_eq_some, Option.some.injEq] at hd
  obtain ⟨hsize, rfl⟩ := hd
  refine ⟨hpos, hpage, by omega, fun b hb => ?_⟩
  have hb := hapart b hb
  rw [Finset.disjoint_left]
  intro i hi hi'
  simp only [Arena.region, Finset.mem_Ico] at hi hi'
  omega

/-- An arena of one page. -/
def pageArena : Arena := { data := 0x10000, used := 72, reserved := 0x1000, commited := 0x1000 }

/-- Its second block, after a push of 100000 bytes. -/
def secondBlock : Arena where
  basePos := 72
  data := 0x100000
  used := 100072
  reserved := 0x19000
  commited := 0x19000
  initialCommited := 0x19000

theorem arenaAlloc_pageArena :
    arenaAlloc (memoryAt 0x10000) 0 pageSize {} = .returned pageArena := by decide +kernel

theorem arenaStep_secondBlock (ok : ArenaState → ArenaCall → Prop)
    (hok : ok { chain := ⟨pageArena, []⟩ } (.push (memoryAt 0x100000) 100000 1)) :
    ArenaReach ok { chain := ⟨pageArena, []⟩ }
      { chain := ⟨secondBlock, [pageArena]⟩, live := [⟨0x100048, 0x1186E8, 100144⟩] } := by
  refine Relation.ReflTransGen.single ⟨_, ?_, hok, by decide +kernel⟩
  rintro memory size align ⟨⟩
  exact fresh_memoryAt (by decide) (by decide) (by decide) (by decide)

/-- A push behind the 100000 bytes. -/
theorem arenaPush_apart_second :
    ∃ c, arenaPushAlignedNonZeroed (memoryAt 0x200000) ⟨secondBlock, [pageArena]⟩ 8 8 =
        .returned (c, some (0x1186E8, 0x1186F0)) ∧
      (∀ b ∈ c.blocks, Disjoint (Finset.Ico 0x1186E8 0x1186F0)
        (Finset.Ico b.data (b.data + sizeOfArena))) ∧
      Disjoint (Finset.Ico 0x1186E8 0x1186F0) (Finset.Ico 0x100048 0x1186E8) := by
  have hpush : arenaPushAlignedNonZeroed (memoryAt 0x200000) ⟨secondBlock, [pageArena]⟩
      (8 : UInt64).toNat (8 : UInt64).toNat =
        .returned (⟨{ secondBlock with used := 100080 }, [pageArena]⟩,
          some (0x1186E8, 0x1186F0)) := by decide +kernel
  obtain ⟨hheaders, hlive⟩ := arenaPush_apart
    (fresh_memoryAt (by decide) (by decide) (by decide) nofun) arenaAlloc_pageArena
    (arenaStep_secondBlock _ nofun)
    (fresh_memoryAt (by decide) (by decide) (by decide) (by decide)) hpush
  exact ⟨_, hpush, hheaders, hlive _ List.mem_cons_self⟩

/-- A pop of 100036 bytes leaves 36 bytes of the second header. The next push overwrites the rest
of it. -/
theorem arenaPush_inside_header :
    ∃ s c lo hi, (memoryAt 0x10000).Fresh [] ∧
      arenaAlloc (memoryAt 0x10000) 0 pageSize {} = .returned pageArena ∧
      ArenaReach (fun _ _ => True) { chain := ⟨pageArena, []⟩ } s ∧
      (memoryAt 0x200000).Fresh s.chain.blocks ∧
      arenaPushAlignedNonZeroed (memoryAt 0x200000) s.chain 8 8 = .returned (c, some (lo, hi)) ∧
      ∃ b ∈ c.blocks, ¬Disjoint (Finset.Ico lo hi)
        (Finset.Ico b.data (b.data + sizeOfArena)) := by
  have hpop : arenaStep
      { chain := ⟨secondBlock, [pageArena]⟩, live := [⟨0x100048, 0x1186E8, 100144⟩] }
      (.pop 100036) =
        .returned { chain := ⟨{ secondBlock with used := 36 }, [pageArena]⟩ } := by
    decide +kernel
  refine ⟨{ chain := ⟨{ secondBlock with used := 36 }, [pageArena]⟩ },
    ⟨{ secondBlock with used := 48 }, [pageArena]⟩, 0x100028, 0x100030,
    fresh_memoryAt (by decide) (by decide) (by decide) nofun, arenaAlloc_pageArena,
    (arenaStep_secondBlock _ trivial).tail ⟨_, ?_, trivial, hpop⟩,
    fresh_memoryAt (by decide) (by decide) (by decide) (by decide), by decide +kernel,
    { secondBlock with used := 48 }, List.mem_cons_self, by decide⟩
  rintro memory size align h
  cases h

end Wasim
