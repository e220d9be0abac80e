import Wasim.Base.Xar
import Wasim.Binary.Expr

/-!
# The expression reader in its temp arena

What the expression reader does with the temp arena of its thread, one operation at a time
(`tempStep`): it opens and closes guards, allocates block types and labels, and writes to its two
arrays, whose chunks come from the same arena.

A chunk that is allocated while a guard is open is given up with the guard. So the arrays are kept
in a run exactly as long as no guard is closed over a chunk, which is to say that the arrays have
not outgrown the room they had when the guard was opened (`TempRun.kept_iff`).
-/

namespace Wasim

/-! ### States -/

/-- The opcode, padding, and the extra number. -/
def instructionLayout : XarLayout Instruction where
  size := 8
  align := 4
  byte inst k := (inst.opcode :: 0 :: 0 :: 0 :: le32 inst.extra).getD k 0
  size_pos := by decide
  size_le := le_rfl

def extraLayout : XarLayout UInt8 where
  size := 1
  align := 1
  byte b _ := b
  size_pos := by decide
  size_le := by decide

/-- An operation on the temp arena. Extra bytes are pushed one by one. -/
inductive TempOp where
  | guardBegin
  | guardEnd
  | alloc (size align : ℕ)
  | pushInstruction (inst : Instruction)
  | setExtra (inst : ℕ) (extra : UInt32)
  | pushExtra (byte : UInt8)
  deriving DecidableEq, Repr

def TempEvent.ops : TempEvent → List TempOp
  | guardBegin => [.guardBegin]
  | guardEnd => [.guardEnd]
  | alloc size align => [.alloc size align]
  | pushInstruction inst => [.pushInstruction inst]
  | setExtra inst extra => [.setExtra inst extra]
  | pushExtras bytes => bytes.map .pushExtra

/-- The operations that led to a builder. -/
def BinInstructionBuilder.ops (ib : BinInstructionBuilder) : List TempOp :=
  ib.temp.flatMap TempEvent.ops

/-- An open guard: the position it goes back to, and the arrays as they were. -/
structure TempGuard where
  pos : ℕ
  instructions : Xar Instruction
  extras : Xar UInt8
  deriving DecidableEq, Repr

structure TempState where
  heap : HeapState
  instructions : Xar Instruction := {}
  extras : Xar UInt8 := {}
  guards : List TempGuard := []

variable (li le : ChunkLengths)

/-- What is allocated is filled with some `contents`. -/
def tempStep (memory : VirtualMemory) (contents : ℕ → UInt8) (s : TempState) :
    TempOp → Outcome TempState
  | .guardBegin => do
    let heap ← heapStep s.heap (.arena .tempBegin)
    return { s with
      heap
      guards := ⟨s.heap.chain.pos, s.instructions, s.extras⟩ :: s.guards }
  | .guardEnd =>
    match s.guards with
    | [] => .crashed
    | _ :: guards => do
      let heap ← heapStep s.heap (.arena .tempEnd)
      return { s with heap, guards }
  | .alloc size align => do
    let (heap, data) ← s.heap.pushAligned memory (.ofNat size) (.ofNat align)
    let (lo, hi) := data.getD (0, 0)
    return { s with heap := heap.store lo (hi - lo) contents }
  | .pushInstruction inst => do
    let (heap, instructions) ←
      s.instructions.pushBack instructionLayout li memory s.heap inst
    return { s with heap, instructions }
  | .setExtra inst extra => do
    let (heap, instructions) ← s.instructions.update s.heap inst 4 4
      (fun k => (le32 extra).getD k 0) fun i => { i with extra }
    return { s with heap, instructions }
  | .pushExtra byte => do
    let (heap, extras) ← s.extras.pushBack extraLayout le memory s.heap byte
    return { s with heap, extras }

/-- One operation of a run. -/
structure TempMove where
  before : TempState
  op : TempOp
  after : TempState

/-- The system answers as it should. -/
def TempMove.Legal (m : TempMove) : Prop :=
  ∃ memory contents, memory.Fresh m.before.heap.chain.blocks ∧
    tempStep li le memory contents m.before m.op = .returned m.after

/-- The runs from a state. -/
inductive TempRun (s₀ : TempState) : List TempMove → TempState → Prop
  | nil : TempRun s₀ [] s₀
  | snoc {moves : List TempMove} {m : TempMove} :
      TempRun s₀ moves m.before → m.Legal li le → TempRun s₀ (moves ++ [m]) m.after

/-! ### What is to be kept -/

def TempState.chunks (s : TempState) : List ArenaPush :=
  s.instructions.chunks ++ s.extras.chunks

/-- The chunks of both arrays are allocated and lie below the position of the arena, nothing else
that is allocated overlaps them, and the arrays hold what was pushed. -/
structure TempState.Kept (s : TempState) : Prop where
  below : ∀ p ∈ s.chunks, p ∈ s.heap.live ∧ p.pos ≤ s.heap.chain.pos
  apart : ∀ p ∈ s.chunks, ∀ q ∈ s.heap.live, q ≠ p → Disjoint p.range q.range
  instructions : s.instructions.Holds instructionLayout s.heap.bytes
  extras : s.extras.Holds extraLayout s.heap.bytes

/-- A guard that is closed was opened with room for all there is in the arrays now. -/
def TempState.Fits (s : TempState) : TempOp → Prop
  | .guardEnd => ∀ g ∈ s.guards.head?,
      s.instructions.values.length ≤ g.instructions.slots.length ∧
        s.extras.values.length ≤ g.extras.slots.length
  | _ => True

/-! ### The invariant -/

section Since

variable {α : Type} {t : XarLayout α} {h : HeapState} {pos : ℕ} {x₀ x x' : Xar α}

/-- An array `x₀` and what became of it since the arena was at a position: it has the same chunks,
or it has outgrown them and there is a chunk behind the position. -/
def Xar.Since (pos : ℕ) (x₀ x : Xar α) : Prop :=
  (∀ p ∈ x₀.chunks, p.pos ≤ pos) ∧
    ((x.chunks = x₀.chunks ∧ x.slots = x₀.slots) ∨
      x₀.slots.length < x.values.length ∧ ∃ p ∈ x.chunks, pos < p.pos)

theorem Xar.Since.iff (hsince : x₀.Since pos x) (hx : x.Stored t h) :
    (∀ p ∈ x.chunks, p.pos ≤ pos) ↔ x.values.length ≤ x₀.slots.length := by
  obtain ⟨hbefore, ⟨hchunks, hslots⟩ | ⟨hlt, p, hp, hpos⟩⟩ := hsince
  · exact iff_of_true (hchunks ▸ hbefore) (hslots ▸ hx.length_le)
  · exact iff_of_false (fun hall => absurd (hall p hp) (not_le.mpr hpos)) (not_le.mpr hlt)

theorem Xar.Stored.since (hx : x.Stored t h) (hs : h.Sound) : x.Since h.chain.pos x :=
  ⟨fun p hp => hs.apart.inv.pos_le (hx.chunks p hp), Or.inl ⟨rfl, rfl⟩⟩

/-- A new chunk goes behind the position. -/
theorem Xar.Since.push (hsince : x₀.Since pos x) (hgrows : x.Grows h x') {v : α}
    (hvalues : x'.values = x.values ++ [v]) (hpos : pos ≤ h.chain.pos) : x₀.Since pos x' := by
  obtain ⟨hbefore, hsince⟩ := hsince
  have hlength : x'.values.length = x.values.length + 1 := by
    rw [hvalues, List.length_append, List.length_singleton]
  refine ⟨hbefore, ?_⟩
  rcases hgrows with ⟨hchunks, hslots⟩ | ⟨hfull, p, _, hchunks, -, hmoved, -⟩
  · rw [hchunks, hslots]
    exact hsince.imp_right fun ⟨hlt, hp⟩ => ⟨by omega, hp⟩
  · refine Or.inr ⟨?_, p, hchunks ▸ List.mem_append_right _ (List.mem_singleton_self p),
      hpos.trans_lt hmoved⟩
    rcases hsince with ⟨-, hslots⟩ | ⟨hlt, -⟩
    · rw [hlength, hfull, hslots]
      exact Nat.lt_succ_self _
    · omega

end Since

/-- The arrays are stored off each other, and the guards are the last temps that were begun. -/
structure TempState.Inv (outer : List ℕ) (s : TempState) : Prop where
  heap : s.heap.Sound
  instructions : s.instructions.Stored instructionLayout s.heap
  extras : s.extras.Stored extraLayout s.heap
  apart : ∀ p ∈ s.instructions.chunks, ∀ q ∈ s.extras.chunks, Disjoint p.range q.range
  temps : s.heap.temps = s.guards.map TempGuard.pos ++ outer
  guards : ∀ g ∈ s.guards,
    g.instructions.Since g.pos s.instructions ∧ g.extras.Since g.pos s.extras

section Inv

variable {li le} {outer : List ℕ} {s s' : TempState}

theorem TempState.Inv.kept (h : s.Inv outer) : s.Kept where
  below p hp := by
    have hlive : p ∈ s.heap.live :=
      (List.mem_append.mp hp).elim (h.instructions.chunks p) (h.extras.chunks p)
    exact ⟨hlive, h.heap.apart.inv.pos_le hlive⟩
  apart p hp q hq hne := by
    have hlive : p ∈ s.heap.live :=
      (List.mem_append.mp hp).elim (h.instructions.chunks p) (h.extras.chunks p)
    exact h.heap.apart.disjoint_range hlive hq hne.symm
  instructions := h.instructions.holds
  extras := h.extras.holds

/-- The position of an open guard is not behind that of the arena. -/
theorem TempState.Inv.pos_le (h : s.Inv outer) {g : TempGuard} (hg : g ∈ s.guards) :
    g.pos ≤ s.heap.chain.pos := by
  refine (h.heap.nested.temps g.pos ?_).2.1
  rw [h.temps]
  exact List.mem_append_left _ (List.mem_map_of_mem hg)

theorem TempState.Inv.guardBegin (h : s.Inv outer) {heap : HeapState}
    (hstep : heapStep s.heap (.arena .tempBegin) = .returned heap) :
    TempState.Inv outer { s with
      heap
      guards := ⟨s.heap.chain.pos, s.instructions, s.extras⟩ :: s.guards } := by
  obtain ⟨hsound, htemps, hlive, hbytes⟩ := h.heap.tempBegin hstep
  have hkept : ∀ p ∈ s.heap.live, p ∈ heap.live ∧ Set.EqOn heap.bytes s.heap.bytes p.range :=
    fun p hp => ⟨hlive ▸ hp, hbytes ▸ Set.eqOn_refl _ _⟩
  exact
    { heap := hsound
      instructions := h.instructions.frame fun p hp => hkept p (h.instructions.chunks p hp)
      extras := h.extras.frame fun p hp => hkept p (h.extras.chunks p hp)
      apart := h.apart
      temps := by rw [htemps, h.temps, List.map_cons, List.cons_append]
      guards := List.forall_mem_cons.mpr
        ⟨⟨h.instructions.since h.heap, h.extras.since h.heap⟩, h.guards⟩ }

/-- The end of a guard gives up exactly the chunks behind its position. -/
theorem TempState.Inv.guardEnd (h : s.Inv outer) {g : TempGuard} {guards : List TempGuard}
    (hguards : s.guards = g :: guards) {heap : HeapState}
    (hstep : heapStep s.heap (.arena .tempEnd) = .returned heap) :
    (TempState.Kept { s with heap, guards } → s.Fits .guardEnd) ∧
      (s.Fits .guardEnd → TempState.Inv outer { s with heap, guards }) := by
  have htemps := h.temps
  rw [hguards, List.map_cons, List.cons_append] at htemps
  obtain ⟨hsound, htemps', -, hlive, hbytes⟩ := h.heap.tempEnd htemps hstep
  obtain ⟨⟨hinstructions, hextras⟩, hall⟩ := List.forall_mem_cons.mp (hguards ▸ h.guards)
  have hkept : ∀ p ∈ s.heap.live, p.pos ≤ g.pos →
      p ∈ heap.live ∧ Set.EqOn heap.bytes s.heap.bytes p.range := by
    intro p hp hpos
    have hmem : p ∈ heap.live := by
      rw [hlive, List.mem_filter]
      exact ⟨hp, decide_eq_true hpos⟩
    exact ⟨hmem, hbytes p hp⟩
  constructor
  · intro hafter g' hg'
    rw [hguards, List.head?_cons, Option.mem_some_iff] at hg'
    subst hg'
    have hpos : ∀ p ∈ s.chunks, p.pos ≤ g.pos := by
      intro p hp
      have hmem := (hafter.below p hp).1
      rw [hlive, List.mem_filter] at hmem
      exact of_decide_eq_true hmem.2
    exact ⟨(hinstructions.iff h.instructions).mp fun p hp => hpos p (List.mem_append_left _ hp),
      (hextras.iff h.extras).mp fun p hp => hpos p (List.mem_append_right _ hp)⟩
  · intro hfits
    obtain ⟨hfits, hfits'⟩ := hfits g (by rw [hguards]; rfl)
    have hpos := (hinstructions.iff h.instructions).mpr hfits
    have hpos' := (hextras.iff h.extras).mpr hfits'
    exact
      { heap := hsound
        instructions := h.instructions.frame fun p hp =>
          hkept p (h.instructions.chunks p hp) (hpos p hp)
        extras := h.extras.frame fun p hp => hkept p (h.extras.chunks p hp) (hpos' p hp)
        apart := h.apart
        temps := htemps'
        guards := hall }

/-- What is allocated lies off the chunks. -/
theorem TempState.Inv.alloc (h : s.Inv outer) {memory : VirtualMemory}
    (hmemory : memory.Fresh s.heap.chain.blocks) {size align : UInt64} {heap : HeapState}
    {data : Option (ℕ × ℕ)}
    (hpush : s.heap.pushAligned memory size align = .returned (heap, data))
    (contents : ℕ → UInt8) :
    TempState.Inv outer { s with
      heap := heap.store (data.getD (0, 0)).1 ((data.getD (0, 0)).2 - (data.getD (0, 0)).1)
        contents } := by
  obtain ⟨hsound, htemps, hkept, hnew⟩ := h.heap.pushAligned hmemory hpush
  have hstored : ∀ p ∈ s.heap.live, p ∈ heap.live ∧ Set.EqOn
      (heap.store (data.getD (0, 0)).1 ((data.getD (0, 0)).2 - (data.getD (0, 0)).1) contents).bytes
      s.heap.bytes p.range := by
    intro p hp
    refine ⟨(hkept p hp).1, Set.EqOn.trans (Memory.eqOn_write ?_) (hkept p hp).2⟩
    rcases hnew with ⟨rfl, -⟩ | ⟨lo, rfl, -, -, hlive⟩
    · exact Finset.disjoint_empty_left _
    · have hpushed := hsound.apart.apart
      rw [hlive] at hpushed
      rw [Option.getD_some, Nat.add_sub_cancel_left]
      exact (List.pairwise_cons.mp hpushed).1 p hp
  exact
    { heap := hsound.store _ _ _
      instructions := h.instructions.frame fun p hp => hstored p (h.instructions.chunks p hp)
      extras := h.extras.frame fun p hp => hstored p (h.extras.chunks p hp)
      apart := h.apart
      temps := htemps.trans h.temps
      guards := h.guards }

theorem TempState.Inv.pushInstruction (h : s.Inv outer) {memory : VirtualMemory}
    (hmemory : memory.Fresh s.heap.chain.blocks) {inst : Instruction} {heap : HeapState}
    {instructions : Xar Instruction}
    (hpush : s.instructions.pushBack instructionLayout li memory s.heap inst =
      .returned (heap, instructions)) :
    TempState.Inv outer { s with heap, instructions } := by
  obtain ⟨hsound, htemps, hstored, hvalues, hgrows, -⟩ :=
    h.instructions.pushBack h.heap hmemory hpush
  obtain ⟨hother, hapart⟩ :=
    h.instructions.pushBack_other h.extras h.heap hmemory h.apart hpush
  exact
    { heap := hsound
      instructions := hstored
      extras := hother
      apart := hapart
      temps := htemps.trans h.temps
      guards := fun g hg =>
        ⟨(h.guards g hg).1.push hgrows hvalues (h.pos_le hg), (h.guards g hg).2⟩ }

theorem TempState.Inv.pushExtra (h : s.Inv outer) {memory : VirtualMemory}
    (hmemory : memory.Fresh s.heap.chain.blocks) {byte : UInt8} {heap : HeapState}
    {extras : Xar UInt8}
    (hpush : s.extras.pushBack extraLayout le memory s.heap byte = .returned (heap, extras)) :
    TempState.Inv outer { s with heap, extras } := by
  obtain ⟨hsound, htemps, hstored, hvalues, hgrows, -⟩ := h.extras.pushBack h.heap hmemory hpush
  obtain ⟨hother, hapart⟩ := h.extras.pushBack_other h.instructions h.heap hmemory
    (fun p hp q hq => (h.apart q hq p hp).symm) hpush
  exact
    { heap := hsound
      instructions := hother
      extras := hstored
      apart := fun p hp q hq => (hapart q hq p hp).symm
      temps := htemps.trans h.temps
      guards := fun g hg =>
        ⟨(h.guards g hg).1, (h.guards g hg).2.push hgrows hvalues (h.pos_le hg)⟩ }

/-- The extra number of an instruction is its last four bytes. -/
theorem instructionLayout_setExtra (extra : UInt32) (inst : Instruction) (k : ℕ)
    (hk : k < instructionLayout.size) :
    instructionLayout.byte { inst with extra } k =
      if 4 ≤ k ∧ k < 4 + 4 then (le32 extra).getD (k - 4) 0 else instructionLayout.byte inst k := by
  have hsize : instructionLayout.size = 8 := rfl
  match k, hsize ▸ hk with
  | 0, _ | 1, _ | 2, _ | 3, _ | 4, _ | 5, _ | 6, _ | 7, _ => rfl

theorem TempState.Inv.setExtra (h : s.Inv outer) {inst : ℕ} {extra : UInt32} {heap : HeapState}
    {instructions : Xar Instruction}
    (hupdate : s.instructions.update s.heap inst 4 4 (fun k => (le32 extra).getD k 0)
      (fun i => { i with extra }) = .returned (heap, instructions)) :
    TempState.Inv outer { s with heap, instructions } := by
  obtain ⟨hstored, rfl, hheap, hbytes⟩ :=
    h.instructions.update (by decide) (instructionLayout_setExtra extra) hupdate
  have hsound : heap.Sound := ⟨hheap ▸ h.heap.nested, hheap ▸ h.heap.apart⟩
  have hlive : ∀ q ∈ s.heap.live, q ∈ heap.live := fun q hq => hheap ▸ hq
  exact
    { heap := hsound
      instructions := hstored
      extras := h.extras.frame fun q hq => ⟨hlive q (h.extras.chunks q hq),
        hbytes q (h.extras.chunks q hq) fun p hp => h.apart p hp q hq⟩
      apart := h.apart
      temps := (congrArg ArenaState.temps hheap).trans h.temps
      guards := fun g hg => by
        obtain ⟨hsince, hsince'⟩ := h.guards g hg
        refine ⟨?_, hsince'⟩
        rwa [Xar.Since, List.length_modify] }

/-- An operation keeps the invariant if it fits, and only then are the arrays kept. -/
theorem TempState.Inv.step (h : s.Inv outer) {memory : VirtualMemory} {contents : ℕ → UInt8}
    (hmemory : memory.Fresh s.heap.chain.blocks) {op : TempOp}
    (hstep : tempStep li le memory contents s op = .returned s') :
    (s'.Kept → s.Fits op) ∧ (s.Fits op → s'.Inv outer) := by
  cases op with
  | guardBegin =>
    obtain ⟨heap, hheap, hreturn⟩ := Outcome.bind_eq_returned.mp hstep
    obtain rfl := Outcome.returned.inj hreturn
    exact ⟨fun _ => trivial, fun _ => h.guardBegin hheap⟩
  | guardEnd =>
    rw [tempStep] at hstep
    split at hstep
    · cases hstep
    · rename_i g guards hguards
      obtain ⟨heap, hheap, hreturn⟩ := Outcome.bind_eq_returned.mp hstep
      obtain rfl := Outcome.returned.inj hreturn
      exact h.guardEnd hguards hheap
  | alloc size align =>
    obtain ⟨⟨heap, data⟩, hpush, hreturn⟩ := Outcome.bind_eq_returned.mp hstep
    obtain rfl := Outcome.returned.inj hreturn
    exact ⟨fun _ => trivial, fun _ => h.alloc hmemory hpush contents⟩
  | pushInstruction inst =>
    obtain ⟨⟨heap, instructions⟩, hpush, hreturn⟩ := Outcome.bind_eq_returned.mp hstep
    obtain rfl := Outcome.returned.inj hreturn
    exact ⟨fun _ => trivial, fun _ => h.pushInstruction hmemory hpush⟩
  | setExtra inst extra =>
    obtain ⟨⟨heap, instructions⟩, hupdate, hreturn⟩ := Outcome.bind_eq_returned.mp hstep
    obtain rfl := Outcome.returned.inj hreturn
    exact ⟨fun _ => trivial, fun _ => h.setExtra hupdate⟩
  | pushExtra byte =>
    obtain ⟨⟨heap, extras⟩, hpush, hreturn⟩ := Outcome.bind_eq_returned.mp hstep
    obtain rfl := Outcome.returned.inj hreturn
    exact ⟨fun _ => trivial, fun _ => h.pushExtra hmemory hpush⟩

end Inv

/-! ### Runs -/

section Runs

variable {li le} {h : HeapState} {s : TempState} {moves : List TempMove}

theorem TempState.Inv.start (hs : h.Sound) : TempState.Inv h.temps { heap := h } where
  heap := hs
  instructions := ⟨nofun, nofun, .nil, le_rfl, nofun⟩
  extras := ⟨nofun, nofun, .nil, le_rfl, nofun⟩
  apart := nofun
  temps := rfl
  guards := nofun

theorem TempRun.kept_iff_inv (hs : h.Sound) (hrun : TempRun li le { heap := h } moves s) :
    ((∀ m ∈ moves, m.after.Kept) ↔ ∀ m ∈ moves, m.before.Fits m.op) ∧
      ((∀ m ∈ moves, m.before.Fits m.op) → s.Inv h.temps) := by
  induction hrun with
  | nil => exact ⟨iff_of_true nofun nofun, fun _ => .start hs⟩
  | @snoc moves m _ hlegal ih =>
    obtain ⟨ihkept, ihinv⟩ := ih
    obtain ⟨memory, contents, hmemory, hstep⟩ := hlegal
    have hstep : m.before.Inv h.temps →
        (m.after.Kept → m.before.Fits m.op) ∧ (m.before.Fits m.op → m.after.Inv h.temps) :=
      fun hinv => hinv.step hmemory hstep
    simp only [List.forall_mem_append, List.forall_mem_singleton]
    refine ⟨⟨fun ⟨hkept, hlast⟩ => ?_, fun ⟨hfits, hlast⟩ => ?_⟩, fun ⟨hfits, hlast⟩ => ?_⟩
    · have hfits := ihkept.mp hkept
      exact ⟨hfits, (hstep (ihinv hfits)).1 hlast⟩
    · exact ⟨ihkept.mpr hfits, ((hstep (ihinv hfits)).2 hlast).kept⟩
    · exact (hstep (ihinv hfits)).2 hlast

end Runs

end Wasim
