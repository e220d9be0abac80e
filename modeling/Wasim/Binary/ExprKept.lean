import Wasim.Binary.ExprArena
import Wasim.Binary.ExprClose

/-!
# What the expression reader keeps

The log of a builder says how its arrays came about (`ExprMoment.logged`), so at every moment of a
run of `bin_read_expr` the arrays in the temp arena were pushed what the builder has. They are kept
up to that moment exactly as long as no guard is closed over a chunk (`binReadExpr_kept_iff`).

A call of `bin_read_instructions_until` that outgrows a chunk gives up the new one when it returns.
The next block type is written over the instructions in it (`not_binReadExpr_kept`).
-/

namespace Wasim

/-! ### The log -/

/-- What an operation does to the two arrays. -/
def TempOp.apply (arrays : List Instruction × List UInt8) : TempOp →
    List Instruction × List UInt8
  | pushInstruction inst => (arrays.1 ++ [inst], arrays.2)
  | setExtra inst extra => (arrays.1.modify inst fun i => { i with extra }, arrays.2)
  | pushExtra byte => (arrays.1, arrays.2 ++ [byte])
  | _ => arrays

/-- The arrays are what the operations of the log have made of them. -/
def BinInstructionBuilder.Logged (ib : BinInstructionBuilder) : Prop :=
  ib.ops.foldl TempOp.apply ([], []) = (ib.instructions, ib.extras)

theorem foldl_apply_pushExtra (bytes : List UInt8) (arrays : List Instruction × List UInt8) :
    (bytes.map TempOp.pushExtra).foldl TempOp.apply arrays = (arrays.1, arrays.2 ++ bytes) := by
  induction bytes generalizing arrays with
  | nil => simp
  | cons b bs ih => rw [List.map_cons, List.foldl_cons, ih, TempOp.apply, List.append_assoc,
      List.singleton_append]

section Logged

variable {ib ib' : BinInstructionBuilder}

theorem BinInstructionBuilder.Logged.snoc (h : ib.Logged) {e : TempEvent}
    (htemp : ib'.temp = ib.temp ++ [e])
    (hops : e.ops.foldl TempOp.apply (ib.instructions, ib.extras) =
      (ib'.instructions, ib'.extras)) : ib'.Logged := by
  rw [Logged, ops, htemp, List.flatMap_append, List.flatMap_singleton, List.foldl_append,
    ← hops]
  exact congrArg (List.foldl TempOp.apply · e.ops) h

theorem BinInstructionBuilder.Logged.writes : KeptByWrites Logged where
  alloc h _ _ := h.snoc rfl rfl
  push h _ := h.snoc rfl rfl
  setExtra h _ _ := h.snoc rfl rfl
  pushExtraBytes h bytes := h.snoc rfl (foldl_apply_pushExtra bytes _)

theorem BinInstructionBuilder.Logged.enterUntil (h : ib.Logged) (c : BinReadCtx) :
    (enterUntil c ib).ib.Logged := h.snoc (e := .guardBegin) rfl rfl

theorem binReadInstructionsLoop_logged {fuel : ℕ} {u : List InstructionOpcode} {st : LoopState}
    {r : UntilResult} (hst : st.ib.Logged)
    (h : binReadInstructionsLoop fuel u st = .returned r) : r.ib.Logged := by
  induction fuel generalizing u st r with
  | zero => cases h
  | succ fuel ih =>
    rw [binReadInstructionsLoop] at h
    dsimp only at h
    split at h
    · obtain rfl := Outcome.returned.inj h
      exact BinInstructionBuilder.Logged.writes.push hst _
    · obtain ⟨st', hturn, h⟩ := Outcome.bind_eq_returned.mp h
      refine ih (binReadTurn_keeps BinInstructionBuilder.Logged.writes ?_
        (BinInstructionBuilder.Logged.writes.push hst _) hturn) h
      intro c ib v s hib hs
      rw [leaveUntil_map, Outcome.bind_eq_returned] at hs
      obtain ⟨s', hs', hs⟩ := hs
      obtain rfl := Outcome.returned.inj hs
      exact (ih (hib.enterUntil c) hs').snoc (e := .guardEnd) rfl rfl

theorem nestedUntil_logged {fuel : ℕ} {c : BinReadCtx} {u : List InstructionOpcode}
    {r : UntilResult} (hib : ib.Logged) (h : nestedUntil fuel c ib u = .returned r) :
    r.ib.Logged := by
  rw [nestedUntil, leaveUntil_map, Outcome.bind_eq_returned] at h
  obtain ⟨r', hr', h⟩ := h
  obtain rfl := Outcome.returned.inj h
  exact (binReadInstructionsLoop_logged (hib.enterUntil c) hr').snoc (e := .guardEnd) rfl rfl

end Logged

/-! ### The moments of a run -/

/-- The builders of a run of `bin_read_expr`: where a turn reads its opcode, where it enters the
`switch`, and where the arrays are copied. -/
inductive ExprMoment (c : BinReadCtx) : BinInstructionBuilder → Prop
  | turn {t : Turn} : Relation.ReflTransGen Turn.Next (Turn.first c) t → ExprMoment c t.st.ib
  | start {t : Turn} : Relation.ReflTransGen Turn.Next (Turn.first c) t → ExprMoment c t.start.ib
  | copy {fuel : ℕ} {r : UntilResult} :
      binReadInstructionsUntil fuel c binExprBuilder [Opcode.endOp] = .returned r →
      ExprMoment c r.ib

theorem binExprBuilder_logged : binExprBuilder.Logged := rfl

theorem Turn.Next.logged {t t' : Turn} (h : t.st.ib.Logged) (hnext : t.Next t') :
    t'.st.ib.Logged := by
  have hwrites := BinInstructionBuilder.Logged.writes
  have hstart : t.start.ib.Logged := hwrites.push h t.opcode
  have hheader : t.header.Logged := t.header_eq ▸ header_keeps hwrites hstart _ _ _
  cases hnext with
  | again _ hturn => exact binReadTurn_keeps hwrites nestedUntil_logged hstart hturn
  | block => exact hheader.enterUntil _
  | ifThen => exact hheader.enterUntil _
  | ifElse _ _ _ hbody =>
    exact (hwrites.pushExtraBytes (nestedUntil_logged hheader hbody) _).enterUntil _

theorem ExprMoment.logged {c : BinReadCtx} {ib : BinInstructionBuilder} (h : ExprMoment c ib) :
    ib.Logged := by
  have hreach : ∀ {t}, Relation.ReflTransGen Turn.Next (Turn.first c) t → t.st.ib.Logged := by
    intro t ht
    induction ht with
    | refl => exact binExprBuilder_logged.enterUntil c
    | tail _ hnext ih => exact hnext.logged ih
  cases h with
  | turn ht => exact hreach ht
  | start ht => exact BinInstructionBuilder.Logged.writes.push (hreach ht) _
  | @copy fuel r hr => exact @nestedUntil_logged _ fuel c _ r binExprBuilder_logged hr

/-! ### Runs -/

section Runs

variable {li le : ChunkLengths} {memory : VirtualMemory} {s₀ s s' : TempState}
  {moves : List TempMove}

/-- What an operation pushes. -/
theorem tempStep_apply {contents : ℕ → UInt8} {op : TempOp}
    (hstep : tempStep li le memory contents s op = .returned s') :
    (s'.instructions.values, s'.extras.values) =
      op.apply (s.instructions.values, s.extras.values) := by
  cases op with
  | guardBegin =>
    obtain ⟨heap, -, hreturn⟩ := Outcome.bind_eq_returned.mp hstep
    obtain rfl := Outcome.returned.inj hreturn
    rfl
  | guardEnd =>
    rw [tempStep] at hstep
    split at hstep
    · cases hstep
    · obtain ⟨heap, -, hreturn⟩ := Outcome.bind_eq_returned.mp hstep
      obtain rfl := Outcome.returned.inj hreturn
      rfl
  | alloc size align =>
    obtain ⟨⟨heap, data⟩, -, hreturn⟩ := Outcome.bind_eq_returned.mp hstep
    obtain rfl := Outcome.returned.inj hreturn
    rfl
  | pushInstruction inst =>
    obtain ⟨⟨heap, instructions⟩, hpush, hreturn⟩ := Outcome.bind_eq_returned.mp hstep
    obtain rfl := Outcome.returned.inj hreturn
    exact congrArg (·, s.extras.values) (Xar.pushBack_values hpush)
  | setExtra inst extra =>
    obtain ⟨⟨heap, instructions⟩, hupdate, hreturn⟩ := Outcome.bind_eq_returned.mp hstep
    obtain rfl := Outcome.returned.inj hreturn
    exact congrArg (·, s.extras.values) (Xar.update_values hupdate)
  | pushExtra byte =>
    obtain ⟨⟨heap, extras⟩, hpush, hreturn⟩ := Outcome.bind_eq_returned.mp hstep
    obtain rfl := Outcome.returned.inj hreturn
    exact congrArg (s.instructions.values, ·) (Xar.pushBack_values hpush)

theorem TempRun.values (hrun : TempRun li le s₀ moves s) :
    (s.instructions.values, s.extras.values) = (moves.map TempMove.op).foldl TempOp.apply
      (s₀.instructions.values, s₀.extras.values) := by
  induction hrun with
  | nil => rfl
  | snoc _ hlegal ih =>
    obtain ⟨memory, contents, -, hstep⟩ := hlegal
    rw [List.map_append, List.map_singleton, List.foldl_append, ← ih]
    exact tempStep_apply hstep

/-- The counts of a state: the arrays are as long as they say, and have no chunk more than they
need. -/
structure TempState.Counted (li le : ChunkLengths) (c : TempCounts) (s : TempState) : Prop where
  instructions : s.instructions.Chunked li c.instructions
  extras : s.extras.Chunked le c.extras
  guards : List.Forall₂ (fun g m => g.instructions.Chunked li m.1 ∧ g.extras.Chunked le m.2)
    s.guards c.marks

theorem TempState.Counted.start (h : HeapState) : TempState.Counted li le {} { heap := h } :=
  ⟨.empty, .empty, .nil⟩

theorem TempState.Counted.step {c : TempCounts} (hs : s.Counted li le c)
    {contents : ℕ → UInt8} {op : TempOp} (hfits : c.Fits li le op)
    (hstep : tempStep li le memory contents s op = .returned s') :
    s.Fits op ∧ s'.Counted li le (c.count op) := by
  cases op with
  | guardBegin =>
    obtain ⟨heap, -, hreturn⟩ := Outcome.bind_eq_returned.mp hstep
    obtain rfl := Outcome.returned.inj hreturn
    exact ⟨trivial, hs.instructions, hs.extras, .cons ⟨hs.instructions, hs.extras⟩ hs.guards⟩
  | guardEnd =>
    obtain ⟨n, k, marks⟩ := c
    obtain ⟨heap, instructions, extras, guards⟩ := s
    obtain ⟨hinstructions, hextras, hguards⟩ := hs
    dsimp only at hguards
    cases hguards with
    | nil => cases hstep
    | @cons g m guards marks hg hguards =>
      obtain ⟨hwithin, hwithin'⟩ := hfits m rfl
      obtain ⟨heap', -, hreturn⟩ := Outcome.bind_eq_returned.mp hstep
      obtain rfl := Outcome.returned.inj hreturn
      refine ⟨fun g' hg' => ?_, hinstructions, hextras, hguards⟩
      obtain rfl := Option.mem_some_iff.mp hg'
      have hroom := hg.1.within hwithin
      have hroom' := hg.2.within hwithin'
      have hlength := hinstructions.length
      have hlength' := hextras.length
      dsimp only at hroom hroom' hlength hlength' ⊢
      omega
  | alloc size align =>
    obtain ⟨⟨heap, data⟩, -, hreturn⟩ := Outcome.bind_eq_returned.mp hstep
    obtain rfl := Outcome.returned.inj hreturn
    exact ⟨trivial, hs.instructions, hs.extras, hs.guards⟩
  | pushInstruction inst =>
    obtain ⟨⟨heap, instructions⟩, hpush, hreturn⟩ := Outcome.bind_eq_returned.mp hstep
    obtain rfl := Outcome.returned.inj hreturn
    exact ⟨trivial, hs.instructions.pushBack hpush, hs.extras, hs.guards⟩
  | setExtra inst extra =>
    obtain ⟨⟨heap, instructions⟩, hupdate, hreturn⟩ := Outcome.bind_eq_returned.mp hstep
    obtain rfl := Outcome.returned.inj hreturn
    exact ⟨trivial, hs.instructions.update hupdate, hs.extras, hs.guards⟩
  | pushExtra byte =>
    obtain ⟨⟨heap, extras⟩, hpush, hreturn⟩ := Outcome.bind_eq_returned.mp hstep
    obtain rfl := Outcome.returned.inj hreturn
    exact ⟨trivial, hs.instructions, hs.extras.pushBack hpush, hs.guards⟩

/-- A run over operations that fit closes no guard over a chunk. -/
theorem TempRun.fits {c : TempCounts} (hrun : TempRun li le s₀ moves s)
    (hs₀ : s₀.Counted li le c) (hfits : OpsFit li le c (moves.map TempMove.op)) :
    (∀ m ∈ moves, m.before.Fits m.op) ∧
      s.Counted li le ((moves.map TempMove.op).foldl TempCounts.count c) := by
  induction hrun with
  | nil => exact ⟨fun m hm => absurd hm List.not_mem_nil, hs₀⟩
  | @snoc moves m _ hlegal ih =>
    obtain ⟨memory, contents, -, hstep⟩ := hlegal
    rw [List.map_append, List.map_singleton] at hfits ⊢
    obtain ⟨hfits, hlast, -⟩ := opsFit_append.mp hfits
    obtain ⟨hall, hcounted⟩ := ih hfits
    obtain ⟨hm, hafter⟩ := hcounted.step hlast hstep
    rw [List.foldl_append]
    exact ⟨List.forall_mem_append.mpr ⟨hall, List.forall_mem_singleton.mpr hm⟩, hafter⟩

/-- In every run over the operations of a moment, from an arena that was pushed to and scoped: the
chunks are below the position and keep what they hold in all states, if and only if no guard is
closed over a chunk. -/
theorem binReadExpr_kept_iff (li le : ChunkLengths) {memory : VirtualMemory}
    {commited reserved : ℕ} {flags : ArenaFlags} {a : Arena} {h : HeapState}
    (hmemory : memory.Fresh [])
    (halloc : arenaAlloc memory commited reserved flags = .returned a)
    (hreach : ArenaReach (fun _ call => call.Scoped) { chain := ⟨a, []⟩ } h.toArenaState)
    {c : BinReadCtx} {ib : BinInstructionBuilder} (hmoment : ExprMoment c ib)
    {moves : List TempMove} {s : TempState} (hrun : TempRun li le { heap := h } moves s)
    (hops : moves.map TempMove.op <+: ib.ops) :
    ((∀ m ∈ moves, m.after.Kept) ↔ ∀ m ∈ moves, m.before.Fits m.op) ∧
      (moves.length = ib.ops.length →
        s.instructions.values = ib.instructions ∧ s.extras.values = ib.extras) := by
  refine ⟨(hrun.kept_iff_inv (.reach hmemory halloc hreach)).1, fun hlength => ?_⟩
  have hall : moves.map TempMove.op = ib.ops :=
    hops.eq_of_length (by rw [List.length_map, hlength])
  have hvalues := hrun.values
  rw [hall] at hvalues
  exact Prod.mk.inj (hvalues.trans hmoment.logged)

/-- The system gives no more memory. -/
def noMemory : VirtualMemory where
  reserve _ := none
  commit := true

theorem fresh_noMemory (blocks : List Arena) : noMemory.Fresh blocks := nofun

theorem TempRun.cons {m : TempMove} (hlegal : m.Legal li le)
    (hrun : TempRun li le m.after moves s) : TempRun li le m.before (m :: moves) s := by
  induction hrun with
  | nil => exact .snoc .nil hlegal
  | snoc _ hlast ih => exact .snoc ih hlast

/-- A run in the memory there is. -/
theorem exists_tempRun {ops : List TempOp} {contents : ℕ → UInt8}
    (h : ops.foldlM (tempStep li le noMemory contents) s₀ = .returned s) :
    ∃ moves, TempRun li le s₀ moves s ∧ moves.map TempMove.op = ops := by
  induction ops generalizing s₀ with
  | nil =>
    obtain rfl := Outcome.returned.inj h
    exact ⟨[], .nil, rfl⟩
  | cons op ops ih =>
    rw [List.foldlM_cons] at h
    obtain ⟨s₁, hstep, h⟩ := Outcome.bind_eq_returned.mp h
    obtain ⟨moves, hrun, hops⟩ := ih h
    have hlegal : TempMove.Legal li le ⟨s₀, op, s₁⟩ :=
      ⟨noMemory, contents, fresh_noMemory _, hstep⟩
    exact ⟨⟨s₀, op, s₁⟩ :: moves, .cons hlegal hrun, by rw [List.map_cons, hops]⟩

end Runs

/-! ### Two runs -/

/-- The chunks of the array of instructions. -/
def instructionChunks : ChunkLengths :=
  ⟨64 :: (List.range 16).map (64 * 2 ^ ·), by decide⟩

/-- The chunks of the array of extra bytes. -/
def extraChunks : ChunkLengths :=
  ⟨256 :: (List.range 8).map (256 * 2 ^ ·), by decide⟩

/-- A new temp arena. -/
def pageHeap : HeapState where
  chain := ⟨pageArena, []⟩
  bytes _ := 0

/-- What an operation of a run leads to, if it is returned. -/
def ranTo (ib : BinInstructionBuilder) (check : TempState → Bool) : Bool :=
  match ib.ops.foldlM (tempStep instructionChunks extraChunks noMemory fun _ => 0x7F)
    { heap := pageHeap } with
  | .returned s => check s
  | .crashed => false
  | .outOfFuel => false

theorem exists_run_of_ranTo {ib : BinInstructionBuilder} {check : TempState → Bool}
    (h : ranTo ib check = true) :
    ∃ moves s, TempRun instructionChunks extraChunks { heap := pageHeap } moves s ∧
      moves.map TempMove.op = ib.ops ∧ check s = true := by
  rw [ranTo] at h
  split at h
  · rename_i s hs
    obtain ⟨moves, hrun, hops⟩ := exists_tempRun hs
    exact ⟨moves, s, hrun, hops, h⟩
  · cases h
  · cases h

/-- A block with a `nop`. -/
def oneBlock : BinReadCtx where
  data := [0x02, 0x40, 0x01, 0x0B, 0x0B]

/-- The guards of the block and of the expression are closed in the first chunks. -/
theorem binReadExpr_kept_iff_oneBlock :
    ∃ moves s, TempRun instructionChunks extraChunks { heap := pageHeap } moves s ∧
      (moves.map TempMove.op).count .guardEnd = 2 ∧ (∀ m ∈ moves, m.after.Kept) ∧
      s.instructions.values = [{}, ⟨0x02, 1⟩, ⟨0x01, 0⟩, ⟨0x0B, 0⟩, ⟨0x0B, 0⟩] ∧
      s.extras.values = [0, 0, 2, 0, 0, 0] := by
  obtain ⟨r, hr, hran, hfits, hends, hinstructions, hextras⟩ : ∃ r,
      binReadInstructionsUntil 10 oneBlock binExprBuilder [Opcode.endOp] = .returned r ∧
      ranTo r.ib (fun _ => true) = true ∧ OpsFit instructionChunks extraChunks {} r.ib.ops ∧
      r.ib.ops.count .guardEnd = 2 ∧
      r.ib.instructions = [{}, ⟨0x02, 1⟩, ⟨0x01, 0⟩, ⟨0x0B, 0⟩, ⟨0x0B, 0⟩] ∧
      r.ib.extras = [0, 0, 2, 0, 0, 0] :=
    ⟨_, rfl, by decide +kernel, by decide +kernel, by decide, by decide, by decide⟩
  obtain ⟨moves, s, hrun, hmoves, -⟩ := exists_run_of_ranTo hran
  have hmemory : (memoryAt 0x10000).Fresh [] :=
    fresh_memoryAt (by decide) (by decide) (by decide) nofun
  have hreach : ArenaReach (fun _ call => call.Scoped) { chain := ⟨pageArena, []⟩ }
    pageHeap.toArenaState := .refl
  obtain ⟨hiff, hvalues⟩ := binReadExpr_kept_iff instructionChunks extraChunks hmemory
    arenaAlloc_pageArena hreach (.copy hr) hrun (hmoves ▸ List.prefix_refl _)
  obtain ⟨hvalues, hvalues'⟩ := hvalues (by rw [← hmoves, List.length_map])
  rw [← hmoves] at hfits hends
  exact ⟨moves, s, hrun, hends, hiff.mpr (hrun.fits (.start pageHeap) hfits).1,
    hvalues.trans hinstructions, hvalues'.trans hextras⟩

/-- A block with 62 times `nop`, and a block of type `i32` behind it. -/
def twoBlocks : BinReadCtx where
  data := [0x02, 0x40] ++ List.replicate 62 0x01 ++ [0x0B, 0x02, 0x7F, 0x41, 0x00, 0x0B, 0x0B]

/-- Instruction 64 was pushed as an `end`, and its slot does not hold that opcode any more. -/
def lostEnd (s : TempState) : Bool :=
  s.instructions.values[64]? = some { opcode := Opcode.endOp } &&
    s.instructions.slots[64]?.all fun a => s.heap.bytes a ≠ Opcode.endOp

theorem not_holds_of_lostEnd {s : TempState} (h : lostEnd s = true) :
    ¬s.instructions.Holds instructionLayout s.heap.bytes := by
  intro hholds
  rw [lostEnd, Bool.and_eq_true, decide_eq_true_iff] at h
  obtain ⟨hvalue, hslot⟩ := h
  obtain ⟨a, ha, hbytes⟩ := hholds 64 _ hvalue
  rw [ha, Option.all_some, decide_eq_true_iff] at hslot
  exact hslot (hbytes 0 (by decide))

/-- The `end` of the first block is the first instruction of the second chunk. The type of the
second block is written over it. -/
theorem not_binReadExpr_kept :
    ∃ ib moves s, ExprMoment twoBlocks ib ∧
      TempRun instructionChunks extraChunks { heap := pageHeap } moves s ∧
      moves.map TempMove.op = ib.ops ∧ ¬∀ m ∈ moves, m.after.Kept := by
  have h : (match binReadInstructionsUntil 100 twoBlocks binExprBuilder [Opcode.endOp] with
    | .returned r => ranTo r.ib lostEnd
    | .crashed => false
    | .outOfFuel => false) = true := by decide +kernel
  split at h
  · rename_i r hr
    obtain ⟨moves, s, hrun, hops, hlost⟩ := exists_run_of_ranTo h
    refine ⟨r.ib, moves, s, .copy hr, hrun, hops, fun hkept => not_holds_of_lostEnd hlost ?_⟩
    cases hrun with
    | nil =>
      -- nothing was pushed yet
      exact nofun
    | snoc _ _ =>
      exact (hkept _ (List.mem_append_right _ (List.mem_singleton_self _))).instructions
  · cases h
  · cases h

end Wasim
