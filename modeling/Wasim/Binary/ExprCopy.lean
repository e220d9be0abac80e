import Wasim.Binary.ExprKept

/-!
# The expression that is copied

When the loop has returned, `bin_read_expr` copies the arrays out of its temp arena, so what it
returns is what their slots hold then (`TempState.expr`). `ExprCopied` says which expressions it
can return for the bytes it starts on: those of a run on the temp arena that does what the log of
the reader says.

If no chunk begins in a nested body, then all guards but that of the outermost call are closed on
chunks that stay, and behind that one nothing is written before the copy. Then the reader returns
what it has pushed (`ExprCopied.eq`).
-/

namespace Wasim

/-! ### What the slots hold -/

/-- The instruction in a slot. -/
def instructionAt (bytes : ℕ → UInt8) (a : ℕ) : Instruction where
  opcode := bytes a
  extra := UInt32.ofNat (LittleEndian.value ((List.range 4).map fun k => bytes (a + (4 + k))))

/-- The arrays as they are copied. -/
def TempState.expr (s : TempState) : Expr where
  instructions := s.instructions.read (instructionAt s.heap.bytes)
  extras := s.extras.read s.heap.bytes

theorem instructionAt_eq {bytes : ℕ → UInt8} {a : ℕ} {inst : Instruction}
    (h : ∀ k < instructionLayout.size, bytes (a + k) = instructionLayout.byte inst k) :
    instructionAt bytes a = inst := by
  have hextra : ((List.range 4).map fun k => bytes (a + (4 + k))) = le32 inst.extra :=
    List.map_congr_left fun k hk => h (4 + k) (Nat.add_lt_add_left (List.mem_range.mp hk) 4)
  have hopcode : bytes a = inst.opcode := h 0 (by decide)
  have hlt : inst.extra.toNat < 256 ^ 4 := inst.extra.toNat_lt
  rw [instructionAt, hextra, hopcode, le32, LittleEndian.value_bytes, Nat.mod_eq_of_lt hlt,
    UInt32.ofNat_toNat]

/-- What the slots hold is copied. -/
theorem TempState.expr_eq {s : TempState}
    (hinstructions : s.instructions.Holds instructionLayout s.heap.bytes)
    (hextras : s.extras.Holds extraLayout s.heap.bytes) :
    s.expr = ⟨s.instructions.values, s.extras.values⟩ := by
  refine congrArg₂ Expr.mk (hinstructions.read fun a inst => instructionAt_eq) ?_
  exact hextras.read fun a b hb => hb 0 (by decide)

variable {li le : ChunkLengths}

/-- The end of a guard writes over no chunk, also where it gives chunks up. -/
theorem TempState.Inv.expr_guardEnd {s s' : TempState} {outer : List ℕ} (hs : s.Inv outer)
    {memory : VirtualMemory} {contents : ℕ → UInt8}
    (hstep : tempStep li le memory contents s .guardEnd = .returned s') :
    s'.expr = ⟨s.instructions.values, s.extras.values⟩ := by
  rw [tempStep] at hstep
  split at hstep
  · cases hstep
  rename_i g guards hguards
  obtain ⟨heap, hheap, hreturn⟩ := Outcome.bind_eq_returned.mp hstep
  obtain rfl := Outcome.returned.inj hreturn
  have htemps := hs.temps
  rw [hguards] at htemps
  obtain ⟨-, -, -, -, hbytes⟩ := hs.heap.tempEnd htemps hheap
  refine TempState.expr_eq (s := { s with heap, guards }) ?_ ?_
  · exact hs.instructions.holds_of_eqOn fun p hp => hbytes p (hs.instructions.chunks p hp)
  · exact hs.extras.holds_of_eqOn fun p hp => hbytes p (hs.extras.chunks p hp)

/-! ### Runs that follow a log -/

/-- An operation without the byte that it pushes. -/
def TempOp.shape : TempOp → TempOp
  | pushExtra _ => pushExtra 0
  | op => op

theorem TempCounts.count_shape (c : TempCounts) (op : TempOp) : c.count op.shape = c.count op := by
  cases op <;> rfl

theorem TempCounts.fits_shape (c : TempCounts) (op : TempOp) :
    c.Fits li le op.shape ↔ c.Fits li le op := by
  cases op <;> exact Iff.rfl

theorem opsFit_shape {c : TempCounts} (ops : List TempOp) :
    OpsFit li le c (ops.map TempOp.shape) ↔ OpsFit li le c ops := by
  induction ops generalizing c with
  | nil => exact Iff.rfl
  | cons op ops ih =>
    rw [List.map_cons, OpsFit, OpsFit, TempCounts.fits_shape, TempCounts.count_shape, ih]

/-- The run does what the log says. The types and labels that go through the arena can be written
over in a chunk that was given up, and then other extra bytes may be pushed. -/
structure Follows (moves : List TempMove) (ops : List TempOp) : Prop where
  shape : moves.map (fun m => m.op.shape) = ops.map TempOp.shape
  ops : (∀ m ∈ moves.dropLast, m.before.Fits m.op) → moves.map TempMove.op = ops

/-- An arena that was new once, and was pushed to and scoped since. -/
def HeapState.Scoped (h : HeapState) : Prop :=
  ∃ (memory : VirtualMemory) (commited reserved : ℕ) (flags : ArenaFlags) (a : Arena),
    memory.Fresh [] ∧ arenaAlloc memory commited reserved flags = .returned a ∧
      ArenaReach (fun _ call => call.Scoped) { chain := ⟨a, []⟩ } h.toArenaState

theorem HeapState.Scoped.sound {h : HeapState} (hh : h.Scoped) : h.Sound := by
  obtain ⟨memory, commited, reserved, flags, a, hmemory, halloc, hreach⟩ := hh
  exact .reach hmemory halloc hreach

variable (li le) in
/-- The expression `e` can be returned by `bin_read_expr` where the bytes `bs` are left to read. -/
def ExprCopied (bs : List UInt8) (e : Expr) : Prop :=
  ∃ (h : HeapState) (c : BinReadCtx) (fuel : ℕ) (r : UntilResult) (moves : List TempMove)
    (s : TempState), h.Scoped ∧ c.rest = bs ∧
      binReadInstructionsUntil fuel c binExprBuilder [Opcode.endOp] = .returned r ∧
      TempRun li le { heap := h } moves s ∧ Follows moves r.ib.ops ∧ e = s.expr

variable (li le) in
/-- The bytes start with an expression, and no chunk begins in a body in it. -/
def ExprFits (bs : List UInt8) : Prop :=
  ∃ is b rest, Encoding.expr is b ∧ bs = b ++ rest ∧ is.Fits li le 1 1

/-- **The expression that is copied.** Where an expression starts, the reader returns its flat form,
if no chunk begins in a body in it. -/
theorem ExprCopied.eq {is : Instrs} {b rest : List UInt8} {e : Expr} (he : Encoding.expr is b)
    (hfits : is.Fits li le 1 1) (hcopied : ExprCopied li le (b ++ rest) e) :
    e = Expr.ofInstrs is := by
  obtain ⟨h, c, fuel, r, moves, s, hh, hrest, hr, hrun, hfollows, rfl⟩ := hcopied
  obtain ⟨fuel', ib, hr', hexpr, hops⟩ := binReadInstructionsUntil_encodes he hrest
  obtain rfl := Outcome.Returns.unique (binReadInstructionsUntil_stable c _ _) ⟨fuel, hr⟩
    ⟨fuel', hr'⟩
  have hlog : (ib.log .guardEnd).ops = ib.ops ++ [.guardEnd] := by
    rw [BinInstructionBuilder.ops, BinInstructionBuilder.log, List.flatMap_append]
    rfl
  have hlogged := (ExprMoment.copy hr').logged
  obtain ⟨hshape, hsame⟩ := hfollows
  dsimp only at hshape hsame hlogged
  rw [BinInstructionBuilder.Logged, hlog, List.foldl_append] at hlogged
  rw [hlog] at hshape hsame
  cases hrun with
  | nil =>
    rw [List.map_append, List.map_nil] at hshape
    exact absurd (List.append_eq_nil_iff.mp hshape.symm).2 (List.cons_ne_nil _ _)
  | @snoc moves m hrun hlegal =>
    -- all guards are closed on chunks that stay, up to that of the outermost call
    rw [List.map_append, List.map_append] at hshape
    obtain ⟨hshape, -⟩ := List.append_inj' hshape rfl
    have hopsFit : OpsFit li le {} (moves.map TempMove.op) := by
      rw [← opsFit_shape, List.map_map]
      exact hshape ▸ (opsFit_shape ib.ops).mpr (hops li le hfits)
    have hall := (hrun.fits (.start h) hopsFit).1
    rw [List.dropLast_concat, List.map_append] at hsame
    obtain ⟨hmoves, hlast⟩ := List.append_inj' (hsame hall) rfl
    have hop : m.op = .guardEnd := List.singleton_inj.mp hlast
    obtain ⟨memory, contents, -, hstep⟩ := hlegal
    rw [hop] at hstep
    have hvalues := hrun.values
    rw [hmoves] at hvalues
    rw [((hrun.kept_iff_inv hh.sound).2 hall).expr_guardEnd hstep, ← hexpr]
    exact congrArg (fun arrays => Expr.mk arrays.1 arrays.2) (hvalues.trans hlogged)

/-- A run on a new page. -/
theorem exprCopied_of_ranTo {c : BinReadCtx} {fuel : ℕ} {r : UntilResult}
    (hr : binReadInstructionsUntil fuel c binExprBuilder [Opcode.endOp] = .returned r)
    {check : TempState → Bool} (hran : ranTo r.ib check = true) :
    ∃ s, ExprCopied instructionChunks extraChunks c.rest s.expr ∧ check s = true := by
  obtain ⟨moves, s, hrun, hmoves, hcheck⟩ := exists_run_of_ranTo hran
  have hscoped : pageHeap.Scoped :=
    ⟨memoryAt 0x10000, _, _, _, _, fresh_memoryAt (by decide) (by decide) (by decide) nofun,
      arenaAlloc_pageArena, .refl⟩
  have hfollows : Follows moves r.ib.ops :=
    ⟨by rw [← hmoves, List.map_map]; rfl, fun _ => hmoves⟩
  exact ⟨s, ⟨pageHeap, c, fuel, r, moves, s, hscoped, rfl, hr, hrun, hfollows, rfl⟩, hcheck⟩

/-- Of the two blocks the second one begins in a chunk that was given up. Instruction 64 is not
copied as it was pushed. -/
theorem exists_exprCopied_ne : ∃ e r, ExprCopied instructionChunks extraChunks twoBlocks.rest e ∧
    binReadExpr 100 twoBlocks = .returned r ∧ e ≠ r.value := by
  obtain ⟨r, hr, hran⟩ : ∃ r,
      binReadInstructionsUntil 100 twoBlocks binExprBuilder [Opcode.endOp] = .returned r ∧
      ranTo r.ib (fun s => s.expr.instructions[64]? ≠ r.ib.instructions[64]?) = true :=
    ⟨_, rfl, by decide +kernel⟩
  obtain ⟨s, hs, hne⟩ := exprCopied_of_ranTo hr hran
  refine ⟨s.expr, ⟨⟨r.ib.instructions, r.ib.extras⟩, false, r.ctx⟩, hs, ?_, fun heq => ?_⟩
  · rw [binReadExpr, hr]
    rfl
  · exact of_decide_eq_true hne (congrArg (fun e : Expr => e.instructions[64]?) heq)

end Wasim
