import Wasim.Binary.ExprArena
import Wasim.Binary.ExprRun

/-!
# The log of the expression reader

Between its guards the reader allocates, pushes to the two arrays, and sets extra numbers. What
these operations keep of a builder, a turn keeps as far as its nested calls do
(`binReadTurn_keeps`).

How long the arrays were when a guard was opened can be read off the log (`TempCounts`). So the log
says whether the arrays have outgrown a chunk when the guard is closed (`OpsFit`).
-/

namespace Wasim

/-! ### Turns -/

/-- What allocations and writes to the arrays keep. -/
structure KeptByWrites (P : BinInstructionBuilder → Prop) : Prop where
  alloc : ∀ {ib : BinInstructionBuilder}, P ib → ∀ size align, P (ib.log (.alloc size align))
  push : ∀ {ib : BinInstructionBuilder}, P ib → ∀ opcode, P (binIbPush ib opcode).1
  setExtra : ∀ {ib : BinInstructionBuilder}, P ib → ∀ inst extra, P (ib.setExtra inst extra)
  pushExtraBytes : ∀ {ib : BinInstructionBuilder}, P ib →
    ∀ bytes, P (binIbPushExtraBytes ib bytes).1

section Keeps

variable {P : BinInstructionBuilder → Prop} (hP : KeptByWrites P) {ib : BinInstructionBuilder}

include hP

theorem binReadBlockType_keeps (h : P ib) (c : BinReadCtx) : P (binReadBlockType c ib).2 := by
  unfold binReadBlockType
  dsimp only
  split
  · split
    · exact h
    · exact hP.alloc h 1 1
  · exact h

theorem binStoreConstant_keeps {st : LoopState} (h : P st.ib) (inst : ℕ)
    (r : ReadResult UInt64) : P (binStoreConstant inst st r).ib := by
  unfold binStoreConstant
  split
  · exact hP.setExtra (hP.pushExtraBytes h _) _ _
  · exact h

theorem binReadMemarg_keeps {st : LoopState} (h : P st.ib) (inst : ℕ) :
    P (binReadMemarg inst st).ib := by
  unfold binReadMemarg
  dsimp only
  split
  · split
    · exact hP.pushExtraBytes (hP.setExtra (hP.pushExtraBytes h _) _ _) _
    · exact h
  · exact h

theorem binReadCallIndirect_keeps {st : LoopState} (h : P st.ib) (inst : ℕ) :
    P (binReadCallIndirect inst st).ib := by
  unfold binReadCallIndirect
  dsimp only
  split
  · exact hP.setExtra h _ _
  · exact hP.setExtra h _ _

theorem binReadBrTable_keeps {st st' : LoopState} (h : P st.ib) {inst : ℕ}
    (hturn : binReadBrTable inst st = .returned st') : P st'.ib := by
  have halloc : P (if (binReadU32Leb st.ctx).ok then
      st.ib.log (.alloc (4 * (binReadU32Leb st.ctx).value.toNat) 4) else st.ib) := by
    split
    · exact hP.alloc h _ _
    · exact h
  obtain ⟨labels, -, hturn⟩ := Outcome.bind_eq_returned.mp hturn
  split at hturn
  · obtain rfl := Outcome.returned.inj hturn
    have hcount := hP.pushExtraBytes halloc (le32 (UInt32.ofNat labels.value.length))
    have hlabels := fun extra =>
      hP.pushExtraBytes (hP.setExtra hcount inst extra) (labels.value.flatMap le32)
    dsimp only
    split
    · exact hP.pushExtraBytes (hlabels _) _
    · exact hlabels _
  · obtain rfl := Outcome.returned.inj hturn
    exact halloc

/-- The builder with which a control instruction calls the loop. -/
theorem header_keeps (h : P ib) (c : BinReadCtx) (inst : ℕ) (types : List ValueType) :
    P ((binIbPushExtraBlockType (binReadBlockType c ib).2 types).1.setExtra inst
      (binIbPushExtraBlockType (binReadBlockType c ib).2 types).2) :=
  hP.setExtra (hP.pushExtraBytes (hP.pushExtraBytes (binReadBlockType_keeps hP h c) _) _) _ _

section Nested

variable {nested : NestedUntil}
  (hn : ∀ {c : BinReadCtx} {ib : BinInstructionBuilder} {u : List InstructionOpcode}
    {r : UntilResult}, P ib → nested c ib u = .returned r → P r.ib)

include hn

theorem binReadBlock_keeps {inst : ℕ} {st st' : LoopState} (h : P st.ib)
    (hturn : binReadBlock nested inst st = .returned st') : P st'.ib := by
  unfold binReadBlock at hturn
  dsimp only at hturn
  split at hturn
  · obtain ⟨body, hbody, hturn⟩ := Outcome.bind_eq_returned.mp hturn
    obtain rfl := Outcome.returned.inj hturn
    exact hP.pushExtraBytes (hn (header_keeps hP h _ _ _) hbody) _
  · obtain rfl := Outcome.returned.inj hturn
    exact binReadBlockType_keeps hP h _

theorem binReadIf_keeps {inst : ℕ} {st st' : LoopState} (h : P st.ib)
    (hturn : binReadIf nested inst st = .returned st') : P st'.ib := by
  unfold binReadIf at hturn
  dsimp only at hturn
  split at hturn
  · obtain ⟨body, hbody, hturn⟩ := Outcome.bind_eq_returned.mp hturn
    have hthen := hP.pushExtraBytes (hn (header_keeps hP h _ _ _) hbody)
      (le32 (UInt32.ofNat inst + 1))
    split at hturn
    · split at hturn
      · obtain ⟨elseBody, helse, hturn⟩ := Outcome.bind_eq_returned.mp hturn
        obtain rfl := Outcome.returned.inj hturn
        exact hP.pushExtraBytes (hn hthen helse) _
      · obtain rfl := Outcome.returned.inj hturn
        exact hP.pushExtraBytes hthen _
    · obtain rfl := Outcome.returned.inj hturn
      exact hthen
  · obtain rfl := Outcome.returned.inj hturn
    exact binReadBlockType_keeps hP h _

theorem binReadTurn_keeps {opcode : InstructionOpcode} {inst : ℕ} {st st' : LoopState}
    (h : P st.ib) (hturn : binReadTurn nested opcode inst st = .returned st') : P st'.ib := by
  unfold binReadTurn at hturn
  split at hturn
  case h_1 => cases hturn
  case h_2 => cases hturn
  case h_4 => exact binReadBlock_keeps hP hn h hturn
  case h_5 => exact binReadIf_keeps hP hn h hturn
  case h_7 => exact binReadBrTable_keeps hP h hturn
  all_goals obtain rfl := Outcome.returned.inj hturn
  · exact h
  · exact hP.setExtra h _ _
  · exact binReadCallIndirect_keeps hP h inst
  · exact binReadMemarg_keeps hP h inst
  · exact h
  · exact hP.setExtra h _ _
  · exact binStoreConstant_keeps hP h inst _
  · exact hP.setExtra h _ _
  · exact binStoreConstant_keeps hP h inst _
  · exact h

end Nested

end Keeps

/-! ### Lengths -/

/-- How long the arrays are, and how long they were when the open guards were opened. -/
structure TempCounts where
  instructions : ℕ := 0
  extras : ℕ := 0
  marks : List (ℕ × ℕ) := []
  deriving DecidableEq, Repr

def TempCounts.count (c : TempCounts) : TempOp → TempCounts
  | .guardBegin => { c with marks := (c.instructions, c.extras) :: c.marks }
  | .guardEnd => { c with marks := c.marks.tail }
  | .alloc _ _ => c
  | .pushInstruction _ => { c with instructions := c.instructions + 1 }
  | .setExtra _ _ => c
  | .pushExtra _ => { c with extras := c.extras + 1 }

variable (li le : ChunkLengths)

/-- A guard is closed before a new chunk has begun. -/
def TempCounts.Fits (c : TempCounts) : TempOp → Prop
  | .guardEnd => ∀ m ∈ c.marks.head?,
      li.Within m.1 (c.instructions - m.1) ∧ le.Within m.2 (c.extras - m.2)
  | _ => True

/-- The operations fit, one after the other. -/
def OpsFit (c : TempCounts) : List TempOp → Prop
  | [] => True
  | op :: ops => c.Fits li le op ∧ OpsFit (c.count op) ops

instance (c : TempCounts) : (op : TempOp) → Decidable (c.Fits li le op)
  | .guardBegin => .isTrue trivial
  | .guardEnd => inferInstanceAs (Decidable (∀ m ∈ c.marks.head?, _))
  | .alloc _ _ => .isTrue trivial
  | .pushInstruction _ => .isTrue trivial
  | .setExtra _ _ => .isTrue trivial
  | .pushExtra _ => .isTrue trivial

instance decidableOpsFit : (c : TempCounts) → (ops : List TempOp) → Decidable (OpsFit li le c ops)
  | _, [] => .isTrue trivial
  | c, op :: ops =>
    have := decidableOpsFit (c.count op) ops
    inferInstanceAs (Decidable (_ ∧ _))

section Fits

variable {li le} {c : TempCounts}

theorem opsFit_append {ops ops' : List TempOp} :
    OpsFit li le c (ops ++ ops') ↔
      OpsFit li le c ops ∧ OpsFit li le (ops.foldl TempCounts.count c) ops' := by
  induction ops generalizing c with
  | nil => exact ⟨fun h => ⟨trivial, h⟩, And.right⟩
  | cons op ops ih => rw [List.cons_append, OpsFit, OpsFit, ih, and_assoc, List.foldl_cons]

theorem opsFit_pushExtra (bytes : List UInt8) : OpsFit li le c (bytes.map .pushExtra) := by
  induction bytes generalizing c with
  | nil => trivial
  | cons b bs ih => exact ⟨trivial, ih⟩

theorem foldl_count_pushExtra (bytes : List UInt8) :
    (bytes.map TempOp.pushExtra).foldl TempCounts.count c =
      { c with extras := c.extras + bytes.length } := by
  induction bytes generalizing c with
  | nil => rfl
  | cons b bs ih =>
    rw [List.map_cons, List.foldl_cons, ih, TempCounts.count, List.length_cons, Nat.add_assoc,
      Nat.add_comm 1]

end Fits

/-- The log of a builder fits, and `marks` are the lengths at its open guards. -/
structure BinInstructionBuilder.Fits (marks : List (ℕ × ℕ)) (ib : BinInstructionBuilder) :
    Prop where
  ops : OpsFit li le {} ib.ops
  counts : ib.ops.foldl TempCounts.count {} = ⟨ib.instructions.length, ib.extras.length, marks⟩

namespace BinInstructionBuilder.Fits

variable {li le} {marks marks' : List (ℕ × ℕ)} {ib ib' : BinInstructionBuilder}

theorem snoc (h : ib.Fits li le marks) {e : TempEvent} (htemp : ib'.temp = ib.temp ++ [e])
    (hfits : OpsFit li le ⟨ib.instructions.length, ib.extras.length, marks⟩ e.ops)
    (hcounts : e.ops.foldl TempCounts.count ⟨ib.instructions.length, ib.extras.length, marks⟩ =
      ⟨ib'.instructions.length, ib'.extras.length, marks'⟩) : ib'.Fits li le marks' := by
  have hops : ib'.ops = ib.ops ++ e.ops := by
    rw [BinInstructionBuilder.ops, htemp, List.flatMap_append, List.flatMap_singleton]
    rfl
  constructor
  · rw [hops, opsFit_append, h.counts]
    exact ⟨h.ops, hfits⟩
  · rw [hops, List.foldl_append, h.counts, hcounts]

theorem writes (marks : List (ℕ × ℕ)) : KeptByWrites (Fits li le marks) where
  alloc h size align := h.snoc (e := .alloc size align) rfl ⟨trivial, trivial⟩ rfl
  push {ib} h opcode := by
    refine h.snoc (e := .pushInstruction { opcode }) rfl ⟨trivial, trivial⟩ ?_
    simp [binIbPush, TempEvent.ops, TempCounts.count]
  setExtra {ib} h inst extra := by
    refine h.snoc (e := .setExtra inst extra) rfl ⟨trivial, trivial⟩ ?_
    simp [BinInstructionBuilder.setExtra, TempEvent.ops, TempCounts.count]
  pushExtraBytes {ib} h bytes := by
    refine h.snoc (e := .pushExtras bytes) rfl (opsFit_pushExtra bytes) ?_
    rw [TempEvent.ops, foldl_count_pushExtra, binIbPushExtraBytes, List.length_append]

theorem enterUntil (h : ib.Fits li le marks) (c : BinReadCtx) :
    (enterUntil c ib).ib.Fits li le ((ib.instructions.length, ib.extras.length) :: marks) :=
  h.snoc (e := .guardBegin) rfl ⟨trivial, trivial⟩ rfl

theorem guardEnd {n k : ℕ} (h : ib.Fits li le ((n, k) :: marks))
    (hli : li.Within n (ib.instructions.length - n)) (hle : le.Within k (ib.extras.length - k)) :
    (ib.log .guardEnd).Fits li le marks := by
  refine h.snoc (e := .guardEnd) rfl ⟨?_, trivial⟩ rfl
  intro m hm
  obtain rfl := Option.mem_some_iff.mp hm
  exact ⟨hli, hle⟩

end BinInstructionBuilder.Fits

end Wasim
