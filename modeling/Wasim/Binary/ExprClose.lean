import Mathlib.Logic.Relation
import Wasim.Binary.Layout

/-!
# When the expression reader terminates

A failed read of an opcode yields zero, which is the opcode `unreachable`, and the loop of
`bin_read_instructions_until` goes on: at the end of the bytes it never leaves. So the reader
terminates exactly on the byte strings in which the expression is closed (`closes`): going
through them instruction by instruction, with a stack of the open constructs, one meets the
`end` of the expression, or an `else` where none may stand (the source aborts there), before
the bytes run out.
-/

namespace Wasim

open BinReadCtx

/-! ### Readers see only the bytes that are left -/

/-- What a reader returns, and how far it goes, is a matter of the bytes that are left. -/
def ReadsRest {α : Type} (read : BinReadCtx → ReadResult α) : Prop :=
  ∀ c c' : BinReadCtx, c.rest = c'.rest →
    (read c).value = (read c').value ∧ (read c).ok = (read c').ok ∧
      (read c).ctx.rest = (read c').ctx.rest

theorem ReadsRest.map {α β : Type} {read : BinReadCtx → ReadResult α} (h : ReadsRest read)
    (f : α → β) : ReadsRest fun c => (read c).map f := by
  intro c c' hc
  obtain ⟨hv, hok, hrest⟩ := h c c' hc
  exact ⟨congrArg f hv, hok, hrest⟩

theorem readsRest_binReadByte : ReadsRest binReadByte := by
  intro c c' hc
  rcases h : c.rest with _ | ⟨b, bs⟩
  · obtain ⟨hv, hok, hr⟩ := binReadByte_nil h
    obtain ⟨hv', hok', hr'⟩ := binReadByte_nil (hc ▸ h)
    exact ⟨by rw [hv, hv'], by rw [hok, hok'], by rw [hr, hr']⟩
  · rw [binReadByte_cons h, binReadByte_cons (hc ▸ h)]
    exact ⟨rfl, rfl, by simp [hc]⟩

theorem readsRest_binReadBytes (n : ℕ) : ReadsRest fun c => binReadBytes c n := by
  intro c c' hc
  have hleft : binReaderDataLeft c = binReaderDataLeft c' := by
    rw [← length_rest, ← length_rest, hc]
  unfold binReadBytes
  dsimp only
  rw [hleft]
  split
  · exact ⟨congrArg (List.take n) hc, rfl, by simp [hc]⟩
  · exact ⟨rfl, rfl, by simpa using hc⟩

theorem readsRest_binReadT (size : ℕ) : ReadsRest fun c => binReadT c size := by
  intro c c' hc
  obtain ⟨hv, hok, hrest⟩ := readsRest_binReadBytes size c c' hc
  exact ⟨by simp only [binReadT, hv, hok], hok, hrest⟩

theorem readsRest_binReadUXXLeb (bits : ℕ) (tName : String) :
    ReadsRest (binReadUXXLeb bits tName) := by
  intro c c' hc
  unfold binReadUXXLeb
  dsimp only
  rw [hc]
  split
  · split
    · split <;> simp [hc]
    · simp [hc]
  · simp [hc]
  · simp [hc]

theorem readsRest_binReadIXXLeb (bits : ℕ) (tName : String) :
    ReadsRest (binReadIXXLeb bits tName) := by
  intro c c' hc
  unfold binReadIXXLeb
  dsimp only
  rw [hc]
  split
  · split
    · split <;> simp [hc]
    · simp [hc]
  · simp [hc]
  · simp [hc]

theorem readsRest_binReadU32Leb : ReadsRest binReadU32Leb :=
  (readsRest_binReadUXXLeb 32 "u32").map _

theorem binReadVecLoop_rest {α : Type} (zero : α) {read : BinReadCtx → ReadResult α}
    (h : ReadsRest read) (n : ℕ) {c c' : BinReadCtx} (hc : c.rest = c'.rest) :
    ∃ r r', binReadVecLoop zero (fun c => .returned (read c)) n c = .returned r ∧
      binReadVecLoop zero (fun c => .returned (read c)) n c' = .returned r' ∧
      r.value = r'.value ∧ r.ok = r'.ok ∧ r.ctx.rest = r'.ctx.rest := by
  induction n generalizing c c' with
  | zero => exact ⟨_, _, rfl, rfl, rfl, rfl, hc⟩
  | succ n ih =>
    obtain ⟨hv, hok, hrest⟩ := h c c' hc
    obtain ⟨r, r', hr, hr', hv', hok', hrest'⟩ := ih hrest
    simp only [binReadVecLoop, Outcome.returned_bind, hok]
    split
    · rw [hr, hr']
      exact ⟨_, _, rfl, rfl, by simp [hv, hv'], by simpa using hok', by simpa using hrest'⟩
    · exact ⟨_, _, rfl, rfl, by simp [hv], rfl, hrest⟩

/-- The vector of labels of a `br_table`: its reader always returns. -/
def binReadLabels (ctx : BinReadCtx) : ReadResult (List UInt32) :=
  match binReadVec 0 (fun c => .returned (binReadU32Leb c)) ctx with
  | .returned r => r
  | .crashed => ⟨[], false, ctx⟩
  | .outOfFuel => ⟨[], false, ctx⟩

theorem binReadVec_labels (c : BinReadCtx) :
    binReadVec 0 (fun c => .returned (binReadU32Leb c)) c = .returned (binReadLabels c) := by
  obtain ⟨r, hr⟩ := binReadVec_returns 0 binReadU32Leb c
  rw [binReadLabels, hr]

theorem readsRest_binReadLabels : ReadsRest binReadLabels := by
  intro c c' hc
  obtain ⟨hv, hok, hrest⟩ := readsRest_binReadU32Leb c c' hc
  rw [binReadLabels, binReadLabels, binReadVec, binReadVec, hok, hv]
  by_cases hsize : (binReadU32Leb c').ok
  · obtain ⟨r, r', hr, hr', h⟩ := binReadVecLoop_rest 0 readsRest_binReadU32Leb
      (binReadU32Leb c').value.toNat hrest
    rw [if_pos hsize, if_pos hsize, hr, hr']
    exact h
  · rw [if_neg hsize, if_neg hsize]
    exact ⟨rfl, rfl, hrest⟩

theorem readsRest_binReadBlockType (ib : BinInstructionBuilder) :
    ReadsRest fun c => (binReadBlockType c ib).1 := by
  intro c c' hc
  obtain ⟨hv, hok, hrest⟩ := readsRest_binReadByte c c' hc
  unfold binReadBlockType
  simp only [hok, hv]
  split
  · split
    · exact ⟨rfl, rfl, hrest⟩
    · unfold binReadValidateEnum
      split
      · exact ⟨rfl, rfl, hrest⟩
      · exact ⟨rfl, rfl, by simpa using hrest⟩
  · exact ⟨rfl, rfl, hrest⟩

/-! ### The scan -/

/-- The bytes behind what a reader reads. -/
def after {α : Type} (read : BinReadCtx → ReadResult α) (bs : List UInt8) : List UInt8 :=
  (read { data := bs }).ctx.rest

/-- A reader succeeds on a byte string. -/
def succeeds {α : Type} (read : BinReadCtx → ReadResult α) (bs : List UInt8) : Bool :=
  (read { data := bs }).ok

def readBlockType (ctx : BinReadCtx) : ReadResult (List ValueType) :=
  (binReadBlockType ctx {}).1

/-- The bytes behind the immediates of an instruction without a body. -/
def skipImmediates (case : SwitchCase) (bs : List UInt8) : List UInt8 :=
  match case with
  | .index => after binReadU32Leb bs
  | .brTable =>
    if succeeds binReadLabels bs then after binReadU32Leb (after binReadLabels bs)
    else after binReadLabels bs
  | .callIndirect =>
    if succeeds binReadU32Leb bs then after binReadByte (after binReadU32Leb bs)
    else after binReadU32Leb bs
  | .memarg =>
    if succeeds binReadU32Leb bs then after binReadU32Leb (after binReadU32Leb bs)
    else after binReadU32Leb bs
  | .memory => after binReadByte bs
  | .i32Const => after binReadI32Leb bs
  | .i64Const => after binReadI64Leb bs
  | .f32Const => after binReadU32 bs
  | .f64Const => after binReadU64 bs
  | _ => bs

/-- A construct whose `end` is still to come. -/
inductive Frame where
  | body
  | thenBranch
  deriving DecidableEq, Repr

/-- The opcodes that close a construct. -/
def Frame.until_ : Frame → List InstructionOpcode
  | body => [Opcode.endOp]
  | thenBranch => [Opcode.endOp, Opcode.elseOp]

theorem length_after_le {α : Type} {read : BinReadCtx → ReadResult α}
    (h : ∀ c, Reports c (read c)) (bs : List UInt8) : (after read bs).length ≤ bs.length := by
  simpa [after, BinReadCtx.rest] using (h { data := bs }).advances.length_rest_le

theorem binReadLabels_reports (c : BinReadCtx) : Reports c (binReadLabels c) :=
  binReadVec_reports (reportsAll_returned binReadU32Leb_reports) _ _ (binReadVec_labels c)

theorem readBlockType_reports (c : BinReadCtx) : Reports c (readBlockType c) :=
  binReadBlockType_reports c {}

theorem length_skipImmediates_le (case : SwitchCase) (bs : List UInt8) :
    (skipImmediates case bs).length ≤ bs.length := by
  have hu32 := length_after_le binReadU32Leb_reports
  have hbyte := length_after_le binReadByte_reports
  have hlabels := length_after_le binReadLabels_reports
  unfold skipImmediates
  split
  · exact hu32 bs
  · split
    · exact (hu32 _).trans (hlabels bs)
    · exact hlabels bs
  · split
    · exact (hbyte _).trans (hu32 bs)
    · exact hu32 bs
  · split
    · exact (hu32 _).trans (hu32 bs)
    · exact hu32 bs
  · exact hbyte bs
  · exact length_after_le binReadI32Leb_reports bs
  · exact length_after_le binReadI64Leb_reports bs
  · exact length_after_le binReadU32_reports bs
  · exact length_after_le binReadU64_reports bs
  · exact le_rfl

/-- The scan: `fs` are the open constructs, the innermost first. The answer is whether the
last of them is closed, or an `else` stands outside the first branch of an `if`, before the
bytes run out. A block type that is not one opens no construct. -/
def closes : List Frame → List UInt8 → Bool
  | [], _ => true
  | _ :: _, [] => false
  | f :: fs, op :: bs =>
    match switchCase op with
    | .endOp => closes fs bs
    | .elseOp =>
      match f with
      | .body => true
      | .thenBranch => closes (.body :: fs) bs
    | .block =>
      have := length_after_le readBlockType_reports bs
      if succeeds readBlockType bs then closes (.body :: f :: fs) (after readBlockType bs)
      else closes (f :: fs) (after readBlockType bs)
    | .ifOp =>
      have := length_after_le readBlockType_reports bs
      if succeeds readBlockType bs then closes (.thenBranch :: f :: fs) (after readBlockType bs)
      else closes (f :: fs) (after readBlockType bs)
    | case =>
      have := length_skipImmediates_le case bs
      closes (f :: fs) (skipImmediates case bs)
termination_by _ bs => bs.length
decreasing_by all_goals simp only [List.length_cons]; omega

/-! ### Turns and the scan -/

theorem ReadsRest.rest_eq {α : Type} {read : BinReadCtx → ReadResult α} (h : ReadsRest read)
    (c : BinReadCtx) : (read c).ctx.rest = after read c.rest :=
  (h c { data := c.rest } rfl).2.2

theorem ReadsRest.ok_eq {α : Type} {read : BinReadCtx → ReadResult α} (h : ReadsRest read)
    (c : BinReadCtx) : (read c).ok = succeeds read c.rest :=
  (h c { data := c.rest } rfl).2.1

/-- The cases of the `switch` that neither open nor close a construct. -/
def SwitchCase.Flat (case : SwitchCase) : Prop :=
  case ≠ .block ∧ case ≠ .ifOp ∧ case ≠ .elseOp ∧ case ≠ .endOp

theorem SwitchCase.flat_or (case : SwitchCase) :
    case.Flat ∨ case = .block ∨ case = .ifOp ∨ case = .elseOp ∨ case = .endOp := by
  cases case <;> simp [Flat]

/-- A turn on an instruction without a body returns, behind its immediates. -/
theorem binReadTurn_skips {op : InstructionOpcode} (h : (switchCase op).Flat)
    (nested : NestedUntil) (inst : ℕ) (st : LoopState) :
    ∃ st', binReadTurn nested op inst st = .returned st' ∧
      st'.ctx.rest = skipImmediates (switchCase op) st.ctx.rest := by
  obtain ⟨hblock, hif, helse, hend⟩ := h
  have hu32 := readsRest_binReadU32Leb
  have hbyte := readsRest_binReadByte
  have hlabels := readsRest_binReadLabels
  unfold binReadTurn skipImmediates
  cases hcase : switchCase op with
  | block => exact absurd hcase hblock
  | ifOp => exact absurd hcase hif
  | elseOp => exact absurd hcase helse
  | endOp => exact absurd hcase hend
  | nothing => exact ⟨_, rfl, rfl⟩
  | invalid => exact ⟨_, rfl, rfl⟩
  | index => exact ⟨_, rfl, hu32.rest_eq _⟩
  | i32Const => exact ⟨_, rfl, (readsRest_binReadIXXLeb 32 "i32").rest_eq _⟩
  | f32Const => exact ⟨_, rfl, ((readsRest_binReadT 4).map _).rest_eq _⟩
  | i64Const =>
    exact ⟨_, rfl, by rw [binStoreConstant_ctx]; exact (readsRest_binReadIXXLeb 64 "i64").rest_eq _⟩
  | f64Const =>
    exact ⟨_, rfl, by rw [binStoreConstant_ctx]; exact ((readsRest_binReadT 8).map _).rest_eq _⟩
  | memory =>
    refine ⟨_, rfl, ?_⟩
    unfold binReadMemory
    dsimp only
    split
    · exact hbyte.rest_eq _
    · exact hbyte.rest_eq _
  | memarg =>
    refine ⟨_, rfl, ?_⟩
    unfold binReadMemarg
    dsimp only
    rw [← hu32.ok_eq, ← hu32.rest_eq, ← hu32.rest_eq]
    split
    · split <;> rfl
    · rfl
  | callIndirect =>
    refine ⟨_, rfl, ?_⟩
    unfold binReadCallIndirect
    dsimp only
    rw [← hu32.ok_eq, ← hu32.rest_eq, ← hbyte.rest_eq]
    split
    · dsimp only
      split <;> rfl
    · rfl
  | brTable =>
    dsimp only
    rw [← hlabels.ok_eq, ← hlabels.rest_eq, ← hu32.rest_eq]
    unfold binReadBrTable
    simp only [binReadVec_labels, Outcome.returned_bind]
    split
    · exact ⟨_, rfl, rfl⟩
    · exact ⟨_, rfl, rfl⟩

/-- The answer `b` of a scan is settled by an outcome: a result `a` hands it on to `k a`, an
abort makes it true, and running out of fuel, if there was `enough` of it, makes it false. -/
def Settles {α : Type} (enough : Prop) (x : Outcome α) (k : α → Bool) (b : Bool) : Prop :=
  match x with
  | .returned a => k a = b
  | .crashed => b = true
  | .outOfFuel => enough → b = false

theorem Settles.bind {α β : Type} {enough : Prop} {x : Outcome α} {f : α → Outcome β}
    {k : α → Bool} {k' : β → Bool} {b : Bool} (hx : Settles enough x k b)
    (hf : ∀ a, x = .returned a → Settles enough (f a) k' (k a)) :
    Settles enough (x >>= f) k' b := by
  cases x with
  | returned a =>
    have hk : k a = b := hx
    rw [Outcome.returned_bind, ← hk]
    exact hf a rfl
  | crashed => exact hx
  | outOfFuel => exact hx

theorem Settles.imp {α : Type} {enough enough' : Prop} {x : Outcome α} {k : α → Bool} {b : Bool}
    (hx : Settles enough x k b) (h : enough' → enough) : Settles enough' x k b := by
  cases x with
  | returned a => exact hx
  | crashed => exact hx
  | outOfFuel => exact fun he => hx (h he)

theorem Settles.of_false {α : Type} {enough enough' : Prop} {x : Outcome α} {k : α → Bool}
    (hx : Settles enough x k false) : Settles enough' x k false := by
  cases x with
  | returned a => exact hx
  | crashed => exact hx
  | outOfFuel => exact fun _ => rfl

/-- The constructs that are open behind a call, by the opcode that ended it: an `else` opens
the second branch of an `if`. -/
def openBehind (breakOpcode : InstructionOpcode) (fs : List Frame) : List Frame :=
  if breakOpcode = Opcode.elseOp then .body :: fs else fs

/-- A scan goes through the bytes as `closes` does; it may differ in what it answers once
everything is closed. -/
structure IsScan (scan : List Frame → List UInt8 → Bool) : Prop where
  nil : ∀ f fs, scan (f :: fs) [] = false
  cons : ∀ f fs op bs, scan (f :: fs) (op :: bs) =
    match switchCase op with
    | .endOp => scan fs bs
    | .elseOp =>
      match f with
      | .body => true
      | .thenBranch => scan (.body :: fs) bs
    | .block =>
      if succeeds readBlockType bs then scan (.body :: f :: fs) (after readBlockType bs)
      else scan (f :: fs) (after readBlockType bs)
    | .ifOp =>
      if succeeds readBlockType bs then scan (.thenBranch :: f :: fs) (after readBlockType bs)
      else scan (f :: fs) (after readBlockType bs)
    | case => scan (f :: fs) (skipImmediates case bs)

theorem isScan_closes : IsScan closes where
  nil f fs := by rw [closes.eq_def]
  cons f fs op bs := by rw [closes.eq_def]

section Scan

variable {scan : List Frame → List UInt8 → Bool} (hscan : IsScan scan)

include hscan

theorem IsScan.of_mem_until {f : Frame} {op : InstructionOpcode} (hop : op ∈ f.until_)
    (fs : List Frame) (bs : List UInt8) :
    scan (openBehind op fs) bs = scan (f :: fs) (op :: bs) := by
  rw [hscan.cons]
  cases f with
  | body =>
    obtain rfl : op = Opcode.endOp := by simpa [Frame.until_] using hop
    rfl
  | thenBranch =>
    have hor : op = Opcode.endOp ∨ op = Opcode.elseOp := by simpa [Frame.until_] using hop
    rcases hor with rfl | rfl <;> rfl

end Scan

theorem binReadBlockType_fst (c : BinReadCtx) (ib : BinInstructionBuilder) :
    (binReadBlockType c ib).1 = readBlockType c := by
  unfold readBlockType binReadBlockType
  dsimp only
  split
  · split <;> rfl
  · rfl

theorem nestedUntil_advances {fuel : ℕ} {c : BinReadCtx} {ib : BinInstructionBuilder}
    {u : List InstructionOpcode} {r : UntilResult} (h : nestedUntil fuel c ib u = .returned r) :
    c.Advances r.ctx := by
  rw [nestedUntil, leaveUntil_map, Outcome.bind_eq_returned] at h
  obtain ⟨r', hr', h⟩ := h
  obtain rfl := Outcome.returned.inj h
  exact binReadInstructionsLoop_advances hr'

theorem nestedUntil_break {fuel : ℕ} {c : BinReadCtx} {ib : BinInstructionBuilder} {f : Frame}
    {r : UntilResult} (h : nestedUntil fuel c ib f.until_ = .returned r) :
    r.breakOpcode ∈ f.until_ ∧ r.ok = true := by
  rw [nestedUntil, leaveUntil_map, Outcome.bind_eq_returned] at h
  obtain ⟨r', hr', h⟩ := h
  obtain rfl := Outcome.returned.inj h
  have hbreak := binReadInstructionsLoop_break (by cases f <;> decide) hr'
  exact hbreak

section Turn

variable {scan : List Frame → List UInt8 → Bool} {fuel : ℕ}
  (hn : ∀ (f : Frame) (fs : List Frame) (c : BinReadCtx) (ib : BinInstructionBuilder),
    Settles (c.rest.length < fuel) (nestedUntil fuel c ib f.until_)
    (fun r => scan (openBehind r.breakOpcode fs) r.ctx.rest) (scan (f :: fs) c.rest))

include hn

theorem binReadBlock_settles (f : Frame) (fs : List Frame) (inst : ℕ) (st : LoopState) :
    Settles (st.ctx.rest.length < fuel) (binReadBlock (nestedUntil fuel) inst st)
      (fun st' => scan (f :: fs) st'.ctx.rest)
      (if succeeds readBlockType st.ctx.rest then
        scan (.body :: f :: fs) (after readBlockType st.ctx.rest)
      else scan (f :: fs) (after readBlockType st.ctx.rest)) := by
  have htype : ReadsRest readBlockType := readsRest_binReadBlockType {}
  have hlen := (readBlockType_reports st.ctx).advances.length_rest_le
  unfold binReadBlock
  dsimp only
  rw [binReadBlockType_fst, ← htype.ok_eq, ← htype.rest_eq]
  split
  · refine ((hn .body (f :: fs) _ _).imp fun h => by omega).bind fun body hbody => ?_
    obtain ⟨hbreak, -⟩ := nestedUntil_break (f := .body) hbody
    obtain hend : body.breakOpcode = Opcode.endOp := by simpa [Frame.until_] using hbreak
    rw [hend]
    rfl
  · rfl

theorem binReadIf_settles (f : Frame) (fs : List Frame) (inst : ℕ) (st : LoopState) :
    Settles (st.ctx.rest.length < fuel) (binReadIf (nestedUntil fuel) inst st)
      (fun st' => scan (f :: fs) st'.ctx.rest)
      (if succeeds readBlockType st.ctx.rest then
        scan (.thenBranch :: f :: fs) (after readBlockType st.ctx.rest)
      else scan (f :: fs) (after readBlockType st.ctx.rest)) := by
  have htype : ReadsRest readBlockType := readsRest_binReadBlockType {}
  have hlen := (readBlockType_reports st.ctx).advances.length_rest_le
  unfold binReadIf
  dsimp only
  rw [binReadBlockType_fst, ← htype.ok_eq, ← htype.rest_eq]
  split
  · refine ((hn .thenBranch (f :: fs) _ _).imp fun h => by omega).bind fun body hbody => ?_
    have hlen' := (nestedUntil_advances hbody).length_rest_le
    rw [if_pos (nestedUntil_break (f := .thenBranch) hbody).2]
    split
    · rename_i helse
      rw [helse]
      refine ((hn .body (f :: fs) _ _).imp fun h => by omega).bind fun els hels => ?_
      obtain ⟨hbreak, -⟩ := nestedUntil_break (f := .body) hels
      obtain hend : els.breakOpcode = Opcode.endOp := by simpa [Frame.until_] using hbreak
      rw [hend]
      rfl
    · rename_i helse
      rw [openBehind, if_neg helse]
      rfl
  · rfl

/-- One turn settles the scan at its opcode. -/
theorem binReadTurn_settles (hscan : IsScan scan) (f : Frame) (fs : List Frame)
    {op : InstructionOpcode} (hop : op ∉ f.until_) (inst : ℕ) (st : LoopState) :
    Settles (st.ctx.rest.length < fuel) (binReadTurn (nestedUntil fuel) op inst st)
      (fun st' => scan (f :: fs) st'.ctx.rest) (scan (f :: fs) (op :: st.ctx.rest)) := by
  rw [hscan.cons]
  rcases (switchCase op).flat_or with hflat | hcase | hcase | hcase | hcase
  · obtain ⟨st', hst', hrest⟩ := binReadTurn_skips hflat (nestedUntil fuel) inst st
    obtain ⟨hblock, hif, helse, hend⟩ := hflat
    rw [hst']
    cases hcase : switchCase op <;> first | contradiction | exact congrArg _ (hcase ▸ hrest)
  · simp only [binReadTurn, hcase]
    exact binReadBlock_settles hn f fs inst st
  · simp only [binReadTurn, hcase]
    exact binReadIf_settles hn f fs inst st
  · obtain rfl : op = Opcode.elseOp := (switchCase_spec op).2.2.2.2.2.2.1.mp hcase
    cases f with
    | body => rfl
    | thenBranch => exact absurd (by decide) hop
  · obtain rfl : op = Opcode.endOp := (switchCase_spec op).2.2.2.2.2.2.2.1.mp hcase
    exact absurd (by cases f <;> decide) hop

end Turn

/-- The loop settles the scan. -/
theorem binReadInstructionsLoop_settles {scan : List Frame → List UInt8 → Bool}
    (hscan : IsScan scan) (fuel : ℕ) (f : Frame) (fs : List Frame)
    (st : LoopState) :
    Settles (st.ctx.rest.length < fuel) (binReadInstructionsLoop fuel f.until_ st)
      (fun r => scan (openBehind r.breakOpcode fs) r.ctx.rest)
      (scan (f :: fs) st.ctx.rest) := by
  induction fuel generalizing f fs st with
  | zero => exact fun h => absurd h (Nat.not_lt_zero _)
  | succ fuel ih =>
    have hn : ∀ (f : Frame) (fs : List Frame) (c : BinReadCtx) (ib : BinInstructionBuilder),
        Settles (c.rest.length < fuel) (nestedUntil fuel c ib f.until_)
          (fun r => scan (openBehind r.breakOpcode fs) r.ctx.rest) (scan (f :: fs) c.rest) := by
      intro f fs c ib
      rw [nestedUntil, leaveUntil_map]
      exact (ih f fs (enterUntil c ib)).bind fun r _ => rfl
    rw [binReadInstructionsLoop]
    dsimp only
    rcases hrest : st.ctx.rest with _ | ⟨op, bs⟩
    · -- the end of the bytes: the turn is the one on `unreachable`, and the bytes stay ended
      obtain ⟨hv, -, hr⟩ := binReadByte_nil hrest
      rw [binReadOpcode, hv, if_neg (by cases f <;> decide)]
      have hturn := ih f fs ⟨(binReadByte st.ctx).ctx, (binIbPush st.ib 0).1, st.anchor⟩
      rw [hr, hscan.nil] at hturn
      rw [hscan.nil]
      exact hturn.of_false
    · rw [binReadOpcode, binReadByte_cons hrest]
      dsimp only
      split
      · rename_i hop
        have hadv : (st.ctx.advance 1).rest = bs := rest_advance_one hrest
        rw [← hscan.of_mem_until hop, ← hadv]
        rfl
      · rename_i hop
        have hadv : (st.ctx.advance 1).rest = bs := rest_advance_one hrest
        have hturn := binReadTurn_settles hn hscan f fs hop st.ib.instructions.length
          ⟨st.ctx.advance 1, (binIbPush st.ib op).1, st.anchor⟩
        dsimp only at hturn
        rw [hadv] at hturn
        refine (hturn.imp fun h => by simpa using h).bind fun st' hst' => ?_
        have hlen := (binReadTurn_advances nestedUntil_advances hst').length_rest_le
        dsimp only at hlen
        rw [hadv] at hlen
        exact (ih f fs st').imp fun h => Nat.lt_of_le_of_lt hlen (by simpa using h)

theorem binReadExpr_ne_outOfFuel_iff (fuel : ℕ) (c : BinReadCtx) :
    binReadExpr fuel c ≠ .outOfFuel ↔
      binReadInstructionsLoop fuel Frame.body.until_ (enterUntil c binExprBuilder) ≠
        .outOfFuel := by
  rw [binReadExpr, binReadInstructionsUntil, leaveUntil_map, Ne, Outcome.bind_eq_outOfFuel,
    Outcome.bind_eq_outOfFuel]
  simp [Frame.until_]

theorem binReadExpr_terminates_iff_closes (c : BinReadCtx) :
    Outcome.Terminates (fun fuel => binReadExpr fuel c) ↔ closes [.body] c.rest = true := by
  have hsettles := fun fuel =>
    binReadInstructionsLoop_settles isScan_closes fuel .body [] (enterUntil c binExprBuilder)
  constructor
  · rintro ⟨fuel, hfuel⟩
    have hs := hsettles fuel
    rw [binReadExpr_ne_outOfFuel_iff] at hfuel
    cases hloop : binReadInstructionsLoop fuel Frame.body.until_ (enterUntil c binExprBuilder) with
    | returned r =>
      have hbreak := (binReadInstructionsLoop_break (by decide) hloop).1
      obtain hend : r.breakOpcode = Opcode.endOp := by simpa [Frame.until_] using hbreak
      rw [hloop] at hs
      rw [← show _ = closes [.body] c.rest from hs]
      dsimp only
      rw [hend, closes.eq_def]
      rfl
    | crashed =>
      rw [hloop] at hs
      exact hs
    | outOfFuel => exact absurd hloop hfuel
  · intro hcloses
    refine ⟨c.rest.length + 1, (binReadExpr_ne_outOfFuel_iff _ c).mpr fun hloop => ?_⟩
    have hs := hsettles (c.rest.length + 1)
    rw [hloop] at hs
    have hfalse : closes [.body] c.rest = false := hs (Nat.lt_succ_self _)
    rw [hcloses] at hfalse
    cases hfalse

/-! ### The turns of a run -/

/-- A turn of the loop, in a call on the construct `frame`, about to read its opcode. -/
structure Turn where
  frame : Frame
  st : LoopState

namespace Turn

def opcode (t : Turn) : InstructionOpcode := (binReadOpcode t.st.ctx).value

/-- The index of the instruction a turn pushes. -/
def inst (t : Turn) : ℕ := t.st.ib.instructions.length

/-- The state in which the `switch` is entered. -/
def start (t : Turn) : LoopState :=
  { t.st with ctx := (binReadOpcode t.st.ctx).ctx, ib := (binIbPush t.st.ib t.opcode).1 }

/-- The builder with which a turn calls the loop on the body of a control instruction. -/
def header (t : Turn) : BinInstructionBuilder :=
  let (blockType, ib) := binReadBlockType t.start.ctx t.start.ib
  let (ib, extra) := binIbPushExtraBlockType ib blockType.value
  ib.setExtra t.inst extra

/-- The turn that comes next: in the same loop, or the first one of a call. -/
inductive Next (t : Turn) : Turn → Prop
  | again {fuel : ℕ} {st : LoopState} (hop : t.opcode ∉ t.frame.until_)
      (h : binReadTurn (nestedUntil fuel) t.opcode t.inst t.start = .returned st) :
      Next t ⟨t.frame, st⟩
  | block (hop : t.opcode ∉ t.frame.until_) (hcase : switchCase t.opcode = .block)
      (hok : (readBlockType t.start.ctx).ok = true) :
      Next t ⟨.body, enterUntil (readBlockType t.start.ctx).ctx t.header⟩
  | ifThen (hop : t.opcode ∉ t.frame.until_) (hcase : switchCase t.opcode = .ifOp)
      (hok : (readBlockType t.start.ctx).ok = true) :
      Next t ⟨.thenBranch, enterUntil (readBlockType t.start.ctx).ctx t.header⟩
  | ifElse {fuel : ℕ} {body : UntilResult} (hop : t.opcode ∉ t.frame.until_)
      (hcase : switchCase t.opcode = .ifOp) (hok : (readBlockType t.start.ctx).ok = true)
      (hbody : nestedUntil fuel (readBlockType t.start.ctx).ctx t.header
        Frame.thenBranch.until_ = .returned body)
      (helse : body.breakOpcode = Opcode.elseOp) :
      Next t ⟨.body, enterUntil body.ctx (binIbPushExtraU32 body.ib (UInt32.ofNat t.inst + 1)).1⟩

/-- A turn leaves its loop, or a byte is consumed before the next turn. -/
def Progresses (t : Turn) : Prop :=
  t.opcode ∈ t.frame.until_ ∨
    ∀ t', t.Next t' → t'.st.ctx.rest.length < t.st.ctx.rest.length

/-- The loop entered by this turn ends. -/
def Ends (t : Turn) : Prop :=
  Outcome.Terminates fun fuel => binReadInstructionsLoop fuel t.frame.until_ t.st

/-- The first turn of a run of the expression reader. -/
def first (c : BinReadCtx) : Turn := ⟨.body, enterUntil c binExprBuilder⟩

end Turn

/-- At the end of the bytes the loop never ends. -/
theorem binReadInstructionsLoop_nil {fuel : ℕ} {f : Frame} {st : LoopState}
    (h : st.ctx.rest = []) : binReadInstructionsLoop fuel f.until_ st = .outOfFuel := by
  induction fuel generalizing st with
  | zero => rfl
  | succ fuel ih =>
    obtain ⟨hv, -, hr⟩ := binReadByte_nil h
    rw [binReadInstructionsLoop]
    dsimp only
    rw [binReadOpcode, hv, if_neg (by cases f <;> decide)]
    exact ih hr

theorem Turn.rest_ne_nil {t : Turn} (h : t.Ends) : t.st.ctx.rest ≠ [] := by
  obtain ⟨fuel, hfuel⟩ := h
  exact fun hnil => hfuel (binReadInstructionsLoop_nil hnil)

theorem Turn.progresses_of_ends {t : Turn} (h : t.Ends) : t.Progresses := by
  refine or_iff_not_imp_left.mpr fun hop t' hnext => ?_
  obtain ⟨b, bs, hrest⟩ := List.exists_cons_of_ne_nil (Turn.rest_ne_nil h)
  have hstart : t.start.ctx.rest.length < t.st.ctx.rest.length := by
    have hbyte : t.start.ctx = t.st.ctx.advance 1 := by
      rw [start, binReadOpcode, binReadByte_cons hrest]
    rw [hbyte, rest_advance_one hrest, hrest, List.length_cons]
    exact Nat.lt_succ_self _
  have htype := (readBlockType_reports t.start.ctx).advances.length_rest_le
  cases hnext with
  | again _ h => exact (binReadTurn_advances nestedUntil_advances h).length_rest_le.trans_lt hstart
  | block => exact htype.trans_lt hstart
  | ifThen => exact htype.trans_lt hstart
  | ifElse _ _ _ hbody =>
    exact ((nestedUntil_advances hbody).length_rest_le.trans htype).trans_lt hstart

theorem Turn.header_eq (t : Turn) :
    (binIbPushExtraBlockType (binReadBlockType t.start.ctx t.start.ib).2
      (readBlockType t.start.ctx).value).1.setExtra t.inst
      (binIbPushExtraBlockType (binReadBlockType t.start.ctx t.start.ib).2
        (readBlockType t.start.ctx).value).2 = t.header := by
  rw [← binReadBlockType_fst t.start.ctx t.start.ib]
  rfl

/-- A turn that does not leave its loop runs the `switch`, then the next turns. -/
theorem Turn.loop_succ {t : Turn} (hop : t.opcode ∉ t.frame.until_) (n : ℕ) :
    binReadInstructionsLoop (n + 1) t.frame.until_ t.st =
      (binReadTurn (nestedUntil n) t.opcode t.inst t.start >>=
        binReadInstructionsLoop n t.frame.until_) := by
  rw [binReadInstructionsLoop]
  exact if_neg hop

/-- A turn whose loop ends: so does the loop of the turn that comes next. -/
theorem Turn.Ends.next {t t' : Turn} (h : t.Ends) (hnext : t.Next t') : t'.Ends := by
  obtain ⟨n, hn⟩ := h
  cases n with
  | zero => exact absurd rfl hn
  | succ n =>
    have hop : t.opcode ∉ t.frame.until_ := by cases hnext <;> assumption
    -- neither the turn nor what follows it runs out of fuel
    dsimp only at hn
    rw [Turn.loop_succ hop, Ne, Outcome.bind_eq_outOfFuel, not_or] at hn
    obtain ⟨hturn, hrest⟩ := hn
    have hnested : ∀ {c ib f}, nestedUntil n c ib (Frame.until_ f) ≠ .outOfFuel →
        (⟨f, enterUntil c ib⟩ : Turn).Ends := by
      intro c ib f hne
      rw [nestedUntil, leaveUntil_map, Ne, Outcome.bind_eq_outOfFuel, not_or] at hne
      exact ⟨n, hne.1⟩
    cases hnext with
    | @again fuel st _ h =>
      have hstable : Outcome.Stable fun k => binReadTurn (nestedUntil k) t.opcode t.inst t.start :=
        fun k => binReadTurn_le (nestedUntil_le k.le_succ) _ _ _
      have hst := hstable.eq (m := n) (n := fuel) hturn (by simp [h])
      exact ⟨n, fun hout => hrest ⟨st, hst.trans h, hout⟩⟩
    | block _ hcase hok =>
      refine hnested (f := .body) fun hout => hturn ?_
      simp only [binReadTurn, hcase, binReadBlock, binReadBlockType_fst, hok, if_true, header_eq]
      exact Outcome.bind_eq_outOfFuel.mpr (.inl hout)
    | ifThen _ hcase hok =>
      refine hnested (f := .thenBranch) fun hout => hturn ?_
      simp only [binReadTurn, hcase, binReadIf, binReadBlockType_fst, hok, if_true, header_eq]
      exact Outcome.bind_eq_outOfFuel.mpr (.inl hout)
    | @ifElse fuel body _ hcase hok hbody helse =>
      refine hnested (f := .body) fun hout => hturn ?_
      simp only [binReadTurn, hcase, binReadIf, binReadBlockType_fst, hok, if_true,
        header_eq] at hturn ⊢
      have hstable : Outcome.Stable fun k => nestedUntil k (readBlockType t.start.ctx).ctx t.header
          Frame.thenBranch.until_ := fun k => nestedUntil_le k.le_succ _ _ _
      have hbody' := hstable.eq (m := n) (n := fuel)
        (fun hout' => hturn (Outcome.bind_eq_outOfFuel.mpr (.inl hout'))) (by simp [hbody])
      rw [hbody] at hbody'
      refine Outcome.bind_eq_outOfFuel.mpr (.inr ⟨body, hbody', ?_⟩)
      rw [if_pos (nestedUntil_break (f := .thenBranch) hbody).2, if_pos helse]
      exact Outcome.bind_eq_outOfFuel.mpr (.inl hout)

/-- **Termination of the expression reader.** It terminates, with every turn it reaches at any
depth of the recursion leaving its loop or consuming a byte, if and only if the expression is
closed before the bytes run out. -/
theorem binReadExpr_terminates_iff (c : BinReadCtx) :
    (Outcome.Terminates (fun fuel => binReadExpr fuel c) ∧
      ∀ t, Relation.ReflTransGen Turn.Next (Turn.first c) t → t.Progresses) ↔
      closes [.body] c.rest = true := by
  rw [← binReadExpr_terminates_iff_closes]
  refine and_iff_left_of_imp fun hterm t hreach => Turn.progresses_of_ends ?_
  induction hreach with
  | refl =>
    obtain ⟨n, hn⟩ := hterm
    exact ⟨n, (binReadExpr_ne_outOfFuel_iff n c).mp hn⟩
  | tail _ hnext ih => exact ih.next hnext

/-- On no bytes at all the reader does not terminate. -/
theorem binReadExpr_not_terminates :
    ¬∀ c : BinReadCtx, Outcome.Terminates (fun fuel => binReadExpr fuel c) ∧
      ∀ t, Relation.ReflTransGen Turn.Next (Turn.first c) t → t.Progresses := by
  intro h
  have hcloses := (binReadExpr_terminates_iff_closes { data := [] }).mp (h { data := [] }).1
  rw [show ({ data := [] } : BinReadCtx).rest = [] from rfl, closes.eq_def] at hcloses
  cases hcloses

end Wasim
