import Wasim.Binary.Sections
import Wasim.Binary.ExprSound

/-!
# The two channels of failure

A reader tells its caller of a failure by `ok`, and the user by a diagnostic. `Honest` says
that the two agree. Every reader without an expression is honest (`Reports`). The named result
`ok` of `bin_read_expr` is never assigned, and the one of `bin_read_instructions_until` is
overwritten by each turn, so the readers that go through them are honest on part of their
inputs only: `Reader.ok_eq_false_iff_pushed` says on which, for every reader of the decoder at once.
-/

namespace Wasim

open BinReadCtx

/-- `ok = false` exactly when the call pushed a diagnostic. -/
def Honest {α : Type} (c : BinReadCtx) (r : ReadResult α) : Prop :=
  r.ok = false ↔ c.diags.length < r.ctx.diags.length

theorem pushed_iff {c d : BinReadCtx} (h : c.diags <+: d.diags) :
    c.diags.length < d.diags.length ↔ d.diags ≠ c.diags := by
  rw [lt_iff_not_ge]
  exact not_congr ⟨fun hle => (h.eq_of_length_le hle).symm, fun heq => heq ▸ le_rfl⟩

theorem Reports.honest {α : Type} {c : BinReadCtx} {r : ReadResult α} (h : Reports c r) :
    Honest c r := by
  rw [Honest, pushed_iff h.advances.diags, ← Bool.not_eq_true, h.ok_iff]

/-! ### Entries that end in an expression -/

/-- A reader that reads a head and then an expression, and so never returns `ok`: nothing
behind the expression is read. -/
def EndsInExpr {α β : Type} (fuel : ℕ) (head : BinReadCtx → ReadResult β)
    (parse : BinReadCtx → Outcome (ReadResult α)) : Prop :=
  ∀ c r, parse c = .returned r → r.ok = false ∧
    ((head c).ok = false ∧ r.ctx = (head c).ctx ∨
      (head c).ok = true ∧ ∃ x, binReadExpr fuel (head c).ctx = .returned x ∧ r.ctx = x.ctx)

theorem binReadExpr_ok {fuel : ℕ} {c : BinReadCtx} {r : ReadResult Expr}
    (h : binReadExpr fuel c = .returned r) : r.ok = false := by
  rw [binReadExpr, Outcome.bind_eq_returned] at h
  obtain ⟨x, -, h⟩ := h
  obtain rfl := Outcome.returned.inj h
  rfl

theorem binReadExpr_advances {fuel : ℕ} {c : BinReadCtx} {r : ReadResult Expr}
    (h : binReadExpr fuel c = .returned r) : c.Advances r.ctx := by
  rw [binReadExpr, Outcome.bind_eq_returned] at h
  obtain ⟨x, hx, h⟩ := h
  obtain rfl := Outcome.returned.inj h
  exact nestedUntil_advances hx

section EndsInExpr

variable {α β : Type} {fuel : ℕ} {head : BinReadCtx → ReadResult β}
  {parse : BinReadCtx → Outcome (ReadResult α)} (h : EndsInExpr fuel head parse)
  (hhead : ∀ c, Reports c (head c))

include h hhead

theorem EndsInExpr.diags {c : BinReadCtx} {r : ReadResult α} (hr : parse c = .returned r) :
    c.diags <+: r.ctx.diags := by
  have hadv := (hhead c).advances.diags
  obtain ⟨-, ⟨-, hctx⟩ | ⟨-, x, hx, hctx⟩⟩ := h c r hr
  · rwa [hctx]
  · rw [hctx]
    exact hadv.trans (binReadExpr_advances hx).diags

/-- Such a reader is honest unless the expression is there, and well formed. -/
theorem EndsInExpr.honest_iff {c : BinReadCtx} {r : ReadResult α} (hr : parse c = .returned r) :
    Honest c r ↔ ¬((head c).ok = true ∧ StartsWithExpr (head c).ctx.rest) := by
  have hd := h.diags hhead hr
  obtain ⟨hok, ⟨hhok, hctx⟩ | ⟨hhok, x, hx, hctx⟩⟩ := h c r hr
  · have hne : (head c).ctx.diags ≠ c.diags := by
      rw [Ne, ← (hhead c).ok_iff, hhok]
      exact Bool.false_ne_true
    rw [Honest, pushed_iff hd, hctx]
    simp [hok, hne, hhok]
  · have hq := (hhead c).ok_iff.mp hhok
    have hiff := binReadExpr_quiet_iff hx
    rw [hq] at hiff
    rw [Honest, pushed_iff hd, hctx]
    simp [hok, hhok, hiff]

/-- A vector of such entries stops at the first. -/
theorem EndsInExpr.vec_honest_iff {zero : α} {c : BinReadCtx} {r : ReadResult (List α)}
    (hr : binReadVec zero parse c = .returned r) :
    Honest c r ↔ ¬((binReadU32Leb c).ok = true ∧ (binReadU32Leb c).value ≠ 0 ∧
      (head (binReadU32Leb c).ctx).ok = true ∧
      StartsWithExpr (head (binReadU32Leb c).ctx).ctx.rest) := by
  have hsize := binReadU32Leb_reports c
  unfold binReadVec at hr
  dsimp only at hr
  by_cases hok : (binReadU32Leb c).ok = true
  · have hq := hsize.ok_iff.mp hok
    rw [if_pos hok] at hr
    rcases hn : (binReadU32Leb c).value.toNat with _ | n
    · have hzero : (binReadU32Leb c).value = 0 := UInt32.toNat_inj.mp hn
      rw [hn] at hr
      obtain rfl := Outcome.returned.inj hr
      simp [Honest, hq, hzero]
    · have hpos : (binReadU32Leb c).value ≠ 0 := fun hz => by simp [hz] at hn
      rw [hn, binReadVecLoop, Outcome.bind_eq_returned] at hr
      obtain ⟨entry, hentry, hr⟩ := hr
      have hiff := h.honest_iff hhead hentry
      have heok := (h _ _ hentry).1
      rw [heok, if_neg Bool.false_ne_true] at hr
      obtain rfl := Outcome.returned.inj hr
      rw [Honest, hq, heok] at hiff
      rw [Honest, and_iff_right hok, and_iff_right hpos]
      exact hiff
  · rw [if_neg hok] at hr
    obtain rfl := Outcome.returned.inj hr
    have hhonest := (hsize.fail (by simpa using hok) ([] : List α)).honest
    simp [hok, hhonest]

end EndsInExpr

theorem ReadResult.thenProc_eq_returned {α : Type} {r : ReadResult α}
    {f : α → BinReadCtx → Outcome (ReadResult α)} {s : ReadResult α} :
    r.thenProc f = .returned s ↔
      r.ok = true ∧ f r.value r.ctx = .returned s ∨ r.ok = false ∧ r = s := by
  unfold ReadResult.thenProc
  by_cases hok : r.ok = true
  · simp [hok]
  · simp [hok]

/-- What `bin_read_global` reads before the expression. -/
def globalHead (c : BinReadCtx) : ReadResult Global :=
  ((binReadValueType c).map fun type => ({ type := type } : Global)).andThen fun global c =>
    (binReadB8 c).map fun mutable => { global with mutable := mutable }

theorem globalHead_reports (c : BinReadCtx) : Reports c (globalHead c) :=
  ((binReadValueType_reports c).map _).andThen fun _ _ => (binReadB8_reports _).map _

theorem endsInExpr_global (fuel : ℕ) : EndsInExpr fuel globalHead (binReadGlobal fuel) := by
  intro c r hr
  rcases ReadResult.thenProc_eq_returned.mp hr with ⟨hok, h⟩ | ⟨hok, rfl⟩
  · rw [Outcome.bind_eq_returned] at h
    obtain ⟨x, hx, h⟩ := h
    obtain rfl := Outcome.returned.inj h
    exact ⟨binReadExpr_ok hx, .inr ⟨hok, x, hx, rfl⟩⟩
  · exact ⟨hok, .inl ⟨hok, rfl⟩⟩

/-- An index and an expression, and then more: the rest is never reached. -/
theorem endsInExpr_indexed {α : Type} (fuel : ℕ) {mk : UInt32 → α} {set : α → Expr → α}
    {more : α → BinReadCtx → Outcome (ReadResult α)} :
    EndsInExpr fuel binReadU32Leb (fun c => do
      let entry ← ((binReadU32Leb c).map mk).thenProc fun entry c => do
        let expr ← binReadExpr fuel c
        return expr.map (set entry)
      entry.thenProc more) := by
  intro c r hr
  rw [Outcome.bind_eq_returned] at hr
  obtain ⟨entry, hentry, hr⟩ := hr
  rcases ReadResult.thenProc_eq_returned.mp hentry with ⟨hok, h⟩ | ⟨hok, rfl⟩
  · rw [Outcome.bind_eq_returned] at h
    obtain ⟨x, hx, h⟩ := h
    obtain rfl := Outcome.returned.inj h
    have hxok : (x.map (set ((binReadU32Leb c).map mk).value)).ok = false := binReadExpr_ok hx
    rcases ReadResult.thenProc_eq_returned.mp hr with ⟨hok', -⟩ | ⟨-, rfl⟩
    · rw [hxok] at hok'
      cases hok'
    · exact ⟨hxok, .inr ⟨hok, x, hx, rfl⟩⟩
  · rcases ReadResult.thenProc_eq_returned.mp hr with ⟨hok', -⟩ | ⟨-, rfl⟩
    · rw [hok] at hok'
      cases hok'
    · exact ⟨hok, .inl ⟨hok, rfl⟩⟩

theorem endsInExpr_element (fuel : ℕ) : EndsInExpr fuel binReadU32Leb (binReadElement fuel) :=
  endsInExpr_indexed fuel

theorem endsInExpr_data (fuel : ℕ) : EndsInExpr fuel binReadU32Leb (binReadData fuel) :=
  endsInExpr_indexed fuel

/-- What `bin_read_code` reads before the expression. -/
def codeHead (c : BinReadCtx) : ReadResult (List Local) :=
  match binReadVec {} (fun c => .returned (binReadLocal c)) c with
  | .returned r => r
  | .crashed => ⟨[], false, c⟩
  | .outOfFuel => ⟨[], false, c⟩

theorem binReadVec_locals (c : BinReadCtx) :
    binReadVec {} (fun c => .returned (binReadLocal c)) c = .returned (codeHead c) := by
  obtain ⟨r, hr⟩ := binReadVec_returns {} binReadLocal c
  rw [codeHead, hr]

theorem codeHead_reports (c : BinReadCtx) : Reports c (codeHead c) :=
  binReadVec_reports (reportsAll_returned binReadLocal_reports) _ _ (binReadVec_locals c)

/-! ### The heads in terms of the format -/

/-- A reader that is complete and sound for `E` succeeds exactly on the encodings of `E`. -/
theorem ok_and_iff {α : Type} {E : Encoding α} {read : BinReadCtx → ReadResult α}
    (hreads : Reads E read) (haccepts : Accepts E read) (c : BinReadCtx)
    (P : α → List UInt8 → Prop) :
    ((read c).ok = true ∧ P (read c).value (read c).ctx.rest) ↔
      ∃ a bs rest, E a bs ∧ c.rest = bs ++ rest ∧ P a rest := by
  constructor
  · rintro ⟨hok, hp⟩
    obtain ⟨bs, rest, hrest, he, hctx⟩ := haccepts hok
    rw [hctx, rest_advance_of_eq hrest] at hp
    exact ⟨_, bs, rest, he, hrest, hp⟩
  · rintro ⟨a, bs, rest, he, hrest, hp⟩
    rw [hreads he hrest, rest_advance_of_eq hrest]
    exact ⟨rfl, hp⟩

/-- The type and the mutability of a global. -/
def Encoding.globalHead : Encoding Global := fun g bs =>
  g.type ≠ .unset ∧ bs = [g.type.toByte, g.mutable] ∧ g.expr = {}

theorem globalHead_reads : Reads Encoding.globalHead globalHead := by
  rintro ⟨m, t, e⟩ bs ⟨ht, rfl, rfl⟩ c rest hrest
  have htype := binReadValueType_reads (c := c) (r := m :: rest) ⟨ht, rfl⟩ hrest
  have hmut := binReadB8_reads (c := c.advance 1) (r := rest) (a := m) rfl
    (rest_advance_one (b := t.toByte) hrest)
  rw [globalHead, htype]
  simp only [ReadResult.andThen, ReadResult.map, if_true, List.length_singleton] at hmut ⊢
  rw [hmut]
  simp

theorem globalHead_accepts : Accepts Encoding.globalHead globalHead := by
  intro c hok
  by_cases htype : (binReadValueType c).ok = true
  · have hhead : globalHead c = (binReadB8 (binReadValueType c).ctx).map fun m =>
        { mutable := m, type := (binReadValueType c).value } := if_pos htype
    rw [hhead] at hok ⊢
    obtain ⟨bs, rest, hrest, ⟨hne, rfl⟩, hctx⟩ := binReadValueType_accepts htype
    obtain ⟨ms, rest', hrest', rfl, hctx'⟩ := binReadB8_accepts hok
    rw [show (binReadValueType c).ctx.rest = rest by rw [hctx, rest_advance_of_eq hrest]] at hrest'
    refine ⟨[_, _], rest', by rw [hrest, hrest']; rfl, ⟨hne, rfl, rfl⟩, ?_⟩
    rw [ReadResult.map_ctx, hctx', hctx, advance_advance]
    rfl
  · have hhead : globalHead c = (binReadValueType c).map fun t => { type := t } := if_neg htype
    rw [hhead] at hok
    exact absurd hok htype

theorem binReadLocal_reads : Reads Encoding.locals binReadLocal := by
  rintro ⟨t, n⟩ bs ⟨ns, ts, hn, ht, rfl⟩ c rest hrest
  rw [List.append_assoc] at hrest
  have hcount := binReadU32Leb_reads hn hrest
  have htype := binReadValueType_reads ht (rest_advance_of_eq hrest)
  unfold binReadLocal
  simp only [hcount, htype, if_true, ReadResult.map, advance_advance, List.length_append]

theorem binReadLocal_accepts : Accepts Encoding.locals binReadLocal := by
  intro c hok
  unfold binReadLocal at hok ⊢
  dsimp only at hok ⊢
  by_cases hcount : (binReadU32Leb c).ok = true
  · rw [if_pos hcount] at hok ⊢
    obtain ⟨ns, rest, hrest, hn, hctx⟩ := binReadU32Leb_accepts hcount
    obtain ⟨ts, rest', hrest', ht, hctx'⟩ := binReadValueType_accepts hok
    rw [hctx, rest_advance_of_eq hrest] at hrest'
    refine ⟨ns ++ ts, rest', by rw [hrest, hrest', List.append_assoc], ⟨ns, ts, hn, ht, rfl⟩, ?_⟩
    rw [ReadResult.map_ctx, hctx', hctx, advance_advance, List.length_append]
  · rw [if_neg hcount] at hok
    cases hok

theorem codeHead_reads : Reads (Encoding.vec Encoding.locals) codeHead := by
  intro ls bs hls c rest hrest
  have h := binReadVec_reads {} binReadLocal_reads.proc hls hrest
  rw [binReadVec_locals] at h
  exact Outcome.returned.inj h

theorem codeHead_accepts : Accepts (Encoding.vec Encoding.locals) codeHead := by
  intro c hok
  exact binReadVec_accepts binReadLocal_accepts.proc (binReadVec_locals c) hok

/-! ### All readers -/

/-- The readers of a single entry. -/
inductive EntryReader : Type → Type 1
  | bytes (count : ℕ) : EntryReader (List UInt8)
  | t (size : ℕ) : EntryReader ℕ
  | u32 : EntryReader UInt32
  | u64 : EntryReader UInt64
  | byte : EntryReader UInt8
  | uXXLeb (bits : ℕ) (tName : String) : EntryReader ℕ
  | iXXLeb (bits : ℕ) (tName : String) : EntryReader ℤ
  | u32Leb : EntryReader UInt32
  | i32Leb : EntryReader ℤ
  | u64Leb : EntryReader UInt64
  | i64Leb : EntryReader ℤ
  | validateEnum {T : Type} (E : ByteEnum T) (tName : String) (anchor : ℕ) (input : UInt8) :
      EntryReader T
  | byteAsEnum {T : Type} (E : ByteEnum T) (tName : String) : EntryReader T
  | name : EntryReader (List UInt8)
  | limits : EntryReader Limits
  | valueType : EntryReader ValueType
  | funcType : EntryReader FunctionType
  | elementType : EntryReader ElementType
  | tableType : EntryReader TableType
  | globalType : EntryReader GlobalType
  | imp : EntryReader Import
  | global : EntryReader Global
  | exp : EntryReader Export
  | element : EntryReader Element
  | codeStructure : EntryReader BinCode
  | locals : EntryReader Local
  | data : EntryReader Data
  | blockType (ib : BinInstructionBuilder) : EntryReader (List ValueType)
  | opcode : EntryReader InstructionOpcode
  | expr : EntryReader Expr

def EntryReader.run {α : Type} (p : EntryReader α) (fuel : ℕ) (c : BinReadCtx) :
    Outcome (ReadResult α) :=
  match p with
  | bytes count => .returned (binReadBytes c count)
  | t size => .returned (binReadT c size)
  | u32 => .returned (binReadU32 c)
  | u64 => .returned (binReadU64 c)
  | byte => .returned (binReadByte c)
  | uXXLeb bits tName => .returned (binReadUXXLeb bits tName c)
  | iXXLeb bits tName => .returned (binReadIXXLeb bits tName c)
  | u32Leb => .returned (binReadU32Leb c)
  | i32Leb => .returned (binReadI32Leb c)
  | u64Leb => .returned (binReadU64Leb c)
  | i64Leb => .returned (binReadI64Leb c)
  | validateEnum E tName anchor input => .returned (binReadValidateEnum E tName c anchor input)
  | byteAsEnum E tName => .returned (binReadByteAsEnum E tName c)
  | name => .returned (binReadName c)
  | limits => .returned (binReadLimits c)
  | valueType => .returned (binReadValueType c)
  | funcType => binReadFuncType c
  | elementType => .returned (binReadElementType c)
  | tableType => .returned (binReadTableType c)
  | globalType => .returned (binReadGlobalType c)
  | imp => .returned (binReadImport c)
  | global => binReadGlobal fuel c
  | exp => .returned (binReadExport c)
  | element => binReadElement fuel c
  | codeStructure => .returned (binReadCodeStructure c)
  | locals => .returned (binReadLocal c)
  | data => binReadData fuel c
  | blockType ib => .returned (binReadBlockType c ib).1
  | opcode => .returned (binReadOpcode c)
  | expr => binReadExpr fuel c

/-- The inputs on which the reader of an entry is not honest. -/
def EntryReader.Misreports {α : Type} (p : EntryReader α) (bs : List UInt8) : Prop :=
  match p with
  | global => ∃ t m rest, t ≠ ValueType.unset ∧ bs = t.toByte :: m :: rest ∧ StartsWithExpr rest
  | element => ∃ x b rest, Encoding.u32 x b ∧ bs = b ++ rest ∧ StartsWithExpr rest
  | data => ∃ x b rest, Encoding.u32 x b ∧ bs = b ++ rest ∧ StartsWithExpr rest
  | expr => StartsWithExpr bs
  | _ => False

/-- All readers: of an entry, of a vector of entries, of a function body, of a section, and of
instructions up to the end of a construct. -/
inductive Reader : Type → Type 1
  | entry {α : Type} (p : EntryReader α) : Reader α
  | vec {α : Type} (zero : α) (p : EntryReader α) : Reader (List α)
  | code (binCode : BinCode) : Reader Code
  | sectionIntoModule (section_ : BinSection) (m : Module) : Reader Module
  | instructionsUntil (ib : BinInstructionBuilder) (f : Frame) : Reader InstructionOpcode

def Reader.run {α : Type} (p : Reader α) (fuel : ℕ) (c : BinReadCtx) : Outcome (ReadResult α) :=
  match p with
  | entry p => p.run fuel c
  | vec zero p => binReadVec zero (p.run fuel) c
  | code binCode => binReadCode fuel c binCode
  | sectionIntoModule section_ m => binReadSectionIntoModule fuel c section_ m
  | instructionsUntil ib f =>
    (fun r => ⟨r.breakOpcode, r.ok, r.ctx⟩) <$> binReadInstructionsUntil fuel c ib f.until_

/-- A vector whose reader stops at its first entry, which is misreported. -/
def VecMisreports (P : List UInt8 → Prop) (bs : List UInt8) : Prop :=
  ∃ n b rest, Encoding.u32 n b ∧ n ≠ 0 ∧ bs = b ++ rest ∧ P rest

/-- The inputs on which a reader is not honest: the bytes left to read, or for a function body
and a section its own bytes. -/
def Reader.Misreports {α : Type} (p : Reader α) (bs : List UInt8) : Prop :=
  match p with
  | entry p => p.Misreports bs
  | vec _ p => VecMisreports p.Misreports bs
  | code binCode =>
    ∃ locals b rest, Encoding.vec Encoding.locals locals b ∧ binCode.data = b ++ rest ∧
      StartsWithExpr rest
  | sectionIntoModule section_ _ =>
    match section_.kind with
    | .global => VecMisreports EntryReader.global.Misreports section_.data
    | .element => VecMisreports EntryReader.element.Misreports section_.data
    | .data => VecMisreports EntryReader.data.Misreports section_.data
    | _ => False
  | instructionsUntil _ f => ¬StartsWithBody f bs

/-- An entry is without an expression and always reported as it should be, or it ends in an
expression and is misreported on a head and an expression of the format. -/
theorem EntryReader.reports_or {α : Type} (p : EntryReader α) (fuel : ℕ) :
    (ReportsAll (p.run fuel) ∧ ∀ bs, ¬p.Misreports bs) ∨
      ∃ (β : Type) (head : BinReadCtx → ReadResult β), EndsInExpr fuel head (p.run fuel) ∧
        (∀ c, Reports c (head c)) ∧
        ∀ c, ((head c).ok = true ∧ StartsWithExpr (head c).ctx.rest) ↔ p.Misreports c.rest := by
  cases p with
  | global =>
    refine .inr ⟨_, _, endsInExpr_global fuel, globalHead_reports, fun c => ?_⟩
    rw [ok_and_iff globalHead_reads globalHead_accepts c fun _ rest => StartsWithExpr rest]
    constructor
    · rintro ⟨g, bs, rest, ⟨ht, rfl, -⟩, hrest, he⟩
      exact ⟨g.type, g.mutable, rest, ht, hrest, he⟩
    · rintro ⟨t, m, rest, ht, hrest, he⟩
      exact ⟨⟨m, t, {}⟩, _, rest, ⟨ht, rfl, rfl⟩, hrest, he⟩
  | element =>
    exact .inr ⟨_, _, endsInExpr_element fuel, binReadU32Leb_reports, fun c =>
      ok_and_iff binReadU32Leb_reads binReadU32Leb_accepts c fun _ rest => StartsWithExpr rest⟩
  | data =>
    exact .inr ⟨_, _, endsInExpr_data fuel, binReadU32Leb_reports, fun c =>
      ok_and_iff binReadU32Leb_reads binReadU32Leb_accepts c fun _ rest => StartsWithExpr rest⟩
  | expr =>
    refine .inr ⟨Unit, fun c => ⟨(), true, c⟩, fun c r hr => ?_, fun c => ?_, fun c => ?_⟩
    · exact ⟨binReadExpr_ok hr, .inr ⟨rfl, r, hr, rfl⟩⟩
    · exact Reports.success (n := 0) (Nat.zero_le _)
    · exact and_iff_right rfl
  | funcType => exact .inl ⟨binReadFuncType_reports, fun _ h => h⟩
  | bytes count => exact .inl ⟨reportsAll_returned (binReadBytes_reports · count), fun _ h => h⟩
  | t size => exact .inl ⟨reportsAll_returned (binReadT_reports · size), fun _ h => h⟩
  | u32 => exact .inl ⟨reportsAll_returned binReadU32_reports, fun _ h => h⟩
  | u64 => exact .inl ⟨reportsAll_returned binReadU64_reports, fun _ h => h⟩
  | byte => exact .inl ⟨reportsAll_returned binReadByte_reports, fun _ h => h⟩
  | uXXLeb bits n => exact .inl ⟨reportsAll_returned (binReadUXXLeb_reports bits n), fun _ h => h⟩
  | iXXLeb bits n => exact .inl ⟨reportsAll_returned (binReadIXXLeb_reports bits n), fun _ h => h⟩
  | u32Leb => exact .inl ⟨reportsAll_returned binReadU32Leb_reports, fun _ h => h⟩
  | i32Leb => exact .inl ⟨reportsAll_returned binReadI32Leb_reports, fun _ h => h⟩
  | u64Leb => exact .inl ⟨reportsAll_returned binReadU64Leb_reports, fun _ h => h⟩
  | i64Leb => exact .inl ⟨reportsAll_returned binReadI64Leb_reports, fun _ h => h⟩
  | validateEnum E n a i =>
    exact .inl ⟨reportsAll_returned (binReadValidateEnum_reports E n · a i), fun _ h => h⟩
  | byteAsEnum E n => exact .inl ⟨reportsAll_returned (binReadByteAsEnum_reports E n), fun _ h => h⟩
  | name => exact .inl ⟨reportsAll_returned binReadName_reports, fun _ h => h⟩
  | limits => exact .inl ⟨reportsAll_returned binReadLimits_reports, fun _ h => h⟩
  | valueType => exact .inl ⟨reportsAll_returned binReadValueType_reports, fun _ h => h⟩
  | elementType => exact .inl ⟨reportsAll_returned binReadElementType_reports, fun _ h => h⟩
  | tableType => exact .inl ⟨reportsAll_returned binReadTableType_reports, fun _ h => h⟩
  | globalType => exact .inl ⟨reportsAll_returned binReadGlobalType_reports, fun _ h => h⟩
  | imp => exact .inl ⟨reportsAll_returned binReadImport_reports, fun _ h => h⟩
  | exp => exact .inl ⟨reportsAll_returned binReadExport_reports, fun _ h => h⟩
  | codeStructure => exact .inl ⟨reportsAll_returned binReadCodeStructure_reports, fun _ h => h⟩
  | locals => exact .inl ⟨reportsAll_returned binReadLocal_reports, fun _ h => h⟩
  | blockType ib => exact .inl ⟨reportsAll_returned (binReadBlockType_reports · ib), fun _ h => h⟩
  | opcode => exact .inl ⟨reportsAll_returned binReadByte_reports, fun _ h => h⟩

theorem EntryReader.honest_iff {α : Type} (p : EntryReader α) {fuel : ℕ} {c : BinReadCtx}
    {r : ReadResult α} (h : p.run fuel c = .returned r) : Honest c r ↔ ¬p.Misreports c.rest := by
  rcases p.reports_or fuel with ⟨hall, hnone⟩ | ⟨β, head, hends, hhead, hiff⟩
  · exact iff_of_true (hall c r h).honest (hnone _)
  · rw [hends.honest_iff hhead h, hiff]

theorem EntryReader.vec_honest_iff {α : Type} (p : EntryReader α) {zero : α} {fuel : ℕ}
    {c : BinReadCtx} {r : ReadResult (List α)} (h : binReadVec zero (p.run fuel) c = .returned r) :
    Honest c r ↔ ¬VecMisreports p.Misreports c.rest := by
  rcases p.reports_or fuel with ⟨hall, hnone⟩ | ⟨β, head, hends, hhead, hiff⟩
  · refine iff_of_true (binReadVec_reports hall c r h).honest ?_
    rintro ⟨n, b, rest, -, -, -, hm⟩
    exact hnone _ hm
  · rw [hends.vec_honest_iff hhead h, hiff]
    refine not_congr ((ok_and_iff binReadU32Leb_reads binReadU32Leb_accepts c
      fun n rest => n ≠ 0 ∧ p.Misreports rest).trans ?_)
    constructor
    · rintro ⟨n, b, rest, hn, hrest, hne, hm⟩
      exact ⟨n, b, rest, hn, hne, hrest, hm⟩
    · rintro ⟨n, b, rest, hn, hne, hrest, hm⟩
      exact ⟨n, b, rest, hn, hrest, hne, hm⟩

theorem binReadCode_honest_iff {fuel : ℕ} {c : BinReadCtx} {binCode : BinCode}
    {r : ReadResult Code} (h : binReadCode fuel c binCode = .returned r) :
    Honest c r ↔ ¬(Reader.code binCode).Misreports c.rest := by
  have hends : EndsInExpr fuel codeHead (fun c => do
      let locals ← binReadVec {} (fun c => .returned (binReadLocal c)) c
      (locals.map fun locals => ({ locals := locals } : Code)).thenProc fun code ctx => do
        let expr ← binReadExpr fuel ctx
        return expr.map fun expr => { code with expr := expr }) := by
    intro c r hr
    simp only [binReadVec_locals, Outcome.returned_bind] at hr
    rcases ReadResult.thenProc_eq_returned.mp hr with ⟨hok, h⟩ | ⟨hok, rfl⟩
    · rw [Outcome.bind_eq_returned] at h
      obtain ⟨x, hx, h⟩ := h
      obtain rfl := Outcome.returned.inj h
      exact ⟨binReadExpr_ok hx, .inr ⟨hok, x, hx, rfl⟩⟩
    · exact ⟨hok, .inl ⟨hok, rfl⟩⟩
  -- the body is read in a scope of its own, with the same diagnostics
  have hiff := hends.honest_iff codeHead_reports h
  rw [ok_and_iff codeHead_reads codeHead_accepts _ fun _ rest => StartsWithExpr rest] at hiff
  exact hiff

theorem binReadSection_honest_iff {fuel : ℕ} {c : BinReadCtx} {section_ : BinSection} {m : Module}
    {r : ReadResult Module} (h : binReadSectionIntoModule fuel c section_ m = .returned r) :
    Honest c r ↔ ¬(Reader.sectionIntoModule section_ m).Misreports c.rest := by
  obtain ⟨kind, pos, data⟩ := section_
  rw [binReadSectionIntoModule, Outcome.bind_eq_returned] at h
  obtain ⟨field, hfield, h⟩ := h
  obtain rfl := Outcome.returned.inj h
  have hvec : ∀ {α : Type} (p : EntryReader α) {zero : α} {f : List α → FieldValue},
      ReadResult.map f <$> binReadVec zero (p.run fuel) (binReaderSetScope c pos data) =
        .returned field → (Honest c (field.map m.assign) ↔ ¬VecMisreports p.Misreports data) := by
    intro α p zero f hf
    obtain ⟨x, hx, hf⟩ := Outcome.bind_eq_returned.mp hf
    obtain rfl := Outcome.returned.inj hf
    exact p.vec_honest_iff hx
  have hplain : ∀ {α : Type} (p : EntryReader α) {zero : α} {f : List α → FieldValue},
      (∀ bs, ¬p.Misreports bs) →
      ReadResult.map f <$> binReadVec zero (p.run fuel) (binReaderSetScope c pos data) =
        .returned field → (Honest c (field.map m.assign) ↔ ¬False) := by
    intro α p zero f hnone hf
    refine (hvec p hf).trans (not_congr (iff_false_intro ?_))
    rintro ⟨n, b, rest, -, -, -, hm⟩
    exact hnone _ hm
  cases kind with
  | custom =>
    obtain rfl := Outcome.returned.inj hfield
    exact iff_of_true (by simp [Honest, binReaderSetScope]) id
  | start =>
    obtain rfl := Outcome.returned.inj hfield
    have hr : Honest (binReaderSetScope c pos data)
        (binReadU32Leb (binReaderSetScope c pos data)) :=
      (binReadU32Leb_reports _).honest
    exact iff_of_true hr id
  | type => exact hplain .funcType (fun _ => id) hfield
  | «import» => exact hplain .imp (fun _ => id) hfield
  | function => exact hplain .u32Leb (fun _ => id) hfield
  | table => exact hplain .tableType (fun _ => id) hfield
  | memory => exact hplain .limits (fun _ => id) hfield
  | «export» => exact hplain .exp (fun _ => id) hfield
  | global => exact hvec .global hfield
  | element => exact hvec .element hfield
  | data => exact hvec .data hfield
  | code => cases hfield

/-- **`ok` and the diagnostics.** A reader that returns gives `ok = false` exactly when it
pushed a diagnostic, if and only if it is not at one of the inputs it misreports: an entry
whose expression is well formed, a vector that starts with such an entry, and for the
instructions of a construct bytes that are not well formed. -/
theorem Reader.ok_eq_false_iff_pushed {α : Type} (p : Reader α) {fuel : ℕ} {c : BinReadCtx}
    {r : ReadResult α} (h : p.run fuel c = .returned r) :
    (r.ok = false ↔ c.diags.length < r.ctx.diags.length) ↔ ¬p.Misreports c.rest := by
  cases p with
  | entry p => exact p.honest_iff h
  | vec zero p => exact p.vec_honest_iff h
  | code binCode => exact binReadCode_honest_iff h
  | sectionIntoModule section_ m => exact binReadSection_honest_iff h
  | instructionsUntil ib f =>
    obtain ⟨x, hx, h⟩ := Outcome.bind_eq_returned.mp h
    obtain rfl := Outcome.returned.inj h
    have hq := nestedUntil_quiet_iff hx
    have hok := (nestedUntil_break hx).2
    rw [pushed_iff (nestedUntil_advances hx).diags, Reader.Misreports, not_not, ← hq]
    simp [hok]

/-- An invalid opcode, then `end`: no expression, reported on both channels. -/
theorem Reader.honest_invalidOpcode : ¬(Reader.entry .expr).Misreports [0x06, 0x0B] :=
  have hrun : (Reader.entry .expr).run 2 { data := [0x06, 0x0B] } =
      .returned ⟨⟨[{}, ⟨0x06, 0⟩, ⟨0x0B, 0⟩], [0]⟩, false,
        ⟨0, 2, [0x06, 0x0B], [⟨⟨"invalid opcode %v", [.int 6]⟩, ⟨0, 1⟩⟩]⟩⟩ := by rfl
  (Reader.ok_eq_false_iff_pushed (.entry .expr) hrun).mp (by decide)

/-- The empty expression is read without a diagnostic, and without `ok`. -/
theorem Reader.not_honest :
    ¬∀ (α : Type) (p : Reader α) (fuel : ℕ) (c : BinReadCtx) (r : ReadResult α),
      p.run fuel c = .returned r → (r.ok = false ↔ c.diags.length < r.ctx.diags.length) := by
  intro h
  have hexpr := h Expr (.entry .expr) 1 { data := [0x0B] }
    ⟨⟨[{}, ⟨0x0B, 0⟩], [0]⟩, false, { curr := 1, data := [0x0B] }⟩ (by rfl)
  exact absurd (hexpr.mp rfl) (by decide)

end Wasim
