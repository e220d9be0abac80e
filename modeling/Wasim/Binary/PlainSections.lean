import Wasim.Binary.ReaderSpec
import Wasim.Binary.Sections

/-!
# Sections without expressions, read back

The encodings of function types, imports, tables, memories and exports, and the readers that
decode them. Every reader stands right behind the encoding of its entry, so the section reader
brings back the whole content of the section and stops at its last byte
(`PlainSection.roundTrip`).

The names of the format are UTF-8 texts. The readers take any bytes for a name, and so do the
encodings here.
-/

namespace Wasim

open BinReadCtx

/-! ### Encodings -/

namespace Encoding

/-- The length of a name in bytes, then the bytes. -/
def name : Encoding (List UInt8) := fun s bs => ∃ n, unsigned 32 s.length n ∧ bs = n ++ s

/-- Limits without a maximum have a zero in its place. -/
inductive limits : Encoding Limits
  | unlimited {min : UInt32} {m : List UInt8} (hmin : u32 min m) :
      limits ⟨.unlimited, min, 0⟩ (0x00 :: m)
  | limited {min max : UInt32} {m n : List UInt8} (hmin : u32 min m) (hmax : u32 max n) :
      limits ⟨.limited, min, max⟩ (0x01 :: (m ++ n))

inductive tableType : Encoding TableType
  | funcRef {l : Limits} {bs : List UInt8} (hlimits : limits l bs) :
      tableType ⟨.funcRef, l⟩ (0x70 :: bs)

/-- The type, and a byte that is one if the global is mutable. -/
def globalType : Encoding GlobalType := fun g bs =>
  (g.mutable = 0x00 ∨ g.mutable = 0x01) ∧ ∃ t, valueType g.type t ∧ bs = t ++ [g.mutable]

/-- A function type: a byte, the arguments and the results. -/
def funcType : Encoding FunctionType := fun t bs =>
  ∃ a r, vec valueType t.args a ∧ vec valueType t.rets r ∧ bs = 0x60 :: (a ++ r)

/-- What is imported: a byte for its kind, and the index or the type. -/
inductive importDesc : ExternalKind → Encoding ImportDesc
  | func {index : UInt32} {bs : List UInt8} (h : u32 index bs) :
      importDesc .func (.typeIndex index) (0x00 :: bs)
  | table {type : TableType} {bs : List UInt8} (h : tableType type bs) :
      importDesc .table (.tableType type) (0x01 :: bs)
  | mem {type : Memory} {bs : List UInt8} (h : limits type bs) :
      importDesc .mem (.memType type) (0x02 :: bs)
  | global {type : GlobalType} {bs : List UInt8} (h : globalType type bs) :
      importDesc .global (.globalType type) (0x03 :: bs)

def import_ : Encoding Import := fun i bs =>
  ∃ m n d, name i.module m ∧ name i.name n ∧ importDesc i.kind i.desc d ∧ bs = m ++ (n ++ d)

def externalKindByte : ExternalKind → UInt8
  | .func => 0x00
  | .table => 0x01
  | .mem => 0x02
  | .global => 0x03

def export_ : Encoding Export := fun e bs =>
  ∃ n x, name e.name n ∧ u32 e.index x ∧ bs = n ++ externalKindByte e.kind :: x

end Encoding

/-! ### Entries -/

/-- A byte in the range of an enum is read as the member it stands for. -/
theorem binReadByteAsEnum_cons {T : Type} {E : ByteEnum T} {b : UInt8} (hmin : E.min ≤ b)
    (hmax : b ≤ E.max) (tName : String) {c : BinReadCtx} {rest : List UInt8}
    (hrest : c.rest = b :: rest) :
    binReadByteAsEnum E tName c = ⟨E.ofByte b, true, c.advance 1⟩ := by
  rw [binReadByteAsEnum, binReadByte_cons hrest]
  simp only [if_true, binReadValidateEnum, if_pos (And.intro hmin hmax)]

theorem binReadName_reads : Reads Encoding.name binReadName := by
  rintro s bs ⟨n, hn, rfl⟩ c rest hrest
  rw [List.append_assoc] at hrest
  have hlen : (UInt32.ofNat s.length).toNat = s.length := UInt32.toNat_ofNat_of_lt' hn.2.2
  have hsize := binReadU32Leb_reads (a := UInt32.ofNat s.length)
    (by rw [Encoding.u32, hlen]; exact hn) hrest
  rw [binReadName, hsize]
  dsimp only
  rw [if_pos rfl, hlen, binReadBytes_append (rest_advance_of_eq hrest), advance_advance,
    List.length_append]

theorem binReadLimits_reads : Reads Encoding.limits binReadLimits := by
  rintro l bs h c rest hrest
  rcases h with ⟨hmin⟩ | ⟨hmin, hmax⟩
  · have hkind := binReadByteAsEnum_cons (E := limitsKindEnum) (by decide) (by decide)
      "limits kind" hrest
    have hmin' := binReadU32Leb_reads hmin (rest_advance_one hrest)
    rw [binReadLimits, hkind]
    simp [ReadResult.andThen, ReadResult.map, hmin', limitsKindEnum, Nat.add_comm]
  · rw [List.cons_append, List.append_assoc] at hrest
    have hkind := binReadByteAsEnum_cons (E := limitsKindEnum) (by decide) (by decide)
      "limits kind" hrest
    have hmin' := binReadU32Leb_reads hmin (rest_advance_one hrest)
    have hmax' := binReadU32Leb_reads hmax (rest_advance_of_eq (rest_advance_one hrest))
    have hlimited : limitsKindEnum.ofByte 0x01 = .limited := by decide
    rw [binReadLimits, hkind]
    simp only [ReadResult.andThen, ReadResult.map, if_true, hmin', hmax', hlimited]
    simp [Nat.add_assoc, Nat.add_comm 1]

theorem binReadTableType_reads : Reads Encoding.tableType binReadTableType := by
  rintro t bs ⟨hlimits⟩ c rest hrest
  have htype : binReadElementType c = ⟨.funcRef, true, c.advance 1⟩ := by
    rw [binReadElementType, binReadByte_cons hrest]
    rfl
  have hlimits' := binReadLimits_reads hlimits (rest_advance_one hrest)
  rw [binReadTableType, htype]
  simp [ReadResult.andThen, ReadResult.map, hlimits', Nat.add_comm]

theorem binReadGlobalType_reads : Reads Encoding.globalType binReadGlobalType := by
  rintro ⟨m, t⟩ bs ⟨-, ts, ht, rfl⟩ c rest hrest
  rw [List.append_assoc] at hrest
  have htype := binReadValueType_reads ht hrest
  have hmutable := binReadB8_reads (a := m) rfl (rest_advance_of_eq hrest)
  rw [binReadGlobalType, htype]
  simp [ReadResult.andThen, ReadResult.map, hmutable]

theorem binReadFuncType_reads : ReadsProc Encoding.funcType binReadFuncType := by
  rintro ⟨args, rets⟩ bs ⟨as, rs, has, hrs, rfl⟩ c rest hrest
  rw [List.cons_append, List.append_assoc] at hrest
  have hargs := binReadVec_reads .unset binReadValueType_reads.proc has (rest_advance_one hrest)
  have hrets := binReadVec_reads .unset binReadValueType_reads.proc hrs
    (rest_advance_of_eq (rest_advance_one hrest))
  rw [binReadFuncType, binReadByte_cons hrest]
  simp only [if_true, hargs, Outcome.returned_bind, hrets, ReadResult.map, Outcome.pure_eq]
  simp [Nat.add_assoc, Nat.add_comm 1]

/-- The kind of an import and what is imported are read one after the other. -/
theorem binReadImportDesc_reads {kind : ExternalKind} {desc : ImportDesc} {bs rest : List UInt8}
    {c : BinReadCtx} (h : Encoding.importDesc kind desc bs) (hrest : c.rest = bs ++ rest) :
    binReadByteAsEnum externalKindEnum "external kind" c = ⟨kind, true, c.advance 1⟩ ∧
      binReadImportDesc kind (c.advance 1) = ⟨desc, true, c.advance bs.length⟩ := by
  rcases h with h | h | h | h
  · refine ⟨binReadByteAsEnum_cons (by decide) (by decide) _ hrest, ?_⟩
    rw [binReadImportDesc, binReadU32Leb_reads h (rest_advance_one hrest)]
    simp [ReadResult.map, Nat.add_comm]
  · refine ⟨binReadByteAsEnum_cons (by decide) (by decide) _ hrest, ?_⟩
    rw [binReadImportDesc, binReadTableType_reads h (rest_advance_one hrest)]
    simp [ReadResult.map, Nat.add_comm]
  · refine ⟨binReadByteAsEnum_cons (by decide) (by decide) _ hrest, ?_⟩
    rw [binReadImportDesc, binReadLimits_reads h (rest_advance_one hrest)]
    simp [ReadResult.map, Nat.add_comm]
  · refine ⟨binReadByteAsEnum_cons (by decide) (by decide) _ hrest, ?_⟩
    rw [binReadImportDesc, binReadGlobalType_reads h (rest_advance_one hrest)]
    simp [ReadResult.map, Nat.add_comm]

theorem binReadImport_reads : Reads Encoding.import_ binReadImport := by
  rintro ⟨kind, module, name, desc⟩ bs ⟨m, n, d, hm, hn, hd, rfl⟩ c rest hrest
  rw [List.append_assoc, List.append_assoc] at hrest
  have hmodule := binReadName_reads hm hrest
  have hname := binReadName_reads hn (rest_advance_of_eq hrest)
  obtain ⟨hkind, hdesc⟩ :=
    binReadImportDesc_reads hd (rest_advance_of_eq (rest_advance_of_eq hrest))
  simp only [binReadImport, ReadResult.andThen, ReadResult.map, if_true, hmodule, hname, hkind,
    hdesc]
  simp [Nat.add_assoc]

theorem externalKindEnum_ofByte (kind : ExternalKind) :
    externalKindEnum.min ≤ Encoding.externalKindByte kind ∧
      Encoding.externalKindByte kind ≤ externalKindEnum.max ∧
      externalKindEnum.ofByte (Encoding.externalKindByte kind) = kind := by
  rcases kind with _ | _ | _ | _ <;> decide

theorem binReadExport_reads : Reads Encoding.export_ binReadExport := by
  rintro ⟨kind, name, index⟩ bs ⟨n, x, hn, hx, rfl⟩ c rest hrest
  rw [List.append_assoc, List.cons_append] at hrest
  have hname := binReadName_reads hn hrest
  have hkind : binReadByteAsEnum externalKindEnum "external kind" (c.advance n.length) =
      ⟨kind, true, (c.advance n.length).advance 1⟩ := by
    obtain ⟨hmin, hmax, hof⟩ := externalKindEnum_ofByte kind
    rw [binReadByteAsEnum_cons hmin hmax _ (rest_advance_of_eq hrest), hof]
  have hindex := binReadU32Leb_reads hx (rest_advance_one (rest_advance_of_eq hrest))
  simp only [binReadExport, ReadResult.andThen, ReadResult.map, if_true, hname, hkind, hindex]
  simp [Nat.add_assoc, Nat.add_comm 1]

/-! ### Sections -/

/-- The content of a section without expressions. -/
inductive PlainSection
  | types (types : List FunctionType)
  | imps (imps : List Import)
  | functions (functions : List TypeIndex)
  | tables (tables : List TableType)
  | memory (memory : List Memory)
  | exports (exports : List Export)
  | start (start : UInt32)
  deriving DecidableEq, Repr

namespace PlainSection

def kind : PlainSection → BinSectionKind
  | types _ => .type
  | imps _ => .import
  | functions _ => .function
  | tables _ => .table
  | memory _ => .memory
  | exports _ => .export
  | start _ => .start

def Encodes : Encoding PlainSection
  | types ts, bs => Encoding.vec Encoding.funcType ts bs
  | imps is, bs => Encoding.vec Encoding.import_ is bs
  | functions fs, bs => Encoding.vec Encoding.u32 fs bs
  | tables ts, bs => Encoding.vec Encoding.tableType ts bs
  | memory ms, bs => Encoding.vec Encoding.limits ms bs
  | exports es, bs => Encoding.vec Encoding.export_ es bs
  | start x, bs => Encoding.u32 x bs

/-- The module with the content of the section in its field, and all other fields as before. -/
def store (m : Module) : PlainSection → Module
  | types ts => { m with types := ts }
  | imps is => { m with imps := is }
  | functions fs => { m with functions := fs }
  | tables ts => { m with tables := ts }
  | memory ms => { m with memory := ms }
  | exports es => { m with exports := es }
  | start x => { m with start := x }

end PlainSection

/-- **Sections without expressions, read back.** On every encoding of the content of such a
section, wherever it stands in the file, the reader succeeds without a diagnostic, stores the
content in its field, and stops at the end of the payload. -/
theorem PlainSection.roundTrip {s : PlainSection} {bs : List UInt8} (h : s.Encodes bs)
    (fuel : ℕ) (c : BinReadCtx) (pos : ℕ) (m : Module) :
    binReadSectionIntoModule fuel c ⟨s.kind, pos, bs⟩ m =
      .returned ⟨s.store m, true, { c with base := pos, curr := bs.length, data := bs }⟩ := by
  have hrest : (binReaderSetScope c pos bs).rest = bs ++ [] := by
    rw [List.append_nil]
    rfl
  have hend : (binReaderSetScope c pos bs).advance bs.length =
      { c with base := pos, curr := bs.length, data := bs } := by
    simp [BinReadCtx.advance, binReaderSetScope]
  rw [binReadSectionIntoModule, ← hend]
  rcases s with ts | is | fs | ts | ms | es | x
  · have hread := binReadVec_reads {} binReadFuncType_reads h hrest
    rw [PlainSection.kind, binReadSection, binReadTypeSection, hread]
    rfl
  · have hread := binReadVec_reads {} binReadImport_reads.proc h hrest
    rw [PlainSection.kind, binReadSection, binReadImportSection, hread]
    rfl
  · have hread := binReadVec_reads 0 binReadU32Leb_reads.proc h hrest
    rw [PlainSection.kind, binReadSection, binReadFuncSection, hread]
    rfl
  · have hread := binReadVec_reads {} binReadTableType_reads.proc h hrest
    rw [PlainSection.kind, binReadSection, binReadTableSection, hread]
    rfl
  · have hread := binReadVec_reads {} binReadLimits_reads.proc h hrest
    rw [PlainSection.kind, binReadSection, binReadMemorySection, hread]
    rfl
  · have hread := binReadVec_reads {} binReadExport_reads.proc h hrest
    rw [PlainSection.kind, binReadSection, binReadExportSection, hread]
    rfl
  · have hread := binReadU32Leb_reads h hrest
    rw [PlainSection.kind, binReadSection, hread]
    rfl

/-- The bytes of the function types `(i32, i64) → f64` and `() → ()`. The last count is padded to
two bytes. -/
def twoTypes : List UInt8 :=
  [0x02, 0x60, 0x02, 0x7F, 0x7E, 0x01, 0x7C, 0x60, 0x00, 0x80, 0x00]

theorem PlainSection.roundTrip_twoTypes :
    (PlainSection.types [⟨[.i32, .i64], [.f64]⟩, ⟨[], []⟩]).Encodes twoTypes ∧
      binReadSectionIntoModule 0 {} ⟨.type, 10, twoTypes⟩ {} =
        .returned ⟨{ types := [⟨[.i32, .i64], [.f64]⟩, ⟨[], []⟩] }, true,
          { base := 10, curr := 11, data := twoTypes }⟩ := by
  have hzero : Encoding.unsigned 32 0 [0x00] :=
    ⟨.last (b := 0x00) (by decide), by decide, by decide⟩
  have hpadded : Encoding.unsigned 32 0 [0x80, 0x00] :=
    ⟨.more (b := 0x80) (by decide) (.last (b := 0x00) (by decide)), by decide, by decide⟩
  have hone : Encoding.unsigned 32 1 [0x01] := ⟨.last (b := 0x01) (by decide), by decide, by decide⟩
  have htwo : Encoding.unsigned 32 2 [0x02] := ⟨.last (b := 0x02) (by decide), by decide, by decide⟩
  have hbyte : ∀ {t : ValueType}, t ≠ .unset → Encoding.valueType t [t.toByte] := fun h => ⟨h, rfl⟩
  have hargs : Encoding.vec Encoding.valueType [.i32, .i64] [0x02, 0x7F, 0x7E] :=
    ⟨[0x02], [0x7F, 0x7E], htwo,
      .cons (hbyte (by decide)) (.cons (r := []) (hbyte (by decide)) .nil), rfl⟩
  have hrets : Encoding.vec Encoding.valueType [.f64] [0x01, 0x7C] :=
    ⟨[0x01], [0x7C], hone, .cons (r := []) (hbyte (by decide)) .nil, rfl⟩
  have hfirst : Encoding.funcType ⟨[.i32, .i64], [.f64]⟩ [0x60, 0x02, 0x7F, 0x7E, 0x01, 0x7C] :=
    ⟨_, _, hargs, hrets, rfl⟩
  have hsecond : Encoding.funcType ⟨[], []⟩ [0x60, 0x00, 0x80, 0x00] :=
    ⟨[0x00], [0x80, 0x00], ⟨_, _, hzero, .nil, rfl⟩, ⟨_, _, hpadded, .nil, rfl⟩, rfl⟩
  have henc : (PlainSection.types [⟨[.i32, .i64], [.f64]⟩, ⟨[], []⟩]).Encodes twoTypes :=
    ⟨_, _, htwo, .cons hfirst (.cons (r := []) hsecond .nil), rfl⟩
  exact ⟨henc, PlainSection.roundTrip henc 0 {} 10 {}⟩

end Wasim
