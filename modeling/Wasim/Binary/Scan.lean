import Wasim.Binary.Sections
import Wasim.Binary.ReaderSpec

/-!
# Scanning a module

`bin_scan_module` checks the header and collects the sections of a file without reading them.
It succeeds exactly on the files that are **framed** (`Framed`): the magic number, the
version, and sections one after the other up to the end of the file, each a known kind, a
size and that many bytes. What is inside a section plays no role.
-/

namespace Wasim

open BinReadCtx

def binMagic : UInt32 := 0x6D736100

def binSupportedVersion : UInt32 := 1

/-! ### The scanner -/

/-- The member of the enum, for a byte in its range. -/
def BinSectionKind.ofByte (b : UInt8) : BinSectionKind :=
  match b.toNat with
  | 0 => .custom
  | 1 => .type
  | 2 => .import
  | 3 => .function
  | 4 => .table
  | 5 => .memory
  | 6 => .global
  | 7 => .export
  | 8 => .start
  | 9 => .element
  | 10 => .code
  | _ => .data

/-- `max(Bin_Section_Kind)` -/
def BinSectionKind.maxByte : UInt8 := 11

structure BinModule where
  version : UInt32 := 0
  sections : List BinSection := []
  codeSectionIndex : ℤ := -1
  deriving DecidableEq, Repr

/-- One turn of the loop over the sections. -/
def binScanSection (ctx : BinReadCtx) : ReadResult BinSection :=
  let start := binReaderAnchor ctx
  let pos := ctx.curr
  let kind := binReadB8 ctx
  if kind.ok then
    let section_ : BinSection := { kind := .ofByte kind.value, pos := pos }
    if kind.value ≤ BinSectionKind.maxByte then
      let size := binReadU32Leb kind.ctx
      if size.ok then
        (binReadBytes size.ctx size.value.toNat).map fun data => { section_ with data := data }
      else ⟨section_, false, size.ctx⟩
    else
      ⟨section_, false, binErrorf kind.ctx (binReaderAnchorRange kind.ctx start)
        "invalid section kind %d, expected 0..=%v"
        [.int kind.value.toNat, .int BinSectionKind.maxByte.toNat]⟩
  else ⟨{ pos := pos }, false, kind.ctx⟩

/-- A section that was scanned is framed: a kind, a size and that many bytes. -/
def Encoding.section : Encoding (UInt8 × List UInt8) := fun s bs =>
  s.1 ≤ 11 ∧ ∃ n, unsigned 32 s.2.length n ∧ bs = s.1 :: (n ++ s.2)

/-- The section that the scanner makes of a frame at position `pos`. -/
def sectionAt (pos : ℕ) (s : UInt8 × List UInt8) : BinSection := ⟨.ofByte s.1, pos, s.2⟩

theorem binScanSection_reads {s : UInt8 × List UInt8} {b r : List UInt8}
    (h : Encoding.section s b) {c : BinReadCtx} (hc : c.rest = b ++ r) :
    binScanSection c = ⟨sectionAt c.curr s, true, c.advance b.length⟩ := by
  obtain ⟨kind, payload⟩ := s
  obtain ⟨hkind, n, hn, rfl⟩ := h
  have hlt : payload.length < 2 ^ 32 := hn.2.2
  have hsize : (UInt32.ofNat payload.length).toNat = payload.length :=
    UInt32.toNat_ofNat_of_lt' hlt
  have hc1 : c.rest = [kind] ++ (n ++ payload ++ r) := by simpa using hc
  have hrest1 := rest_advance_of_eq hc1
  rw [List.append_assoc] at hrest1
  have hrest2 := rest_advance_of_eq hrest1
  have hu32 : Encoding.u32 (UInt32.ofNat payload.length) n := by rwa [Encoding.u32, hsize]
  have hkind' : kind ≤ BinSectionKind.maxByte := hkind
  simp only [binScanSection, binReadB8_reads rfl hc1, binReadU32Leb_reads hu32 hrest1, hsize,
    binReadBytes_append hrest2, if_true, if_pos hkind']
  simp only [ReadResult.map, sectionAt, advance_advance, List.length_append, List.length_cons,
    List.length_nil]
  congr 2
  omega

theorem binScanSection_accepts {c : BinReadCtx} (h : (binScanSection c).ok = true) :
    ∃ s b r, c.rest = b ++ r ∧ Encoding.section s b := by
  simp only [binScanSection] at h
  split at h
  · rename_i hk
    obtain ⟨b, r, hrest, rfl, hctx⟩ := binReadB8_accepts hk
    split at h
    · rename_i hmax
      split at h
      · rename_i hsize
        obtain ⟨n, r', hrest', hn, hctx'⟩ := binReadU32Leb_accepts hsize
        obtain ⟨payload, r'', hrest'', hlen, -⟩ := binReadBytes_accepts h
        rw [hctx, rest_advance_of_eq hrest] at hrest'
        rw [hctx', hctx, rest_advance_of_eq (by rw [rest_advance_of_eq hrest, hrest'])]
          at hrest''
        refine ⟨((binReadB8 c).value, payload), _, r'', ?_, hmax, n, ?_, rfl⟩
        · rw [hrest, hrest', hrest'']
          simp
        · rw [hlen]
          exact hn
      · simp at h
    · simp at h
  · simp at h

/-- A turn that succeeds leaves less to scan. -/
theorem binScanSection_left_lt {c : BinReadCtx} (h : (binScanSection c).ok = true) :
    binReaderDataLeft (binScanSection c).ctx < binReaderDataLeft c := by
  obtain ⟨s, b, r, hrest, henc⟩ := binScanSection_accepts h
  rw [binScanSection_reads henc hrest, ← length_rest, ← length_rest,
    rest_advance_of_eq hrest, hrest]
  obtain ⟨-, n, -, rfl⟩ := henc
  simp only [List.length_append, List.length_cons]
  omega

/-- The loop over the sections. -/
def binScanSections (ctx : BinReadCtx) (sections : List BinSection) :
    ReadResult (List BinSection) :=
  if ctx.curr < ctx.data.length then
    if _h : (binScanSection ctx).ok then
      binScanSections (binScanSection ctx).ctx (sections ++ [(binScanSection ctx).value])
    else ⟨sections, false, (binScanSection ctx).ctx⟩
  else ⟨sections, true, ctx⟩
termination_by binReaderDataLeft ctx
decreasing_by exact binScanSection_left_lt _h

/-- The index of the last code section, or `-1`. -/
def codeSectionIndex (sections : List BinSection) : ℤ :=
  sections.zipIdx.foldl (fun index s => if s.1.kind = .code then s.2 else index) (-1)

def binScanMagic (ctx : BinReadCtx) : ReadResult BinModule :=
  let anchor := binReaderAnchor ctx
  let magic := binReadU32 ctx
  if magic.ok ∧ magic.value ≠ binMagic then
    ⟨{}, false, binErrorf magic.ctx (binReaderAnchorRange magic.ctx anchor)
      "invalid magic number %v, expected %v" [.int magic.value.toNat, .int binMagic.toNat]⟩
  else ⟨{}, magic.ok, magic.ctx⟩

/-- A version that could not be read is 0, and so it is reported a second time. -/
def binScanVersion (m : BinModule) (ctx : BinReadCtx) : ReadResult BinModule :=
  let anchor := binReaderAnchor ctx
  let version := binReadU32 ctx
  let m := { m with version := version.value }
  if version.value ≠ binSupportedVersion then
    ⟨m, false, binErrorf version.ctx (binReaderAnchorRange version.ctx anchor)
      "unsupported WASM version %v, currently only WASM 1.0 is supported"
      [.int version.value.toNat]⟩
  else ⟨m, version.ok, version.ctx⟩

/-- The list of the sections becomes an array once the loop has succeeded. -/
def binScanCollect (m : BinModule) (ctx : BinReadCtx) : ReadResult BinModule :=
  let list := binScanSections ctx []
  if list.ok then
    ⟨{ m with sections := list.value, codeSectionIndex := codeSectionIndex list.value }, true,
      list.ctx⟩
  else ⟨m, false, list.ctx⟩

def binScanModule (ctx : BinReadCtx) : ReadResult BinModule :=
  ((binScanMagic ctx).andThen binScanVersion).andThen binScanCollect

/-! ### Framed files -/

/-- A file: the header, then the frames of its sections. -/
def Encoding.frames : Encoding (List (UInt8 × List UInt8)) := fun ss bs =>
  ∃ es, All Encoding.section ss es ∧ bs = le32 0x6D736100 ++ (le32 1 ++ es)

/-- The header and sections up to the end of the file. -/
def Framed (data : List UInt8) : Prop := ∃ ss, Encoding.frames ss data

/-- The context lane 0 scans with. -/
def fileCtx (data : List UInt8) : BinReadCtx := { data := data }

@[simp]
theorem rest_fileCtx (data : List UInt8) : (fileCtx data).rest = data := rfl

theorem curr_lt_iff (c : BinReadCtx) : c.curr < c.data.length ↔ c.rest ≠ [] := by
  rw [rest, ne_eq, List.drop_eq_nil_iff, not_le]

/-- The loop succeeds exactly on the frames of sections. -/
theorem binScanSections_ok_iff (c : BinReadCtx) (sections : List BinSection) :
    (binScanSections c sections).ok = true ↔ ∃ ss, Encoding.All Encoding.section ss c.rest := by
  fun_induction binScanSections c sections with
  | case1 c sections hcurr hok ih =>
    obtain ⟨s, b, r, hrest, henc⟩ := binScanSection_accepts hok
    have hnext : (binScanSection c).ctx.rest = r := by
      rw [binScanSection_reads henc hrest, rest_advance_of_eq hrest]
    rw [ih, hnext]
    constructor
    · rintro ⟨ss, hss⟩
      exact ⟨s :: ss, hrest ▸ .cons henc hss⟩
    · rintro ⟨ss, hss⟩
      -- the frame the scanner read is the first of the list
      rcases hss' : c.rest with _ | ⟨x, xs⟩
      · exact absurd hss' ((curr_lt_iff c).mp hcurr)
      · generalize hrest0 : c.rest = bs at hss
        cases hss with
        | nil => rw [hrest0] at hss'; cases hss'
        | @cons s' ss' b' r' hs' hss'' =>
          refine ⟨ss', ?_⟩
          have h := congrArg (fun x => x.ctx.rest) (binScanSection_reads hs' hrest0)
          rw [rest_advance_of_eq hrest0] at h
          rw [← hnext, h]
          exact hss''
  | case2 c sections hcurr hok =>
    constructor
    · intro h
      cases h
    · rintro ⟨ss, hss⟩
      generalize hrest : c.rest = bs at hss
      cases hss with
      | nil => exact absurd hrest ((curr_lt_iff c).mp hcurr)
      | cons hs hss =>
        rw [binScanSection_reads hs hrest] at hok
        exact absurd rfl hok
  | case3 c sections hcurr =>
    have hnil : c.rest = [] := by
      by_contra hne
      exact hcurr ((curr_lt_iff c).mpr hne)
    rw [hnil]
    exact ⟨fun _ => ⟨[], .nil⟩, fun _ => rfl⟩

theorem ReadResult.andThen_ok {α : Type} (r : ReadResult α)
    (f : α → BinReadCtx → ReadResult α) :
    (r.andThen f).ok = true ↔ r.ok = true ∧ (f r.value r.ctx).ok = true := by
  rw [andThen]
  split <;> simp_all

/-- A word of the header: the reader accepts the bytes of `word` and nothing else. -/
theorem binReadU32_eq_iff (c : BinReadCtx) (word : UInt32) :
    (binReadU32 c).ok = true ∧ (binReadU32 c).value = word ↔
      ∃ r, c.rest = le32 word ++ r := by
  constructor
  · rintro ⟨hok, rfl⟩
    obtain ⟨bs, r, hrest, rfl, -⟩ := binReadU32_accepts hok
    exact ⟨r, hrest⟩
  · rintro ⟨r, hrest⟩
    rw [binReadU32_reads rfl hrest]
    exact ⟨rfl, rfl⟩

theorem binScanMagic_ok_iff (c : BinReadCtx) :
    (binScanMagic c).ok = true ↔ ∃ r, c.rest = le32 binMagic ++ r := by
  rw [← binReadU32_eq_iff]
  simp only [binScanMagic]
  split
  · rename_i h
    simp [h.2]
  · rename_i h
    exact ⟨fun hok => ⟨hok, by_contra fun hne => h ⟨hok, hne⟩⟩, fun h => h.1⟩

theorem binScanMagic_rest {c : BinReadCtx} {r : List UInt8}
    (h : c.rest = le32 binMagic ++ r) : (binScanMagic c).ctx.rest = r := by
  rw [binScanMagic, binReadU32_reads rfl h]
  simp [rest_advance_of_eq h]

theorem binScanVersion_ok_iff (m : BinModule) (c : BinReadCtx) :
    (binScanVersion m c).ok = true ↔ ∃ r, c.rest = le32 binSupportedVersion ++ r := by
  rw [← binReadU32_eq_iff]
  simp only [binScanVersion]
  split
  · rename_i h
    simp [h]
  · rename_i h
    exact ⟨fun hok => ⟨hok, not_not.mp h⟩, fun h => h.1⟩

theorem binScanVersion_rest (m : BinModule) {c : BinReadCtx} {r : List UInt8}
    (h : c.rest = le32 binSupportedVersion ++ r) : (binScanVersion m c).ctx.rest = r := by
  rw [binScanVersion, binReadU32_reads rfl h]
  simp [rest_advance_of_eq h]

theorem binScanCollect_ok_iff (m : BinModule) (c : BinReadCtx) :
    (binScanCollect m c).ok = true ↔ ∃ ss, Encoding.All Encoding.section ss c.rest := by
  rw [← binScanSections_ok_iff c []]
  simp only [binScanCollect]
  split <;> simp_all

/-- Scanning a file succeeds exactly when the file is framed. -/
theorem binScanModule_ok_iff (data : List UInt8) :
    (binScanModule (fileCtx data)).ok = true ↔ Framed data := by
  rw [binScanModule, ReadResult.andThen_ok, ReadResult.andThen_ok]
  constructor
  · rintro ⟨⟨hmagic, hversion⟩, hsections⟩
    obtain ⟨r, hr⟩ := (binScanMagic_ok_iff _).mp hmagic
    obtain ⟨r', hr'⟩ := (binScanVersion_ok_iff _ _).mp hversion
    rw [ReadResult.andThen, if_pos hmagic] at hsections
    obtain ⟨ss, hss⟩ := (binScanCollect_ok_iff _ _).mp hsections
    rw [binScanVersion_rest _ hr'] at hss
    rw [binScanMagic_rest hr] at hr'
    exact ⟨ss, r', hss, by rw [← rest_fileCtx data, hr, hr']; rfl⟩
  · rintro ⟨ss, es, hes, hdata⟩
    have hr : (fileCtx data).rest = le32 binMagic ++ (le32 binSupportedVersion ++ es) := hdata
    have hmagic := (binScanMagic_ok_iff _).mpr ⟨_, hr⟩
    have hr' := binScanMagic_rest hr
    refine ⟨⟨hmagic, (binScanVersion_ok_iff _ _).mpr ⟨es, hr'⟩⟩, ?_⟩
    rw [ReadResult.andThen, if_pos hmagic, binScanCollect_ok_iff, binScanVersion_rest _ hr']
    exact ⟨ss, hes⟩

end Wasim
