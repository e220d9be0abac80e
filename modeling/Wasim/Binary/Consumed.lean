import Wasim.Binary.Copied

/-!
# Bytes that nobody reads

A run of `bin_read` that ends without a diagnostic need not have read the whole file. No reader
compares its position with the end of its section or body, the expressions cut the sections
that hold them short, of several sections of a kind the module keeps one, and of several code
sections only the last is read. `NothingIgnored` is what a reader of the file would expect, and
`FullyRead` says in terms of the format on which files it is met: on those that leave nothing
of this kind to be seen (`binRead_nothingIgnored_iff`).
-/

namespace Wasim

open Lanes ReadShared BinReadCtx

variable {n : ℕ}

/-! ### A section that was read quietly -/

theorem Takes.congr {α : Type} {E F : Encoding α}
    {parse : ℕ → BinReadCtx → Outcome (ReadResult α)} (h : Takes E parse)
    (hEF : ∀ a bs, E a bs ↔ F a bs) : Takes F parse := by
  have heq : E = F := funext fun a => funext fun bs => propext (hEF a bs)
  exact heq ▸ h

/-- The reader of a kind of section takes the contents of that kind. -/
theorem takes_section {kind : BinSectionKind} (hcustom : kind ≠ .custom) (hcode : kind ≠ .code) :
    Takes (fun v bs => v.kind = kind ∧ v.Fills bs) fun fuel c => binReadSection fuel c kind := by
  have hplain : ∀ {α : Type} {E : Encoding α} {read : BinReadCtx → ReadResult α},
      (∀ c, Reports c (read c)) → Accepts E read → Reads E read → ∀ zero : α,
      Takes (Encoding.vec E) fun _ c => binReadVec zero (fun c => .returned (read c)) c :=
    fun hreports haccepts hreads zero =>
      takes_vec (reportsAll_returned hreports) haccepts.proc hreads.proc zero
  cases kind with
  | custom => exact absurd rfl hcustom
  | code => exact absurd rfl hcode
  | type =>
    refine ((takes_vec binReadFuncType_reports binReadFuncType_accepts binReadFuncType_reads
      {}).map FieldValue.types).congr fun v bs => ?_
    cases v <;> simp [Encoding.image, FieldValue.kind, FieldValue.Fills]
  | «import» =>
    refine ((hplain binReadImport_reports binReadImport_accepts binReadImport_reads_any
      {}).map FieldValue.imps).congr fun v bs => ?_
    cases v <;> simp [Encoding.image, FieldValue.kind, FieldValue.Fills]
  | function =>
    refine ((hplain binReadU32Leb_reports binReadU32Leb_accepts binReadU32Leb_reads
      0).map FieldValue.functions).congr fun v bs => ?_
    cases v <;> simp [Encoding.image, FieldValue.kind, FieldValue.Fills]
  | table =>
    refine ((hplain binReadTableType_reports binReadTableType_accepts binReadTableType_reads
      {}).map FieldValue.tables).congr fun v bs => ?_
    cases v <;> simp [Encoding.image, FieldValue.kind, FieldValue.Fills]
  | memory =>
    refine ((hplain binReadLimits_reports binReadLimits_accepts binReadLimits_reads
      {}).map FieldValue.memory).congr fun v bs => ?_
    cases v <;> simp [Encoding.image, FieldValue.kind, FieldValue.Fills]
  | «export» =>
    refine ((hplain binReadExport_reports binReadExport_accepts binReadExport_reads
      {}).map FieldValue.exports).congr fun v bs => ?_
    cases v <;> simp [Encoding.image, FieldValue.kind, FieldValue.Fills]
  | start =>
    refine ((Takes.of_reports (reportsAll_returned binReadU32Leb_reports)
      binReadU32Leb_accepts.proc binReadU32Leb_reads.proc).map FieldValue.start).congr
      fun v bs => ?_
    cases v <;> simp [Encoding.image, FieldValue.kind, FieldValue.Fills]
  | global =>
    refine (takes_globals.map FieldValue.globals).congr fun v bs => ?_
    cases v <;> simp [Encoding.image, FieldValue.kind, FieldValue.Fills]
  | element =>
    refine (takes_elements.map FieldValue.elements).congr fun v bs => ?_
    cases v <;> simp [Encoding.image, FieldValue.kind, FieldValue.Fills]
  | data =>
    refine (takes_datas.map FieldValue.datas).congr fun v bs => ?_
    cases v <;> simp [Encoding.image, FieldValue.kind, FieldValue.Fills]

/-! ### What a file keeps from its reader -/

/-- The code section is read up to its end, into bodies that are read up to their ends, and the
codes of the module are what these bodies encode. -/
def CodeStored (m : Module) (sec : BinSection) : Prop :=
  ∃ r, binReadCodeSectionStructure (freshCtx sec.pos sec.data) = .returned r ∧
    r.ctx.curr = sec.data.length ∧ m.codes.length = r.value.length ∧
    ∀ (j : ℕ) (binCode : BinCode), r.value[j]? = some binCode →
      ∃ read code, Outcome.Returns (fun fuel => bodyResult fuel binCode) read ∧
        read.ctx.curr = binCode.data.length ∧ m.codes[j]? = some code ∧
        Encoding.body code binCode.data

/-- No byte of the file is ignored on the way to the module `m`: the bytes behind the header
are those of the scanned sections, every section but the custom ones is read up to its end,
and the module holds what it encodes. A code section is the one that is read. -/
structure NothingIgnored (file : List UInt8) (m : Module) : Prop where
  scanned : ∃ fs, FileOf fs file ∧ (binScanModule (fileCtx file)).value.sections =
    (placeAt SectionFrame.bytes 8 fs).map frameSection
  sections : ∀ sec ∈ (binScanModule (fileCtx file)).value.sections,
    sec.kind ≠ .custom → sec.kind ≠ .code →
    ∃ r, Outcome.Returns (fun fuel => binReadSection fuel (freshCtx sec.pos sec.data) sec.kind) r ∧
      r.ctx.curr = sec.data.length ∧ (m.field sec.kind).Fills sec.data
  code : ∀ (i : ℕ) (sec : BinSection),
    (binScanModule (fileCtx file)).value.sections[i]? = some sec → sec.kind = .code →
    (i : ℤ) = (binScanModule (fileCtx file)).value.codeSectionIndex ∧ CodeStored m sec

/-- A code section that holds its bodies and nothing else, and whose bodies hold their locals
and their expression and nothing else. -/
def WholeCode (payload : List UInt8) : Prop :=
  ∃ (bs : List BodyFrame) (count : List UInt8), Encoding.unsigned 32 bs.length count ∧
    (∀ b ∈ bs, b.Valid ∧ ∃ code, Encoding.body code b.body) ∧
    payload = count ++ bs.flatMap BodyFrame.bytes

/-- The files that are read as a whole: sections of a kind have one content, which fills
their payloads, and there is at most one code section, which holds nothing but its bodies. -/
structure FullyRead (file : List UInt8) : Prop where
  contents : ∀ fs, FileOf fs file → ∀ f ∈ fs, ∀ g ∈ fs,
    BinSectionKind.ofByte f.kind = BinSectionKind.ofByte g.kind →
    BinSectionKind.ofByte f.kind ≠ .custom → BinSectionKind.ofByte f.kind ≠ .code →
    ∃ v : FieldValue, v.kind = BinSectionKind.ofByte f.kind ∧ v.Fills f.payload ∧
      v.Fills g.payload
  oneCode : ∀ fs, FileOf fs file → fs.Pairwise fun f g =>
    ¬(BinSectionKind.ofByte f.kind = .code ∧ BinSectionKind.ofByte g.kind = .code)
  code : ∀ fs, FileOf fs file → ∀ f ∈ fs, BinSectionKind.ofByte f.kind = .code →
    WholeCode f.payload

/-! ### The code section -/

/-- The structure of a code section was read to its end, and its bodies hold nothing but codes,
exactly when the section is whole. -/
theorem wholeCode_iff {sec : BinSection} {r : ReadResult (List BinCode)}
    (hr : binReadCodeSectionStructure (freshCtx sec.pos sec.data) = .returned r)
    (hok : r.ok = true) :
    WholeCode sec.data ↔ r.ctx.curr = sec.data.length ∧
      ∀ binCode ∈ r.value, ∃ code, Encoding.body code binCode.data := by
  obtain ⟨bs, count, rest, hvalid, hcount, hdata, hvalue, hctx⟩ :=
    binReadCodeSectionStructure_bodies hr hok
  have hdata' : sec.data = count ++ (bs.flatMap BodyFrame.bytes ++ rest) := hdata
  have hcurr : r.ctx.curr = sec.data.length ↔ rest = [] := by
    rw [hctx, hdata']
    simp only [BinReadCtx.advance, freshCtx, List.length_append, ← List.length_eq_zero_iff]
    omega
  have hbodies : (∀ binCode ∈ r.value, ∃ code, Encoding.body code binCode.data) ↔
      ∀ b ∈ bs, ∃ code, Encoding.body code b.body := by
    rw [hvalue, List.forall_mem_map]
    conv_rhs => rw [← placeAt_map_snd BodyFrame.bytes
      (binReaderAbsolutePos (freshCtx sec.pos sec.data) + count.length) bs, List.forall_mem_map]
    rfl
  rw [hcurr, hbodies]
  constructor
  · rintro ⟨bs', count', hcount', hbs', hwhole⟩
    rw [hdata'] at hwhole
    obtain ⟨rfl, hlen⟩ := hcount.1.prefix_unique hcount'.1 hwhole
    have hflat := List.append_cancel_left hwhole
    rw [← List.append_nil (bs'.flatMap BodyFrame.bytes)] at hflat
    obtain ⟨rfl, rfl⟩ := BodyFrame.unique hvalid (fun b hb => (hbs' b hb).1) hlen hflat
    exact ⟨rfl, fun b hb => (hbs' b hb).2⟩
  · rintro ⟨rfl, hall⟩
    exact ⟨bs, count, hcount, fun b hb => ⟨hvalid b hb, hall b hb⟩,
      by rw [hdata', List.append_nil]⟩

/-- A module with a code section has a section that is read for it. -/
theorem codeSectionIndex_nonneg {l : List BinSection} {sec : BinSection} (h : sec ∈ l)
    (hkind : sec.kind = .code) : 0 ≤ codeSectionIndex l := by
  induction l using List.reverseRecOn with
  | nil => cases h
  | append_singleton l x ih =>
    rw [codeSectionIndex_append]
    by_cases hx : x.kind = .code
    · rw [if_pos hx]
      exact Int.natCast_nonneg _
    · rw [if_neg hx]
      rcases List.mem_append.mp h with h | h
      · exact ih h
      · rw [List.mem_singleton.mp h] at hkind
        exact absurd hkind hx

/-- The index points at a code section. -/
theorem codeSectionIndex_getElem {l : List BinSection} (h : 0 ≤ codeSectionIndex l) :
    ∃ (k : ℕ) (sec : BinSection), codeSectionIndex l = k ∧ l[k]? = some sec ∧
      sec.kind = .code := by
  obtain ⟨l₁, sec, l₂, rfl, hsec, -, hidx⟩ := codeSectionIndex_spec h
  refine ⟨l₁.length, sec, hidx, ?_, hsec⟩
  rw [List.getElem?_append_right le_rfl, Nat.sub_self]
  rfl

/-- Every code section is the one that is read exactly when there are no two. -/
theorem oneCode_iff (l : List BinSection) :
    (∀ (i : ℕ) (sec : BinSection), l[i]? = some sec → sec.kind = .code →
      (i : ℤ) = codeSectionIndex l) ↔
      l.Pairwise fun a b => ¬(a.kind = .code ∧ b.kind = .code) := by
  rw [List.pairwise_iff_getElem]
  constructor
  · rintro h i j hi hj hij ⟨hki, hkj⟩
    have hidx := h i l[i] (List.getElem?_eq_getElem hi) hki
    have hidx' := h j l[j] (List.getElem?_eq_getElem hj) hkj
    omega
  · intro h i sec hi hkind
    obtain ⟨k, sec', hk, hk', hkind'⟩ :=
      codeSectionIndex_getElem (codeSectionIndex_nonneg (List.mem_of_getElem? hi) hkind)
    obtain ⟨hilt, rfl⟩ := List.getElem?_eq_some_iff.mp hi
    obtain ⟨hklt, rfl⟩ := List.getElem?_eq_some_iff.mp hk'
    rw [hk]
    rcases lt_trichotomy i k with hlt | rfl | hlt
    · exact absurd ⟨hkind, hkind'⟩ (h i k hilt hklt hlt)
    · rfl
    · exact absurd ⟨hkind', hkind⟩ (h k i hklt hilt hlt)

/-! ### Runs without a diagnostic -/

/-- What the lanes add to no diagnostics is nothing. -/
theorem allDiags_eq_nil {s s' : ReadShared n} {ds : List BinDiagnostic}
    (h : (allDiags s').Perm (allDiags s ++ ds)) (hquiet : allDiags s' = []) :
    allDiags s = [] ∧ ds = [] := by
  rw [hquiet] at h
  exact List.append_eq_nil_iff.mp h.nil_eq.symm

/-- The code section of a run without a diagnostic: its structure is read, and the codes of
the module are those of its bodies. -/
theorem Lane.CodesRead.quiet (hn : 0 < n) {fuel : ℕ} {b : BinModule} {s s' : ReadShared n}
    (h : Lane.CodesRead hn fuel b s s') (hquiet : allDiags s' = []) :
    allDiags s = [] ∧ (∃ codes, s'.module = { s.module with codes := codes }) ∧
      ∀ sec, 0 ≤ b.codeSectionIndex → b.sections[b.codeSectionIndex.toNat]? = some sec →
        ∃ r, binReadCodeSectionStructure (freshCtx sec.pos sec.data) = .returned r ∧
          r.ok = true ∧ s'.module.codes.length = r.value.length ∧
          ∀ (j : ℕ) (binCode : BinCode), r.value[j]? = some binCode →
            ∃ code, bodyResult fuel binCode = .returned code ∧ code.ctx.diags = [] ∧
              s'.module.codes[j]? = some code.value := by
  rcases h with ⟨hneg, rfl⟩ | ⟨sec, r, hsec, hpos, hr, hrest⟩
  · exact ⟨hquiet, ⟨s'.module.codes, rfl⟩, fun sec hpos => by omega⟩
  obtain ⟨r₀, hr₀, hok, hvalue, hmodule, hdiags⟩ := structured_spec hn hr
  have hreports : Reports (freshCtx sec.pos sec.data) r₀ :=
    binReadVec_reports (reportsAll_returned binReadCodeStructure_reports) _ _ hr₀
  rcases hrest with ⟨hfail, rfl⟩ | ⟨hgood, log, hlog, hrun⟩
  · -- a broken structure is reported
    obtain ⟨-, hnil⟩ := allDiags_eq_nil hdiags hquiet
    rw [hok, hreports.ok_iff.mpr hnil] at hfail
    cases hfail
  · obtain ⟨hmodule', hlen, hstored⟩ := Lane.codes_stored hn hr hgood hlog hrun
    obtain ⟨-, -, hdiags'⟩ := bodies_read hn hlog hrun
    obtain ⟨hstart, hnil⟩ := allDiags_eq_nil hdiags' hquiet
    refine ⟨(allDiags_eq_nil hdiags hstart).1, hmodule', fun sec' _ hsec' => ?_⟩
    obtain rfl := Option.some.inj (hsec.symm.trans hsec')
    refine ⟨r₀, hr₀, hok ▸ hgood, hvalue ▸ hlen, fun j binCode hj => ?_⟩
    rw [← hvalue] at hj
    obtain ⟨hcode, hcode'⟩ := hstored j binCode hj
    obtain ⟨hlt, -⟩ := List.getElem?_eq_some_iff.mp hj
    exact ⟨_, hcode, List.flatMap_eq_nil_iff.mp hnil j (List.mem_range.mpr hlt), hcode'⟩

/-- The sections of a run without a diagnostic. -/
theorem sections_quiet (hn : 0 < n) {fuel : ℕ} {sections : List BinSection}
    {log : List (Fin n × BinSection)}
    (hlog : entries log = fun lane => laneRangeSlice lane sections) {s s' : ReadShared n}
    (h : log.foldlM (fun s e => Lane.readSection fuel e.1 e.2 s) s = .returned s')
    (hquiet : allDiags s' = []) :
    (∀ sec ∈ sections, sectionResult fuel sec = .returned (sectionRead fuel sec) ∧
      (sectionRead fuel sec).ctx.diags = []) ∧
      ∀ sec ∈ sections, (∀ sec' ∈ sections, (sectionRead fuel sec').value.kind =
          (sectionRead fuel sec).value.kind →
          (sectionRead fuel sec').value = (sectionRead fuel sec).value) →
        s'.module.field (sectionRead fuel sec).value.kind = (sectionRead fuel sec).value := by
  obtain ⟨hall, ⟨order, hperm, hmodule⟩, hdiags⟩ := sections_interleaved hn hlog h
  refine ⟨fun sec hsec => ⟨?_, ?_⟩, fun sec hsec hagree => ?_⟩
  · obtain ⟨r, hr⟩ := hall sec hsec
    rw [sectionRead, hr, Outcome.getD_returned]
  · exact List.flatMap_eq_nil_iff.mp (allDiags_eq_nil hdiags hquiet).2 sec hsec
  · rw [hmodule]
    exact Module.field_foldl (fun sec => (sectionRead fuel sec).value) (hperm.mem_iff.mpr hsec)
      (fun sec' hsec' => hagree sec' (hperm.mem_iff.mp hsec')) _

/-! ### The sections and the files -/

/-- Sections that were read quietly are read to their ends into the module `m`, if those of a kind
have one content. -/
theorem contents_stored {fuel : ℕ} {m : Module} {sections : List BinSection}
    (hread : ∀ sec ∈ sections, sectionResult fuel sec = .returned (sectionRead fuel sec) ∧
      (sectionRead fuel sec).ctx.diags = [])
    (hfield : ∀ sec ∈ sections, (∀ sec' ∈ sections, (sectionRead fuel sec').value.kind =
        (sectionRead fuel sec).value.kind →
        (sectionRead fuel sec').value = (sectionRead fuel sec).value) →
      m.field (sectionRead fuel sec).value.kind = (sectionRead fuel sec).value)
    (h : ∀ a ∈ sections, ∀ b ∈ sections, a.kind = b.kind → a.kind ≠ .custom → a.kind ≠ .code →
      ∃ v : FieldValue, v.kind = a.kind ∧ v.Fills a.data ∧ v.Fills b.data) :
    ∀ sec ∈ sections, sec.kind ≠ .custom → sec.kind ≠ .code →
      ∃ r, Outcome.Returns
          (fun fuel => binReadSection fuel (freshCtx sec.pos sec.data) sec.kind) r ∧
        r.ctx.curr = sec.data.length ∧ (m.field sec.kind).Fills sec.data := by
  have hresult : ∀ sec ∈ sections, sec.kind ≠ .code →
      binReadSection fuel (freshCtx sec.pos sec.data) sec.kind =
        .returned (sectionRead fuel sec) := by
    intro sec hsec hcode
    have h := (hread sec hsec).1
    rwa [sectionResult, if_pos hcode] at h
  have hfills : ∀ sec ∈ sections, sec.kind ≠ .custom → sec.kind ≠ .code → ∀ v : FieldValue,
      v.kind = sec.kind ∧ v.Fills sec.data ↔
        (sectionRead fuel sec).value = v ∧ (sectionRead fuel sec).ctx.curr = sec.data.length :=
    fun sec hsec hcustom hcode v => (takes_section hcustom hcode).whole_iff
      (hresult sec hsec hcode) (hread sec hsec).2 v
  intro sec hsec hcustom hcode
  obtain ⟨v, hv, hfill, -⟩ := h sec hsec sec hsec rfl hcustom hcode
  obtain ⟨hvalue, hcurr⟩ := (hfills sec hsec hcustom hcode v).mp ⟨hv, hfill⟩
  have hkind : (sectionRead fuel sec).value.kind = sec.kind :=
    binReadSection_kind (hresult sec hsec hcode)
  have hm := hfield sec hsec fun sec' hsec' hsame => ?_
  · rw [hkind, hvalue] at hm
    exact ⟨_, ⟨fuel, hresult sec hsec hcode⟩, hcurr, hm ▸ hfill⟩
  -- another section of the same kind has the same content
  have hcode' : sec'.kind ≠ .code := by
    intro hc
    have hnothing := (hread sec' hsec').1
    rw [sectionResult, if_neg (not_not.mpr hc)] at hnothing
    rw [← Outcome.returned.inj hnothing, hkind] at hsame
    exact hcustom hsame.symm
  have hkind' : sec.kind = sec'.kind := by
    rw [← hkind, ← hsame, binReadSection_kind (hresult sec' hsec' hcode')]
  obtain ⟨w, hw, hfill, hfill'⟩ := h sec hsec sec' hsec' hkind' hcustom hcode
  have hvalue' := (hfills sec' hsec' (hkind' ▸ hcustom) hcode' w).mp ⟨hkind' ▸ hw, hfill'⟩
  exact hvalue'.1.trans ((hfills sec hsec hcustom hcode w).mp ⟨hw, hfill⟩).1.symm

/-- A code section that is stored is whole. -/
theorem CodeStored.whole {m : Module} {sec : BinSection} (h : CodeStored m sec)
    {r : ReadResult (List BinCode)}
    (hr : binReadCodeSectionStructure (freshCtx sec.pos sec.data) = .returned r)
    (hok : r.ok = true) : WholeCode sec.data := by
  obtain ⟨r', hr', hcurr, -, hstored⟩ := h
  obtain rfl := Outcome.returned.inj (hr.symm.trans hr')
  refine (wholeCode_iff hr hok).mpr ⟨hcurr, fun binCode hbin => ?_⟩
  obtain ⟨j, hj⟩ := List.getElem?_of_mem hbin
  obtain ⟨-, code, -, -, -, hcode⟩ := hstored j binCode hj
  exact ⟨code, hcode⟩

/-- A whole code section whose bodies were read quietly is stored. -/
theorem WholeCode.stored {fuel : ℕ} {m : Module} {sec : BinSection} {r : ReadResult (List BinCode)}
    (h : WholeCode sec.data)
    (hr : binReadCodeSectionStructure (freshCtx sec.pos sec.data) = .returned r)
    (hok : r.ok = true) (hlen : m.codes.length = r.value.length)
    (hbodies : ∀ (j : ℕ) (binCode : BinCode), r.value[j]? = some binCode →
      ∃ code, bodyResult fuel binCode = .returned code ∧ code.ctx.diags = [] ∧
        m.codes[j]? = some code.value) : CodeStored m sec := by
  obtain ⟨hcurr, hbody⟩ := (wholeCode_iff hr hok).mp h
  refine ⟨r, hr, hcurr, hlen, fun j binCode hj => ?_⟩
  obtain ⟨read, hread, hquiet, hm⟩ := hbodies j binCode hj
  obtain ⟨code, hcode⟩ := hbody binCode (List.mem_of_getElem? hj)
  have hwhole := hread
  rw [bodyResult, binReadCode_eq] at hwhole
  obtain ⟨rfl, hend⟩ := (takes_body.whole_iff hwhole hquiet code).mp hcode
  exact ⟨read, _, ⟨fuel, hread⟩, hend, hm, hcode⟩

section Frames

variable {fs : List SectionFrame} {pos : ℕ}

theorem pairwise_frameSection :
    (((placeAt SectionFrame.bytes pos fs).map frameSection).Pairwise fun a b =>
      ¬(a.kind = .code ∧ b.kind = .code)) ↔
      fs.Pairwise fun f g =>
        ¬(BinSectionKind.ofByte f.kind = .code ∧ BinSectionKind.ofByte g.kind = .code) := by
  have hsnd := List.pairwise_map (f := Prod.snd) (l := placeAt SectionFrame.bytes pos fs)
    (R := fun f g : SectionFrame =>
      ¬(BinSectionKind.ofByte f.kind = .code ∧ BinSectionKind.ofByte g.kind = .code))
  rw [placeAt_map_snd] at hsnd
  rw [List.pairwise_map, hsnd]
  rfl

end Frames

section Quiet

variable {fuel : ℕ} {file : List UInt8} {t : ReadShared n}

/-- What a run that ends without a diagnostic has read. -/
theorem binRead_quiet (hn : 0 < n) (hrun : Finish (binRead fuel file n) t) (hdone : t.done = true)
    (hquiet : t.diags = []) :
    ∃ fs, FileOf fs file ∧ (binScanModule (fileCtx file)).value.sections =
        (placeAt SectionFrame.bytes 8 fs).map frameSection ∧
      (binScanModule (fileCtx file)).value.codeSectionIndex =
        codeSectionIndex (binScanModule (fileCtx file)).value.sections ∧
      (∀ sec ∈ (binScanModule (fileCtx file)).value.sections,
        sectionResult fuel sec = .returned (sectionRead fuel sec) ∧
          (sectionRead fuel sec).ctx.diags = []) ∧
      (∀ sec ∈ (binScanModule (fileCtx file)).value.sections,
        (∀ sec' ∈ (binScanModule (fileCtx file)).value.sections,
          (sectionRead fuel sec').value.kind = (sectionRead fuel sec).value.kind →
            (sectionRead fuel sec').value = (sectionRead fuel sec).value) →
        t.module.field (sectionRead fuel sec).value.kind = (sectionRead fuel sec).value) ∧
      ∀ (i : ℕ) (sec : BinSection), (binScanModule (fileCtx file)).value.sections[i]? = some sec →
        (i : ℤ) = (binScanModule (fileCtx file)).value.codeSectionIndex →
        ∃ r, binReadCodeSectionStructure (freshCtx sec.pos sec.data) = .returned r ∧
          r.ok = true ∧ t.module.codes.length = r.value.length ∧
          ∀ (j : ℕ) (binCode : BinCode), r.value[j]? = some binCode →
            ∃ code, bodyResult fuel binCode = .returned code ∧ code.ctx.diags = [] ∧
              t.module.codes[j]? = some code.value := by
  rcases Lane.finish_binRead hn hrun with ⟨-, rfl⟩ | ⟨hok, log, s₁, s₂, hlog, hsecs, hcodes, rfl⟩
  · simp [Lane.scanned, setCtx] at hdone
  obtain ⟨fs, hfile, hsections, hindex⟩ := binScanModule_frames rfl rfl hok
  have hquiet₂ : allDiags s₂ = [] := by
    rw [← hquiet, binCollectDiagnostics_ofFn]
    rfl
  obtain ⟨hquiet₁, ⟨codes, hmodule⟩, hcode⟩ := hcodes.quiet hn hquiet₂
  obtain ⟨hread, hfield⟩ := sections_quiet hn hlog hsecs hquiet₁
  refine ⟨fs, hfile, hsections, hsections ▸ hindex, hread, fun sec hsec hagree => ?_,
    fun i sec hi hidx => hcode sec (by omega) (by rwa [← hidx, Int.toNat_natCast])⟩
  dsimp only
  rw [hmodule, Module.field_withCodes]
  exact hfield sec hsec hagree

/-- A file of which nothing is ignored is fully read, whatever became of the expressions. -/
theorem NothingIgnored.fullyRead {m : Module} (h : NothingIgnored file m) (hn : 0 < n)
    (hrun : Finish (binRead fuel file n) t) (hdone : t.done = true) (hquiet : t.diags = []) :
    FullyRead file := by
  obtain ⟨fs, hfile, hsections, hindex, -, -, hcode⟩ := binRead_quiet hn hrun hdone hquiet
  have hone := oneCode_iff (binScanModule (fileCtx file)).value.sections
  rw [← hindex] at hone
  have hindices := fun i sec hsec hkind => (h.code i sec hsec hkind).1
  refine ⟨fun fs' hfs' f hf g hg hkind hcustom hcode => ?_, fun fs' hfs' => ?_,
    fun fs' hfs' f hf hkind => ?_⟩
  · obtain rfl := hfile.unique hfs'
    obtain ⟨a, ha, hak, had⟩ := exists_section 8 hf
    obtain ⟨b, hb, hbk, hbd⟩ := exists_section 8 hg
    obtain ⟨-, -, -, hfill⟩ := h.sections a (hsections ▸ ha) (hak ▸ hcustom) (hak ▸ hcode)
    obtain ⟨-, -, -, hfill'⟩ := h.sections b (hsections ▸ hb) (hbk ▸ hkind ▸ hcustom)
      (hbk ▸ hkind ▸ hcode)
    rw [hak, had] at hfill
    rw [hbk, ← hkind, hbd] at hfill'
    exact ⟨m.field (.ofByte f.kind), Module.kind_field hcode, hfill, hfill'⟩
  · obtain rfl := hfile.unique hfs'
    have hpair := hone.mp hindices
    rw [hsections] at hpair
    exact pairwise_frameSection.mp hpair
  · obtain rfl := hfile.unique hfs'
    obtain ⟨sec, hsec, hk, hd⟩ := exists_section 8 hf
    obtain ⟨i, hi⟩ := List.getElem?_of_mem (hsections ▸ hsec)
    obtain ⟨hidx, hstored⟩ := h.code i sec hi (hk.trans hkind)
    obtain ⟨r, hr, hok, -⟩ := hcode i sec hi hidx
    exact hd ▸ hstored.whole hr hok

/-- Of a file that is fully read, nothing is ignored in the module that is pushed. -/
theorem FullyRead.nothingIgnored (h : FullyRead file) (hn : 0 < n)
    (hrun : Finish (binRead fuel file n) t) (hdone : t.done = true) (hquiet : t.diags = []) :
    NothingIgnored file t.module := by
  obtain ⟨fs, hfile, hsections, hindex, hread, hfield, hcode⟩ :=
    binRead_quiet hn hrun hdone hquiet
  have hone := oneCode_iff (binScanModule (fileCtx file)).value.sections
  rw [← hindex] at hone
  have hpair : (binScanModule (fileCtx file)).value.sections.Pairwise fun a b =>
      ¬(a.kind = .code ∧ b.kind = .code) := by
    rw [hsections]
    exact pairwise_frameSection.mpr (h.oneCode fs hfile)
  refine ⟨⟨fs, hfile, hsections⟩, contents_stored hread hfield fun a ha b hb => ?_,
    fun i sec hi hkind => ?_⟩
  · rw [hsections] at ha hb
    obtain ⟨f, hf, hak, had⟩ := exists_frame ha
    obtain ⟨g, hg, hbk, hbd⟩ := exists_frame hb
    rw [hak, hbk, had, hbd]
    exact h.contents fs hfile f hf g hg
  · have hidx := hone.mpr hpair i sec hi hkind
    obtain ⟨f, hf, hk, hd⟩ := exists_frame (hsections ▸ List.mem_of_getElem? hi)
    obtain ⟨r, hr, hok, hlen, hbodies⟩ := hcode i sec hi hidx
    have hwhole : WholeCode sec.data := hd ▸ h.code fs hfile f hf (hk.symm.trans hkind)
    exact ⟨hidx, hwhole.stored hr hok hlen hbodies⟩

/-- **What is ignored.** After a run that ends without a diagnostic, nothing of the file was ignored
on the way to the module that is in memory only if the file is fully read. And if it is, nothing
was, if no chunk begins in a body in an expression. -/
theorem binRead_nothingIgnored_iff (hn : 0 < n)
    (hrun : Run (binRead fuel file n) ⟨t, fun _ => .done⟩) (hdone : t.done = true)
    (hquiet : t.diags = []) {li le : ChunkLengths} {m : Module}
    (hm : Module.Copied li le file t.module m) :
    (NothingIgnored file m → FullyRead file) ∧
      (ExpressionsFit li le file → (NothingIgnored file m ↔ FullyRead file)) := by
  have hforth : NothingIgnored file m → FullyRead file := fun h =>
    h.fullyRead hn hrun hdone hquiet
  refine ⟨hforth, fun hfits => ⟨hforth, fun h => ?_⟩⟩
  obtain ⟨fs, hfile, -⟩ := binRead_quiet hn hrun hdone hquiet
  rw [hm.eq hfits hfile]
  exact h.nothingIgnored hn hrun hdone hquiet

end Quiet

theorem fullyRead_twinFunctions : FullyRead twinFunctions := by
  have hbyte : ∀ (v : ℕ) (b : UInt8), b.toNat < 128 → v = b.toNat → Encoding.unsigned 32 v [b] := by
    rintro v b hb rfl
    exact ⟨.last hb, by simp, by omega⟩
  have hnil : ∀ {α : Type} (E : Encoding α), Encoding.vec E [] [0x00] := fun E =>
    ⟨[0x00], [], hbyte 0 0x00 (by decide) rfl, .nil, rfl⟩
  have htypes : (FieldValue.types [⟨[], [.i32]⟩]).Fills [0x01, 0x60, 0x00, 0x01, 0x7F] :=
    ⟨[0x01], [0x60, 0x00, 0x01, 0x7F], hbyte 1 0x01 (by decide) rfl,
      .cons (b := [0x60, 0x00, 0x01, 0x7F]) (r := []) ⟨[0x00], [0x01, 0x7F], hnil _,
        ⟨[0x01], [0x7F], hbyte 1 0x01 (by decide) rfl,
          .cons (b := [0x7F]) (r := []) ⟨by decide, rfl⟩ .nil, rfl⟩, rfl⟩ .nil, rfl⟩
  have hfunctions : (FieldValue.functions [0, 0]).Fills [0x02, 0x00, 0x00] :=
    ⟨[0x02], [0x00, 0x00], hbyte 2 0x02 (by decide) rfl,
      .cons (b := [0x00]) (r := [0x00]) (hbyte 0 0x00 (by decide) rfl)
        (.cons (b := [0x00]) (r := []) (hbyte 0 0x00 (by decide) rfl) .nil), rfl⟩
  have hbody : Encoding.body ⟨[], Expr.ofInstrs blockZero⟩
      [0x00, 0x02, 0x7F, 0x41, 0x00, 0x0B, 0x0B] :=
    ⟨_, blockZero, [0x00], _, ⟨[], hnil _, rfl⟩, blockZero_encodes, rfl, rfl⟩
  have hframe : BodyFrame.Valid ⟨[0x07], [0x00, 0x02, 0x7F, 0x41, 0x00, 0x0B, 0x0B]⟩ :=
    hbyte 7 0x07 (by decide) rfl
  refine ⟨fun fs hfs f hf g hg hkind hcustom hcode => ?_, fun fs hfs => ?_,
    fun fs hfs f hf hcode => ?_⟩
  · rw [fileOf_twinFunctions hfs] at hf hg
    simp only [List.mem_cons, List.not_mem_nil, or_false] at hf hg
    obtain rfl | rfl | rfl | rfl := hf
    · obtain rfl | rfl | rfl | rfl := hg
      · exact ⟨_, rfl, htypes, htypes⟩
      all_goals cases hkind
    · obtain rfl | rfl | rfl | rfl := hg
      · cases hkind
      · exact ⟨_, rfl, hfunctions, hfunctions⟩
      · exact ⟨_, rfl, hfunctions, hfunctions⟩
      · cases hkind
    · obtain rfl | rfl | rfl | rfl := hg
      · cases hkind
      · exact ⟨_, rfl, hfunctions, hfunctions⟩
      · exact ⟨_, rfl, hfunctions, hfunctions⟩
      · cases hkind
    · exact absurd rfl hcode
  · rw [fileOf_twinFunctions hfs]
    decide
  · rw [fileOf_twinFunctions hfs] at hf
    simp only [List.mem_cons, List.not_mem_nil, or_false] at hf
    obtain rfl | rfl | rfl | rfl := hf
    · cases hcode
    · cases hcode
    · cases hcode
    · exact ⟨[⟨[0x07], _⟩, ⟨[0x07], _⟩], [0x02], hbyte 2 0x02 (by decide) rfl,
        List.forall_mem_cons.mpr ⟨⟨hframe, _, hbody⟩,
          List.forall_mem_singleton.mpr ⟨hframe, _, hbody⟩⟩, rfl⟩

/-- Two lanes read a file with a function section that stands twice and two bodies with a block
each, and the expressions are copied. No byte is left. -/
theorem binRead_nothingIgnored_twinFunctions :
    ∃ (t : ReadShared 2) (m : Module),
      Run (binRead 10 twinFunctions 2) ⟨t, fun _ => .done⟩ ∧ t.done = true ∧ t.diags = [] ∧
      Module.Copied instructionChunks extraChunks twinFunctions t.module m ∧
      NothingIgnored twinFunctions m := by
  obtain ⟨t, hrun, htest⟩ := exists_run_of_schedule (c := binRead 10 twinFunctions 2)
    [none, some 0, some 0, none, some 1, none, some 0, some 0, none, some 1, none, some 0, none,
      some 1, none, some 1, some 0, some 1, some 0, none, some 0, some 0, some 1, none, some 1,
      none, some 0, none, some 1, none, some 1, some 0, none, some 0, none, some 0]
    (fun t => t.done && t.diags.isEmpty) (by decide +kernel)
  obtain ⟨hdone, hquiet⟩ : t.done = true ∧ t.diags = [] := by simpa using htest
  obtain ⟨m, hm⟩ := exists_copied (by decide) hrun hdone
    (everyExpr_twinFunctions exists_exprCopied_blockZero)
  have hfits : ExpressionsFit instructionChunks extraChunks twinFunctions :=
    everyExpr_twinFunctions ⟨blockZero, _, [], blockZero_encodes, rfl, fits_blockZero⟩
  exact ⟨t, m, hrun, hdone, hquiet, hm, ((binRead_nothingIgnored_iff (by decide) hrun hdone hquiet
    hm).2 hfits).mpr fullyRead_twinFunctions⟩

/-- A file with a type section of size 2, which holds the count 0 and one byte more. -/
def trailingByte : List UInt8 :=
  [0x00, 0x61, 0x73, 0x6D, 0x01, 0x00, 0x00, 0x00, 0x01, 0x02, 0x00, 0x2A]

/-- One lane reads the count and stops there. No diagnostic tells of the last byte, and there is a
module in memory. -/
theorem binRead_ignores_trailingByte :
    ∃ (t : ReadShared 1) (m : Module),
      Run (binRead 0 trailingByte 1) ⟨t, fun _ => .done⟩ ∧ t.done = true ∧ t.diags = [] ∧
      Module.Copied instructionChunks extraChunks trailingByte t.module m ∧
      ¬NothingIgnored trailingByte m := by
  obtain ⟨t, hrun, htest⟩ := exists_run_of_schedule (c := binRead 0 trailingByte 1)
    [none, some 0, some 0, none, none, some 0, some 0, none, none, some 0, none, none,
      some 0, none, none, some 0, none, some 0] (fun t => t.done && t.diags.isEmpty)
    (by decide +kernel)
  obtain ⟨hdone, hquiet⟩ : t.done = true ∧ t.diags = [] := by simpa using htest
  have hfile : ∀ fs, FileOf fs trailingByte → fs = [⟨0x01, [0x02], [0x00, 0x2A]⟩] := fun fs hfs =>
    hfs.unique ⟨List.forall_mem_singleton.mpr ⟨by decide, .last (b := 0x02) (by decide),
      by decide, by decide⟩, by decide⟩
  have hevery : EveryExpr (fun rest => ∃ e, ExprCopied instructionChunks extraChunks rest e)
      trailingByte := by
    refine ⟨fun fs hfs f hf rest hreach => ?_, fun fs f fs' hfs h10 => ?_⟩
    · rw [hfile fs hfs] at hf
      obtain rfl := List.mem_singleton.mp hf
      exact hreach.elim
    · have hf : f ∈ fs ++ f :: fs' := List.mem_append_right _ (List.mem_cons_self ..)
      rw [hfile _ hfs] at hf
      obtain rfl := List.mem_singleton.mp hf
      cases h10
  obtain ⟨m, hm⟩ := exists_copied (by decide) hrun hdone hevery
  refine ⟨t, m, hrun, hdone, hquiet, hm, fun h => ?_⟩
  have hsections : (binScanModule (fileCtx trailingByte)).value.sections =
      [⟨.type, 8, [0x00, 0x2A]⟩] := by decide +kernel
  obtain ⟨r, ⟨fuel, hr⟩, hcurr, -⟩ := h.sections ⟨.type, 8, [0x00, 0x2A]⟩ (by simp [hsections])
    (by decide) (by decide)
  have hread : binReadSection fuel (freshCtx 8 [0x00, 0x2A]) .type =
      .returned ⟨.types [], true, { base := 8, curr := 1, data := [0x00, 0x2A] }⟩ := by
    change ReadResult.map FieldValue.types <$> binReadTypeSection (freshCtx 8 [0x00, 0x2A]) = _
    decide
  obtain rfl := Outcome.returned.inj (hr.symm.trans hread)
  cases hcurr

end Wasim
