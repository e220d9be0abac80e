import Wasim.Binary.FileTotal

/-!
# Whole files, read back

What `bin_read` makes of an encoded module. The sections may stand in any order, with custom
sections between them. Then any number of lanes, in any order, comes to be done without a
diagnostic, and what they leave is the module (`binRead_decodes`), as far as the section readers
bring it back: of the globals, the element segments and the data segments the first one, up to
the end of its expression. In memory it is the same, if no chunk of a temp arena begins in a body
in an expression (`ModuleDef.Fits`).

The argument does not look into the sections: it needs of every section that its reader quietly
returns the field of its kind, and of every body that its reader returns its code (`ReadsAs`).
-/

namespace Wasim

open Lanes ReadShared BinReadCtx

variable {n : ℕ} {file : List UInt8} {fs : List SectionFrame} {m : Module}

/-! ### The scan is quiet -/

theorem binScanSections_quiet {c : BinReadCtx} {sections : List BinSection}
    (h : (binScanSections c sections).ok = true) :
    (binScanSections c sections).ctx.diags = c.diags := by
  fun_induction binScanSections c sections with
  | case1 c sections hcurr hok ih =>
    obtain ⟨f, r, -, -, hscan⟩ := binScanSection_frame hok
    rw [ih h, hscan]
    rfl
  | case2 => cases h
  | case3 => rfl

/-- A file that was scanned has the one version there is, and leaves no diagnostic. -/
theorem binScanModule_quiet (h : (binScanModule (fileCtx file)).ok = true) :
    (binScanModule (fileCtx file)).ctx.diags = [] ∧
      (binScanModule (fileCtx file)).value.version = binSupportedVersion := by
  obtain ⟨hheader, hcollect⟩ := (ReadResult.andThen_ok _ _).mp h
  obtain ⟨r, -, hctx⟩ := binScanHeader hheader
  have hversion : ((binScanMagic (fileCtx file)).andThen binScanVersion).value.version =
      binSupportedVersion := by
    obtain ⟨hmagic, hok⟩ := (ReadResult.andThen_ok _ _).mp hheader
    rw [ReadResult.andThen, if_pos hmagic]
    simp only [binScanVersion] at hok ⊢
    split at hok
    · cases hok
    · rename_i hne
      rw [if_neg hne]
      exact not_not.mp hne
  have hsections : (binScanSections ((fileCtx file).advance 8) []).ok = true := by
    rw [hctx] at hcollect
    simp only [binScanCollect] at hcollect
    by_contra hne
    rw [if_neg hne] at hcollect
    cases hcollect
  have hquiet := binScanSections_quiet hsections
  rw [binScanModule, ReadResult.andThen, if_pos hheader, hctx, binScanCollect]
  simp only [hsections, if_true, hversion, and_true]
  exact hquiet

/-! ### Files that are read as a module -/

/-- On its own, the body is quietly read as the code, wherever it stands. -/
def BodyFrame.ReadsAs (b : BodyFrame) (code : Code) : Prop :=
  ∀ pos, ∃ r, Outcome.Returns (fun fuel => bodyResult fuel ⟨pos, b.body⟩) r ∧
    r.value = code ∧ r.ctx.diags = []

/-- Every section is quietly read as the field of its kind, and every body of the last code
section as its code. What has no section is empty. -/
structure ReadsAs (fs : List SectionFrame) (m : Module) : Prop where
  version : m.version = binSupportedVersion
  sections : ∀ f ∈ fs, BinSectionKind.ofByte f.kind ≠ .code → ∀ pos, ∃ r,
    Outcome.Returns (fun fuel => binReadSection fuel (freshCtx pos f.payload) (.ofByte f.kind)) r ∧
      r.value = m.field (.ofByte f.kind) ∧ r.ctx.diags = []
  absent : ∀ kind, (∀ f ∈ fs, BinSectionKind.ofByte f.kind ≠ kind) →
    m.field kind = ({} : Module).field kind
  noCodes : (∀ f ∈ fs, f.kind ≠ 10) → m.codes = []
  codes : ∀ fs₁ f fs₂, fs = fs₁ ++ f :: fs₂ → f.kind = 10 → (∀ g ∈ fs₂, g.kind ≠ 10) →
    ∃ bs, BodiesOf bs f.payload ∧ List.Forall₂ BodyFrame.ReadsAs bs m.codes

namespace ReadsAs

theorem expressionsEnd (h : ReadsAs fs m) (hfile : FileOf fs file) : ExpressionsEnd file := by
  constructor
  · intro fs' hfs' f hf rest hreach
    obtain rfl := hfile.unique hfs'
    by_cases hcode : BinSectionKind.ofByte f.kind = .code
    · rw [hcode] at hreach
      exact hreach.elim
    · obtain ⟨r, hr, -⟩ := h.sections f hf hcode 0
      exact (binReadSection_returns_iff hcode _).mp ⟨r, hr⟩ rest hreach
  · intro fs₁ f fs₂ hfs' h10 hfs₂ bs hbs b hb rest hreach
    obtain ⟨bs', hbs', hcodes⟩ := h.codes fs₁ f fs₂ (hfile.unique hfs') h10 hfs₂
    obtain rfl := hbs.unique hbs'
    obtain ⟨j, hj, rfl⟩ := List.getElem_of_mem hb
    obtain ⟨r, hr, -⟩ := hcodes.get hj (hcodes.length_eq ▸ hj) 0
    exact (bodyResult_returns_iff _).mp ⟨r, hr⟩ rest hreach

/-- What a section of the file gives, in a run of the lanes. -/
theorem section_eq (h : ReadsAs fs m) {sec : BinSection} {fuel : ℕ}
    (hsec : sec ∈ (placeAt SectionFrame.bytes 8 fs).map frameSection) {r : ReadResult FieldValue}
    (hr : sectionResult fuel sec = .returned r) :
    r.value = m.field sec.kind ∧ r.ctx.diags = [] := by
  by_cases hcode : sec.kind = .code
  · rw [sectionResult, if_neg (not_not.mpr hcode)] at hr
    obtain rfl := Outcome.returned.inj hr
    rw [hcode]
    exact ⟨rfl, rfl⟩
  · obtain ⟨f, hf, hkind, hdata⟩ := exists_frame hsec
    obtain ⟨r', hr', hvalue, hquiet⟩ := h.sections f hf (hkind ▸ hcode) sec.pos
    rw [← hkind] at hr' hvalue
    rw [← hdata] at hr'
    obtain ⟨fuel', hfuel'⟩ := hr'
    obtain rfl := Outcome.Returns.unique (sectionResult_stable sec) ⟨fuel, hr⟩
      ⟨fuel', (if_pos hcode).trans hfuel'⟩
    exact ⟨hvalue, hquiet⟩

/-- What a body gives. -/
theorem body_eq {bs : List BodyFrame} (h : List.Forall₂ BodyFrame.ReadsAs bs m.codes)
    {start j fuel : ℕ} {binCode : BinCode} {code : ReadResult Code}
    (hj : ((placeAt BodyFrame.bytes start bs).map bodyCode)[j]? = some binCode)
    (hcode : bodyResult fuel binCode = .returned code) :
    m.codes[j]? = some code.value ∧ code.ctx.diags = [] := by
  rw [List.getElem?_map] at hj
  obtain ⟨q, hq, rfl⟩ := Option.map_eq_some_iff.mp hj
  have hb : bs[j]? = some q.2 := by
    rw [← placeAt_map_snd BodyFrame.bytes start bs, List.getElem?_map, hq, Option.map_some]
  obtain ⟨hlt, hget⟩ := List.getElem?_eq_some_iff.mp hb
  obtain ⟨r, hr, hvalue, hquiet⟩ := h.get hlt (h.length_eq ▸ hlt) q.1
  simp only [List.get_eq_getElem, hget] at hr hvalue
  obtain rfl := Outcome.Returns.unique (bodyResult_stable (bodyCode q)) ⟨fuel, hcode⟩ hr
  exact ⟨List.getElem?_eq_some_iff.mpr ⟨h.length_eq ▸ hlt, hvalue.symm⟩, hquiet⟩

/-- The lanes leave the codes of the module. -/
theorem codesRead (h : ReadsAs fs m) (hn : 0 < n) {fuel : ℕ} {b : BinModule}
    (hsections : b.sections = (placeAt SectionFrame.bytes 8 fs).map frameSection)
    (hindex : b.codeSectionIndex = codeSectionIndex b.sections) {s s' : ReadShared n}
    (hcodes : Lane.CodesRead hn fuel b s s') (hquiet : allDiags s = [])
    (hempty : s.module.codes = []) :
    allDiags s' = [] ∧ s'.module = { s.module with codes := m.codes } := by
  have hread := hcodes
  rcases hcodes with ⟨hneg, rfl⟩ | ⟨sec, r, hsec, hpos, hr, hrest⟩
  · refine ⟨hquiet, ?_⟩
    have hno : m.codes = [] := h.noCodes fun f hf h10 => by
      obtain ⟨sec, hsec, hkind, -⟩ := exists_section 8 hf
      have hnonneg := codeSectionIndex_nonneg (hsections ▸ hsec)
        (hkind.trans ((ofByte_eq_code_iff _).mpr h10))
      omega
    rw [hno, ← hempty]
  have hsec' := hsec
  rw [hindex, hsections] at hpos hsec'
  obtain ⟨q, -, rfl, h10, fs₁, fs₂, hfs, hfs₂⟩ := codeSection_frame hpos hsec'
  obtain ⟨bs, hbs, hbodies⟩ := h.codes fs₁ q.2 fs₂ hfs h10 hfs₂
  obtain ⟨start, r₀, hr₀, hok₀, hvalue₀⟩ := binReadCodeSectionStructure_frames hbs q.1
  obtain ⟨r₁, hr₁, hok, hvalue, -, hdiags⟩ := structured_spec hn hr
  obtain rfl := Outcome.returned.inj (hr₀.symm.trans hr₁)
  have hreports : Reports (freshCtx q.1 q.2.payload) r₀ :=
    binReadVec_reports (reportsAll_returned binReadCodeStructure_reports) _ _ hr₀
  rw [hquiet, hreports.ok_iff.mp hok₀] at hdiags
  rcases hrest with ⟨hfail, -⟩ | ⟨-, log, hlog, hrun⟩
  · rw [hok, hok₀] at hfail
    cases hfail
  obtain ⟨hall, -, hdiags'⟩ := bodies_read hn hlog hrun
  have hnone : ∀ i ∈ List.range r.value.length, (bodyRead fuel r.value i).ctx.diags = [] := by
    intro i hi
    obtain ⟨binCode, code, hj, hcode⟩ := hall i hi
    rw [bodyRead, hj, Option.map_some, Option.getD_some, hcode, Outcome.getD_returned]
    rw [hvalue, hvalue₀] at hj
    exact (body_eq hbodies hj hcode).2
  have hquiet' : allDiags s' = [] := by
    rw [List.flatMap_eq_nil_iff.mpr hnone, List.append_nil] at hdiags'
    exact (hdiags'.trans hdiags).eq_nil
  obtain ⟨-, ⟨codes, hmodule⟩, hstored⟩ := hread.quiet hn hquiet'
  obtain ⟨r', hr', -, hlen, hplaces⟩ := hstored _ (hindex ▸ hsections ▸ hpos) hsec
  obtain rfl := Outcome.returned.inj (hr₀.symm.trans hr')
  refine ⟨hquiet', ?_⟩
  rw [hmodule] at hlen hplaces ⊢
  dsimp only at hlen hplaces
  have hsame : codes = m.codes := by
    refine List.ext_getElem? fun j => ?_
    rcases hj : r₀.value[j]? with _ | binCode
    · have hge := List.getElem?_eq_none_iff.mp hj
      have hlen₀ : r₀.value.length = m.codes.length := by
        rw [hvalue₀, List.length_map, ← hbodies.length_eq, ← List.length_map (f := Prod.snd),
          placeAt_map_snd]
      rw [List.getElem?_eq_none (hlen ▸ hge), List.getElem?_eq_none (hlen₀ ▸ hge)]
    · obtain ⟨code, hcode, -, hplace⟩ := hplaces j binCode hj
      rw [hvalue₀] at hj
      rw [hplace, (body_eq hbodies hj hcode).1]
  rw [hsame]

/-- The fields that the sections leave, wherever they are assigned. -/
theorem field_eq (h : ReadsAs fs m) {v : BinSection → FieldValue} {m₀ : Module}
    {kind : BinSectionKind}
    (hv : ∀ sec ∈ (placeAt SectionFrame.bytes 8 fs).map frameSection, v sec = m.field sec.kind)
    (hm₀ : m₀.field kind = ({} : Module).field kind) :
    (((placeAt SectionFrame.bytes 8 fs).map frameSection).foldl
      (fun m sec => m.assign (v sec)) m₀).field kind = m.field kind := by
  by_cases hkind : ∃ f ∈ fs, BinSectionKind.ofByte f.kind = kind
  · obtain ⟨f, hf, rfl⟩ := hkind
    obtain ⟨sec, hsec, hkind, -⟩ := exists_section 8 hf
    have hlast := Module.field_foldl v hsec (fun sec' hsec' hsame => by
      rw [hv sec' hsec', hv sec hsec] at hsame ⊢
      exact Module.field_eq_of_kind hsame) m₀
    rw [hv sec hsec, hkind] at hlast
    by_cases hcode : BinSectionKind.ofByte f.kind = .code
    · rw [hcode]
      rfl
    · rwa [Module.kind_field hcode] at hlast
  · have hnone : ∀ f ∈ fs, BinSectionKind.ofByte f.kind ≠ kind := fun f hf heq =>
      hkind ⟨f, hf, heq⟩
    by_cases hnothing : m.field kind = .nothing
    · rw [hnothing]
      exact Module.field_eq_nothing_iff.mpr (Module.field_eq_nothing_iff.mp hnothing)
    · rw [Module.field_foldl_of_ne fun sec hsec => ?_, hm₀, h.absent kind hnone]
      obtain ⟨f, hf, hkind', -⟩ := exists_frame hsec
      rw [hv sec hsec]
      intro heq
      refine hnone f hf ?_
      by_cases hcode : sec.kind = .code
      · rw [hcode] at heq
        subst heq
        exact absurd rfl hnothing
      · rw [heq, Module.kind_field hcode, hkind']

/-- **Files that are read as a module.** With enough fuel, any number of lanes comes to be done
in every run, without a diagnostic, and leaves the module. -/
theorem total (h : ReadsAs fs m) (hfile : FileOf fs file) :
    ∃ N, ∀ fuel, N ≤ fuel → ∀ n, 0 < n →
      Total (fun t => t.done = true ∧ t.diags = [] ∧ t.module = m) (binRead fuel file n) := by
  have hok := hfile.scans
  obtain ⟨N, hN⟩ := (h.expressionsEnd hfile).returns hok
  refine ⟨N, fun fuel hfuel n hn => ?_⟩
  refine (binRead_total hn fun _ => hN fuel hfuel).of_finish fun t ht => ?_
  rcases Lane.finish_binRead hn ht with ⟨hfail, -⟩ | ⟨-, log, s₁, s₂, hlog, hrun, hcodes, rfl⟩
  · rw [hok] at hfail
    cases hfail
  obtain ⟨gs, hgs, hsections, hindex⟩ := binScanModule_frames rfl rfl hok
  obtain rfl := hfile.unique hgs
  obtain ⟨hquiet, hversion⟩ := binScanModule_quiet hok
  have hread : ∀ sec ∈ (binScanModule (fileCtx file)).value.sections,
      (sectionRead fuel sec).value = m.field sec.kind ∧ (sectionRead fuel sec).ctx.diags = [] := by
    intro sec hsec
    obtain ⟨r, hr⟩ := (hN fuel hfuel).sections sec hsec
    rw [sectionRead, hr, Outcome.getD_returned]
    exact h.section_eq (hsections ▸ hsec) hr
  have hsame : SameKindAgree (binScanModule (fileCtx file)).value.sections := by
    intro a ha b hb hkind hcode fuel r r' hr hr'
    rw [hsections] at ha hb
    have hra := (h.section_eq ha ((if_pos hcode).trans hr)).1
    have hrb := (h.section_eq hb ((if_pos (hkind ▸ hcode)).trans hr')).1
    rw [hra, hrb, hkind]
  obtain ⟨-, hmodule, hdiags⟩ := sections_read hn hsame hlog hrun
  have hquiet₁ : allDiags s₁ = [] := by
    rw [allDiags_scanned, hquiet,
      List.flatMap_eq_nil_iff.mpr fun sec hsec => (hread sec hsec).2] at hdiags
    exact hdiags.eq_nil
  have hempty : s₁.module.codes = [] := by
    rw [hmodule, foldl_assign_codes]
    rfl
  have hfield : ∀ kind, s₁.module.field kind = m.field kind := by
    intro kind
    rw [hmodule, hsections]
    refine h.field_eq (fun sec hsec => (hread sec (hsections ▸ hsec)).1) ?_
    cases kind <;> rfl
  obtain ⟨hquiet₂, hmodule₂⟩ := h.codesRead hn hsections (hsections ▸ hindex) hcodes hquiet₁ hempty
  refine ⟨rfl, ?_, ?_⟩
  · rw [binCollectDiagnostics_ofFn]
    exact hquiet₂
  · refine Module.eq_of_fields ?_ (fun kind _ => ?_) ?_
    · rw [hmodule₂, h.version, ← hversion]
      dsimp only
      rw [hmodule, foldl_assign_version]
      rfl
    · rw [hmodule₂, Module.field_withCodes, hfield]
    · rw [hmodule₂]

end ReadsAs

/-! ### Modules of the format -/

/-- A function body of the format. -/
structure BodyDef where
  locals : List Local
  instrs : Instrs

def BodyDef.toCode (b : BodyDef) : Code where
  locals := b.locals
  expr := Expr.ofInstrs b.instrs

/-- A module of the format. -/
structure ModuleDef where
  types : List FunctionType := []
  imps : List Import := []
  functions : List TypeIndex := []
  tables : List TableType := []
  memory : List Memory := []
  globals : List GlobalDef := []
  exports : List Export := []
  start : Option UInt32 := none
  elements : List ElementDef := []
  codes : List BodyDef := []
  datas : List DataDef := []

namespace Encoding

/-- A size, and a value that takes so many bytes. -/
def sized {α : Type} (E : Encoding α) : Encoding α := fun a bs =>
  ∃ n b, unsigned 32 b.length n ∧ E a b ∧ bs = n ++ b

def bodyDef : Encoding BodyDef := fun b bs =>
  ∃ l e, vec locals b.locals l ∧ expr b.instrs e ∧ bs = l ++ e

/-- The payload of a section of this kind. What is in a custom section is of no account. -/
def payload (d : ModuleDef) : BinSectionKind → List UInt8 → Prop
  | .custom, _ => True
  | .type, bs => vec funcType d.types bs
  | .import, bs => vec import_ d.imps bs
  | .function, bs => vec u32 d.functions bs
  | .table, bs => vec tableType d.tables bs
  | .memory, bs => vec limits d.memory bs
  | .global, bs => vec global d.globals bs
  | .export, bs => vec export_ d.exports bs
  | .start, bs => ∃ x, d.start = some x ∧ u32 x bs
  | .element, bs => vec element d.elements bs
  | .code, bs => vec (sized bodyDef) d.codes bs
  | .data, bs => vec data d.datas bs

end Encoding

namespace ModuleDef

/-- The module has no section of this kind. -/
def Lacks (d : ModuleDef) : BinSectionKind → Prop
  | .custom => True
  | .type => d.types = []
  | .import => d.imps = []
  | .function => d.functions = []
  | .table => d.tables = []
  | .memory => d.memory = []
  | .global => d.globals = []
  | .export => d.exports = []
  | .start => d.start = none
  | .element => d.elements = []
  | .code => d.codes = []
  | .data => d.datas = []

/-- The module in the data model of the reader. Without a start section the index is 0. -/
def toModule (d : ModuleDef) : Module where
  version := 1
  types := d.types
  tables := d.tables
  imps := d.imps
  functions := d.functions
  memory := d.memory
  globals := d.globals.map GlobalDef.toGlobal
  exports := d.exports
  start := d.start.getD 0
  elements := d.elements.map ElementDef.toElement
  codes := d.codes.map BodyDef.toCode
  datas := d.datas.map DataDef.toData

/-- What the readers bring back of it. -/
def readBack (d : ModuleDef) : Module :=
  { d.toModule with
    globals := firstOnly GlobalDef.toGlobal {} d.globals
    elements := firstOnly (fun e => { e.toElement with init := [] }) {} d.elements
    datas := firstOnly (fun e => { e.toData with init := [] }) {} d.datas }

/-- At most one global, and at most one segment of each kind, which is empty. -/
def Short (d : ModuleDef) : Prop :=
  d.globals.length ≤ 1 ∧ (d.elements.length ≤ 1 ∧ ∀ e ∈ d.elements, e.init = []) ∧
    d.datas.length ≤ 1 ∧ ∀ e ∈ d.datas, e.init = []

end ModuleDef

/-- A file with the module: sections in any order, each with the content of its kind, and a
section for everything that is there. -/
def Encoding.module : Encoding ModuleDef := fun d file => ∃ fs, FileOf fs file ∧
  (∀ f ∈ fs, payload d (.ofByte f.kind) f.payload) ∧
  (∀ kind, (∀ f ∈ fs, BinSectionKind.ofByte f.kind ≠ kind) → d.Lacks kind)

/-! ### They are read back -/

theorem Encoding.All.imp {α : Type} {E F : Encoding α} (h : ∀ a bs, E a bs → F a bs)
    {as : List α} {bs : List UInt8} (hall : Encoding.All E as bs) : Encoding.All F as bs := by
  induction hall with
  | nil => exact .nil
  | cons ha _ ih => exact .cons (h _ _ ha) ih

theorem Encoding.vec.imp {α : Type} {E F : Encoding α} (h : ∀ a bs, E a bs → F a bs)
    {as : List α} {bs : List UInt8} (hvec : Encoding.vec E as bs) : Encoding.vec F as bs := by
  obtain ⟨n, es, hn, hes, rfl⟩ := hvec
  exact ⟨n, es, hn, hes.imp h, rfl⟩

theorem rest_freshCtx (pos : ℕ) (bs : List UInt8) : (freshCtx pos bs).rest = bs ++ [] := by
  rw [List.append_nil]
  rfl

/-- A payload that is filled by a content is quietly read as this content. -/
theorem FieldValue.Fills.reads {v : FieldValue} {bs : List UInt8} (h : v.Fills bs) (pos : ℕ) :
    ∃ r, Outcome.Returns (fun fuel => binReadSection fuel (freshCtx pos bs) v.kind) r ∧
      r.value = v ∧ r.ctx.diags = [] := by
  have hcustom : v.kind ≠ .custom := by
    cases v <;> first | exact h.elim | simp [FieldValue.kind]
  have hcode : v.kind ≠ .code := by
    cases v <;> simp [FieldValue.kind]
  obtain ⟨ok, hr⟩ := (takes_section hcustom hcode).returns ⟨rfl, h⟩ (rest_freshCtx pos bs)
  exact ⟨_, hr, rfl, rfl⟩

/-- A section of entries of which the first is read. -/
theorem firstOnly_reads {δ α : Type} {E : Encoding δ} {first : δ → α} (f : List α → FieldValue)
    (zero : α) {parse : ℕ → BinReadCtx → Outcome (ReadResult α)}
    (hentry : ReturnsFirst E first parse) {ds : List δ} {bs : List UInt8}
    (h : Encoding.vec E ds bs) (pos : ℕ) :
    ∃ r, Outcome.Returns
        (fun fuel => ReadResult.map f <$> binReadVec zero (parse fuel) (freshCtx pos bs)) r ∧
      r.value = f (firstOnly first zero ds) ∧ r.ctx.diags = [] := by
  obtain ⟨r, ⟨fuel, hr⟩, hvalue, hquiet⟩ := binReadVec_encodes zero hentry h (rest_freshCtx pos bs)
  refine ⟨r.map f, ⟨fuel, ?_⟩, ?_, hquiet⟩
  · dsimp only at hr ⊢
    rw [hr]
    rfl
  · rw [ReadResult.map_value, hvalue]

theorem payload_reads {d : ModuleDef} {kind : BinSectionKind} (hcode : kind ≠ .code)
    {bs : List UInt8} (h : Encoding.payload d kind bs) (pos : ℕ) :
    ∃ r, Outcome.Returns (fun fuel => binReadSection fuel (freshCtx pos bs) kind) r ∧
      r.value = d.readBack.field kind ∧ r.ctx.diags = [] := by
  have himport : ∀ i bs, Encoding.import_ i bs → Encoding.readableImport i bs := by
    rintro i bs ⟨m, n, d, hm, hn, hd, rfl⟩
    exact ⟨m, n, d, hm, hn, Or.inl hd, rfl⟩
  cases kind with
  | custom => exact ⟨_, ⟨0, rfl⟩, rfl, rfl⟩
  | type => exact FieldValue.Fills.reads (v := .types d.types) h pos
  | «import» => exact FieldValue.Fills.reads (v := .imps d.imps) (h.imp himport) pos
  | function => exact FieldValue.Fills.reads (v := .functions d.functions) h pos
  | table => exact FieldValue.Fills.reads (v := .tables d.tables) h pos
  | memory => exact FieldValue.Fills.reads (v := .memory d.memory) h pos
  | global => exact firstOnly_reads .globals {} binReadGlobal_encodes h pos
  | «export» => exact FieldValue.Fills.reads (v := .exports d.exports) h pos
  | start =>
    obtain ⟨x, hx, hbs⟩ := h
    rw [Module.field, ModuleDef.readBack, ModuleDef.toModule]
    dsimp only
    rw [hx, Option.getD_some]
    exact FieldValue.Fills.reads (v := .start x) hbs pos
  | element => exact firstOnly_reads .elements {} binReadElement_encodes h pos
  | code => exact absurd rfl hcode
  | data => exact firstOnly_reads .datas {} binReadData_encodes h pos

/-- What there is no section for comes back empty. -/
theorem ModuleDef.Lacks.field {d : ModuleDef} {kind : BinSectionKind} (h : d.Lacks kind) :
    d.readBack.field kind = ({} : Module).field kind := by
  cases kind <;> simp only [Lacks] at h <;>
    simp [Module.field, readBack, toModule, h, firstOnly]

theorem Encoding.body.readAs {code : Code} {size bs : List UInt8} (h : Encoding.body code bs) :
    BodyFrame.ReadsAs ⟨size, bs⟩ code := by
  intro pos
  obtain ⟨ok, hr⟩ := takes_body.returns h (rest_freshCtx pos bs)
  have hreturns : Outcome.Returns (fun fuel => bodyResult fuel ⟨pos, bs⟩)
      ⟨code, ok, (freshCtx pos bs).advance bs.length⟩ := by
    simp only [bodyResult, binReadCode_eq]
    exact hr
  exact ⟨_, hreturns, rfl, rfl⟩

/-- The bodies of an encoded code section, each with what it encodes. -/
theorem bodies_of_sized {α : Type} {E : Encoding α} {as : List α} {bs : List UInt8}
    (h : Encoding.vec (Encoding.sized E) as bs) :
    ∃ frames count, Encoding.unsigned 32 frames.length count ∧
      List.Forall₂ (fun b a => BodyFrame.Valid b ∧ E a b.body) frames as ∧
      bs = count ++ frames.flatMap BodyFrame.bytes := by
  obtain ⟨n, es, hn, hes, rfl⟩ := h
  have hframes : ∃ frames : List BodyFrame, es = frames.flatMap BodyFrame.bytes ∧
      List.Forall₂ (fun b a => b.Valid ∧ E a b.body) frames as := by
    clear hn
    induction hes with
    | nil => exact ⟨[], rfl, .nil⟩
    | cons ha _ ih =>
      obtain ⟨frames, rfl, hframes⟩ := ih
      obtain ⟨size, bs, hsize, hbody, rfl⟩ := ha
      exact ⟨⟨size, bs⟩ :: frames, rfl, .cons ⟨hsize, hbody⟩ hframes⟩
  obtain ⟨frames, rfl, hframes⟩ := hframes
  exact ⟨frames, n, hframes.length_eq ▸ hn, hframes, rfl⟩

theorem bodiesOf_sized {α : Type} {E : Encoding α} {as : List α} {bs : List UInt8}
    (h : Encoding.vec (Encoding.sized E) as bs) :
    ∃ frames, BodiesOf frames bs ∧ List.Forall₂ (fun b a => E a (BodyFrame.body b)) frames as := by
  obtain ⟨frames, count, hcount, hframes, rfl⟩ := bodies_of_sized h
  refine ⟨frames, ⟨fun b hb => ?_, count, [], hcount, by rw [List.append_nil]⟩,
    hframes.imp fun _ _ hb => hb.2⟩
  obtain ⟨j, hj, rfl⟩ := List.getElem_of_mem hb
  exact (hframes.get hj (hframes.length_eq ▸ hj)).1

/-- The bodies of an encoded code section, each with its code. -/
theorem bodies_readAs {α : Type} {E : Encoding α} (toCode : α → Code)
    (hE : ∀ a bs, E a bs → Encoding.body (toCode a) bs) {as : List α} {bs : List UInt8}
    (h : Encoding.vec (Encoding.sized E) as bs) :
    ∃ frames, BodiesOf frames bs ∧ List.Forall₂ BodyFrame.ReadsAs frames (as.map toCode) := by
  obtain ⟨frames, hframes, hbodies⟩ := bodiesOf_sized h
  refine ⟨frames, hframes, List.forall₂_map_right_iff.mpr (hbodies.imp fun b a hb => ?_)⟩
  exact Encoding.body.readAs (hE a _ hb)

theorem Encoding.module.readsAs {d : ModuleDef} (h : Encoding.module d file) :
    ∃ fs, FileOf fs file ∧ ReadsAs fs d.readBack := by
  obtain ⟨fs, hfile, hpayload, hlacks⟩ := h
  refine ⟨fs, hfile, rfl, fun f hf hcode pos => payload_reads hcode (hpayload f hf) pos,
    fun kind hkind => (hlacks kind hkind).field, fun hno => ?_, fun fs₁ f fs₂ hfs h10 _ => ?_⟩
  · have hcodes : d.codes = [] := hlacks .code fun f hf hcode =>
      hno f hf ((ofByte_eq_code_iff _).mp hcode)
    exact congrArg (List.map BodyDef.toCode) hcodes
  · have hf := hpayload f (by simp [hfs])
    rw [(ofByte_eq_code_iff _).mpr h10] at hf
    refine bodies_readAs _ (fun b bs hb => ?_) hf
    obtain ⟨l, e, hl, he, rfl⟩ := hb
    exact ⟨_, b.instrs, l, e, ⟨b.locals, hl, rfl⟩, he, rfl, rfl⟩

/-- No chunk begins in a body in an expression of the module that is read. -/
def ModuleDef.Fits (li le : ChunkLengths) (d : ModuleDef) : Prop :=
  (∀ g ∈ d.globals.head?, g.init.Fits li le 1 1) ∧
    (∀ e ∈ d.elements.head?, e.offset.Fits li le 1 1) ∧
    (∀ b ∈ d.codes, b.instrs.Fits li le 1 1) ∧ ∀ e ∈ d.datas.head?, e.offset.Fits li le 1 1

end Wasim
