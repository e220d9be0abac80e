import Wasim.Binary.Fields
import Wasim.Binary.Reached

/-!
# The module that is in memory

The lanes leave a module with the expressions that were pushed. What is in memory are the
expressions that were copied out of the temp arenas (`Module.Copied`). The two are the same if no
chunk begins in a body in an expression that is reached (`ExpressionsFit`, `Module.Copied.eq`), and
there is such a module whenever every expression can be copied (`exists_copied`).
-/

namespace Wasim

open Lanes ReadShared BinReadCtx

/-! ### Fields and codes -/

/-- Some reader of the section has left the field. -/
def SectionFrame.Leaves (f : SectionFrame) (v : FieldValue) : Prop :=
  ∃ pos fuel r, binReadSection fuel (freshCtx pos f.payload) (.ofByte f.kind) = .returned r ∧
    r.value = v

/-- Some reader of the body has left the code. -/
def BodyFrame.Leaves (b : BodyFrame) (code : Code) : Prop :=
  ∃ pos fuel r, bodyResult fuel ⟨pos, b.body⟩ = .returned r ∧ r.value = code

/-- What is in memory where the reader of a body has left the code. -/
inductive Code.Copied (li le : ChunkLengths) (body : List UInt8) (code : Code) : Code → Prop
  | none (h : ∀ rest, ¬BodyReaches body rest) : Copied li le body code code
  | expr {rest : List UInt8} {e : Expr} (h : BodyReaches body rest)
      (he : ExprCopied li le rest e) : Copied li le body code { code with expr := e }

/-- What is in memory where the lanes have left the module `m₀`. A field comes from a section of
its kind, and a code from its body in the last code section. -/
structure Module.Copied (li le : ChunkLengths) (file : List UInt8) (m₀ m : Module) : Prop where
  version : m.version = m₀.version
  field : ∀ fs, FileOf fs file → ∀ kind ≠ .code,
    (∃ f ∈ fs, BinSectionKind.ofByte f.kind = kind ∧ f.Leaves (m₀.field kind) ∧
      FieldValue.Copied li le kind f.payload (m₀.field kind) (m.field kind)) ∨
    (∀ f ∈ fs, BinSectionKind.ofByte f.kind ≠ kind) ∧ m.field kind = m₀.field kind
  codes : (m₀.codes = [] ∧ m.codes = []) ∨
    ∃ fs f fs' bs, FileOf (fs ++ f :: fs') file ∧ f.kind = 10 ∧ (∀ g ∈ fs', g.kind ≠ 10) ∧
      BodiesOf bs f.payload ∧ bs.length = m₀.codes.length ∧ m.codes.length = m₀.codes.length ∧
      ∀ (j : ℕ) (b : BodyFrame) (code code' : Code), bs[j]? = some b → m₀.codes[j]? = some code →
        m.codes[j]? = some code' → b.Leaves code ∧ Code.Copied li le b.body code code'

/-- No chunk begins in a body in an expression that a reader of the file reaches. -/
def ExpressionsFit (li le : ChunkLengths) (file : List UInt8) : Prop :=
  EveryExpr (ExprFits li le) file

/-! ### Copies that change nothing -/

section Eq

variable {α β : Type} {li le : ChunkLengths}

/-- The first entry of a section already has the expression that is reached. -/
theorem Takes.setExpr_eq {H : Encoding α} {set : α → Expr → α} {zero : α}
    {parse : ℕ → BinReadCtx → Outcome (ReadResult (List α))}
    (h : Takes ((H.headExpr set).firstEntry zero) parse) {f : List α → FieldValue}
    (hset : ∀ a as e, (f (set a e :: as)).setExpr e = f (set a e :: as)) {fuel : ℕ}
    {c : BinReadCtx} {r : ReadResult FieldValue}
    (hr : ReadResult.map f <$> parse fuel c = .returned r) {is : Instrs} {b rest : List UInt8}
    (hb : Encoding.expr is b) (hreach : VecReaches H c.rest (b ++ rest)) :
    r.value.setExpr (Expr.ofInstrs is) = r.value := by
  obtain ⟨k, n, a, hd, hn, ha, hrest⟩ := hreach
  have hentry : (H.headExpr set).firstEntry zero
      (set a (Expr.ofInstrs is) :: List.replicate k zero) (n ++ (hd ++ b)) :=
    ⟨n, by simpa using hn, Or.inr ⟨_, k, hd ++ b, rfl, ⟨a, is, hd, b, ha, hb, rfl, rfl⟩, rfl⟩⟩
  have hbytes : c.rest = n ++ (hd ++ b) ++ rest := by
    simpa only [List.append_assoc] using hrest
  obtain ⟨ok, hreturns⟩ := h.returns hentry hbytes
  obtain ⟨entries, hentries, hreturn⟩ := Outcome.bind_eq_returned.mp hr
  obtain rfl := Outcome.returned.inj hreturn
  obtain rfl := Outcome.Returns.unique (h.stable c) ⟨fuel, hentries⟩ hreturns
  exact hset _ _ _

theorem VecReaches.image {H : Encoding α} {bs rest : List UInt8} (h : VecReaches H bs rest)
    (f : α → β) : VecReaches (H.image f) bs rest := by
  obtain ⟨k, n, a, b, hn, ha, hbs⟩ := h
  exact ⟨k, n, f a, b, hn, ⟨a, ha, rfl⟩, hbs⟩

/-- If the expression fits, the field in memory is the one the reader has left. -/
theorem FieldValue.Copied.eq {kind : BinSectionKind} {bs : List UInt8} {v v' : FieldValue}
    (h : FieldValue.Copied li le kind bs v v') {pos fuel : ℕ} {r : ReadResult FieldValue}
    (hr : binReadSection fuel (freshCtx pos bs) kind = .returned r) (hvalue : r.value = v)
    (hfits : ∀ rest, ReachesExpr kind bs rest → ExprFits li le rest) : v' = v := by
  cases h with
  | none => rfl
  | @expr rest e hreach he =>
    obtain ⟨is, b, rest, hb, rfl, hfit⟩ := hfits rest hreach
    rw [he.eq hb hfit, ← hvalue]
    cases kind with
    | global => exact takes_globals.setExpr_eq (fun _ _ _ => rfl) hr hb hreach
    | element => exact takes_elements.setExpr_eq (fun _ _ _ => rfl) hr hb (hreach.image _)
    | data => exact takes_datas.setExpr_eq (fun _ _ _ => rfl) hr hb (hreach.image _)
    | _ => exact hreach.elim

/-- If the expression fits, the code in memory is the one the reader has left. -/
theorem Code.Copied.eq {b : BodyFrame} {code code' : Code} (h : Code.Copied li le b.body code code')
    (hleaves : b.Leaves code) (hfits : ∀ rest, BodyReaches b.body rest → ExprFits li le rest) :
    code' = code := by
  cases h with
  | none => rfl
  | @expr rest e hreach he =>
    obtain ⟨is, bs, rest, hbs, rfl, hfit⟩ := hfits rest hreach
    obtain ⟨ls, hd, hls, hbody⟩ := hreach
    obtain ⟨pos, fuel, r, hr, rfl⟩ := hleaves
    rw [bodyResult, binReadCode_eq] at hr
    have hcode : Encoding.body { locals := ls, expr := Expr.ofInstrs is } (hd ++ bs) :=
      ⟨_, is, hd, bs, ⟨ls, hls, rfl⟩, hbs, rfl, rfl⟩
    have hbytes : (binReaderSetScope {} pos b.body).rest = hd ++ bs ++ rest := by
      rw [List.append_assoc]
      exact hbody
    obtain ⟨ok, hreturns⟩ := takes_body.returns hcode hbytes
    obtain rfl := Outcome.Returns.unique (takes_body.stable _) ⟨fuel, hr⟩ hreturns
    rw [he.eq hbs hfit]

/-- **The module in memory.** If no chunk begins in a body in an expression, it is the one that the
lanes have left. -/
theorem Module.Copied.eq {file : List UInt8} {m₀ m : Module} (h : Copied li le file m₀ m)
    (hfits : ExpressionsFit li le file) {fs : List SectionFrame} (hfile : FileOf fs file) :
    m = m₀ := by
  refine eq_of_fields h.version (fun kind hkind => ?_) ?_
  · rcases h.field fs hfile kind hkind with
      ⟨f, hf, rfl, ⟨pos, fuel, r, hr, hvalue⟩, hcopied⟩ | ⟨-, h⟩
    · exact hcopied.eq hr hvalue (hfits.sections fs hfile f hf)
    · exact h
  · rcases h.codes with ⟨h₀, h⟩ | ⟨fs, f, fs', bs, hfs, h10, hfs', hbs, hlen, hlen', hcodes⟩
    · rw [h, h₀]
    · refine List.ext_getElem hlen' fun j hj hj₀ => ?_
      have hb := List.getElem?_eq_getElem (hlen ▸ hj₀ : j < bs.length)
      obtain ⟨hleaves, hcopied⟩ := hcodes j _ _ _ hb (List.getElem?_eq_getElem hj₀)
        (List.getElem?_eq_getElem hj)
      exact hcopied.eq hleaves
        (hfits.bodies fs f fs' hfs h10 hfs' bs hbs _ (List.mem_of_getElem? hb))

end Eq

/-! ### The module of a run -/

section Runs

variable {n : ℕ} {file : List UInt8}

/-- The lanes store the codes of the bodies of a code section whose structure was read. -/
theorem Lane.codes_stored (hn : 0 < n) {fuel : ℕ} {sec : BinSection} {s s' : ReadShared n}
    {r : ReadResult (List BinCode)}
    (hr : binReadCodeSectionStructure (Lane.scopeOf sec s ⟨0, hn⟩) = .returned r)
    (hok : r.ok = true) {log : List (Fin n × ℕ)}
    (hlog : entries log = fun lane => (laneRange lane r.value.length).indices)
    (hrun : log.foldlM (fun s e => Lane.readCode fuel e.1 r.value e.2 s)
      { Lane.structured hn sec s r with memory := .codes r.value } = .returned s') :
    (∃ codes, s'.module = { s.module with codes := codes }) ∧
      s'.module.codes.length = r.value.length ∧
      ∀ (j : ℕ) (binCode : BinCode), r.value[j]? = some binCode →
        bodyResult fuel binCode = .returned (bodyRead fuel r.value j) ∧
          s'.module.codes[j]? = some (bodyRead fuel r.value j).value := by
  obtain ⟨r₀, -, hok₀, hvalue, hmodule, -⟩ := structured_spec hn hr
  obtain ⟨hall, hmodule', -⟩ := bodies_read hn hlog hrun
  have hm : (Lane.structured hn sec s r).module =
      { s.module with codes := List.replicate r.value.length {} } := by
    rw [hmodule, Lane.withCodes, if_pos (hok₀ ▸ hok), hvalue]
  rw [foldl_codes] at hmodule'
  dsimp only at hmodule'
  rw [hm] at hmodule'
  refine ⟨⟨_, hmodule'⟩, ?_, fun j binCode hj => ?_⟩
  · rw [hmodule', foldl_set_length, List.length_replicate]
  · obtain ⟨hlt, -⟩ := List.getElem?_eq_some_iff.mp hj
    obtain ⟨binCode', code, hj', hcode⟩ := hall j (List.mem_range.mpr hlt)
    obtain rfl := Option.some.inj (hj.symm.trans hj')
    refine ⟨?_, ?_⟩
    · rw [bodyRead, hj, Option.map_some, Option.getD_some, hcode, Outcome.getD_returned]
    · rw [hmodule']
      exact foldl_set_getElem? (fun i => (bodyRead fuel r.value i).value)
        (List.mem_range.mpr hlt) (by rwa [List.length_replicate])

/-- The code section changes nothing but the codes. -/
theorem Lane.CodesRead.module (hn : 0 < n) {fuel : ℕ} {b : BinModule} {s s' : ReadShared n}
    (h : Lane.CodesRead hn fuel b s s') :
    ∃ codes, s'.module = { s.module with codes := codes } := by
  rcases h with ⟨-, rfl⟩ | ⟨sec, r, -, -, hr, ⟨hfail, rfl⟩ | ⟨hgood, log, hlog, hrun⟩⟩
  · exact ⟨_, rfl⟩
  · obtain ⟨r₀, -, hok₀, -, hmodule, -⟩ := structured_spec hn hr
    rw [Lane.withCodes, if_neg (by rw [← hok₀, hfail]; exact Bool.false_ne_true)] at hmodule
    exact ⟨_, hmodule⟩
  · exact (Lane.codes_stored hn hr hgood hlog hrun).1

/-- A field of a module that sections were read into was left by one of them, if there is one of
its kind. -/
theorem sections_leave (hn : 0 < n) {fuel : ℕ} {fs : List SectionFrame} {pos : ℕ}
    {log : List (Fin n × BinSection)} {s s' : ReadShared n}
    (hlog : entries log = fun lane =>
      laneRangeSlice lane ((placeAt SectionFrame.bytes pos fs).map frameSection))
    (h : log.foldlM (fun s e => Lane.readSection fuel e.1 e.2 s) s = .returned s')
    {kind : BinSectionKind} (hkind : kind ≠ .code) :
    (∃ f ∈ fs, BinSectionKind.ofByte f.kind = kind ∧ f.Leaves (s'.module.field kind)) ∨
      ∀ f ∈ fs, BinSectionKind.ofByte f.kind ≠ kind := by
  obtain ⟨hall, ⟨order, hperm, hmodule⟩, -⟩ := sections_interleaved hn hlog h
  have hread : ∀ sec ∈ order, sec.kind ≠ .code →
      binReadSection fuel (freshCtx sec.pos sec.data) sec.kind =
        .returned (sectionRead fuel sec) := by
    intro sec hsec hcode
    obtain ⟨r, hr⟩ := hall sec (hperm.mem_iff.mp hsec)
    rw [sectionRead, hr, Outcome.getD_returned]
    rwa [sectionResult, if_pos hcode] at hr
  by_cases hsome : ∃ f ∈ fs, BinSectionKind.ofByte f.kind = kind
  · obtain ⟨f, hf, rfl⟩ := hsome
    obtain ⟨sec, hsec, hsk, -⟩ := exists_section pos hf
    have horder := hperm.mem_iff.mpr hsec
    have hsec' := binReadSection_kind (hread sec horder (hsk ▸ hkind))
    rcases Module.field_foldl_cases (fun sec => (sectionRead fuel sec).value) order s.module
      (.ofByte f.kind) with ⟨sec', hmem, hvalue, hfield⟩ | ⟨hno, -⟩
    · by_cases hcode : sec'.kind = .code
      · -- the code section leaves nothing, and neither do custom sections
        obtain ⟨r, hr⟩ := hall sec' (hperm.mem_iff.mp hmem)
        rw [sectionRead, hr, Outcome.getD_returned] at hvalue hfield
        rw [sectionResult, if_neg (not_not.mpr hcode)] at hr
        obtain rfl := Outcome.returned.inj hr
        have hcustom : BinSectionKind.ofByte f.kind = .custom := hvalue.symm
        refine Or.inl ⟨f, hf, rfl, 0, 0, ⟨.nothing, true, freshCtx 0 f.payload⟩, ?_, ?_⟩
        · rw [hcustom]
          rfl
        · rw [hcustom]
          rfl
      · have hr := hread sec' hmem hcode
        obtain ⟨g, hg, hgk, hgd⟩ := exists_frame (hperm.mem_iff.mp hmem)
        have hsame := (binReadSection_kind hr).symm.trans hvalue
        rw [hgk] at hsame hr
        refine Or.inl ⟨g, hg, hsame, sec'.pos, fuel, _, hgd ▸ hr, ?_⟩
        rw [hmodule, hfield]
    · exact absurd (hsec'.trans hsk) (hno sec horder)
  · exact Or.inr fun f hf heq => hsome ⟨f, hf, heq⟩

/-- The module of a finished run was left by readers of the file: every field by that of a section
of its kind, if there is one, and every code by that of its body in the last code section. -/
theorem binRead_leaves (hn : 0 < n) {fuel : ℕ} {t : ReadShared n}
    (ht : Finish (binRead fuel file n) t) (hdone : t.done = true) :
    ∃ fs, FileOf fs file ∧
      (∀ kind ≠ .code, (∃ f ∈ fs, BinSectionKind.ofByte f.kind = kind ∧
          f.Leaves (t.module.field kind)) ∨ ∀ f ∈ fs, BinSectionKind.ofByte f.kind ≠ kind) ∧
      (t.module.codes = [] ∨ ∃ fs₁ f fs₂ bs, fs = fs₁ ++ f :: fs₂ ∧ f.kind = 10 ∧
        (∀ g ∈ fs₂, g.kind ≠ 10) ∧ BodiesOf bs f.payload ∧
        bs.length = t.module.codes.length ∧ ∀ (j : ℕ) (b : BodyFrame) (code : Code),
          bs[j]? = some b → t.module.codes[j]? = some code → b.Leaves code) := by
  rcases Lane.finish_binRead hn ht with ⟨-, rfl⟩ | ⟨hok, log, s₁, s₂, hlog, hrun, hcodes, rfl⟩
  · simp [Lane.scanned, setCtx] at hdone
  obtain ⟨fs, hfile, hsections, hindex⟩ := binScanModule_frames rfl rfl hok
  rw [hsections] at hlog
  have hfields := fun (kind : BinSectionKind) (hkind : kind ≠ .code) =>
    sections_leave hn hlog hrun hkind
  have hempty : s₁.module.codes = [] := by
    obtain ⟨-, ⟨order, -, hmodule⟩, -⟩ := sections_interleaved hn hlog hrun
    rw [hmodule, foldl_assign_codes]
    rfl
  refine ⟨fs, hfile, ?_⟩
  rcases hcodes with ⟨-, rfl⟩ | ⟨sec, r, hsec, hpos, hr, ⟨hfail, rfl⟩ | ⟨hgood, log', hlog', hrun'⟩⟩
  · exact ⟨hfields, Or.inl hempty⟩
  · obtain ⟨r₀, -, hok₀, -, hmodule, -⟩ := structured_spec hn hr
    rw [Lane.withCodes, if_neg (by rw [← hok₀, hfail]; exact Bool.false_ne_true)] at hmodule
    dsimp only
    rw [hmodule]
    exact ⟨hfields, Or.inl hempty⟩
  · obtain ⟨⟨codes, hmodule⟩, hlen, hstored⟩ := Lane.codes_stored hn hr hgood hlog' hrun'
    refine ⟨fun kind hkind => ?_, Or.inr ?_⟩
    · dsimp only
      rw [hmodule, Module.field_withCodes]
      exact hfields kind hkind
    · rw [hindex] at hpos hsec
      rw [hsections] at hsec
      obtain ⟨q, -, rfl, h10, fs₁, fs₂, hfs, hfs₂⟩ := codeSection_frame hpos hsec
      obtain ⟨r₀, hr₀, hok₀, hvalue, -⟩ := structured_spec hn hr
      obtain ⟨bs, count, rest, hvalid, hcount, hdata, hbodies, -⟩ :=
        binReadCodeSectionStructure_bodies hr₀ (hok₀ ▸ hgood)
      refine ⟨fs₁, q.2, fs₂, bs, hfs, h10, hfs₂, ⟨hvalid, count, rest, hcount, hdata⟩, ?_, ?_⟩
      · rw [hlen, hvalue, hbodies, List.length_map, ← List.length_map (f := Prod.snd),
          placeAt_map_snd]
      · intro j b code hb hcode
        rw [← placeAt_map_snd BodyFrame.bytes (binReaderAbsolutePos (freshCtx (frameSection q).pos
          (frameSection q).data) + count.length) bs, List.getElem?_map] at hb
        obtain ⟨p, hp, rfl⟩ := Option.map_eq_some_iff.mp hb
        have hbin : r.value[j]? = some (bodyCode p) := by
          rw [hvalue, hbodies, List.getElem?_map, hp, Option.map_some]
        obtain ⟨hread, hcode'⟩ := hstored j _ hbin
        exact ⟨p.1, fuel, _, hread, Option.some.inj (hcode'.symm.trans hcode)⟩

variable {li le : ChunkLengths}

theorem FieldValue.exists_copied {kind : BinSectionKind} {bs : List UInt8} (v : FieldValue)
    (h : ∀ rest, ReachesExpr kind bs rest → ∃ e, ExprCopied li le rest e) :
    ∃ v', FieldValue.Copied li le kind bs v v' ∧ v'.kind = v.kind := by
  by_cases hreach : ∃ rest, ReachesExpr kind bs rest
  · obtain ⟨rest, hreach⟩ := hreach
    obtain ⟨e, he⟩ := h rest hreach
    refine ⟨v.setExpr e, .expr hreach he, ?_⟩
    cases v <;> rfl
  · exact ⟨v, .none fun rest hrest => hreach ⟨rest, hrest⟩, rfl⟩

theorem Code.exists_copied {body : List UInt8} (code : Code)
    (h : ∀ rest, BodyReaches body rest → ∃ e, ExprCopied li le rest e) :
    ∃ code', Code.Copied li le body code code' := by
  by_cases hreach : ∃ rest, BodyReaches body rest
  · obtain ⟨rest, hreach⟩ := hreach
    obtain ⟨e, he⟩ := h rest hreach
    exact ⟨_, .expr hreach he⟩
  · exact ⟨code, .none fun rest hrest => hreach ⟨rest, hrest⟩⟩

/-- **There is a module in memory.** Where every expression that is reached can be copied, a
finished run leaves one. -/
theorem exists_copied (hn : 0 < n) {fuel : ℕ} {t : ReadShared n}
    (ht : Finish (binRead fuel file n) t) (hdone : t.done = true)
    (hcopy : EveryExpr (fun rest => ∃ e, ExprCopied li le rest e) file) :
    ∃ m, Module.Copied li le file t.module m := by
  obtain ⟨fs, hfile, hfields, hcodes⟩ := binRead_leaves hn ht hdone
  have hfield : ∀ kind : BinSectionKind, ∃ v : FieldValue, kind ≠ .code → v.kind = kind ∧
      ((∃ f ∈ fs, BinSectionKind.ofByte f.kind = kind ∧ f.Leaves (t.module.field kind) ∧
        FieldValue.Copied li le kind f.payload (t.module.field kind) v) ∨
      (∀ f ∈ fs, BinSectionKind.ofByte f.kind ≠ kind) ∧ v = t.module.field kind) := by
    intro kind
    by_cases hcode : kind = .code
    · exact ⟨.nothing, fun h => absurd hcode h⟩
    rcases hfields kind hcode with ⟨f, hf, hk, hleaves⟩ | hno
    · obtain ⟨v, hv, hvk⟩ := FieldValue.exists_copied (t.module.field kind) fun rest hrest =>
        hcopy.sections fs hfile f hf rest (hk ▸ hrest)
      exact ⟨v, fun _ => ⟨hvk.trans (Module.kind_field hcode), Or.inl ⟨f, hf, hk, hleaves, hv⟩⟩⟩
    · exact ⟨_, fun _ => ⟨Module.kind_field hcode, Or.inr ⟨hno, rfl⟩⟩⟩
  choose v hv using hfield
  have hmodule : ∀ codes, ∃ m : Module, m.version = t.module.version ∧ m.codes = codes ∧
      ∀ kind ≠ .code, m.field kind = v kind :=
    fun codes => t.module.exists_fields codes v fun kind hkind => (hv kind hkind).1
  have hall : ∀ m : Module, (∀ kind ≠ .code, m.field kind = v kind) →
      ∀ fs', FileOf fs' file → ∀ kind ≠ .code,
        (∃ f ∈ fs', BinSectionKind.ofByte f.kind = kind ∧ f.Leaves (t.module.field kind) ∧
          FieldValue.Copied li le kind f.payload (t.module.field kind) (m.field kind)) ∨
        (∀ f ∈ fs', BinSectionKind.ofByte f.kind ≠ kind) ∧
          m.field kind = t.module.field kind := by
    intro m hm fs' hfs' kind hkind
    obtain rfl := hfile.unique hfs'
    rw [hm kind hkind]
    exact (hv kind hkind).2
  rcases hcodes with hempty | ⟨fs₁, f, fs₂, bs, rfl, h10, hfs₂, hbs, hlen, hleaves⟩
  · obtain ⟨m, hversion, hmcodes, hm⟩ := hmodule []
    exact ⟨m, hversion, hall m hm, Or.inl ⟨hempty, hmcodes⟩⟩
  · have hcode : ∀ j : Fin t.module.codes.length, ∃ code',
        Code.Copied li le (bs.get (j.cast hlen.symm)).body (t.module.codes.get j) code' :=
      fun j => Code.exists_copied _ (hcopy.bodies fs₁ f fs₂ hfile h10 hfs₂ bs hbs _
        (List.get_mem _ _))
    choose code' hcode' using hcode
    obtain ⟨m, hversion, hmcodes, hm⟩ := hmodule (List.ofFn code')
    refine ⟨m, hversion, hall m hm, Or.inr ⟨fs₁, f, fs₂, bs, hfile, h10, hfs₂, hbs, hlen, ?_, ?_⟩⟩
    · rw [hmcodes, List.length_ofFn]
    · intro j b code c hb hcode hc
      refine ⟨hleaves j b code hb hcode, ?_⟩
      obtain ⟨hjb, rfl⟩ := List.getElem?_eq_some_iff.mp hb
      obtain ⟨hj, rfl⟩ := List.getElem?_eq_some_iff.mp hcode
      rw [hmcodes, List.getElem?_ofFn, dif_pos hj] at hc
      obtain rfl := Option.some.inj hc
      exact hcode' ⟨j, hj⟩

end Runs

end Wasim
