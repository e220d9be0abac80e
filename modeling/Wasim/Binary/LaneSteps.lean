import Wasim.Binary.Reached

/-!
# The lanes stay in step

All lanes of `bin_read_entry_point` go through the same barriers, and each call of
`lane_sync_value` hands the value of lane 0 to every lane, as long as no reader hangs
(`binRead_lanes_in_step`): the branches around the barriers are taken on values that came
through `lane_sync_value`, so every lane takes the same one.

A lane whose reader does not come back never reaches its next barrier, and the others wait for
it (`binRead_lanes_stuck`).
-/

namespace Wasim

open Lanes ReadShared

variable {n : ℕ}

/-! ### The barriers -/

namespace Lane

section Behind

variable (fuel : ℕ) (file : List UInt8) (lane : Fin n)

/-- What follows `lane_sync_value(&ctxs, 0)`. -/
def behindCtxs : LaneWord → Prog (ReadShared n)
  | .ctxs => scan fuel file lane
  | _ => crash

/-- What follows `lane_sync_value(&bin_module, 0)`. -/
def behindModule : LaneWord → Prog (ReadShared n)
  | .module binModule => readSections fuel lane binModule
  | _ => crash

/-- What follows `lane_sync_value(&ok, 0)` behind the scan. -/
def behindOk (binModule ok : LaneWord) : Prog (ReadShared n) :=
  if ok.asFlag then laneSyncValue laneMemory lane binModule 0 (behindModule fuel lane) else .done

/-- What follows `lane_sync_value(&bin_codes, 0)`. -/
def behindCodes : LaneWord → Prog (ReadShared n)
  | .codes binCodes => readCodes fuel lane binCodes
  | _ => crash

end Behind

/-- The barriers of `bin_read_entry_point`, in the order of the source. Each call of
`lane_sync_value` has two: the value is written, and the value is copied. -/
inductive Barrier where
  | start
  | ctxs
  | ctxsCopied
  | scanOk
  | scanOkCopied
  | binModule
  | binModuleCopied
  | sections
  | structureOk
  | structureOkCopied
  | binCodes
  | binCodesCopied
  | bodies
  | collected
  deriving DecidableEq, Repr

/-- The lane waits at the barrier. -/
def WaitsAt (fuel : ℕ) (file : List UInt8) (lane : Fin n) (p : Prog (ReadShared n)) :
    Barrier → Prop
  | .start => p = binReadEntryPoint fuel file lane
  | .ctxs => ∃ w, p = .sync (laneTakeValue laneMemory lane w 0 (behindCtxs fuel file lane))
  | .ctxsCopied => ∃ w, p = .sync (behindCtxs fuel file lane w)
  | .scanOk => ∃ ok w, p = .sync (laneTakeValue laneMemory lane ok 0 (behindOk fuel lane w))
  | .scanOkCopied => ∃ ok w, p = .sync (behindOk fuel lane w ok)
  | .binModule => ∃ w, p = .sync (laneTakeValue laneMemory lane w 0 (behindModule fuel lane))
  | .binModuleCopied => ∃ w, p = .sync (behindModule fuel lane w)
  | .sections => ∃ m, p = .sync (readCodeSection fuel lane m)
  | .structureOk =>
    ∃ ok binCodes, p = .sync (laneTakeValue laneMemory lane ok 0 (shareCodes fuel lane binCodes))
  | .structureOkCopied => ∃ ok binCodes, p = .sync (shareCodes fuel lane binCodes ok)
  | .binCodes => ∃ w, p = .sync (laneTakeValue laneMemory lane w 0 (behindCodes fuel lane))
  | .binCodesCopied => ∃ w, p = .sync (behindCodes fuel lane w)
  | .bodies => p = .sync (collect lane)
  | .collected => p = .sync (onLane0 lane (fun s => { s with done := true }) .done)

/-- All lanes wait at one and the same barrier. -/
def SameBarrier (fuel : ℕ) (file : List UInt8) (c : Config (ReadShared n) n) : Prop :=
  ∃ b, ∀ lane, WaitsAt fuel file lane (c.lanes lane) b

/-! ### Phases -/

variable {fuel : ℕ} {file : List UInt8} {s : ReadShared n}

theorem steady_onLane0 (hn : 0 < n) {f : ReadShared n → ReadShared n}
    {k : Fin n → Prog (ReadShared n)} (hk : ∀ i : Fin n, i.val ≠ 0 → (k i).Halted)
    {Q : Config (ReadShared n) n → Prop} (h : Steady Q ⟨f s, k⟩) :
    Steady Q ⟨s, fun i => onLane0 i f (k i)⟩ := by
  refine Steady.act (j := ⟨0, hn⟩) (by rw [onLane0, if_pos rfl]) (fun i hi => ?_) rfl ?_
  · rw [onLane0_other hn hi]
    exact hk i (val_ne_zero hn hi)
  · rwa [update_onLane0]

theorem steady_collect (hn : 0 < n) : Steady (SameBarrier fuel file) ⟨s, collect⟩ :=
  steady_onLane0 hn (fun _ _ => Prog.halted_sync _) <|
    Steady.sync hn ⟨.collected, fun _ => rfl⟩ <|
    steady_onLane0 hn (fun _ _ => Prog.halted_done) (steady_done hn _)

/-- Reading a section hangs exactly when the section on its own does. -/
theorem readSection_eq_outOfFuel_iff (sec : BinSection) (lane : Fin n) (s : ReadShared n) :
    readSection fuel lane sec s = .outOfFuel ↔ sectionResult fuel sec = .outOfFuel := by
  rw [readSection, sectionResult]
  split
  · have hframe := binReadSection_frame fuel sec.kind (freshCtx sec.pos sec.data)
      (s.ctxs lane).diags
    rw [binReadSectionIntoModule, binReaderSetScope_eq]
    dsimp only at hframe
    rw [hframe]
    cases binReadSection fuel (freshCtx sec.pos sec.data) sec.kind with
    | returned r => exact ⟨fun h => (by cases h), fun h => (by cases h)⟩
    | crashed => exact ⟨fun h => (by cases h), fun h => (by cases h)⟩
    | outOfFuel => exact ⟨fun _ => rfl, fun _ => rfl⟩
  · exact ⟨fun h => (by cases h), fun h => (by cases h)⟩

theorem readCode_ne_outOfFuel {binCodes : List BinCode}
    (h : ∀ code ∈ binCodes, bodyResult fuel code ≠ .outOfFuel) (lane : Fin n) (i : ℕ)
    (s : ReadShared n) : readCode fuel lane binCodes i s ≠ .outOfFuel := by
  intro hhang
  rw [readCode] at hhang
  split at hhang
  · rename_i code hcode
    rcases Outcome.bind_eq_outOfFuel.mp hhang with hread | ⟨r, -, hret⟩
    · -- the scope of the body replaces all but the diagnostics
      have hscope : binReadCode fuel (s.ctxs lane) code =
          binReadCode fuel (BinReadCtx.under {} (s.ctxs lane).diags) code := by
        simp only [binReadCode, binReaderSetScope, BinReadCtx.under, List.append_nil]
      have hframe := binReadCode_frame fuel code {} (s.ctxs lane).diags
      rcases Outcome.bind_eq_outOfFuel.mp (hframe.symm.trans (hscope.symm.trans hread)) with
        hread | ⟨r, -, hret⟩
      · exact h code (List.mem_of_getElem? hcode) hread
      · cases hret
    · split at hret
      · cases hret
      · cases hret
  · cases hhang

theorem steady_readCodes (hn : 0 < n) {binCodes : List BinCode}
    (h : ∀ code ∈ binCodes, bodyResult fuel code ≠ .outOfFuel) :
    Steady (SameBarrier fuel file) ⟨s, fun lane => readCodes fuel lane binCodes⟩ :=
  Steady.forEach (J := fun _ => True) hn
    (fun lane i _ t _ => readCode_ne_outOfFuel h lane i t) (fun _ _ _ _ _ _ _ => trivial)
    trivial (fun _ _ => ⟨.bodies, fun _ => rfl⟩) fun _ _ => steady_collect hn

/-- Behind the structure of the code section. -/
theorem steady_shareCodes (hn : 0 < n) {r : ReadResult (List BinCode)}
    (h : r.ok = true → ∀ code ∈ r.value, bodyResult fuel code ≠ .outOfFuel) :
    Steady (SameBarrier fuel file) ⟨s, fun lane => shareCodes fuel lane
      (if lane = ⟨0, hn⟩ then r.value else []) (.flag r.ok)⟩ := by
  cases hok : r.ok with
  | false =>
    simp only [shareCodes, LaneWord.asFlag, Bool.false_eq_true, if_false]
    exact (steady_collect hn).sync hn ⟨.bodies, fun _ => rfl⟩
  | true =>
    simp only [shareCodes, LaneWord.asFlag, if_true]
    refine steady_laneSyncValue (k := behindCodes fuel) ⟨0, hn⟩ ⟨.binCodes, fun _ => ⟨_, rfl⟩⟩
      ⟨.binCodesCopied, fun _ => ⟨_, rfl⟩⟩ ?_
    simp only [if_true]
    exact steady_readCodes hn (h hok)

/-- No action of the phase hangs: the structure is always read to an end. -/
theorem InStructure.moves (hn : 0 < n) {codeSection : BinSection} {i : Fin n}
    {u : ReadShared n} {f : ReadShared n → Outcome (ReadShared n × Prog (ReadShared n))}
    (h : InStructure hn fuel codeSection s i u (.act f)) : f u ≠ .outOfFuel := by
  intro hhang
  have hread : ∀ g, Prog.act g = readStructure fuel i codeSection → g u ≠ .outOfFuel := by
    intro g hg
    rw [readStructure] at hg
    obtain rfl := Prog.act.inj hg
    dsimp only
    split
    · obtain ⟨r, hr⟩ := binReadVec_returns {} binReadCodeStructure
        (binReaderSetScope (u.ctxs i) codeSection.pos codeSection.data)
      rw [binReadCodeSectionStructure, hr]
      exact fun h => by cases h
    · exact fun h => by cases h
  have hwrite : ∀ g ok codes, Prog.act g = afterStructure fuel i ok codes →
      g u ≠ .outOfFuel := by
    intro g ok codes hg
    rw [afterStructure, laneSyncValue] at hg
    split at hg
    · obtain rfl := Prog.act.inj hg
      exact fun h => by cases h
    · cases hg
  rw [InStructure] at h
  split at h
  · rcases h with ⟨hp, -⟩ | ⟨r, -, -, ⟨hp, -⟩ | ⟨hp, -⟩⟩
    · exact hread f hp hhang
    · exact hwrite f _ _ hp hhang
    · cases hp
  · rcases h with ⟨hp, -⟩ | ⟨hp, -⟩
    · exact hread f hp hhang
    · exact hwrite f _ _ hp hhang

theorem steady_readStructure (hn : 0 < n) {codeSection : BinSection}
    (h : ∀ c r, c.base = codeSection.pos → c.curr = 0 → c.data = codeSection.data →
      binReadCodeSectionStructure c = .returned r → r.ok = true →
      ∀ code ∈ r.value, bodyResult fuel code ≠ .outOfFuel) :
    Steady (SameBarrier fuel file) ⟨s, fun lane => readStructure fuel lane codeSection⟩ := by
  refine Steady.of_invariants (I := InStructure hn fuel codeSection s) hn
    (fun _ _ _ _ _ => InStructure.own hn) (fun _ _ _ _ _ _ _ => InStructure.other hn)
    (fun _ _ _ => InStructure.moves hn) (InStructure.start hn) fun u p hp hhalt => ?_
  obtain ⟨r, hr, rfl, hlanes⟩ := InStructure.halted hn hp hhalt
  refine Or.inr ⟨_, hlanes, ⟨.structureOk, fun lane => ⟨_, _, hlanes lane⟩⟩, ?_⟩
  refine Steady.looks hn (k := fun lane => shareCodes fuel lane
    (if lane = ⟨0, hn⟩ then r.value else []) (.flag r.ok)) (fun i => ?_)
    ⟨.structureOkCopied, fun _ => ⟨_, _, rfl⟩⟩ ?_
  · have hread : laneMemory.read { structured hn codeSection s r with memory := .flag r.ok } =
        if (⟨0, hn⟩ : Fin n) = ⟨0, hn⟩ then LaneWord.flag r.ok else .flag true := by
      rw [if_pos rfl]
      rfl
    have hlooks := looks_laneTakeValue
      (v := fun i => if i = ⟨0, hn⟩ then LaneWord.flag r.ok else .flag true)
      (k := fun i => shareCodes fuel i (if i = ⟨0, hn⟩ then r.value else [])) ⟨0, hn⟩ hread i
    rw [if_pos rfl] at hlooks
    exact hlooks
  · exact steady_shareCodes hn fun hok => h _ r rfl rfl rfl hr hok

/-- No reader of the module hangs with this fuel. -/
structure ModuleEnds (fuel : ℕ) (m : BinModule) : Prop where
  sections : ∀ sec ∈ m.sections, sectionResult fuel sec ≠ .outOfFuel
  bodies : ∀ sec, 0 ≤ m.codeSectionIndex →
    m.sections[m.codeSectionIndex.toNat]? = some sec →
    ∀ c r, c.base = sec.pos → c.curr = 0 → c.data = sec.data →
      binReadCodeSectionStructure c = .returned r → r.ok = true →
      ∀ code ∈ r.value, bodyResult fuel code ≠ .outOfFuel
  index : 0 ≤ m.codeSectionIndex → m.codeSectionIndex.toNat < m.sections.length

theorem steady_readCodeSection (hn : 0 < n) {m : BinModule} (h : ModuleEnds fuel m) :
    Steady (SameBarrier fuel file) ⟨s, fun lane => readCodeSection fuel lane m⟩ := by
  by_cases hpos : 0 ≤ m.codeSectionIndex
  · have hsec := List.getElem?_eq_getElem (h.index hpos)
    simp only [readCodeSection, if_pos hpos, hsec]
    exact steady_readStructure hn (h.bodies _ hpos hsec)
  · simp only [readCodeSection, if_neg hpos]
    exact (steady_collect hn).sync hn ⟨.bodies, fun _ => rfl⟩

theorem steady_readSections (hn : 0 < n) {m : BinModule} (h : ModuleEnds fuel m) :
    Steady (SameBarrier fuel file) ⟨s, fun lane => readSections fuel lane m⟩ := by
  refine Steady.forEach (J := fun _ => True) hn (fun lane sec hsec t _ => ?_)
    (fun _ _ _ _ _ _ _ => trivial) trivial (fun _ _ => ⟨.sections, fun _ => ⟨m, rfl⟩⟩)
    fun _ _ => steady_readCodeSection hn h
  have hmem : sec ∈ m.sections := List.mem_of_mem_take (List.mem_of_mem_drop hsec)
  rw [Ne, readSection_eq_outOfFuel_iff]
  exact h.sections sec hmem

theorem steady_afterScan (hn : 0 < n) {ok : Fin n → Bool} {w : Fin n → LaneWord}
    {m : BinModule} (hw : w ⟨0, hn⟩ = .module m)
    (h : ok ⟨0, hn⟩ = true → ModuleEnds fuel m) :
    Steady (SameBarrier fuel file)
      ⟨s, fun lane => afterScan fuel lane (ok lane) (w lane)⟩ := by
  refine steady_laneSyncValue (k := fun lane => behindOk fuel lane (w lane)) ⟨0, hn⟩
    ⟨.scanOk, fun _ => ⟨_, _, rfl⟩⟩ ⟨.scanOkCopied, fun _ => ⟨_, _, rfl⟩⟩ ?_
  cases hok : ok ⟨0, hn⟩ with
  | false =>
    simp only [behindOk, LaneWord.asFlag, Bool.false_eq_true, if_false]
    exact steady_done hn _
  | true =>
    simp only [behindOk, LaneWord.asFlag, if_true]
    refine steady_laneSyncValue ⟨0, hn⟩ ⟨.binModule, fun _ => ⟨_, rfl⟩⟩
      ⟨.binModuleCopied, fun _ => ⟨_, rfl⟩⟩ ?_
    simp only [hw]
    exact steady_readSections hn (h hok)

theorem steady_scan (hn : 0 < n) {m : ReadResult BinModule}
    (hm : binScanModule (binReaderSetScope (s.ctxs ⟨0, hn⟩) 0 file) = m)
    (h : m.ok = true → ModuleEnds fuel m.value) :
    Steady (SameBarrier fuel file) ⟨s, scan fuel file⟩ := by
  refine Steady.act (j := ⟨0, hn⟩) (by rw [scan, if_pos rfl]) (fun i hi => ?_) rfl ?_
  · rw [scan_other hn hi]
    exact halted_laneSyncValue (val_ne_zero hn hi) _ _
  · rw [hm, update_scan]
    exact steady_afterScan hn (if_pos rfl) fun hok => h (by rwa [if_pos rfl] at hok)

theorem steady_binRead (hn : 0 < n)
    (h : (binScanModule (fileCtx file)).ok = true →
      ModuleEnds fuel (binScanModule (fileCtx file)).value) :
    Steady (SameBarrier fuel file) (binRead fuel file n) := by
  refine Steady.sync hn ⟨.start, fun _ => rfl⟩
    (steady_onLane0 hn (fun i hi => halted_laneSyncValue hi _ _) ?_)
  exact steady_laneSyncValue (k := behindCtxs fuel file) ⟨0, hn⟩ ⟨.ctxs, fun _ => ⟨_, rfl⟩⟩
    ⟨.ctxsCopied, fun _ => ⟨_, rfl⟩⟩ (steady_scan hn rfl h)

end Lane

/-! ### Files whose readers end -/

/-- Every expression that a reader of the file reaches is closed by its bytes, in a section and
in a body of the last code section. -/
def ReadersEnd (file : List UInt8) : Prop :=
  EveryExpr (fun rest => closes [.body] rest = true) file

/-- The reader of a section terminates exactly if the expression it reaches is closed. -/
theorem binReadSection_terminates_iff {kind : BinSectionKind} (hcode : kind ≠ .code)
    (c : BinReadCtx) :
    Outcome.Terminates (fun fuel => binReadSection fuel c kind) ↔
      ∀ rest, ReachesExpr kind c.rest rest → closes [.body] rest = true := by
  refine binReadSection_ends_iff Outcome.Ending.terminates ?_ hcode c
  exact binReadExpr_terminates_iff_closes

/-- The reader of a body terminates exactly if the expression behind its locals is closed. -/
theorem bodyResult_terminates_iff (binCode : BinCode) :
    Outcome.Terminates (fun fuel => bodyResult fuel binCode) ↔
      ∀ rest, BodyReaches binCode.data rest → closes [.body] rest = true := by
  refine bodyResult_ends_iff Outcome.Ending.terminates ?_ binCode
  exact binReadExpr_terminates_iff_closes

/-- No reader hangs on such a file, and on no other: neither that of a section, wherever it
stands, nor that of a body in the last code section. -/
theorem readersEnd_iff {file : List UInt8} :
    ReadersEnd file ↔
      (∀ fs, FileOf fs file → ∀ f ∈ fs, f.kind ≠ 10 → ∀ pos, Outcome.Terminates fun fuel =>
        binReadSection fuel (freshCtx pos f.payload) (.ofByte f.kind)) ∧
      (∀ fs f fs', FileOf (fs ++ f :: fs') file → f.kind = 10 → (∀ g ∈ fs', g.kind ≠ 10) →
        ∀ bs, BodiesOf bs f.payload → ∀ b ∈ bs, ∀ pos, Outcome.Terminates fun fuel =>
          bodyResult fuel ⟨pos, b.body⟩) := by
  constructor
  · intro h
    refine ⟨fun fs hfs f hf h10 pos => ?_, fun fs f fs' hfs h10 hfs' bs hbs b hb pos => ?_⟩
    · have hkind := mt (ofByte_eq_code_iff f.kind).mp h10
      exact (binReadSection_terminates_iff hkind _).mpr (h.sections fs hfs f hf)
    · exact (bodyResult_terminates_iff _).mpr (h.bodies fs f fs' hfs h10 hfs' bs hbs b hb)
  · rintro ⟨hsections, hbodies⟩
    refine ⟨fun fs hfs f hf rest hreach => ?_, fun fs f fs' hfs h10 hfs' bs hbs b hb => ?_⟩
    · by_cases h10 : f.kind = 10
      · rw [(ofByte_eq_code_iff _).mpr h10] at hreach
        exact hreach.elim
      · have hkind := mt (ofByte_eq_code_iff f.kind).mp h10
        exact (binReadSection_terminates_iff hkind _).mp (hsections fs hfs f hf h10 0) rest hreach
    · exact (bodyResult_terminates_iff ⟨0, b.body⟩).mp (hbodies fs f fs' hfs h10 hfs' bs hbs b hb 0)

/-- The bodies of the code section do not depend on the diagnostics of the lane. -/
theorem binReadCodeSectionStructure_value {base : ℕ} {data : List UInt8} {c : BinReadCtx}
    (hbase : c.base = base) (hcurr : c.curr = 0) (hdata : c.data = data)
    {r : ReadResult (List BinCode)} (h : binReadCodeSectionStructure c = .returned r) :
    ∃ r₀, binReadCodeSectionStructure (freshCtx base data) = .returned r₀ ∧ r.ok = r₀.ok ∧
      r.value = r₀.value := by
  have hc : c = (freshCtx base data).under c.diags := by
    rw [freshCtx, BinReadCtx.under, ← hbase, ← hdata, ← hcurr]
    simp
  have hframe := binReadCodeSectionStructure_frame (freshCtx base data) c.diags
  rw [← hc, h] at hframe
  obtain ⟨r₀, hr₀, hr⟩ := Outcome.bind_eq_returned.mp hframe.symm
  obtain rfl := Outcome.returned.inj hr
  exact ⟨r₀, hr₀, rfl, rfl⟩

/-- With enough fuel, no body of the code section hangs. -/
theorem ReadersEnd.bodiesEnd {file : List UInt8} (h : ReadersEnd file)
    {fs : List SectionFrame} (hfile : FileOf fs file) {sec : BinSection}
    (hpos : 0 ≤ codeSectionIndex ((placeAt SectionFrame.bytes 8 fs).map frameSection))
    (hsec : ((placeAt SectionFrame.bytes 8 fs).map frameSection)[(codeSectionIndex
      ((placeAt SectionFrame.bytes 8 fs).map frameSection)).toNat]? = some sec) :
    ∃ N, ∀ fuel, N ≤ fuel → ∀ c r, c.base = sec.pos → c.curr = 0 → c.data = sec.data →
      binReadCodeSectionStructure c = .returned r → r.ok = true →
      ∀ code ∈ r.value, bodyResult fuel code ≠ .outOfFuel := by
  obtain ⟨q, hq, rfl, h10, fs₁, fs₂, rfl, hfs₂⟩ := codeSection_frame hpos hsec
  obtain ⟨r₀, hr₀⟩ := binReadVec_returns {} binReadCodeStructure
    (freshCtx (frameSection q).pos (frameSection q).data)
  have hsame : ∀ c r, c.base = (frameSection q).pos → c.curr = 0 →
      c.data = (frameSection q).data → binReadCodeSectionStructure c = .returned r →
      r.ok = r₀.ok ∧ r.value = r₀.value := by
    intro c r hbase hcurr hdata hr
    obtain ⟨r₁, hr₁, hok, hvalue⟩ := binReadCodeSectionStructure_value hbase hcurr hdata hr
    obtain rfl := Outcome.returned.inj (hr₀.symm.trans hr₁)
    exact ⟨hok, hvalue⟩
  cases hok : r₀.ok with
  | false =>
    refine ⟨0, fun _ _ c r hbase hcurr hdata hr hrok => ?_⟩
    rw [(hsame c r hbase hcurr hdata hr).1, hok] at hrok
    cases hrok
  | true =>
    obtain ⟨bs, count, rest, hvalid, hcount, hdata₀, hvalue, -⟩ :=
      binReadCodeSectionStructure_bodies hr₀ hok
    have hbs : BodiesOf bs q.2.payload := ⟨hvalid, count, rest, hcount, hdata₀⟩
    obtain ⟨N, hN⟩ := Outcome.exists_fuel bodyResult_stable r₀.value fun code hcode => by
      rw [hvalue] at hcode
      obtain ⟨b, hb, rfl⟩ := List.mem_map.mp hcode
      exact (bodyResult_terminates_iff _).mpr
        (h.bodies fs₁ q.2 fs₂ hfile h10 hfs₂ bs hbs b.2 (mem_of_mem_placeAt hb))
    refine ⟨N, fun fuel hfuel c r hbase hcurr hdata hr _ => ?_⟩
    rw [(hsame c r hbase hcurr hdata hr).2]
    exact hN fuel hfuel

/-- With enough fuel, no reader of the scanned module hangs. -/
theorem ReadersEnd.moduleEnds {file : List UInt8} (h : ReadersEnd file)
    (hok : (binScanModule (fileCtx file)).ok = true) :
    ∃ N, ∀ fuel, N ≤ fuel → Lane.ModuleEnds fuel (binScanModule (fileCtx file)).value := by
  obtain ⟨fs, hfile, hsections, hindex⟩ := binScanModule_frames rfl rfl hok
  generalize (binScanModule (fileCtx file)).value = m at hsections hindex
  obtain ⟨N₁, hN₁⟩ := Outcome.exists_fuel sectionResult_stable m.sections fun sec hsec => by
    rw [hsections] at hsec
    obtain ⟨q, hq, rfl⟩ := List.mem_map.mp hsec
    by_cases hkind : (frameSection q).kind ≠ .code
    · simp only [sectionResult, if_pos hkind]
      exact (binReadSection_terminates_iff hkind _).mpr
        (h.sections fs hfile q.2 (mem_of_mem_placeAt hq))
    · simp only [sectionResult, if_neg hkind]
      exact ⟨0, fun h => by cases h⟩
  by_cases hpos : 0 ≤ m.codeSectionIndex
  · obtain ⟨l₁, sec, l₂, hl, -, -, hidx⟩ := codeSectionIndex_spec (hindex ▸ hpos)
    have hidx' : m.codeSectionIndex.toNat = l₁.length := by rw [hindex, hidx, Int.toNat_natCast]
    have hsec : m.sections[m.codeSectionIndex.toNat]? = some sec := by
      rw [hsections, hl, hidx', List.getElem?_append_right le_rfl, Nat.sub_self]
      rfl
    have hsec' := hsec
    rw [hsections, hindex] at hsec'
    obtain ⟨N₂, hN₂⟩ := h.bodiesEnd hfile (hindex ▸ hpos) hsec'
    refine ⟨max N₁ N₂, fun fuel hfuel => ⟨hN₁ fuel (le_of_max_le_left hfuel), ?_, ?_⟩⟩
    · intro sec' _ hsec''
      obtain rfl := Option.some.inj (hsec.symm.trans hsec'')
      exact hN₂ fuel (le_of_max_le_right hfuel)
    · intro _
      exact (List.getElem?_eq_some_iff.mp hsec).1
  · exact ⟨N₁, fun fuel hfuel => ⟨hN₁ fuel hfuel, fun _ hpos' => absurd hpos' hpos,
      fun hpos' => absurd hpos' hpos⟩⟩

/-! ### Whole runs -/

/-- The lanes of a configuration are in step. No lane hangs, and lanes that have all halted
are all done or all wait. When one waits, all come to wait, unless a reader aborts the
program, and they wait at the same barrier. Whenever all of them are inside a call of
`lane_sync_value`, each goes on behind it with the value that lane 0 held. -/
structure LanesInStep (hn : 0 < n) (fuel : ℕ) (file : List UInt8)
    (c : Config (ReadShared n) n) : Prop where
  inStep : InStep c
  waits : ∀ i k, c.lanes i = .sync k → Inevitable (fun d => AllWait d ∨ ∃ j, Crashes d j) c
  same : AllWait c → Lane.SameBarrier fuel file c
  shares : ∀ v k, InCall laneMemory ⟨0, hn⟩ v k c →
    ∀ s₁ s₂ (p₁ k₁ p₂ k₂ : Fin n → Prog (ReadShared n)),
      Acts c ⟨s₁, p₁⟩ → (∀ i, p₁ i = .sync (k₁ i)) →
      Acts ⟨s₁, k₁⟩ ⟨s₂, p₂⟩ → (∀ i, p₂ i = .sync (k₂ i)) → ∀ i, k₂ i = k i (v ⟨0, hn⟩)

/-- Lane 0 can take a step of its own. -/
theorem Lane.run_onLane0 (hn : 0 < n) {s : ReadShared n} {f : ReadShared n → ReadShared n}
    {k : Fin n → Prog (ReadShared n)} :
    Run ⟨s, fun i => Lane.onLane0 i f (k i)⟩ ⟨f s, k⟩ := by
  have hlanes := Lane.update_onLane0 hn f k
  conv_rhs => rw [← hlanes]
  exact .single (.act (.mk ⟨0, hn⟩ _ (by rw [Lane.onLane0, if_pos rfl]) rfl))

/-- Lane 0 can scan the file. -/
theorem Lane.run_scan (hn : 0 < n) {fuel : ℕ} {file : List UInt8} {s : ReadShared n}
    {m : ReadResult BinModule}
    (hm : binScanModule (binReaderSetScope (s.ctxs ⟨0, hn⟩) 0 file) = m) :
    Run ⟨s, Lane.scan fuel file⟩ ⟨Lane.scanned hn file s, fun lane =>
      Lane.afterScan fuel lane (if lane = ⟨0, hn⟩ then m.ok else false)
        (if lane = ⟨0, hn⟩ then .module m.value else .null)⟩ := by
  rw [← Lane.update_scan hn, Lane.scanned, ← hm]
  exact .single (.act (.mk ⟨0, hn⟩ _ (by rw [Lane.scan, if_pos rfl]) rfl))

/-- The lanes can go as far as the sections of a file that can be scanned. -/
theorem Lane.run_readSections (hn : 0 < n) {fuel : ℕ} {file : List UInt8}
    (h : (binScanModule (fileCtx file)).ok = true) :
    ∃ s : ReadShared n, Run (binRead fuel file n)
      ⟨s, fun lane => Lane.readSections fuel lane (binScanModule (fileCtx file)).value⟩ := by
  have hctxs : Run (binRead fuel file n) ⟨{ memory := .ctxs }, Lane.scan fuel file⟩ := by
    refine Relation.ReflTransGen.head (.release fun _ => rfl) ?_
    exact (Lane.run_onLane0 hn).trans
      (run_laneSyncValue laneMemory _ _ (Lane.behindCtxs fuel file) ⟨0, hn⟩)
  have hscan := hctxs.trans (Lane.run_scan hn rfl)
  have hok := hscan.trans (run_laneSyncValue laneMemory _ _
    (fun lane => Lane.behindOk fuel lane _) ⟨0, hn⟩)
  have hflag : (binScanModule (binReaderSetScope
      (({ memory := .ctxs } : ReadShared n).ctxs ⟨0, hn⟩) 0 file)).ok = true := h
  simp only [if_true, hflag, Lane.behindOk, LaneWord.asFlag] at hok
  have hmodule := hok.trans (run_laneSyncValue laneMemory _ _ (Lane.behindModule fuel) ⟨0, hn⟩)
  simp only [if_true] at hmodule
  exact ⟨_, hmodule⟩

/-- When no reader hangs, the lanes are in step in every configuration a run reaches, for any
number of lanes and any interleaving. -/
theorem binRead_lanes_in_step {file : List UInt8} (h : ReadersEnd file) :
    ∃ N, ∀ fuel, N ≤ fuel → ∀ (n : ℕ) (hn : 0 < n) (c : Config (ReadShared n) n),
      Run (binRead fuel file n) c → LanesInStep hn fuel file c := by
  have hends : ∃ N, ∀ fuel, N ≤ fuel → (binScanModule (fileCtx file)).ok = true →
      Lane.ModuleEnds fuel (binScanModule (fileCtx file)).value := by
    by_cases hok : (binScanModule (fileCtx file)).ok = true
    · obtain ⟨N, hN⟩ := h.moduleEnds hok
      exact ⟨N, fun fuel hfuel _ => hN fuel hfuel⟩
    · exact ⟨0, fun _ _ hok' => absurd hok' hok⟩
  obtain ⟨N, hN⟩ := hends
  refine ⟨N, fun fuel hfuel n hn c hrun => ?_⟩
  have hsteady := Lane.steady_binRead hn (hN fuel hfuel)
  exact ⟨hsteady.inStep hrun, fun _ _ => hsteady.waits hrun, hsteady.same hrun,
    fun v k hcall _ _ _ _ _ _ h₁ hp₁ h₂ hp₂ => hcall.broadcast h₁ hp₁ h₂ hp₂⟩

theorem readersEnd_twinFunctions : ReadersEnd twinFunctions := by
  refine everyExpr_twinFunctions ?_
  let c : BinReadCtx := { data := [0x02, 0x7F, 0x41, 0x00, 0x0B, 0x0B] }
  obtain ⟨fuel, hreturns⟩ := binReadExpr_encodes blockZero_encodes (c := c) (List.append_nil _).symm
  exact (binReadExpr_terminates_iff_closes c).mp ⟨fuel, by simp [hreturns]⟩

/-- The two bodies of this file are closed, so its lanes are in step. -/
theorem binRead_lanes_in_step_twinFunctions :
    ReadersEnd twinFunctions ∧
      ∃ N, ∀ fuel, N ≤ fuel → ∀ (n : ℕ) (hn : 0 < n) (c : Config (ReadShared n) n),
        Run (binRead fuel twinFunctions n) c → LanesInStep hn fuel twinFunctions c :=
  ⟨readersEnd_twinFunctions, binRead_lanes_in_step readersEnd_twinFunctions⟩

/-- A file with one global section, of one global whose expression has no `end`. -/
def endlessGlobal : List UInt8 :=
  [0x00, 0x61, 0x73, 0x6D, 0x01, 0x00, 0x00, 0x00, 0x06, 0x03, 0x01, 0x7F, 0x00]

theorem sectionResult_endlessGlobal (fuel : ℕ) :
    sectionResult fuel ⟨.global, 8, [0x01, 0x7F, 0x00]⟩ = .outOfFuel := by
  have hsize : binReadU32Leb (freshCtx 8 [0x01, 0x7F, 0x00]) =
      ⟨1, true, { base := 8, curr := 1, data := [0x01, 0x7F, 0x00] }⟩ := by decide
  have hhead : ((binReadValueType { base := 8, curr := 1, data := [0x01, 0x7F, 0x00] }).map
      fun type => ({ type := type } : Global)).andThen (fun global ctx =>
        (binReadB8 ctx).map fun mutable => { global with mutable := mutable }) =
      ⟨{ type := .i32 }, true, { base := 8, curr := 3, data := [0x01, 0x7F, 0x00] }⟩ := by
    decide
  have hexpr : binReadExpr fuel { base := 8, curr := 3, data := [0x01, 0x7F, 0x00] } =
      .outOfFuel := by
    by_contra hne
    have hcloses := (binReadExpr_terminates_iff_closes _).mp ⟨fuel, hne⟩
    rw [show ({ base := 8, curr := 3, data := [0x01, 0x7F, 0x00] } : BinReadCtx).rest = [] from
      rfl, closes.eq_def] at hcloses
    cases hcloses
  rw [sectionResult, if_pos (by decide)]
  simp only [binReadSection, binReadGlobalSection, binReadVec, hsize, if_true]
  rw [show (1 : UInt32).toNat = 0 + 1 from rfl, binReadVecLoop, binReadGlobal, hhead]
  simp only [ReadResult.thenProc, if_true, hexpr]
  rfl

/-- Two lanes read that file. With any fuel, lane 0 hangs in the global section, and lane 1
waits for it at the barrier behind the sections. -/
theorem binRead_lanes_stuck :
    ∃ stuck : ℕ → Config (ReadShared 2) 2, ∀ fuel,
      Run (binRead fuel endlessGlobal 2) (stuck fuel) ∧
        Hangs (stuck fuel) 0 ∧ (∃ k, (stuck fuel).lanes 1 = .sync k) ∧
        ¬LanesInStep Nat.two_pos fuel endlessGlobal (stuck fuel) := by
  have hsections : (binScanModule (fileCtx endlessGlobal)).value.sections =
      [⟨.global, 8, [0x01, 0x7F, 0x00]⟩] := by decide +kernel
  have hok : (binScanModule (fileCtx endlessGlobal)).ok = true := by decide +kernel
  generalize hm : (binScanModule (fileCtx endlessGlobal)).value = m at hsections
  have hruns : ∀ fuel, ∃ s, Run (binRead fuel endlessGlobal 2)
      (⟨s, fun lane => Lane.readSections fuel lane m⟩ : Config (ReadShared 2) 2) := by
    intro fuel
    rw [← hm]
    exact Lane.run_readSections Nat.two_pos hok
  choose s hrun using hruns
  refine ⟨fun fuel => ⟨s fuel, fun lane => Lane.readSections fuel lane m⟩, fun fuel => ?_⟩
  -- the one section belongs to lane 0
  have hlane0 : Lane.readSections fuel (0 : Fin 2) m = .act fun s => do
      let s' ← Lane.readSection fuel 0 ⟨.global, 8, [0x01, 0x7F, 0x00]⟩ s
      return (s', .sync (Lane.readCodeSection fuel 0 m)) := by
    simp only [Lane.readSections, hsections]
    rfl
  have hlane1 : Lane.readSections fuel (1 : Fin 2) m =
      .sync (Lane.readCodeSection fuel 1 m) := by
    simp only [Lane.readSections, hsections]
    rfl
  have hread : Lane.readSection fuel 0 ⟨.global, 8, [0x01, 0x7F, 0x00]⟩ (s fuel) =
      .outOfFuel :=
    (Lane.readSection_eq_outOfFuel_iff _ 0 (s fuel)).mpr (sectionResult_endlessGlobal fuel)
  have hhangs : Hangs (⟨s fuel, fun lane => Lane.readSections fuel lane m⟩ : Config _ 2) 0 :=
    ⟨_, hlane0, by rw [hread]; rfl⟩
  exact ⟨hrun fuel, hhangs, ⟨_, hlane1⟩, fun h => h.inStep.moves 0 hhangs⟩

end Wasim
