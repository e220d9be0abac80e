import Wasim.Library.Total
import Wasim.Binary.LaneAgree
import Wasim.Binary.Positions

/-!
# Lanes that get through a file

`bin_read` starts its lanes and waits for them. That they come to an end is a matter of the
readers alone: if every section and every function body has a reader that returns, then any
number of lanes gets through the file in any order (`binRead_total`), and a single run that gets
through is enough to know it (`returns_of_finish`).
-/

namespace Wasim

open Lanes ReadShared

variable {n fuel : ℕ} {file : List UInt8} {s : ReadShared n} {P : ReadShared n → Prop}

theorem total_laneSyncValue {σ W : Type} {mem : SharedMemory σ W} {v : Fin n → W}
    {k : Fin n → W → Prog σ} {s : σ} {P : σ → Prop} (src : Fin n)
    (h : Total P ⟨mem.write s (v src), fun i => k i (v src)⟩) :
    Total P ⟨s, fun i => laneSyncValue mem i (v i) src (k i)⟩ := by
  have hn : 0 < n := Nat.lt_of_le_of_lt (Nat.zero_le _) src.isLt
  have htake := Total.looks hn (looks_laneTakeValue src (mem.read_write s (v src))) h
  refine Total.act (j := src) (by rw [laneSyncValue, if_pos rfl])
    (fun i hi => by rw [laneSyncValue_other src hi]; trivial) rfl ?_
  rw [update_laneSyncValue]
  exact htake.sync hn

/-! ### Single readers -/

/-- A lane reads a section exactly when the section can be read on its own. -/
theorem Lane.readSection_returns {sec : BinSection} {r : ReadResult FieldValue}
    (h : sectionResult fuel sec = .returned r) (lane : Fin n) (s : ReadShared n) :
    ∃ s', Lane.readSection fuel lane sec s = .returned s' := by
  rw [sectionResult] at h
  rw [Lane.readSection]
  split
  · rename_i hkind
    rw [if_pos hkind] at h
    have hframe := binReadSection_frame fuel sec.kind (freshCtx sec.pos sec.data)
      (s.ctxs lane).diags
    dsimp only at hframe
    rw [h] at hframe
    rw [binReadSectionIntoModule, binReaderSetScope_eq, hframe]
    exact ⟨_, rfl⟩
  · exact ⟨s, rfl⟩

theorem Lane.readCode_returns {binCodes : List BinCode} {i : ℕ} {binCode : BinCode}
    {r : ReadResult Code} (hi : binCodes[i]? = some binCode)
    (h : bodyResult fuel binCode = .returned r) (lane : Fin n) {s : ReadShared n}
    (hlen : s.module.codes.length = binCodes.length) :
    ∃ s', Lane.readCode fuel lane binCodes i s = .returned s' ∧
      s'.module.codes.length = binCodes.length := by
  have hlt : i < s.module.codes.length := hlen ▸ (List.getElem?_eq_some_iff.mp hi).1
  -- the scope of the body replaces all but the diagnostics
  have hscope : binReadCode fuel (s.ctxs lane) binCode =
      binReadCode fuel (BinReadCtx.under {} (s.ctxs lane).diags) binCode := by
    simp only [binReadCode, binReaderSetScope, BinReadCtx.under, List.append_nil]
  have hframe := binReadCode_frame fuel binCode {} (s.ctxs lane).diags
  dsimp only at hframe
  rw [bodyResult] at h
  rw [h] at hframe
  simp only [Lane.readCode, hi, hscope, hframe, Outcome.map_returned, Outcome.returned_bind,
    if_pos hlt]
  exact ⟨_, rfl, by simp [hlen]⟩

/-! ### The phases -/

/-- Every reader of the scanned module returns with this fuel. -/
structure BinModule.Returns (fuel : ℕ) (m : BinModule) : Prop where
  sections : ∀ sec ∈ m.sections, ∃ r, sectionResult fuel sec = .returned r
  bodies : ∀ sec, 0 ≤ m.codeSectionIndex →
    m.sections[m.codeSectionIndex.toNat]? = some sec →
    ∀ r, binReadCodeSectionStructure (freshCtx sec.pos sec.data) = .returned r → r.ok = true →
      ∀ binCode ∈ r.value, ∃ code, bodyResult fuel binCode = .returned code

namespace Lane

theorem total_onLane0 (hn : 0 < n) {f : ReadShared n → ReadShared n}
    {k : Fin n → Prog (ReadShared n)} (hk : ∀ i : Fin n, i.val ≠ 0 → (k i).Halted)
    (h : Total P ⟨f s, k⟩) : Total P ⟨s, fun i => onLane0 i f (k i)⟩ := by
  refine Total.act (j := ⟨0, hn⟩) (by rw [onLane0, if_pos rfl]) (fun i hi => ?_) rfl ?_
  · rw [onLane0_other hn hi]
    exact hk i (val_ne_zero hn hi)
  · rwa [update_onLane0]

theorem total_collect (hn : 0 < n) : Total (fun _ => True) ⟨s, collect⟩ :=
  total_onLane0 hn (fun _ _ => Prog.halted_sync _) <| Total.sync hn <|
    total_onLane0 hn (fun _ _ => Prog.halted_done) <| .of_done _ trivial

/-- The bodies are read into memory that is there for them. -/
theorem total_readCodes (hn : 0 < n) {binCodes : List BinCode}
    (h : ∀ binCode ∈ binCodes, ∃ code, bodyResult fuel binCode = .returned code)
    (hlen : s.module.codes.length = binCodes.length) :
    Total (fun _ => True) ⟨s, fun lane => readCodes fuel lane binCodes⟩ := by
  refine Total.forEach (J := fun t => t.module.codes.length = binCodes.length) hn
    (fun lane i hi t ht => ?_) hlen fun _ _ => total_collect hn
  have hrange : i ∈ List.range binCodes.length := by
    rw [← flatMap_laneRange_indices hn]
    exact List.mem_flatMap.mpr ⟨lane, List.mem_finRange lane, hi⟩
  obtain ⟨code, hcode⟩ := h _ (List.getElem_mem (List.mem_range.mp hrange))
  exact readCode_returns (List.getElem?_eq_getElem _) hcode lane ht

/-- Behind the structure of the code section. -/
theorem total_shareCodes (hn : 0 < n) {r : ReadResult (List BinCode)}
    (h : r.ok = true → ∀ binCode ∈ r.value, ∃ code, bodyResult fuel binCode = .returned code)
    (hlen : r.ok = true → s.module.codes.length = r.value.length) :
    Total (fun _ => True) ⟨s, fun lane => shareCodes fuel lane
      (if lane = ⟨0, hn⟩ then r.value else []) (.flag r.ok)⟩ := by
  cases hok : r.ok with
  | false =>
    simp only [shareCodes, LaneWord.asFlag, Bool.false_eq_true, if_false]
    exact (total_collect hn).sync hn
  | true =>
    simp only [shareCodes, LaneWord.asFlag, if_true]
    refine total_laneSyncValue ⟨0, hn⟩ ?_
    simp only [if_true]
    exact total_readCodes hn (h hok) (hlen hok)

/-- Every action of the phase returns: the structure is always read to an end. -/
theorem InStructure.returns (hn : 0 < n) {codeSection : BinSection} {i : Fin n}
    {u : ReadShared n} {f : ReadShared n → Outcome (ReadShared n × Prog (ReadShared n))}
    (h : InStructure hn fuel codeSection s i u (.act f)) : ∃ r, f u = .returned r := by
  have hread : ∀ g, Prog.act g = readStructure fuel i codeSection → ∃ r, g u = .returned r := by
    intro g hg
    rw [readStructure] at hg
    obtain rfl := Prog.act.inj hg
    dsimp only
    split
    · obtain ⟨r, hr⟩ := binReadVec_returns {} binReadCodeStructure
        (binReaderSetScope (u.ctxs i) codeSection.pos codeSection.data)
      rw [binReadCodeSectionStructure, hr]
      exact ⟨_, rfl⟩
    · exact ⟨_, rfl⟩
  have hwrite : ∀ g ok codes, Prog.act g = afterStructure fuel i ok codes →
      ∃ r, g u = .returned r := by
    intro g ok codes hg
    rw [afterStructure, laneSyncValue] at hg
    split at hg
    · obtain rfl := Prog.act.inj hg
      exact ⟨_, rfl⟩
    · cases hg
  rw [InStructure] at h
  split at h
  · rcases h with ⟨hp, -⟩ | ⟨r, -, -, ⟨hp, -⟩ | ⟨hp, -⟩⟩
    · exact hread f hp
    · exact hwrite f _ _ hp
    · cases hp
  · rcases h with ⟨hp, -⟩ | ⟨hp, -⟩
    · exact hread f hp
    · exact hwrite f _ _ hp

theorem total_readStructure (hn : 0 < n) {codeSection : BinSection}
    (h : ∀ r, binReadCodeSectionStructure (freshCtx codeSection.pos codeSection.data) =
      .returned r → r.ok = true →
      ∀ binCode ∈ r.value, ∃ code, bodyResult fuel binCode = .returned code) :
    Total (fun _ => True) ⟨s, fun lane => readStructure fuel lane codeSection⟩ := by
  refine Total.of_invariants (I := InStructure hn fuel codeSection s)
    (fun _ _ _ _ _ => InStructure.own hn) (fun _ _ _ _ _ _ _ => InStructure.other hn)
    (fun _ _ _ => InStructure.returns hn) (InStructure.start hn) fun u p hp hhalt => ?_
  obtain ⟨r, hr, rfl, hlanes⟩ := InStructure.halted hn hp hhalt
  obtain ⟨r₀, hr₀, hok, hvalue, hmodule, -⟩ := structured_spec hn hr
  refine Or.inr ⟨_, hlanes, ?_⟩
  refine Total.looks hn (k := fun lane => shareCodes fuel lane
    (if lane = ⟨0, hn⟩ then r.value else []) (.flag r.ok)) (fun i => ?_) ?_
  · have hread : laneMemory.read { structured hn codeSection s r with memory := .flag r.ok } =
        if (⟨0, hn⟩ : Fin n) = ⟨0, hn⟩ then LaneWord.flag r.ok else .flag true := by
      rw [if_pos rfl]
      rfl
    have hlooks := looks_laneTakeValue
      (v := fun i => if i = ⟨0, hn⟩ then LaneWord.flag r.ok else .flag true)
      (k := fun i => shareCodes fuel i (if i = ⟨0, hn⟩ then r.value else [])) ⟨0, hn⟩ hread i
    rw [if_pos rfl] at hlooks
    exact hlooks
  · refine total_shareCodes hn (fun hrok => ?_) fun hrok => ?_
    · rw [hvalue]
      exact h r₀ hr₀ (hok ▸ hrok)
    · dsimp only
      rw [hmodule, withCodes, if_pos (hok ▸ hrok), List.length_replicate, hvalue]

theorem total_readCodeSection (hn : 0 < n) {m : BinModule} (h : m.Returns fuel)
    (hindex : 0 ≤ m.codeSectionIndex → m.codeSectionIndex.toNat < m.sections.length) :
    Total (fun _ => True) ⟨s, fun lane => readCodeSection fuel lane m⟩ := by
  by_cases hpos : 0 ≤ m.codeSectionIndex
  · have hsec := List.getElem?_eq_getElem (hindex hpos)
    simp only [readCodeSection, if_pos hpos, hsec]
    exact total_readStructure hn (h.bodies _ hpos hsec)
  · simp only [readCodeSection, if_neg hpos]
    exact (total_collect hn).sync hn

theorem total_readSections (hn : 0 < n) {m : BinModule} (h : m.Returns fuel)
    (hindex : 0 ≤ m.codeSectionIndex → m.codeSectionIndex.toNat < m.sections.length) :
    Total (fun _ => True) ⟨s, fun lane => readSections fuel lane m⟩ := by
  refine Total.forEach (J := fun _ => True) hn (fun lane sec hsec t _ => ?_) trivial
    fun _ _ => total_readCodeSection hn h hindex
  obtain ⟨r, hr⟩ := h.sections sec (List.mem_of_mem_take (List.mem_of_mem_drop hsec))
  obtain ⟨t', ht'⟩ := readSection_returns hr lane t
  exact ⟨t', ht', trivial⟩

theorem total_afterScan (hn : 0 < n) {ok : Fin n → Bool} {w : Fin n → LaneWord}
    {m : BinModule} (hw : w ⟨0, hn⟩ = .module m)
    (h : ok ⟨0, hn⟩ = true → ∀ t : ReadShared n,
      Total (fun _ => True) ⟨t, fun lane => readSections fuel lane m⟩) :
    Total (fun _ => True) ⟨s, fun lane => afterScan fuel lane (ok lane) (w lane)⟩ := by
  refine total_laneSyncValue ⟨0, hn⟩ ?_
  cases hok : ok ⟨0, hn⟩ with
  | false =>
    simp only [LaneWord.asFlag, Bool.false_eq_true, if_false]
    exact .of_done _ trivial
  | true =>
    simp only [LaneWord.asFlag, if_true]
    refine total_laneSyncValue ⟨0, hn⟩ ?_
    simp only [hw]
    exact h hok _

theorem total_scan (hn : 0 < n) {m : ReadResult BinModule}
    (hm : binScanModule (binReaderSetScope (s.ctxs ⟨0, hn⟩) 0 file) = m)
    (h : m.ok = true → ∀ t : ReadShared n,
      Total (fun _ => True) ⟨t, fun lane => readSections fuel lane m.value⟩) :
    Total (fun _ => True) ⟨s, scan fuel file⟩ := by
  refine Total.act (j := ⟨0, hn⟩) (by rw [scan, if_pos rfl]) (fun i hi => ?_) rfl ?_
  · rw [scan_other hn hi]
    exact halted_laneSyncValue (val_ne_zero hn hi) _ _
  · rw [hm, update_scan]
    exact total_afterScan hn (if_pos rfl) fun hok => h (by rwa [if_pos rfl] at hok)

end Lane

/-! ### Whole runs -/

/-- The index of the code section points at a section. -/
theorem binScanModule_index (h : (binScanModule (fileCtx file)).ok = true)
    (hpos : 0 ≤ (binScanModule (fileCtx file)).value.codeSectionIndex) :
    (binScanModule (fileCtx file)).value.codeSectionIndex.toNat <
      (binScanModule (fileCtx file)).value.sections.length := by
  obtain ⟨fs, -, hsections, hindex⟩ := binScanModule_frames rfl rfl h
  rw [hindex] at hpos
  obtain ⟨l₁, sec, l₂, hl, -, -, hidx⟩ := codeSectionIndex_spec hpos
  rw [hindex, hsections, hidx, hl, Int.toNat_natCast, List.length_append, List.length_cons]
  omega

/-- The lanes get through a file when the readers of its sections and bodies do. -/
theorem binRead_total (hn : 0 < n)
    (h : (binScanModule (fileCtx file)).ok = true →
      (binScanModule (fileCtx file)).value.Returns fuel) :
    Total (fun _ => True) (binRead fuel file n) := by
  refine Total.sync hn (Lane.total_onLane0 hn
    (fun i hi => Lane.halted_laneSyncValue hi _ _) ?_)
  refine total_laneSyncValue ⟨0, hn⟩ (Lane.total_scan hn rfl fun hok t => ?_)
  exact Lane.total_readSections hn (h hok) (binScanModule_index hok)

/-- A run that gets through the file has seen every reader return. -/
theorem returns_of_finish (hn : 0 < n) {t : ReadShared n} (h : Finish (binRead fuel file n) t)
    (hok : (binScanModule (fileCtx file)).ok = true) :
    (binScanModule (fileCtx file)).value.Returns fuel := by
  rcases Lane.finish_binRead hn h with ⟨hfail, -⟩ | ⟨-, log, s₁, s₂, hlog, hrun, hcodes, -⟩
  · rw [hok] at hfail
    cases hfail
  · refine ⟨(sections_interleaved hn hlog hrun).1, fun sec hpos hsec r₀ hr₀ hrok => ?_⟩
    rcases hcodes with ⟨hneg, -⟩ | ⟨sec', r, hsec', -, hr, hrest⟩
    · omega
    obtain rfl := Option.some.inj (hsec'.symm.trans hsec)
    obtain ⟨r₁, hr₁, hok₁, hvalue, -⟩ := structured_spec hn hr
    obtain rfl := Outcome.returned.inj (hr₁.symm.trans hr₀)
    rcases hrest with ⟨hfail, -⟩ | ⟨-, log', hlog', hrun'⟩
    · rw [hok₁, hrok] at hfail
      cases hfail
    · rw [hvalue] at hlog' hrun'
      obtain ⟨hall, -⟩ := bodies_read hn hlog' hrun'
      intro binCode hbin
      obtain ⟨j, hj⟩ := List.getElem?_of_mem hbin
      obtain ⟨binCode', code, hj', hcode⟩ :=
        hall j (List.mem_range.mpr (List.getElem?_eq_some_iff.mp hj).1)
      obtain rfl := Option.some.inj (hj.symm.trans hj')
      exact ⟨code, hcode⟩

end Wasim
