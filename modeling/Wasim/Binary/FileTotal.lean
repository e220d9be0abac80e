import Wasim.Binary.LaneTotal
import Wasim.Binary.ExprElse
import Wasim.Binary.Consumed

/-!
# The files that are read to an end

Which files the lanes get through is settled by the bytes, and by nothing else: not by how many
lanes there are, not by the order they act in and not by the diagnostics they collect. A reader
can only fail to return inside an expression (`binReadSection_ends_iff`). So the lanes get through
exactly the files in which every expression that is reached ends (`ExpressionsEnd`), and a single
run that does shows that all of them do. `bin_read` itself also waits for the event, which the
lanes signal on framed files only (`binRead_total_iff`).
-/

namespace Wasim

open Lanes ReadShared BinReadCtx

variable {α : Type}

/-! ### Readers that return -/

/-- The bytes close an expression, and no `else` strays before the end of it. -/
def ExprEnds (bs : List UInt8) : Prop :=
  closes [.body] bs = true ∧ straysElse [.body] bs = false

theorem binReadExpr_eq_crashed {fuel : ℕ} {c : BinReadCtx} :
    binReadExpr fuel c = .crashed ↔
      binReadInstructionsLoop fuel Frame.body.until_ (enterUntil c binExprBuilder) = .crashed := by
  rw [binReadExpr, binReadInstructionsUntil, leaveUntil_map, Outcome.bind_eq_crashed,
    Outcome.bind_eq_crashed]
  simp [Frame.until_]

/-- The expression reader returns exactly where an expression ends. -/
theorem binReadExpr_returns_iff (c : BinReadCtx) :
    (∃ r, Outcome.Returns (fun fuel => binReadExpr fuel c) r) ↔ ExprEnds c.rest := by
  have hstray : straysElse [.body] c.rest = false ↔ ∀ fuel, binReadExpr fuel c ≠ .crashed := by
    rw [← Bool.not_eq_true, ← Turn.crashes_first_iff, Turn.Crashes, not_exists]
    exact forall_congr' fun fuel => not_congr binReadExpr_eq_crashed.symm
  rw [ExprEnds, ← binReadExpr_terminates_iff_closes, hstray]
  constructor
  · rintro ⟨r, fuel, hr⟩
    dsimp only at hr
    refine ⟨⟨fuel, by simp [hr]⟩, fun fuel' hcrash => ?_⟩
    have heq := (binReadExpr_stable c).eq (m := fuel) (n := fuel') (by simp [hr])
      (by simp [hcrash])
    rw [hr, hcrash] at heq
    cases heq
  · rintro ⟨⟨fuel, hfuel⟩, hcrash⟩
    cases h : binReadExpr fuel c with
    | returned r => exact ⟨r, fuel, h⟩
    | crashed => exact absurd h (hcrash fuel)
    | outOfFuel => exact absurd h hfuel

/-- The reader of a section returns exactly if the expression it reaches ends. -/
theorem binReadSection_returns_iff {kind : BinSectionKind} (hcode : kind ≠ .code)
    (c : BinReadCtx) :
    (∃ r, Outcome.Returns (fun fuel => binReadSection fuel c kind) r) ↔
      ∀ rest, ReachesExpr kind c.rest rest → ExprEnds rest :=
  binReadSection_ends_iff Outcome.Ending.returns binReadExpr_returns_iff hcode c

/-- The reader of a body returns exactly if the expression behind its locals ends. -/
theorem bodyResult_returns_iff (binCode : BinCode) :
    (∃ code, Outcome.Returns (fun fuel => bodyResult fuel binCode) code) ↔
      ∀ rest, BodyReaches binCode.data rest → ExprEnds rest :=
  bodyResult_ends_iff Outcome.Ending.returns binReadExpr_returns_iff binCode

/-! ### Files -/

variable {file : List UInt8}

/-- A file with sections is scanned. -/
theorem FileOf.scans {fs : List SectionFrame} (h : FileOf fs file) :
    (binScanModule (fileCtx file)).ok = true := by
  refine (binScanModule_ok_iff file).mpr ⟨fs.map fun f => (f.kind, f.payload), _, ?_, h.2⟩
  obtain ⟨hvalid, -⟩ := h
  induction fs with
  | nil => exact .nil
  | cons f fs ih =>
    obtain ⟨hf, hfs⟩ := List.forall_mem_cons.mp hvalid
    exact .cons ⟨hf.1, f.size, hf.2, rfl⟩ (ih hfs)

theorem binReadCodeStructure_body {b : BodyFrame} (hb : b.Valid) {c : BinReadCtx}
    {r : List UInt8} (hrest : c.rest = b.bytes ++ r) :
    binReadCodeStructure c =
      ⟨bodyCode (binReaderAbsolutePos c, b), true, c.advance b.bytes.length⟩ := by
  have hlen : (UInt32.ofNat b.body.length).toNat = b.body.length :=
    UInt32.toNat_ofNat_of_lt' hb.2.2
  have hsize : Encoding.u32 (UInt32.ofNat b.body.length) b.size := by rwa [Encoding.u32, hlen]
  rw [BodyFrame.bytes, List.append_assoc] at hrest
  have hread := binReadU32Leb_reads hsize hrest
  have hbody := binReadBytes_append (rest_advance_of_eq hrest)
  simp only [binReadCodeStructure, hread, if_true, hlen, hbody, ReadResult.map, advance_advance,
    BodyFrame.bytes, List.length_append, bodyCode]

/-- The structure of a section that starts with bodies is read as these bodies. -/
theorem binReadVecLoop_frames {bs : List BodyFrame} (hbs : ∀ b ∈ bs, b.Valid) {c : BinReadCtx}
    {rest : List UInt8} (hrest : c.rest = bs.flatMap BodyFrame.bytes ++ rest) :
    binReadVecLoop {} (fun c => .returned (binReadCodeStructure c)) bs.length c =
      .returned ⟨(placeAt BodyFrame.bytes (binReaderAbsolutePos c) bs).map bodyCode, true,
        c.advance (bs.flatMap BodyFrame.bytes).length⟩ := by
  induction bs generalizing c with
  | nil => rfl
  | cons b bs ih =>
    obtain ⟨hb, hbs'⟩ := List.forall_mem_cons.mp hbs
    rw [List.flatMap_cons, List.append_assoc] at hrest
    rw [List.length_cons, binReadVecLoop, Outcome.returned_bind,
      binReadCodeStructure_body hb hrest, if_pos rfl, ih hbs' (rest_advance_of_eq hrest)]
    simp only [Outcome.returned_bind, ReadResult.map, placeAt, List.map_cons, List.flatMap_cons,
      List.length_append, binReaderAbsolutePos, BinReadCtx.advance, Nat.add_assoc,
      Outcome.pure_eq]

theorem binReadCodeSectionStructure_frames {bs : List BodyFrame} {payload : List UInt8}
    (h : BodiesOf bs payload) (pos : ℕ) :
    ∃ start r, binReadCodeSectionStructure (freshCtx pos payload) = .returned r ∧ r.ok = true ∧
      r.value = (placeAt BodyFrame.bytes start bs).map bodyCode := by
  obtain ⟨hbs, count, rest, hcount, hpayload⟩ := h
  have hlen : (UInt32.ofNat bs.length).toNat = bs.length := UInt32.toNat_ofNat_of_lt' hcount.2.2
  have hcount' : Encoding.u32 (UInt32.ofNat bs.length) count := by rwa [Encoding.u32, hlen]
  have hrest : (freshCtx pos payload).rest =
      count ++ (bs.flatMap BodyFrame.bytes ++ rest) := hpayload
  simp only [binReadCodeSectionStructure, binReadVec, binReadU32Leb_reads hcount' hrest, if_true,
    hlen, binReadVecLoop_frames hbs (rest_advance_of_eq hrest)]
  exact ⟨_, _, rfl, rfl, rfl⟩

/-- The last code section of a file is unique. -/
theorem lastCode_unique {fs fs' gs gs' : List SectionFrame} {f g : SectionFrame}
    (h : fs ++ f :: fs' = gs ++ g :: gs') (hf : f.kind = 10) (hfs' : ∀ x ∈ fs', x.kind ≠ 10)
    (hg : g.kind = 10) (hgs' : ∀ x ∈ gs', x.kind ≠ 10) : f = g := by
  have hfilter : ∀ (l l' : List SectionFrame) (x : SectionFrame), x.kind = 10 →
      (∀ y ∈ l', y.kind ≠ 10) → (l ++ x :: l').filter (fun y => y.kind = 10) =
        l.filter (fun y => y.kind = 10) ++ [x] := by
    intro l l' x hx hl'
    have hnil : l'.filter (fun y => y.kind = 10) = [] :=
      List.filter_eq_nil_iff.mpr (by simpa using hl')
    rw [List.filter_append, List.filter_cons_of_pos (by simpa using hx), hnil]
  have heq := congrArg (List.filter fun y : SectionFrame => y.kind = 10) h
  rw [hfilter fs fs' f hf hfs', hfilter gs gs' g hg hgs'] at heq
  exact List.singleton_inj.mp (List.append_inj' heq rfl).2

/-- Every expression that a reader of the file reaches ends. -/
def ExpressionsEnd (file : List UInt8) : Prop :=
  EveryExpr ExprEnds file

/-- Readers that return have reached no expression that does not end. -/
theorem BinModule.Returns.expressionsEnd {fuel : ℕ}
    (h : (binScanModule (fileCtx file)).ok = true →
      (binScanModule (fileCtx file)).value.Returns fuel) : ExpressionsEnd file := by
  constructor
  · intro fs hfs f hf rest hreach
    have hok := hfs.scans
    obtain ⟨fs', hfs', hsections, -⟩ := binScanModule_frames rfl rfl hok
    obtain rfl := hfs.unique hfs'
    obtain ⟨sec, hsec, hkind, hdata⟩ := exists_section 8 hf
    by_cases hcode : sec.kind = .code
    · rw [← hkind, hcode] at hreach
      exact hreach.elim
    · obtain ⟨r, hr⟩ := (h hok).sections sec (hsections ▸ hsec)
      rw [sectionResult, if_pos hcode] at hr
      rw [← hkind, ← hdata] at hreach
      exact (binReadSection_returns_iff hcode _).mp ⟨r, fuel, hr⟩ rest hreach
  · intro fs f fs' hfs h10 hfs' bs hbs b hb rest hreach
    have hok := hfs.scans
    obtain ⟨gs, hgs, hsections, hindex⟩ := binScanModule_frames rfl rfl hok
    obtain rfl := hgs.unique hfs
    have hf : f ∈ fs ++ f :: fs' := List.mem_append_right _ (List.mem_cons_self ..)
    obtain ⟨sec₀, hsec₀, hkind₀, -⟩ := exists_section 8 hf
    have hpos := codeSectionIndex_nonneg hsec₀
      (hkind₀.trans ((ofByte_eq_code_iff _).mpr h10))
    obtain ⟨k, sec, hk, hsec, -⟩ := codeSectionIndex_getElem hpos
    have hsec' := hsec
    rw [← Int.toNat_natCast k, ← hk] at hsec'
    obtain ⟨q, -, rfl, hq10, gs₁, gs₂, heq, hgs₂⟩ := codeSection_frame hpos hsec'
    obtain rfl := lastCode_unique heq h10 hfs' hq10 hgs₂
    obtain ⟨start, r, hr, hrok, hvalue⟩ := binReadCodeSectionStructure_frames hbs q.1
    rw [← hindex, ← hsections] at hsec'
    rw [← hindex] at hpos
    rw [← placeAt_map_snd BodyFrame.bytes start bs] at hb
    obtain ⟨p, hp, rfl⟩ := List.mem_map.mp hb
    obtain ⟨code, hcode⟩ := (h hok).bodies _ hpos hsec' r hr hrok (bodyCode p)
      (hvalue ▸ List.mem_map_of_mem hp)
    exact (bodyResult_returns_iff (bodyCode p)).mp ⟨code, fuel, hcode⟩ rest hreach

/-- With enough fuel, all readers return. -/
theorem ExpressionsEnd.returns (h : ExpressionsEnd file)
    (hok : (binScanModule (fileCtx file)).ok = true) :
    ∃ N, ∀ fuel, N ≤ fuel → (binScanModule (fileCtx file)).value.Returns fuel := by
  obtain ⟨fs, hfile, hsections, hindex⟩ := binScanModule_frames rfl rfl hok
  generalize (binScanModule (fileCtx file)).value = m at hsections hindex
  obtain ⟨N₁, hN₁⟩ := Outcome.exists_fuel_returned sectionResult_stable m.sections
    fun sec hsec => by
      rw [hsections] at hsec
      obtain ⟨f, hf, hkind, hdata⟩ := exists_frame hsec
      by_cases hcode : sec.kind = .code
      · exact ⟨_, 0, if_neg (not_not.mpr hcode)⟩
      · simp only [sectionResult, ne_eq, hcode, not_false_eq_true, if_true]
        refine (binReadSection_returns_iff hcode _).mpr fun rest hreach => ?_
        rw [hkind] at hreach
        exact h.sections fs hfile f hf rest (hdata ▸ hreach)
  by_cases hcodes : 0 ≤ m.codeSectionIndex ∧ ∃ sec r,
      m.sections[m.codeSectionIndex.toNat]? = some sec ∧
        binReadCodeSectionStructure (freshCtx sec.pos sec.data) = .returned r ∧ r.ok = true
  · obtain ⟨hpos, sec, r, hsec, hr, hrok⟩ := hcodes
    have hsec' := hsec
    rw [hsections, hindex] at hsec'
    obtain ⟨q, -, rfl, h10, fs₁, fs₂, rfl, hfs₂⟩ := codeSection_frame (hindex ▸ hpos) hsec'
    obtain ⟨bs, count, rest, hvalid, hcount, hdata, hvalue, -⟩ :=
      binReadCodeSectionStructure_bodies hr hrok
    obtain ⟨N₂, hN₂⟩ := Outcome.exists_fuel_returned bodyResult_stable r.value
      fun binCode hbin => by
        rw [hvalue] at hbin
        obtain ⟨b, hb, rfl⟩ := List.mem_map.mp hbin
        exact (bodyResult_returns_iff _).mpr (h.bodies fs₁ q.2 fs₂ hfile h10 hfs₂ bs
          ⟨hvalid, count, rest, hcount, hdata⟩ b.2 (mem_of_mem_placeAt hb))
    refine ⟨max N₁ N₂, fun fuel hfuel => ⟨hN₁ fuel (le_of_max_le_left hfuel), ?_⟩⟩
    intro sec' _ hsec₂ r' hr' _
    obtain rfl := Option.some.inj (hsec.symm.trans hsec₂)
    obtain rfl := Outcome.returned.inj (hr.symm.trans hr')
    exact hN₂ fuel (le_of_max_le_right hfuel)
  · refine ⟨N₁, fun fuel hfuel => ⟨hN₁ fuel hfuel, fun sec hpos hsec r hr hrok => ?_⟩⟩
    exact absurd ⟨hpos, sec, r, hsec, hr, hrok⟩ hcodes

/-- When all lanes have returned, the event was signalled exactly if the file was scanned. -/
theorem done_iff_framed {n fuel : ℕ} (hn : 0 < n) {t : ReadShared n}
    (h : Finish (binRead fuel file n) t) : t.done = true ↔ Framed file := by
  rw [← binScanModule_ok_iff]
  rcases Lane.finish_binRead hn h with ⟨hok, rfl⟩ | ⟨hok, log, s₁, s₂, -, -, -, rfl⟩
  · rw [hok]
    exact iff_of_false Bool.false_ne_true Bool.false_ne_true
  · exact iff_of_true rfl hok

/-- The lanes get through a framed file in which every expression that is reached ends. -/
theorem ExpressionsEnd.total (h : ExpressionsEnd file) (hframed : Framed file) :
    ∃ N, ∀ fuel, N ≤ fuel → ∀ n, 0 < n →
      Total (fun t => t.done = true) (binRead fuel file n) := by
  obtain ⟨N, hN⟩ := h.returns ((binScanModule_ok_iff file).mpr hframed)
  refine ⟨N, fun fuel hfuel n hn => ?_⟩
  exact (binRead_total hn fun _ => hN fuel hfuel).of_finish fun t ht =>
    (done_iff_framed hn ht).mpr hframed

/-- **The files that are read to an end.** `bin_read` comes back when the event is signalled and
the lanes are done. If one run, with any fuel, any number of lanes and in any order, comes to that,
then the file is framed and every expression that is reached ends. And then, with enough fuel, no
run crashes or hangs, and every run comes to it. On a file that is not framed all lanes come to be
done in every run, and `bin_read` waits for ever. -/
theorem binRead_total_iff (file : List UInt8) :
    ((∃ (fuel n : ℕ) (t : ReadShared n), 0 < n ∧ Finish (binRead fuel file n) t ∧
        t.done = true) ↔ Framed file ∧ ExpressionsEnd file) ∧
    (Framed file ∧ ExpressionsEnd file ↔ ∃ N, ∀ fuel, N ≤ fuel → ∀ n, 0 < n →
      Total (fun t => t.done = true) (binRead fuel file n)) ∧
    (¬Framed file → ∀ fuel n, 0 < n →
      Total (fun t => t.done = false) (binRead fuel file n)) := by
  have hone : (∃ (fuel n : ℕ) (t : ReadShared n), 0 < n ∧ Finish (binRead fuel file n) t ∧
      t.done = true) → Framed file ∧ ExpressionsEnd file := by
    rintro ⟨fuel, n, t, hn, hfinish, hdone⟩
    exact ⟨(done_iff_framed hn hfinish).mp hdone,
      BinModule.Returns.expressionsEnd (returns_of_finish hn hfinish)⟩
  have hall : Framed file ∧ ExpressionsEnd file → ∃ N, ∀ fuel, N ≤ fuel → ∀ n, 0 < n →
      Total (fun t => t.done = true) (binRead fuel file n) := fun h => h.2.total h.1
  have hback : (∃ N, ∀ fuel, N ≤ fuel → ∀ n, 0 < n →
      Total (fun t => t.done = true) (binRead fuel file n)) →
      ∃ (fuel n : ℕ) (t : ReadShared n), 0 < n ∧ Finish (binRead fuel file n) t ∧
        t.done = true := by
    rintro ⟨N, hN⟩
    obtain ⟨t, hfinish, hdone⟩ := (hN N le_rfl 1 Nat.one_pos).exists_finish
    exact ⟨N, 1, t, Nat.one_pos, hfinish, hdone⟩
  refine ⟨⟨hone, fun h => hback (hall h)⟩, ⟨hall, fun h => hone (hback h)⟩, ?_⟩
  intro hframed fuel n hn
  have htotal : Total (fun _ => True) (binRead fuel file n) :=
    binRead_total hn fun hok => absurd ((binScanModule_ok_iff file).mp hok) hframed
  refine htotal.of_finish fun t ht => ?_
  rw [← Bool.not_eq_true, done_iff_framed hn ht]
  exact hframed

end Wasim
