import Mathlib.Data.List.Perm.Basic
import Wasim.Binary.LaneRuns
import Wasim.Binary.DiagFrame
import Wasim.Binary.RoundTrip

/-!
# Any number of lanes

Two runs of `bin_read` on the same file, with any numbers of lanes and any interleavings,
end with the same module and with the same diagnostics up to order, as long as no two
sections of one kind hold different contents (`binRead_lanes_agree`). Every section and every
function body is then read once, by some lane, with a result that does not depend on the
lane, and the writes to the module commute.

The condition is needed: sections of the same kind are written to the same field, and the
lane that comes last wins (`binRead_lanes_disagree`).
-/

namespace Wasim

open Lanes ReadShared

variable {n : ℕ}

/-! ### What a section and a body give, for any lane -/

/-- A context with nothing but its scope. -/
def freshCtx (base : ℕ) (data : List UInt8) : BinReadCtx := { base := base, data := data }

theorem binReaderSetScope_eq (c : BinReadCtx) (base : ℕ) (data : List UInt8) :
    binReaderSetScope c base data = (freshCtx base data).under c.diags := by
  simp [binReaderSetScope, freshCtx, BinReadCtx.under]

/-- The result of a section on its own. The code section is passed over. -/
def sectionResult (fuel : ℕ) (sec : BinSection) : Outcome (ReadResult FieldValue) :=
  if sec.kind ≠ .code then binReadSection fuel (freshCtx sec.pos sec.data) sec.kind
  else .returned ⟨.nothing, true, {}⟩

/-- The result of a function body on its own. -/
def bodyResult (fuel : ℕ) (binCode : BinCode) : Outcome (ReadResult Code) :=
  binReadCode fuel {} binCode

theorem sectionResult_stable (sec : BinSection) :
    Outcome.Stable fun fuel => sectionResult fuel sec := by
  intro fuel
  simp only [sectionResult]
  split
  · cases hkind : sec.kind with
    | global =>
      exact Outcome.bind_le_bind (binReadVec_stable binReadGlobal_stable _ _ fuel)
        fun _ => Outcome.le_refl _
    | element =>
      exact Outcome.bind_le_bind (binReadVec_stable binReadElement_stable _ _ fuel)
        fun _ => Outcome.le_refl _
    | data =>
      exact Outcome.bind_le_bind (binReadVec_stable binReadData_stable _ _ fuel)
        fun _ => Outcome.le_refl _
    | _ => exact Outcome.le_refl _
  · exact Outcome.le_refl _

theorem bodyResult_stable (binCode : BinCode) :
    Outcome.Stable fun fuel => bodyResult fuel binCode := fun fuel =>
  Outcome.bind_le_bind (Outcome.le_refl _) fun _ => ReadResult.thenProc_le _ fun _ _ =>
    Outcome.bind_le_bind (binReadExpr_stable _ fuel) fun _ => Outcome.le_refl _

/-- Reading a section changes the module and the diagnostics of the lane, whatever the lane
has read before. -/
theorem readSection_spec {fuel : ℕ} {lane : Fin n} {sec : BinSection} {s s' : ReadShared n}
    (h : Lane.readSection fuel lane sec s = .returned s') :
    ∃ r, sectionResult fuel sec = .returned r ∧ s'.module = s.module.assign r.value ∧
      ∀ i, (s'.ctxs i).diags = (s.ctxs i).diags ++ if i = lane then r.ctx.diags else [] := by
  rw [Lane.readSection] at h
  rw [sectionResult]
  split at h
  · rename_i hkind
    rw [if_pos hkind]
    obtain ⟨m, hm, hs'⟩ := Outcome.bind_eq_returned.mp h
    obtain rfl := Outcome.returned.inj hs'
    obtain ⟨field, hfield, hm'⟩ := Outcome.bind_eq_returned.mp hm
    obtain rfl := Outcome.returned.inj hm'
    rw [binReaderSetScope_eq] at hfield
    have hframe := binReadSection_frame fuel sec.kind (freshCtx sec.pos sec.data)
      (s.ctxs lane).diags
    obtain ⟨r, hr, hfield'⟩ := Outcome.bind_eq_returned.mp (hframe.symm.trans hfield)
    obtain rfl := Outcome.returned.inj hfield'
    refine ⟨r, hr, rfl, fun i => ?_⟩
    rcases eq_or_ne i lane with rfl | hi
    · simp [setCtx, BinReadCtx.under]
    · simp [setCtx, hi]
  · rename_i hkind
    rw [if_neg hkind]
    obtain rfl := Outcome.returned.inj h
    exact ⟨_, rfl, rfl, fun i => by simp⟩

/-- Reading a body fills its place in the module. -/
theorem readCode_spec {fuel : ℕ} {lane : Fin n} {binCodes : List BinCode} {i : ℕ}
    {s s' : ReadShared n} (h : Lane.readCode fuel lane binCodes i s = .returned s') :
    ∃ binCode r, binCodes[i]? = some binCode ∧ bodyResult fuel binCode = .returned r ∧
      s'.module = { s.module with codes := s.module.codes.set i r.value } ∧
      ∀ j, (s'.ctxs j).diags = (s.ctxs j).diags ++ if j = lane then r.ctx.diags else [] := by
  rw [Lane.readCode] at h
  split at h
  · rename_i binCode hcode
    obtain ⟨code, hread, hs'⟩ := Outcome.bind_eq_returned.mp h
    split at hs'
    · obtain rfl := Outcome.returned.inj hs'
      -- the scope of the body replaces all but the diagnostics
      have hscope : binReadCode fuel (s.ctxs lane) binCode =
          binReadCode fuel (BinReadCtx.under {} (s.ctxs lane).diags) binCode := by
        simp only [binReadCode, binReaderSetScope, BinReadCtx.under, List.append_nil]
      have hframe := binReadCode_frame fuel binCode {} (s.ctxs lane).diags
      obtain ⟨r, hr, hcode'⟩ :=
        Outcome.bind_eq_returned.mp (hframe.symm.trans (hscope.symm.trans hread))
      obtain rfl := Outcome.returned.inj hcode'
      refine ⟨binCode, r, hcode, hr, rfl, fun j => ?_⟩
      rcases eq_or_ne j lane with rfl | hj
      · simp [setCtx, BinReadCtx.under]
      · simp [setCtx, hj]
    · cases hs'
  · cases h

/-! ### Interleavings -/

/-- A log of actions, each of which changes the module by `F` and adds the diagnostics `D` to
the context of its lane. -/
theorem foldlM_effects {α : Type} {body : Fin n × α → ReadShared n → Outcome (ReadShared n)}
    {P : α → Prop} {D : α → List BinDiagnostic} {F : Module → α → Module}
    (hbody : ∀ e s s', body e s = .returned s' → P e.2 ∧ s'.module = F s.module e.2 ∧
      ∀ i, (s'.ctxs i).diags = (s.ctxs i).diags ++ if i = e.1 then D e.2 else [])
    {log : List (Fin n × α)} {s s' : ReadShared n}
    (h : log.foldlM (fun s e => body e s) s = .returned s') :
    (∀ a ∈ log.map Prod.snd, P a) ∧ s'.module = (log.map Prod.snd).foldl F s.module ∧
      ∀ i, (s'.ctxs i).diags = (s.ctxs i).diags ++ (entries log i).flatMap D := by
  induction log generalizing s with
  | nil =>
    obtain rfl := Outcome.returned.inj h
    exact ⟨by simp, rfl, fun i => by simp [entries]⟩
  | cons e log ih =>
    rw [List.foldlM_cons] at h
    obtain ⟨s₁, hs₁, hrest⟩ := Outcome.bind_eq_returned.mp h
    obtain ⟨hP, hmodule, hdiags⟩ := hbody e s s₁ hs₁
    obtain ⟨hPs, hmodule', hdiags'⟩ := ih hrest
    refine ⟨?_, ?_, fun i => ?_⟩
    · simp only [List.map_cons, List.forall_mem_cons]
      exact ⟨hP, hPs⟩
    · rw [hmodule', hmodule]
      rfl
    · rw [hdiags', hdiags, entries_cons]
      rcases eq_or_ne i e.1 with rfl | hi
      · simp
      · simp [hi]

/-- The diagnostics of all lanes, in the order of the lanes. -/
def allDiags (s : ReadShared n) : List BinDiagnostic :=
  (List.finRange n).flatMap fun lane => (s.ctxs lane).diags

/-- What the lanes add to their diagnostics is added to all diagnostics, up to order. -/
theorem allDiags_append {s s' : ReadShared n} {E : Fin n → List BinDiagnostic}
    (h : ∀ i, (s'.ctxs i).diags = (s.ctxs i).diags ++ E i) :
    (allDiags s').Perm (allDiags s ++ (List.finRange n).flatMap E) := by
  rw [allDiags, List.flatMap_congr fun i _ => h i]
  exact (List.flatMap_append_perm _ _ _).symm

/-- Only one lane adds something. -/
theorem flatMap_ite_lane (lane : Fin n) (ds : List BinDiagnostic) :
    ((List.finRange n).flatMap fun i => if i = lane then ds else []) = ds := by
  have hsplit : ∀ l : List (Fin n), l.Nodup →
      (l.flatMap fun i => if i = lane then ds else []) = if lane ∈ l then ds else [] := by
    intro l hl
    induction l with
    | nil => rfl
    | cons i l ih =>
      obtain ⟨hi, hl⟩ := List.nodup_cons.mp hl
      rw [List.flatMap_cons, ih hl]
      rcases eq_or_ne i lane with rfl | hne
      · simp [hi]
      · simp [hne, hne.symm]
  rw [hsplit _ (List.nodup_finRange n), if_pos (List.mem_finRange lane)]

/-- Lanes that share out the list `l`: they go through it in some order. -/
theorem interleaved_effects {α : Type}
    {A : Fin n × α → ReadShared n → Outcome (ReadShared n)}
    {P : α → Prop} {D : α → List BinDiagnostic} {F : Module → α → Module}
    (hbody : ∀ e s s', A e s = .returned s' → P e.2 ∧ s'.module = F s.module e.2 ∧
      ∀ i, (s'.ctxs i).diags = (s.ctxs i).diags ++ if i = e.1 then D e.2 else [])
    {l : List α} {log : List (Fin n × α)} (hlog : (List.finRange n).flatMap (entries log) = l)
    {s s' : ReadShared n} (h : log.foldlM (fun s e => A e s) s = .returned s') :
    (∀ a ∈ l, P a) ∧ (∃ order : List α, order.Perm l ∧ s'.module = order.foldl F s.module) ∧
      (allDiags s').Perm (allDiags s ++ l.flatMap D) := by
  obtain ⟨hP, hmodule, hdiags⟩ := foldlM_effects hbody h
  have hperm : (log.map Prod.snd).Perm l := hlog ▸ entries_perm log
  refine ⟨fun a ha => hP a (hperm.mem_iff.mpr ha), ⟨_, hperm, hmodule⟩, ?_⟩
  have hall := allDiags_append hdiags
  rwa [← List.flatMap_assoc, hlog] at hall

/-! ### Fields that do not disturb each other -/

/-- The kind of section that is stored in a field. -/
def FieldValue.kind : FieldValue → BinSectionKind
  | .nothing => .custom
  | .types _ => .type
  | .imps _ => .import
  | .functions _ => .function
  | .tables _ => .table
  | .memory _ => .memory
  | .globals _ => .global
  | .exports _ => .export
  | .start _ => .start
  | .elements _ => .element
  | .datas _ => .data

/-- Assignments to different fields commute. -/
theorem Module.assign_comm (m : Module) {v w : FieldValue} (h : v.kind ≠ w.kind) :
    (m.assign v).assign w = (m.assign w).assign v := by
  cases v <;> cases w <;> first | rfl | exact absurd rfl h

theorem kind_of_map {α : Type} {f : α → FieldValue} {kind : BinSectionKind}
    {x : Outcome (ReadResult α)} {r : ReadResult FieldValue}
    (h : ReadResult.map f <$> x = .returned r) (hf : ∀ a, (f a).kind = kind) :
    r.value.kind = kind := by
  obtain ⟨a, -, ha⟩ := Outcome.bind_eq_returned.mp h
  obtain rfl := Outcome.returned.inj ha
  exact hf a.value

/-- A section is stored in the field of its kind. -/
theorem binReadSection_kind {fuel : ℕ} {c : BinReadCtx} {kind : BinSectionKind}
    {r : ReadResult FieldValue} (h : binReadSection fuel c kind = .returned r) :
    r.value.kind = kind := by
  cases kind with
  | custom =>
    obtain rfl := Outcome.returned.inj h
    rfl
  | start =>
    obtain rfl := Outcome.returned.inj h
    rfl
  | code => cases h
  | _ =>
    simp only [binReadSection] at h
    exact kind_of_map h fun _ => rfl

/-! ### Two runs -/

/-- Sections of one kind hold one content. The code section is left out, since only the last
one is read. -/
def SameKindAgree (sections : List BinSection) : Prop :=
  ∀ a ∈ sections, ∀ b ∈ sections, a.kind = b.kind → a.kind ≠ .code →
    ∀ fuel r r', binReadSection fuel (freshCtx a.pos a.data) a.kind = .returned r →
      binReadSection fuel (freshCtx b.pos b.data) b.kind = .returned r' → r.value = r'.value

/-- The same module, and the same diagnostics up to order. -/
def Agree {n m : ℕ} (s : ReadShared n) (t : ReadShared m) : Prop :=
  s.module = t.module ∧ (allDiags s).Perm (allDiags t)

/-- What a section gives, once it has been read. -/
def sectionRead (fuel : ℕ) (sec : BinSection) : ReadResult FieldValue :=
  (sectionResult fuel sec).getD ⟨.nothing, false, {}⟩

def bodyRead (fuel : ℕ) (binCodes : List BinCode) (i : ℕ) : ReadResult Code :=
  ((binCodes[i]?.map (bodyResult fuel)).getD .crashed).getD ⟨{}, false, {}⟩

/-- The sections of a file are read by `n` lanes in some order. -/
theorem sections_interleaved (hn : 0 < n) {fuel : ℕ} {sections : List BinSection}
    {log : List (Fin n × BinSection)}
    (hlog : entries log = fun lane => laneRangeSlice lane sections) {s s' : ReadShared n}
    (h : log.foldlM (fun s e => Lane.readSection fuel e.1 e.2 s) s = .returned s') :
    (∀ sec ∈ sections, ∃ r, sectionResult fuel sec = .returned r) ∧
      (∃ order : List BinSection, order.Perm sections ∧ s'.module =
        order.foldl (fun m sec => m.assign (sectionRead fuel sec).value) s.module) ∧
      (allDiags s').Perm
        (allDiags s ++ sections.flatMap fun sec => (sectionRead fuel sec).ctx.diags) := by
  refine interleaved_effects (A := fun e s => Lane.readSection fuel e.1 e.2 s) ?_
    (by rw [hlog, flatMap_laneRangeSlice hn]) h
  intro e s s' hs'
  obtain ⟨r, hr, hmodule, hdiags⟩ := readSection_spec hs'
  have hread : sectionRead fuel e.2 = r := by rw [sectionRead, hr, Outcome.getD_returned]
  rw [hread]
  exact ⟨⟨r, hr⟩, hmodule, hdiags⟩

/-- When sections of one kind hold one content, the order makes no difference. -/
theorem sections_read (hn : 0 < n) {fuel : ℕ} {sections : List BinSection}
    (hsame : SameKindAgree sections) {log : List (Fin n × BinSection)}
    (hlog : entries log = fun lane => laneRangeSlice lane sections) {s s' : ReadShared n}
    (h : log.foldlM (fun s e => Lane.readSection fuel e.1 e.2 s) s = .returned s') :
    (∀ sec ∈ sections, ∃ r, sectionResult fuel sec = .returned r) ∧
      s'.module =
        sections.foldl (fun m sec => m.assign (sectionRead fuel sec).value) s.module ∧
      (allDiags s').Perm
        (allDiags s ++ sections.flatMap fun sec => (sectionRead fuel sec).ctx.diags) := by
  obtain ⟨hP, ⟨order, hperm, hmodule⟩, hdiags⟩ := sections_interleaved hn hlog h
  refine ⟨hP, hmodule.trans (hperm.foldl_eq' (fun a ha b hb m => ?_) _), hdiags⟩
  have ha := hperm.mem_iff.mp ha
  have hb := hperm.mem_iff.mp hb
  obtain ⟨ra, hra⟩ := hP a ha
  obtain ⟨rb, hrb⟩ := hP b hb
  rw [sectionRead, sectionRead, hra, hrb, Outcome.getD_returned, Outcome.getD_returned]
  rw [sectionResult] at hra hrb
  by_cases hac : a.kind ≠ .code
  · by_cases hbc : b.kind ≠ .code
    · rw [if_pos hac] at hra
      rw [if_pos hbc] at hrb
      by_cases hkind : a.kind = b.kind
      · rw [hsame a ha b hb hkind hac fuel ra rb hra hrb]
      · refine Module.assign_comm m ?_
        rwa [binReadSection_kind hra, binReadSection_kind hrb]
    · rw [if_neg hbc] at hrb
      obtain rfl := Outcome.returned.inj hrb
      rfl
  · rw [if_neg hac] at hra
    obtain rfl := Outcome.returned.inj hra
    rfl

/-- The function bodies that `n` lanes read. -/
theorem bodies_read (hn : 0 < n) {fuel : ℕ} {binCodes : List BinCode}
    {log : List (Fin n × ℕ)}
    (hlog : entries log = fun lane => (laneRange lane binCodes.length).indices)
    {s s' : ReadShared n}
    (h : log.foldlM (fun s e => Lane.readCode fuel e.1 binCodes e.2 s) s = .returned s') :
    (∀ i ∈ List.range binCodes.length, ∃ binCode r, binCodes[i]? = some binCode ∧
        bodyResult fuel binCode = .returned r) ∧
      s'.module = (List.range binCodes.length).foldl (fun m i =>
        { m with codes := m.codes.set i (bodyRead fuel binCodes i).value }) s.module ∧
      (allDiags s').Perm (allDiags s ++
        (List.range binCodes.length).flatMap fun i => (bodyRead fuel binCodes i).ctx.diags) := by
  have hall : (∀ i ∈ List.range binCodes.length, ∃ binCode r, binCodes[i]? = some binCode ∧
        bodyResult fuel binCode = .returned r) ∧
      (∃ order : List ℕ, order.Perm (List.range binCodes.length) ∧
        s'.module = order.foldl (fun m i =>
          { m with codes := m.codes.set i (bodyRead fuel binCodes i).value }) s.module) ∧
      (allDiags s').Perm (allDiags s ++
        (List.range binCodes.length).flatMap fun i => (bodyRead fuel binCodes i).ctx.diags) := by
    refine interleaved_effects (A := fun e s => Lane.readCode fuel e.1 binCodes e.2 s) ?_
      (by rw [hlog, flatMap_laneRange_indices hn]) h
    intro e s s' hs'
    obtain ⟨binCode, r, hcode, hr, hmodule, hdiags⟩ := readCode_spec hs'
    have hread : bodyRead fuel binCodes e.2 = r := by
      rw [bodyRead, hcode, Option.map_some, Option.getD_some, hr, Outcome.getD_returned]
    rw [hread]
    exact ⟨⟨binCode, r, hcode, hr⟩, hmodule, hdiags⟩
  obtain ⟨hP, ⟨order, hperm, hmodule⟩, hdiags⟩ := hall
  refine ⟨hP, hmodule.trans (hperm.foldl_eq' (fun i _ j _ m => ?_) _), hdiags⟩
  rcases eq_or_ne i j with rfl | hij
  · rfl
  · rw [List.set_comm _ _ hij]

/-- A result that came back with two amounts of fuel is one result. -/
theorem getD_unique {α : Type} {f : ℕ → Outcome α} (hf : Outcome.Stable f) {k l : ℕ} {a b : α}
    (hk : f k = .returned a) (hl : f l = .returned b) (d : α) : (f k).getD d = (f l).getD d := by
  rw [hk, hl, Outcome.Returns.unique hf ⟨k, hk⟩ ⟨l, hl⟩]

section TwoRuns

variable {m k l : ℕ} {s s' : ReadShared n} {t t' : ReadShared m}

theorem Agree.sections (hn : 0 < n) (hm : 0 < m) {sections : List BinSection}
    (hsame : SameKindAgree sections) {log : List (Fin n × BinSection)}
    {log' : List (Fin m × BinSection)}
    (hlog : entries log = fun lane => laneRangeSlice lane sections)
    (hlog' : entries log' = fun lane => laneRangeSlice lane sections)
    (hs : log.foldlM (fun s e => Lane.readSection k e.1 e.2 s) s = .returned s')
    (ht : log'.foldlM (fun s e => Lane.readSection l e.1 e.2 s) t = .returned t')
    (h : Agree s t) : Agree s' t' := by
  obtain ⟨hall, hmodule, hdiags⟩ := sections_read hn hsame hlog hs
  obtain ⟨hall', hmodule', hdiags'⟩ := sections_read hm hsame hlog' ht
  have hread : ∀ sec ∈ sections, sectionRead k sec = sectionRead l sec := by
    intro sec hsec
    obtain ⟨r, hr⟩ := hall sec hsec
    obtain ⟨r', hr'⟩ := hall' sec hsec
    exact getD_unique (sectionResult_stable sec) hr hr' _
  constructor
  · rw [hmodule, hmodule', h.1]
    exact List.foldl_ext _ _ _ fun m sec hsec => by rw [hread sec hsec]
  · have hsecs : (sections.flatMap fun sec => (sectionRead k sec).ctx.diags) =
        sections.flatMap fun sec => (sectionRead l sec).ctx.diags :=
      List.flatMap_congr fun sec hsec => by rw [hread sec hsec]
    rw [hsecs] at hdiags
    exact hdiags.trans ((h.2.append_right _).trans hdiags'.symm)

theorem Agree.bodies (hn : 0 < n) (hm : 0 < m) {binCodes : List BinCode}
    {log : List (Fin n × ℕ)} {log' : List (Fin m × ℕ)}
    (hlog : entries log = fun lane => (laneRange lane binCodes.length).indices)
    (hlog' : entries log' = fun lane => (laneRange lane binCodes.length).indices)
    (hs : log.foldlM (fun s e => Lane.readCode k e.1 binCodes e.2 s) s = .returned s')
    (ht : log'.foldlM (fun s e => Lane.readCode l e.1 binCodes e.2 s) t = .returned t')
    (h : Agree s t) : Agree s' t' := by
  obtain ⟨hall, hmodule, hdiags⟩ := bodies_read hn hlog hs
  obtain ⟨hall', hmodule', hdiags'⟩ := bodies_read hm hlog' ht
  have hread : ∀ i ∈ List.range binCodes.length,
      bodyRead k binCodes i = bodyRead l binCodes i := by
    intro i hi
    obtain ⟨binCode, r, hcode, hr⟩ := hall i hi
    obtain ⟨binCode', r', hcode', hr'⟩ := hall' i hi
    obtain rfl := Option.some.inj (hcode.symm.trans hcode')
    rw [bodyRead, bodyRead, hcode]
    exact getD_unique (bodyResult_stable binCode) hr hr' _
  constructor
  · rw [hmodule, hmodule', h.1]
    exact List.foldl_ext _ _ _ fun m i hi => by rw [hread i hi]
  · have hbodies : ((List.range binCodes.length).flatMap
          fun i => (bodyRead k binCodes i).ctx.diags) =
        (List.range binCodes.length).flatMap fun i => (bodyRead l binCodes i).ctx.diags :=
      List.flatMap_congr fun i hi => by rw [hread i hi]
    rw [hbodies] at hdiags
    exact hdiags.trans ((h.2.append_right _).trans hdiags'.symm)

/-- The structure of the code section, as lane 0 reads it. -/
theorem structured_spec (hn : 0 < n) {codeSection : BinSection} {r : ReadResult (List BinCode)}
    (h : binReadCodeSectionStructure (Lane.scopeOf codeSection s ⟨0, hn⟩) = .returned r) :
    ∃ r₀, binReadCodeSectionStructure (freshCtx codeSection.pos codeSection.data) =
        .returned r₀ ∧ r.ok = r₀.ok ∧ r.value = r₀.value ∧
      (Lane.structured hn codeSection s r).module = Lane.withCodes s.module r₀ ∧
      (allDiags (Lane.structured hn codeSection s r)).Perm (allDiags s ++ r₀.ctx.diags) := by
  rw [Lane.scopeOf, binReaderSetScope_eq] at h
  have hframe := binReadCodeSectionStructure_frame
    (freshCtx codeSection.pos codeSection.data) (s.ctxs ⟨0, hn⟩).diags
  obtain ⟨r₀, hr₀, hr⟩ := Outcome.bind_eq_returned.mp (hframe.symm.trans h)
  obtain rfl := Outcome.returned.inj hr
  refine ⟨r₀, hr₀, rfl, rfl, rfl, ?_⟩
  rw [← flatMap_ite_lane ⟨0, hn⟩ r₀.ctx.diags]
  refine allDiags_append fun i => ?_
  rcases eq_or_ne i ⟨0, hn⟩ with rfl | hi
  · simp [Lane.structured, BinReadCtx.under]
  · simp [Lane.structured, hi, Lane.scopeOf, binReaderSetScope]

theorem Agree.codes (hn : 0 < n) (hm : 0 < m) {b : BinModule}
    (hs : Lane.CodesRead hn k b s s') (ht : Lane.CodesRead hm l b t t') (h : Agree s t) :
    Agree s' t' := by
  rcases hs with ⟨hneg, rfl⟩ | ⟨sec, r, hsec, hpos, hr, hrest⟩
  · rcases ht with ⟨-, rfl⟩ | ⟨-, -, -, hpos, -⟩
    · exact h
    · omega
  · rcases ht with ⟨hneg, -⟩ | ⟨sec', r', hsec', -, hr', hrest'⟩
    · omega
    obtain rfl := Option.some.inj (hsec.symm.trans hsec')
    obtain ⟨r₀, hr₀, hok, hvalue, hmodule, hdiags⟩ := structured_spec hn hr
    obtain ⟨r₁, hr₁, hok', hvalue', hmodule', hdiags'⟩ := structured_spec hm hr'
    obtain rfl := Outcome.returned.inj (hr₀.symm.trans hr₁)
    have hstart : ∀ w w', Agree { Lane.structured hn sec s r with memory := w }
        { Lane.structured hm sec t r' with memory := w' } := fun _ _ =>
      ⟨hmodule.trans (h.1 ▸ hmodule'.symm),
        hdiags.trans ((h.2.append_right _).trans hdiags'.symm)⟩
    rcases hrest with ⟨hfail, rfl⟩ | ⟨hgood, log, hlog, hrun⟩
    · rcases hrest' with ⟨-, rfl⟩ | ⟨hgood', -⟩
      · exact hstart _ _
      · rw [hok', ← hok, hfail] at hgood'
        cases hgood'
    · rcases hrest' with ⟨hfail', -⟩ | ⟨-, log', hlog', hrun'⟩
      · rw [hok', ← hok, hgood] at hfail'
        cases hfail'
      · rw [hvalue] at hlog hrun
        rw [hvalue'] at hlog' hrun'
        exact (hstart _ _).bodies hn hm hlog hlog' hrun hrun'

end TwoRuns

theorem allDiags_scanned (hn : 0 < n) (data : List UInt8) (w : LaneWord) :
    allDiags { Lane.scanned hn data ({ memory := .ctxs } : ReadShared n) with memory := w } =
      (binScanModule (fileCtx data)).ctx.diags := by
  have hlane : ∀ i : Fin n, ((Lane.scanned hn data ({ memory := .ctxs } : ReadShared n)).ctxs
      i).diags = if i = ⟨0, hn⟩ then (binScanModule (fileCtx data)).ctx.diags else [] := by
    intro i
    rcases eq_or_ne i ⟨0, hn⟩ with rfl | hi
    · rw [if_pos rfl, Lane.scanned, setCtx]
      simp only [Function.update_self]
      rfl
    · rw [if_neg hi, Lane.scanned, setCtx]
      simp only [Function.update_of_ne hi]
  rw [← flatMap_ite_lane ⟨0, hn⟩ (binScanModule (fileCtx data)).ctx.diags]
  exact List.flatMap_congr fun i _ => hlane i

/-- Any two runs on a file that can be scanned, with any numbers of lanes and in any order,
give the same module and the same diagnostics up to order, when sections of one kind hold one
content. -/
theorem binRead_lanes_agree {m : ℕ} (hn : 0 < n) (hm : 0 < m) {data : List UInt8}
    (hscan : (binScanModule (fileCtx data)).ok = true)
    (hsame : SameKindAgree (binScanModule (fileCtx data)).value.sections)
    {fuel fuel' : ℕ} {s : ReadShared n} {t : ReadShared m}
    (hs : Run (binRead fuel data n) ⟨s, fun _ => .done⟩)
    (ht : Run (binRead fuel' data m) ⟨t, fun _ => .done⟩) :
    s.module = t.module ∧ s.diags.Perm t.diags := by
  rcases Lane.finish_binRead hn hs with ⟨hok, -⟩ | ⟨-, log, s₁, s₂, hlog, hrun, hcodes, rfl⟩
  · rw [hscan] at hok
    cases hok
  rcases Lane.finish_binRead hm ht with ⟨hok, -⟩ | ⟨-, log', t₁, t₂, hlog', hrun', hcodes', rfl⟩
  · rw [hscan] at hok
    cases hok
  have hstart : Agree
      { Lane.scanned hn data ({ memory := .ctxs } : ReadShared n) with
        memory := .module (binScanModule (fileCtx data)).value }
      { Lane.scanned hm data ({ memory := .ctxs } : ReadShared m) with
        memory := .module (binScanModule (fileCtx data)).value } :=
    ⟨rfl, by rw [allDiags_scanned, allDiags_scanned]⟩
  have hsections := hstart.sections hn hm hsame hlog hlog' hrun hrun'
  have hend := hsections.codes hn hm hcodes hcodes'
  rw [binCollectDiagnostics_ofFn, binCollectDiagnostics_ofFn]
  exact hend

/-- A file with a type section, two function sections of one content, and a code section with
two bodies, each a block. -/
def twinFunctions : List UInt8 :=
  [0x00, 0x61, 0x73, 0x6D, 0x01, 0x00, 0x00, 0x00, 0x01, 0x05, 0x01, 0x60, 0x00, 0x01, 0x7F,
    0x03, 0x03, 0x02, 0x00, 0x00, 0x03, 0x03, 0x02, 0x00, 0x00, 0x0A, 0x11, 0x02,
    0x07, 0x00, 0x02, 0x7F, 0x41, 0x00, 0x0B, 0x0B, 0x07, 0x00, 0x02, 0x7F, 0x41, 0x00, 0x0B, 0x0B]

/-- The sections that the scan finds in that file. -/
def twinSections : List BinSection :=
  [⟨.type, 8, [0x01, 0x60, 0x00, 0x01, 0x7F]⟩, ⟨.function, 15, [0x02, 0x00, 0x00]⟩,
    ⟨.function, 20, [0x02, 0x00, 0x00]⟩,
    ⟨.code, 25, [0x02, 0x07, 0x00, 0x02, 0x7F, 0x41, 0x00, 0x0B, 0x0B, 0x07, 0x00, 0x02, 0x7F,
      0x41, 0x00, 0x0B, 0x0B]⟩]

theorem sameKindAgree_twinSections : SameKindAgree twinSections := by
  have hfunctions : ∀ fuel, ∀ pos ∈ [15, 20], ∃ r,
      binReadSection fuel (freshCtx pos [0x02, 0x00, 0x00]) .function = .returned r ∧
        r.value = .functions [0, 0] := by
    intro fuel pos hpos
    obtain rfl | rfl := List.mem_pair.mp hpos
    · exact ⟨_, rfl, by decide⟩
    · exact ⟨_, rfl, by decide⟩
  have hpos : ∀ a ∈ twinSections, ∀ b ∈ twinSections, a.kind = b.kind →
      a = b ∨ (a.kind = .function ∧ a.data = [0x02, 0x00, 0x00] ∧ b.data = a.data ∧
        a.pos ∈ [15, 20] ∧ b.pos ∈ [15, 20]) := by
    decide
  intro a ha b hb hkind _ fuel r r' hr hr'
  obtain rfl | ⟨hfunction, hdata, hdata', hapos, hbpos⟩ := hpos a ha b hb hkind
  · rw [Outcome.returned.inj (hr.symm.trans hr')]
  · rw [← hkind, hfunction, hdata', hdata] at hr'
    rw [hfunction, hdata] at hr
    obtain ⟨x, hx, hvalue⟩ := hfunctions fuel a.pos hapos
    obtain ⟨y, hy, hvalue'⟩ := hfunctions fuel b.pos hbpos
    rw [← Outcome.returned.inj (hx.symm.trans hr), ← Outcome.returned.inj (hy.symm.trans hr'),
      hvalue, hvalue']

/-- One lane and two lanes agree on that file. Of the two lanes, each reads one of the function
sections and one of the bodies, and the second lane is the first one to read. -/
theorem binRead_lanes_agree_twinFunctions :
    ∃ (s : ReadShared 1) (t : ReadShared 2),
      Run (binRead 10 twinFunctions 1) ⟨s, fun _ => .done⟩ ∧
      Run (binRead 10 twinFunctions 2) ⟨t, fun _ => .done⟩ ∧
      s.module = t.module ∧ s.diags.Perm t.diags := by
  obtain ⟨s, hs, -⟩ := exists_run_of_schedule (c := binRead 10 twinFunctions 1)
    [none, some 0, some 0, none, none, some 0, some 0, none, none, some 0, none, none,
      some 0, some 0, some 0, some 0, none, some 0, some 0, none, none, some 0, none, none,
      some 0, some 0, none, some 0, none, some 0] (fun _ => true) (by decide +kernel)
  obtain ⟨t, ht, -⟩ := exists_run_of_schedule (c := binRead 10 twinFunctions 2)
    [none, some 0, some 0, none, some 1, none, some 0, some 0, none, some 1, none, some 0, none,
      some 1, none, some 1, some 0, some 1, some 0, none, some 0, some 0, some 1, none, some 1,
      none, some 0, none, some 1, none, some 1, some 0, none, some 0, none, some 0]
    (fun _ => true) (by decide +kernel)
  obtain ⟨hok, hsections⟩ : (binScanModule (fileCtx twinFunctions)).ok = true ∧
      (binScanModule (fileCtx twinFunctions)).value.sections = twinSections := by decide +kernel
  exact ⟨s, t, hs, ht, binRead_lanes_agree (by decide) (by decide) hok
    (hsections ▸ sameKindAgree_twinSections) hs ht⟩

/-- A file with two type sections: one without types, and one with a type. -/
def twoTypeSections : List UInt8 :=
  [0x00, 0x61, 0x73, 0x6D, 0x01, 0x00, 0x00, 0x00, 0x01, 0x01, 0x00,
    0x01, 0x04, 0x01, 0x60, 0x00, 0x00]

/-- One lane reads the second section last. Of two lanes, the one with the first section may
come last. -/
theorem binRead_lanes_disagree :
    (binScanModule (fileCtx twoTypeSections)).ok = true ∧
      ∃ (s : ReadShared 1) (t : ReadShared 2),
        Run (binRead 0 twoTypeSections 1) ⟨s, fun _ => .done⟩ ∧
        Run (binRead 0 twoTypeSections 2) ⟨t, fun _ => .done⟩ ∧
        ¬(s.module = t.module ∧ s.diags.Perm t.diags) := by
  obtain ⟨s, hs, hs'⟩ := exists_run_of_schedule (c := binRead 0 twoTypeSections 1)
    [none, some 0, some 0, none, none, some 0, some 0, none, none, some 0, none, none,
      some 0, some 0, none, none, some 0, none, some 0]
    (fun s => s.module.types = [{}]) (by decide +kernel)
  obtain ⟨t, ht, ht'⟩ := exists_run_of_schedule (c := binRead 0 twoTypeSections 2)
    [none, some 0, some 0, none, some 1, none, some 0, some 0, none, some 1, none, some 0, none,
      some 1, none, some 1, some 0, none, none, some 0, none, some 0]
    (fun t => t.module.types = []) (by decide +kernel)
  refine ⟨by decide +kernel, s, t, hs, ht, fun h => ?_⟩
  have hs'' : s.module.types = [{}] := by simpa using hs'
  have ht'' : t.module.types = [] := by simpa using ht'
  rw [h.1, ht''] at hs''
  cases hs''

end Wasim
