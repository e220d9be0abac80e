import Wasim.Binary.EntryPoint

/-!
# Runs of the lanes

A run of `bin_read` that lets every lane return is followed phase by phase: each lemma takes
a run that stands before a part of `bin_read_entry_point` to one that stands behind it, with
what happened to the shared state. Wherever lanes work side by side, what happened is one
interleaving of their loops.

At the end stands an exact answer for the event (`binRead_signals_iff`): it is signalled, and
the diagnostics are those of all contexts, precisely when the file could be scanned. When it
could not, the lanes return without a signal and without the diagnostics.
-/

namespace Wasim

open Lanes ReadShared

variable {n : ℕ} {fuel : ℕ} {data : List UInt8} {s t : ReadShared n}

/-! ### The phases -/

namespace Lane

theorem val_ne_zero (hn : 0 < n) {i : Fin n} (hi : i ≠ ⟨0, hn⟩) : i.val ≠ 0 :=
  fun h => hi (Fin.ext h)

theorem onLane0_other (hn : 0 < n) {i : Fin n} (hi : i ≠ ⟨0, hn⟩)
    (f : ReadShared n → ReadShared n) (p : Prog (ReadShared n)) : onLane0 i f p = p := by
  rw [onLane0, if_neg (val_ne_zero hn hi)]

/-- Behind the step of lane 0. -/
theorem update_onLane0 (hn : 0 < n) (f : ReadShared n → ReadShared n)
    (k : Fin n → Prog (ReadShared n)) :
    Function.update (fun i => onLane0 i f (k i)) ⟨0, hn⟩ (k ⟨0, hn⟩) = k := by
  funext i
  rcases eq_or_ne i ⟨0, hn⟩ with rfl | hi
  · rw [Function.update_self]
  · rw [Function.update_of_ne hi, onLane0_other hn hi]

/-- Lane 0 takes a step of its own while the others wait. -/
theorem finish_onLane0 (hn : 0 < n) {f : ReadShared n → ReadShared n}
    {k : Fin n → Prog (ReadShared n)} (hk : ∀ i : Fin n, i.val ≠ 0 → (k i).Halted)
    (h : Finish ⟨s, fun i => onLane0 i f (k i)⟩ t) : Finish ⟨f s, k⟩ t := by
  obtain ⟨s', q, hact, hfin⟩ := h.act (j := ⟨0, hn⟩) (by rw [onLane0, if_pos rfl])
    fun i hi => by
      rw [onLane0_other hn hi]
      exact hk i (val_ne_zero hn hi)
  obtain ⟨rfl, rfl⟩ := Prod.mk.inj (Outcome.returned.inj hact)
  rwa [update_onLane0] at hfin

/-- A lane other than 0 waits in `lane_sync_value` for the value. -/
theorem halted_laneSyncValue {lane : Fin n} (hlane : lane.val ≠ 0) (value : LaneWord)
    (k : LaneWord → Prog (ReadShared n)) :
    (laneSyncValue laneMemory lane value 0 k).Halted := by
  rw [laneSyncValue, if_neg hlane]
  trivial

theorem finish_entryPoint (hn : 0 < n) (h : Finish (binRead fuel data n) t) :
    Finish ⟨{ memory := .ctxs }, scan fuel data⟩ t := by
  have hrel := h.release hn fun i => rfl
  have halloc := finish_onLane0 hn (fun i hi => halted_laneSyncValue hi _ _) hrel
  exact finish_laneSyncValue ⟨0, hn⟩ halloc

/-- The two values behind the scan, of which every lane has its own idea before. -/
theorem finish_afterScan (hn : 0 < n) {ok : Fin n → Bool} {w : Fin n → LaneWord}
    {m : BinModule} (hw : w ⟨0, hn⟩ = .module m)
    (h : Finish ⟨s, fun lane => afterScan fuel lane (ok lane) (w lane)⟩ t) :
    (ok ⟨0, hn⟩ = false ∧ t = { s with memory := .flag false }) ∨
      ok ⟨0, hn⟩ = true ∧
        Finish ⟨{ s with memory := .module m }, fun lane => readSections fuel lane m⟩ t := by
  have hsync := finish_laneSyncValue ⟨0, hn⟩ h
  cases hok : ok ⟨0, hn⟩ with
  | false =>
    simp only [hok, LaneWord.asFlag, Bool.false_eq_true, if_false] at hsync
    exact Or.inl ⟨rfl, (hsync.eq_of_done hn).symm⟩
  | true =>
    simp only [hok, LaneWord.asFlag, if_true] at hsync
    have hsync' := finish_laneSyncValue ⟨0, hn⟩ hsync
    simp only [hw] at hsync'
    exact Or.inr ⟨rfl, hsync'⟩

/-- The state behind the scan. -/
def scanned (hn : 0 < n) (data : List UInt8) (s : ReadShared n) : ReadShared n :=
  let m := binScanModule (binReaderSetScope (s.ctxs ⟨0, hn⟩) 0 data)
  { s.setCtx ⟨0, hn⟩ m.ctx with module := { s.module with version := m.value.version } }

theorem scan_other (hn : 0 < n) {i : Fin n} (hi : i ≠ ⟨0, hn⟩) :
    scan fuel data i = afterScan fuel i false .null := by
  rw [scan, if_neg (val_ne_zero hn hi)]

/-- Behind the scan of lane 0. -/
theorem update_scan (hn : 0 < n) (ok : Bool) (m : BinModule) :
    Function.update (scan fuel data) ⟨0, hn⟩ (afterScan fuel ⟨0, hn⟩ ok (.module m)) =
      fun i => afterScan fuel i (if i = ⟨0, hn⟩ then ok else false)
        (if i = ⟨0, hn⟩ then .module m else .null) := by
  funext i
  rcases eq_or_ne i ⟨0, hn⟩ with rfl | hi
  · rw [Function.update_self, if_pos rfl, if_pos rfl]
  · rw [Function.update_of_ne hi, scan_other hn hi, if_neg hi, if_neg hi]

theorem finish_scan (hn : 0 < n) {m : ReadResult BinModule}
    (hm : binScanModule (binReaderSetScope (s.ctxs ⟨0, hn⟩) 0 data) = m)
    (h : Finish ⟨s, scan fuel data⟩ t) :
    (m.ok = false ∧ t = { scanned hn data s with memory := .flag false }) ∨
      m.ok = true ∧ Finish ⟨{ scanned hn data s with memory := .module m.value },
        fun lane => readSections fuel lane m.value⟩ t := by
  obtain ⟨s', q, hact, hfin⟩ := h.act (j := ⟨0, hn⟩) (by rw [scan, if_pos rfl])
    fun i hi => by
      rw [scan_other hn hi]
      exact halted_laneSyncValue (fun h => hi (Fin.ext h)) _ _
  obtain ⟨rfl, rfl⟩ := Prod.mk.inj (Outcome.returned.inj hact)
  rw [hm, update_scan] at hfin
  have hend := finish_afterScan hn (if_pos rfl) hfin
  rw [if_pos rfl] at hend
  rw [scanned, hm]
  exact hend

/-- The sections are read in one interleaving of the lanes' slices. -/
theorem finish_readSections (hn : 0 < n) {m : BinModule}
    (h : Finish ⟨s, fun lane => readSections fuel lane m⟩ t) :
    ∃ s' log, entries log = (fun lane : Fin n => laneRangeSlice lane m.sections) ∧
      log.foldlM (fun s e => readSection fuel e.1 e.2 s) s = Outcome.returned s' ∧
      Finish ⟨s', fun lane => readCodeSection fuel lane m⟩ t :=
  h.forEach hn

/-! The structure of the code section is the one phase in which lane 0 works while the others
still change the state, each its own context. -/

section Structure

variable (fuel : ℕ) (codeSection : BinSection) (s : ReadShared n)

def scopeOf (lane : Fin n) : BinReadCtx :=
  binReaderSetScope (s.ctxs lane) codeSection.pos codeSection.data

/-- The module with memory for the bodies, if there are any. -/
def withCodes (m : Module) (r : ReadResult (List BinCode)) : Module :=
  if r.ok then { m with codes := List.replicate r.value.length {} } else m

/-- Where a lane other than 0 is, in a phase that began at `s`. -/
def LaneScopes (lane : Fin n) (u : ReadShared n) (p : Prog (ReadShared n)) : Prop :=
  (p = readStructure fuel lane codeSection ∧ u.ctxs lane = s.ctxs lane) ∨
    (p = afterStructure fuel lane true [] ∧ u.ctxs lane = scopeOf codeSection s lane)

/-- Where lane 0 is, in a phase that began at `s`. Everything but the contexts of the other
lanes is what lane 0 made of it. -/
def Lane0Structures (lane : Fin n) (u : ReadShared n) (p : Prog (ReadShared n)) : Prop :=
  (p = readStructure fuel lane codeSection ∧ u = { s with ctxs := u.ctxs } ∧
      u.ctxs lane = s.ctxs lane) ∨
    ∃ r, binReadCodeSectionStructure (scopeOf codeSection s lane) = .returned r ∧
      u.ctxs lane = r.ctx ∧
      ((p = afterStructure fuel lane r.ok r.value ∧
          u = { s with ctxs := u.ctxs, module := withCodes s.module r }) ∨
        (p = .sync (laneTakeValue laneMemory lane (.flag r.ok) 0
            (shareCodes fuel lane r.value)) ∧
          u = { s with
            ctxs := u.ctxs, module := withCodes s.module r, memory := .flag r.ok }))

variable {fuel codeSection s}

/-- Another lane only sets its scope. -/
theorem LaneScopes.act {lane : Fin n} (hlane : lane.val ≠ 0) {u u' : ReadShared n}
    {f : ReadShared n → Outcome (ReadShared n × Prog (ReadShared n))}
    {q : Prog (ReadShared n)} (h : LaneScopes fuel codeSection s lane u (.act f))
    (hf : f u = .returned (u', q)) :
    u' = u.setCtx lane (scopeOf codeSection s lane) ∧ q = afterStructure fuel lane true [] := by
  rcases h with ⟨hp, hctx⟩ | ⟨hp, -⟩
  · rw [readStructure] at hp
    obtain rfl := Prog.act.inj hp
    simp only [if_neg hlane, hctx] at hf
    obtain ⟨rfl, rfl⟩ := Prod.mk.inj (Outcome.returned.inj hf)
    exact ⟨rfl, rfl⟩
  · have hhalt := halted_laneSyncValue hlane (.flag true) (shareCodes fuel lane [])
    rw [← afterStructure, ← hp] at hhalt
    exact hhalt.elim

/-- Lane 0 reads the structure, and publishes whether it could. -/
theorem Lane0Structures.act {lane : Fin n} (hlane : lane.val = 0) {u u' : ReadShared n}
    {f : ReadShared n → Outcome (ReadShared n × Prog (ReadShared n))}
    {q : Prog (ReadShared n)} (h : Lane0Structures fuel codeSection s lane u (.act f))
    (hf : f u = .returned (u', q)) :
    Lane0Structures fuel codeSection s lane u' q ∧
      ∀ i, i ≠ lane → u'.ctxs i = u.ctxs i := by
  rcases h with ⟨hp, hu, hctx⟩ | ⟨r, hr, hctx, ⟨hp, hu⟩ | ⟨hp, -⟩⟩
  · rw [readStructure] at hp
    obtain rfl := Prog.act.inj hp
    simp only [if_pos hlane] at hf
    obtain ⟨r, hr, hret⟩ := Outcome.bind_eq_returned.mp hf
    obtain ⟨rfl, rfl⟩ := Prod.mk.inj (Outcome.returned.inj hret)
    rw [hctx] at hr
    refine ⟨Or.inr ⟨r, hr, ?_, Or.inl ⟨rfl, ?_⟩⟩, fun i hi => ?_⟩
    · split <;> simp [setCtx]
    · rw [hu]
      simp only [withCodes, setCtx]
      split <;> rfl
    · split <;> simp [setCtx, Function.update_of_ne hi]
  · rw [afterStructure, laneSyncValue, if_pos hlane] at hp
    obtain rfl := Prog.act.inj hp
    obtain ⟨rfl, rfl⟩ := Prod.mk.inj (Outcome.returned.inj hf)
    refine ⟨Or.inr ⟨r, hr, hctx, Or.inr ⟨rfl, ?_⟩⟩, fun _ _ => rfl⟩
    rw [hu]
    rfl
  · cases hp

/-- The state behind the structure of the code section. -/
def structured (hn : 0 < n) (codeSection : BinSection) (s : ReadShared n)
    (r : ReadResult (List BinCode)) : ReadShared n :=
  { s with
    ctxs := Function.update (scopeOf codeSection s) ⟨0, hn⟩ r.ctx
    module := withCodes s.module r }

/-- Where a lane is in the phase. -/
def InStructure (hn : 0 < n) (fuel : ℕ) (codeSection : BinSection) (s : ReadShared n)
    (i : Fin n) (u : ReadShared n) (p : Prog (ReadShared n)) : Prop :=
  if i = ⟨0, hn⟩ then Lane0Structures fuel codeSection s i u p
  else LaneScopes fuel codeSection s i u p

theorem InStructure.start (hn : 0 < n) (i : Fin n) :
    InStructure hn fuel codeSection s i s (readStructure fuel i codeSection) := by
  rw [InStructure]
  split
  · exact Or.inl ⟨rfl, rfl, rfl⟩
  · exact Or.inl ⟨rfl, rfl⟩

theorem InStructure.own (hn : 0 < n) {i : Fin n} {u u' : ReadShared n}
    {f : ReadShared n → Outcome (ReadShared n × Prog (ReadShared n))}
    {q : Prog (ReadShared n)} (hI : InStructure hn fuel codeSection s i u (.act f))
    (hf : f u = .returned (u', q)) : InStructure hn fuel codeSection s i u' q := by
  rw [InStructure] at hI ⊢
  rcases eq_or_ne i ⟨0, hn⟩ with rfl | hi
  · rw [if_pos rfl] at hI ⊢
    exact (hI.act rfl hf).1
  · rw [if_neg hi] at hI ⊢
    obtain ⟨rfl, rfl⟩ := hI.act (val_ne_zero hn hi) hf
    exact Or.inr ⟨rfl, Function.update_self ..⟩

/-- An action of one lane does not move another one. -/
theorem InStructure.other (hn : 0 < n) {i j : Fin n} {u u' : ReadShared n}
    {f : ReadShared n → Outcome (ReadShared n × Prog (ReadShared n))}
    {p q : Prog (ReadShared n)} (hij : i ≠ j)
    (hI : InStructure hn fuel codeSection s i u (.act f)) (hf : f u = .returned (u', q))
    (hJ : InStructure hn fuel codeSection s j u p) :
    InStructure hn fuel codeSection s j u' p := by
  rw [InStructure] at hI hJ ⊢
  rcases eq_or_ne i ⟨0, hn⟩ with rfl | hi
  · rw [if_pos rfl] at hI
    rw [if_neg hij.symm] at hJ ⊢
    rwa [LaneScopes, (hI.act rfl hf).2 j hij.symm]
  · rw [if_neg hi] at hI
    obtain ⟨rfl, rfl⟩ := hI.act (val_ne_zero hn hi) hf
    have hctx : (u.setCtx i (scopeOf codeSection s i)).ctxs j = u.ctxs j :=
      Function.update_of_ne hij.symm _ _
    rcases eq_or_ne j ⟨0, hn⟩ with hj | hj
    · rw [if_pos hj] at hJ ⊢
      rcases hJ with ⟨hp, hu, hc⟩ | ⟨r, hr, hc, ⟨hp, hu⟩ | ⟨hp, hu⟩⟩
      · exact Or.inl ⟨hp, by rw [hu]; rfl, hctx.trans hc⟩
      · exact Or.inr ⟨r, hr, hctx.trans hc, Or.inl ⟨hp, by rw [hu]; rfl⟩⟩
      · exact Or.inr ⟨r, hr, hctx.trans hc, Or.inr ⟨hp, by rw [hu]; rfl⟩⟩
    · rw [if_neg hj] at hJ ⊢
      rwa [LaneScopes, hctx]

/-- All lanes have halted behind the phase: the state, and what they wait for. -/
theorem InStructure.halted (hn : 0 < n) {u : ReadShared n} {p : Fin n → Prog (ReadShared n)}
    (hinv : ∀ i, InStructure hn fuel codeSection s i u (p i)) (hp : ∀ i, (p i).Halted) :
    ∃ r, binReadCodeSectionStructure (scopeOf codeSection s ⟨0, hn⟩) = .returned r ∧
      u = { structured hn codeSection s r with memory := .flag r.ok } ∧
      ∀ i, p i = .sync (laneTakeValue laneMemory i
        (if i = ⟨0, hn⟩ then .flag r.ok else .flag true) 0
        (shareCodes fuel i (if i = ⟨0, hn⟩ then r.value else []))) := by
  -- lane 0 has halted, so it has published
  have h0 := hinv ⟨0, hn⟩
  rw [InStructure, if_pos rfl] at h0
  rcases h0 with ⟨hp0, -, -⟩ | ⟨r, hr, hctx, ⟨hp0, -⟩ | ⟨hp0, hu⟩⟩
  · have := hp ⟨0, hn⟩
    rw [hp0] at this
    exact this.elim
  · have := hp ⟨0, hn⟩
    rw [hp0, afterStructure, laneSyncValue, if_pos rfl] at this
    exact this.elim
  have hothers : ∀ i, i ≠ ⟨0, hn⟩ →
      p i = afterStructure fuel i true [] ∧ u.ctxs i = scopeOf codeSection s i := by
    intro i hi
    have hI := hinv i
    rw [InStructure, if_neg hi] at hI
    rcases hI with ⟨hpi, -⟩ | hI
    · have := hp i
      rw [hpi] at this
      exact this.elim
    · exact hI
  have hctxs : u.ctxs = Function.update (scopeOf codeSection s) ⟨0, hn⟩ r.ctx := by
    funext i
    rcases eq_or_ne i ⟨0, hn⟩ with rfl | hi
    · rw [Function.update_self, hctx]
    · rw [Function.update_of_ne hi, (hothers i hi).2]
  refine ⟨r, hr, ?_, fun i => ?_⟩
  · rw [hu, hctxs]
    rfl
  · rcases eq_or_ne i ⟨0, hn⟩ with rfl | hi
    · rw [hp0, if_pos rfl, if_pos rfl]
    · rw [(hothers i hi).1, if_neg hi, if_neg hi, afterStructure, laneSyncValue,
        if_neg (val_ne_zero hn hi)]

theorem acts_readStructure (hn : 0 < n) {u : ReadShared n} {p : Fin n → Prog (ReadShared n)}
    (hp : ∀ i, (p i).Halted)
    (h : Acts ⟨s, fun lane => readStructure fuel lane codeSection⟩ ⟨u, p⟩) :
    ∃ r, binReadCodeSectionStructure (scopeOf codeSection s ⟨0, hn⟩) = .returned r ∧
      u = { structured hn codeSection s r with memory := .flag r.ok } ∧
      ∀ i, p i = .sync (laneTakeValue laneMemory i
        (if i = ⟨0, hn⟩ then .flag r.ok else .flag true) 0
        (shareCodes fuel i (if i = ⟨0, hn⟩ then r.value else []))) :=
  InStructure.halted hn (Acts.invariants (I := InStructure hn fuel codeSection s)
    (fun _ _ _ _ _ => InStructure.own hn) (fun _ _ _ _ _ _ _ => InStructure.other hn)
    (InStructure.start hn) h) hp

theorem finish_readStructure (hn : 0 < n)
    (h : Finish ⟨s, fun lane => readStructure fuel lane codeSection⟩ t) :
    ∃ r, binReadCodeSectionStructure (scopeOf codeSection s ⟨0, hn⟩) = .returned r ∧
      ((r.ok = false ∧ Finish ⟨{ structured hn codeSection s r with memory := .flag false },
          collect⟩ t) ∨
        r.ok = true ∧ Finish ⟨{ structured hn codeSection s r with memory := .codes r.value },
          fun lane => readCodes fuel lane r.value⟩ t) := by
  obtain ⟨u, p, hacts, hhalt, hend⟩ := h.phase
  obtain ⟨r, hr, rfl, hp⟩ := acts_readStructure hn hhalt hacts
  refine ⟨r, hr, ?_⟩
  rcases hend with ⟨-, hdone⟩ | ⟨k, hk, hfin⟩
  · have := hdone ⟨0, hn⟩
    rw [hp] at this
    cases this
  obtain rfl : (fun i => laneTakeValue laneMemory i
      (if i = ⟨0, hn⟩ then .flag r.ok else .flag true) 0
      (shareCodes fuel i (if i = ⟨0, hn⟩ then r.value else []))) = k :=
    funext fun i => Prog.sync.inj ((hp i).symm.trans (hk i))
  have htake := finish_laneTakeValue ⟨0, hn⟩ hfin (if_pos rfl)
  cases hok : r.ok with
  | false =>
    simp only [hok, shareCodes, LaneWord.asFlag] at htake
    exact Or.inl ⟨rfl, htake.release hn fun _ => rfl⟩
  | true =>
    simp only [hok, shareCodes, LaneWord.asFlag] at htake
    have hsync := finish_laneSyncValue ⟨0, hn⟩ htake
    simp only [if_true] at hsync
    exact Or.inr ⟨rfl, hsync⟩

end Structure

/-- The function bodies are read in one interleaving of the lanes' ranges. -/
theorem finish_readCodes (hn : 0 < n) {binCodes : List BinCode}
    (h : Finish ⟨s, fun lane => readCodes fuel lane binCodes⟩ t) :
    ∃ s' log, entries log = (fun lane : Fin n => (laneRange lane binCodes.length).indices) ∧
      log.foldlM (fun s e => readCode fuel e.1 binCodes e.2 s) s = Outcome.returned s' ∧
      Finish ⟨s', collect⟩ t :=
  h.forEach hn

theorem finish_collect (hn : 0 < n) (h : Finish ⟨s, collect⟩ t) :
    t = { s with diags := binCollectDiagnostics (List.ofFn s.ctxs), done := true } := by
  have hcollect := finish_onLane0 hn (fun _ _ => Prog.halted_sync _) h
  have hrel := hcollect.release hn fun _ => rfl
  have hsignal := finish_onLane0 hn (fun _ _ => Prog.halted_done) hrel
  exact (hsignal.eq_of_done hn).symm

/-- A lane that crashes does not return. -/
theorem not_finish_crash (hn : 0 < n) : ¬Finish (⟨s, fun _ => crash⟩ : Config _ n) t := by
  intro h
  rcases Relation.ReflTransGen.cases_head h with heq | ⟨c, hact | hsync, -⟩
  · cases congrFun (Config.mk.inj heq).2 ⟨0, hn⟩
  · obtain ⟨s', p'⟩ := c
    obtain ⟨i, f, r, hi, hf, -⟩ := hact.exists_lane
    obtain rfl := Prog.act.inj hi
    cases hf
  · cases hsync ⟨0, hn⟩

/-- What the lanes make of the code section: nothing when there is none, the structure alone
when it is broken, and otherwise one interleaving of the lanes' ranges of bodies. -/
def CodesRead (hn : 0 < n) (fuel : ℕ) (m : BinModule) (s s' : ReadShared n) : Prop :=
  (m.codeSectionIndex < 0 ∧ s' = s) ∨
    ∃ codeSection r, m.sections[m.codeSectionIndex.toNat]? = some codeSection ∧
      0 ≤ m.codeSectionIndex ∧
      binReadCodeSectionStructure (scopeOf codeSection s ⟨0, hn⟩) = .returned r ∧
      ((r.ok = false ∧ s' = { structured hn codeSection s r with memory := .flag false }) ∨
        r.ok = true ∧ ∃ log,
          entries log = (fun lane : Fin n => (laneRange lane r.value.length).indices) ∧
          log.foldlM (fun s e => readCode fuel e.1 r.value e.2 s)
            { structured hn codeSection s r with memory := .codes r.value } =
            Outcome.returned s')

theorem finish_readCodeSection (hn : 0 < n) {m : BinModule}
    (h : Finish ⟨s, fun lane => readCodeSection fuel lane m⟩ t) :
    ∃ s', CodesRead hn fuel m s s' ∧ Finish ⟨s', collect⟩ t := by
  rcases lt_or_ge m.codeSectionIndex 0 with hneg | hpos
  · simp only [readCodeSection, if_neg (not_le.mpr hneg)] at h
    exact ⟨s, Or.inl ⟨hneg, rfl⟩, h.release hn fun _ => rfl⟩
  · simp only [readCodeSection, if_pos hpos] at h
    cases hsec : m.sections[m.codeSectionIndex.toNat]? with
    | none =>
      simp only [hsec] at h
      exact absurd h (not_finish_crash hn)
    | some codeSection =>
      simp only [hsec] at h
      obtain ⟨r, hr, ⟨hok, hfin⟩ | ⟨hok, hfin⟩⟩ := finish_readStructure hn h
      · exact ⟨_, Or.inr ⟨codeSection, r, hsec, hpos, hr, Or.inl ⟨hok, rfl⟩⟩, hfin⟩
      · obtain ⟨s', log, hlog, hrun, hfin'⟩ := finish_readCodes hn hfin
        exact ⟨s', Or.inr ⟨codeSection, r, hsec, hpos, hr, Or.inr ⟨hok, log, hlog, hrun⟩⟩,
          hfin'⟩

/-- A run of `bin_read` that lets every lane return: the scan fails and that is all, or the
sections are read, then the bodies, then the diagnostics are collected. -/
theorem finish_binRead (hn : 0 < n) (h : Finish (binRead fuel data n) t) :
    let m := binScanModule (fileCtx data)
    let start : ReadShared n := { memory := .ctxs }
    (m.ok = false ∧ t = { scanned hn data start with memory := .flag false }) ∨
      m.ok = true ∧ ∃ log s₁ s₂,
        entries log = (fun lane : Fin n => laneRangeSlice lane m.value.sections) ∧
        log.foldlM (fun s e => readSection fuel e.1 e.2 s)
          { scanned hn data start with memory := .module m.value } = Outcome.returned s₁ ∧
        CodesRead hn fuel m.value s₁ s₂ ∧
        t = { s₂ with diags := binCollectDiagnostics (List.ofFn s₂.ctxs), done := true } := by
  rcases finish_scan hn rfl (finish_entryPoint hn h) with hfail | ⟨hok, hfin⟩
  · exact Or.inl hfail
  · obtain ⟨s₁, log, hlog, hrun, hfin₁⟩ := finish_readSections hn hfin
    obtain ⟨s₂, hcodes, hfin₂⟩ := finish_readCodeSection hn hfin₁
    exact Or.inr ⟨hok, log, s₁, s₂, hlog, hrun, hcodes, finish_collect hn hfin₂⟩

end Lane

/-! ### The event and the diagnostics -/

theorem binCollectDiagnostics_ofFn (ctxs : Fin n → BinReadCtx) :
    binCollectDiagnostics (List.ofFn ctxs) =
      (List.finRange n).flatMap fun lane => (ctxs lane).diags := by
  rw [binCollectDiagnostics, List.ofFn_eq_map, List.flatMap_map]

/-- When all lanes have returned, the event was signalled and the diagnostics are those of all
contexts, in the order of the lanes, exactly when the file is framed. -/
theorem binRead_signals_iff (hn : 0 < n) (fuel : ℕ) (data : List UInt8) {t : ReadShared n}
    (h : Run (binRead fuel data n) ⟨t, fun _ => .done⟩) :
    (t.done = true ∧ t.diags = (List.finRange n).flatMap fun lane => (t.ctxs lane).diags) ↔
      Framed data := by
  rw [← binScanModule_ok_iff]
  rcases Lane.finish_binRead hn h with ⟨hok, rfl⟩ | ⟨hok, log, s₁, s₂, -, -, -, rfl⟩
  · rw [hok]
    simp [Lane.scanned, setCtx]
  · rw [hok]
    simp [binCollectDiagnostics_ofFn]

/-- A schedule that lets all lanes return with a shared state that passes a test gives a
run. -/
theorem exists_run_of_schedule {c : Config (ReadShared n) n}
    (schedule : List (Option (Fin n))) (test : ReadShared n → Bool)
    (h : (execFinish schedule c).any test = true) :
    ∃ t, Run c ⟨t, fun _ => .done⟩ ∧ test t = true := by
  cases hfin : execFinish schedule c with
  | none => simp [hfin] at h
  | some t =>
    rw [hfin] at h
    exact ⟨t, execFinish_sound hfin, h⟩

/-- A file with a type section and a function section, each with the count 1 and no entry. -/
def missingEntries : List UInt8 :=
  [0x00, 0x61, 0x73, 0x6D, 0x01, 0x00, 0x00, 0x00, 0x01, 0x01, 0x01, 0x03, 0x01, 0x01]

theorem framed_missingEntries : Framed missingEntries := by
  refine ⟨[(0x01, [0x01]), (0x03, [0x01])], _, ?_, rfl⟩
  have hone : Encoding.unsigned 32 1 [0x01] := ⟨.last (b := 0x01) (by decide), by decide, by decide⟩
  refine .cons (b := [0x01, 0x01, 0x01]) ⟨by decide, [0x01], hone, rfl⟩ ?_
  exact .cons (b := [0x03, 0x01, 0x01]) ⟨by decide, [0x01], hone, rfl⟩ .nil

/-- Two lanes read that file. Each has a diagnostic of its own, and the event is signalled with
both. -/
theorem binRead_signals_missingEntries :
    ∃ t : ReadShared 2,
      Run (binRead 0 missingEntries 2) ⟨t, fun _ => .done⟩ ∧
      (t.ctxs 0).diags ≠ [] ∧ (t.ctxs 1).diags ≠ [] ∧ t.done = true ∧
      t.diags = (List.finRange 2).flatMap fun lane => (t.ctxs lane).diags := by
  obtain ⟨t, hrun, htest⟩ := exists_run_of_schedule (c := binRead 0 missingEntries 2)
    [none, some 0, some 0, none, some 1, none, some 0, some 0, none, some 1, none, some 0, none,
      some 1, none, some 1, some 0, none, none, some 0, none, some 0]
    (fun t => !(t.ctxs 0).diags.isEmpty && !(t.ctxs 1).diags.isEmpty) (by decide +kernel)
  obtain ⟨hdiags₀, hdiags₁⟩ : (t.ctxs 0).diags ≠ [] ∧ (t.ctxs 1).diags ≠ [] := by
    simpa using htest
  exact ⟨t, hrun, hdiags₀, hdiags₁,
    (binRead_signals_iff (by decide) 0 _ hrun).mpr framed_missingEntries⟩

/-- Two lanes read the empty file: lane 0 reports the missing magic number, and both return
without a signal and without that diagnostic. -/
theorem binRead_not_signals :
    ∃ t : ReadShared 2, Run (binRead 0 [] 2) ⟨t, fun _ => .done⟩ ∧
      t.done = false ∧ t.diags = [] ∧
      ¬(t.done = true ∧
        t.diags = (List.finRange 2).flatMap fun lane => (t.ctxs lane).diags) := by
  obtain ⟨t, hrun, htest⟩ := exists_run_of_schedule (c := binRead 0 [] 2)
    [none, some 0, some 0, none, some 1, none, some 0, some 0, none, some 1, none]
    (fun t => !t.done && t.diags.isEmpty) (by decide +kernel)
  have hdone : t.done = false ∧ t.diags = [] := by simpa using htest
  refine ⟨t, hrun, hdone.1, hdone.2, ?_⟩
  simp [hdone.1]

end Wasim
