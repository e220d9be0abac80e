import Wasim.Text.Runes

/-!
# What is reported

`tex_tok_read_ch` reports a rune as invalid UTF-8 when it is the replacement character, and
everything else that is reported is one of the other errors. So the reports about the encoding are
counted by the runes that are read (`Emits.count`), and such an error is reported exactly when
the text has the replacement character in it. The decoder returns it for a byte that it cannot
decode, but a text may also encode it, and then the report is wrong
(`texTokInit_reportsInvalid_iff`).
-/

namespace Wasim

variable {t u v : TexTokenizer} {n : ℕ} {rs : List (ℕ × ℕ)} {rest : List UInt8}

/-- The report of `tex_tok_read_ch`. -/
def TexTokError.isInvalidUtf8 (e : TexTokError) : Bool := e.format == "invalid utf-8 %v"

/-- How often a rune reads as the replacement character. -/
def countErrors (rs : List (ℕ × ℕ)) : ℕ := (rs.map Prod.fst).count Utf8.runeError

/-- `u` is reached from `t` by reading runes and `n` reports that are not about the encoding. -/
inductive Emits (t : TexTokenizer) : ℕ → TexTokenizer → Prop
  | refl : Emits t 0 t
  | read {n : ℕ} {u : TexTokenizer} : Emits t n u → Emits t n (texTokReadCh u)
  | report {n : ℕ} {u : TexTokenizer} {format : String} (hformat : format ≠ "invalid utf-8 %v")
      (position : TexPosition) (args : List TexArg) :
      Emits t n u → Emits t (n + 1) (texTokErrorf u position format args)

theorem Emits.trans {m : ℕ} (htu : Emits t n u) (huv : Emits u m v) :
    Emits t (n + m) v := by
  induction huv with
  | refl => exact htu
  | read _ ih => exact ih.read
  | report hformat position args _ ih => exact ih.report hformat position args

theorem Moves.emits (h : Moves t u) : Emits t 0 u := by
  induction h with
  | refl => exact .refl
  | read _ ih => exact ih.read

theorem Emits.scans (h : Emits t n u) : Scans t u := by
  induction h with
  | refl => exact .refl
  | read _ ih => exact ih.read
  | report _ position args _ ih => exact ih.report position _ args

/-! ### Every function of the tokenizer -/

theorem emits_texTokErrorfHere {format : String} (hformat : format ≠ "invalid utf-8 %v")
    (args : List TexArg) : Emits t 1 (texTokErrorfHere t format args) :=
  Emits.refl.report hformat _ _

theorem moves_texTokSkipLine (t : TexTokenizer) : Moves t (texTokSkipLine t) := by
  fun_induction texTokSkipLine t with
  | case1 t _ ih => exact Moves.refl.read.trans ih
  | case2 t _ => exact .refl

theorem exists_emits_texTokSkipBlock (depth : ℕ) (t : TexTokenizer) :
    ∃ n, Emits t n (texTokSkipBlock depth t) := by
  fun_induction texTokSkipBlock depth t with
  | case1 depth t _ _ => exact ⟨_, emits_texTokErrorfHere (by decide) _⟩
  | case2 depth t _ _ _ ih =>
    obtain ⟨n, hn⟩ := ih
    exact ⟨_, Emits.refl.read.read.trans hn⟩
  | case3 depth t _ _ _ _ ih =>
    obtain ⟨n, hn⟩ := ih
    exact ⟨_, Emits.refl.read.read.trans hn⟩
  | case4 depth t _ _ _ _ ih =>
    obtain ⟨n, hn⟩ := ih
    exact ⟨_, Emits.refl.read.trans hn⟩
  | case5 depth t _ => exact ⟨0, .refl⟩

theorem exists_emits_texTokSkipSpace (t : TexTokenizer) :
    ∃ n, Emits t n (texTokSkipSpace t) := by
  fun_induction texTokSkipSpace t with
  | case1 t _ ih =>
    obtain ⟨n, hn⟩ := ih
    exact ⟨_, Emits.refl.read.trans hn⟩
  | case2 t _ _ ih =>
    obtain ⟨n, hn⟩ := ih
    exact ⟨_, (Emits.refl.read.read.trans (moves_texTokSkipLine _).emits).trans hn⟩
  | case3 t _ _ _ ih =>
    obtain ⟨n, hn⟩ := ih
    obtain ⟨m, hm⟩ := exists_emits_texTokSkipBlock 1 (texTokReadCh (texTokReadCh t))
    exact ⟨_, (Emits.refl.read.read.trans hm).trans hn⟩
  | case4 t _ _ _ => exact ⟨0, .refl⟩

theorem moves_texTokSkipToTokenBoundary (t : TexTokenizer) :
    Moves t (texTokSkipToTokenBoundary t) := by
  fun_induction texTokSkipToTokenBoundary t with
  | case1 t _ => exact .refl
  | case2 t _ _ => exact .refl
  | case3 t _ _ _ => exact .refl
  | case4 t _ _ _ ih => exact Moves.refl.read.trans ih

theorem moves_texTokSkipHex (t : TexTokenizer) : Moves t (texTokSkipHex t) := by
  fun_induction texTokSkipHex t with
  | case1 t _ ih => exact Moves.refl.read.trans ih
  | case2 t _ => exact .refl

/-- An escape is reported when it is not valid. -/
theorem emits_texTokReadEscape (t : TexTokenizer) :
    Emits t (if (texTokReadEscape t).2 then 0 else 1) (texTokReadEscape t).1 := by
  rw [texTokReadEscape]
  split
  · exact Emits.refl.read
  · split
    · rw [texTokReadUnicodeEscape]
      split
      · exact Emits.refl.read.trans (emits_texTokErrorfHere (by decide) _)
      · dsimp only
        split
        · exact Emits.refl.read.read.trans (emits_texTokErrorfHere (by decide) _)
        · have hskip := Moves.refl.read.read.trans
            (moves_texTokSkipHex (texTokReadCh (texTokReadCh t)))
          split
          · exact hskip.emits.trans (emits_texTokErrorfHere (by decide) _)
          · exact hskip.emits.read
    · split
      · exact Emits.refl.read.read
      · exact emits_texTokErrorfHere (by decide) _

theorem exists_emits_texTokReadStringLoop (t : TexTokenizer) (kind : TexTokenKind) :
    ∃ n, Emits t n (texTokReadStringLoop t kind).1 := by
  fun_induction texTokReadStringLoop t kind with
  | case1 t kind _ => exact ⟨0, .refl⟩
  | case2 t kind _ => exact ⟨0, .refl⟩
  | case3 t kind _ _ escape ih =>
    obtain ⟨n, hn⟩ := ih
    exact ⟨_, (Emits.refl.read.trans (emits_texTokReadEscape _)).trans hn⟩
  | case4 t kind _ _ _ _ _ ih =>
    obtain ⟨n, hn⟩ := ih
    exact ⟨_, (emits_texTokErrorfHere (by decide) _).read.trans hn⟩
  | case5 t kind _ _ _ _ _ ih =>
    obtain ⟨n, hn⟩ := ih
    exact ⟨_, Emits.refl.read.trans hn⟩

theorem emits_texTokReadString {m : ℕ}
    (h : Emits t m (texTokReadStringLoop (texTokReadCh t) .string).1) :
    Emits t m (texTokReadString t).1 := by
  simp only [texTokReadString]
  split
  · exact h.read
  · exact h

/-- A word is reported when it is not valid. -/
theorem emits_texTokReadWord (t : TexTokenizer) :
    ((texTokReadWord t).2.kind = .invalid → Emits t 1 (texTokReadWord t).1) ∧
      ((texTokReadWord t).2.kind ≠ .invalid →
        (texTokReadWord t).1 = texTokSkipToTokenBoundary t) := by
  have hskip := (moves_texTokSkipToTokenBoundary t).emits
  simp only [texTokReadWord]
  split
  · rename_i hkind
    refine ⟨fun _ => ?_, fun hne => absurd hkind hne⟩
    split
    · exact hskip.report (by decide) _ _
    · exact hskip.report (by decide) _ _
  · rename_i hkind
    exact ⟨fun heq => absurd heq hkind, fun _ => rfl⟩

theorem exists_emits_texTokReadWord (t : TexTokenizer) :
    ∃ n, Emits t n (texTokReadWord t).1 := by
  obtain ⟨hinvalid, hvalid⟩ := emits_texTokReadWord t
  by_cases hkind : (texTokReadWord t).2.kind = .invalid
  · exact ⟨1, hinvalid hkind⟩
  · exact ⟨0, hvalid hkind ▸ (moves_texTokSkipToTokenBoundary t).emits⟩

theorem exists_emits_texTokNext (t : TexTokenizer) : ∃ n, Emits t n (texTokNext t).1 := by
  obtain ⟨n, hskip⟩ := exists_emits_texTokSkipSpace t
  obtain ⟨m, hloop⟩ := exists_emits_texTokReadStringLoop (texTokReadCh (texTokSkipSpace t)) .string
  simp only [texTokNext]
  split
  · exact ⟨n, hskip.read⟩
  · split
    · exact ⟨n, hskip.read⟩
    · split
      · exact ⟨n, hskip.read⟩
      · split
        · exact ⟨_, hskip.trans (emits_texTokReadString (Emits.refl.read.trans hloop))⟩
        · obtain ⟨m, hword⟩ := exists_emits_texTokReadWord (texTokSkipSpace t)
          exact ⟨_, hskip.trans hword⟩

/-! ### The reports are counted by the runes -/

theorem countErrors_append (rs rs' : List (ℕ × ℕ)) :
    countErrors (rs ++ rs') = countErrors rs + countErrors rs' := by
  rw [countErrors, List.map_append, List.count_append, countErrors, countErrors]

theorem countErrors_pos_iff : 0 < countErrors rs ↔ Utf8.runeError ∈ rs.map Prod.fst :=
  List.count_pos_iff

/-- One step reports the rune that it makes the current one. -/
theorem errors_texTokReadCh_count (h : t.position.pos + t.chLen ≤ t.input.length) :
    (texTokReadCh t).errors.countP TexTokError.isInvalidUtf8 =
        t.errors.countP TexTokError.isInvalidUtf8 +
          countErrors (frontRune (texTokReadCh t).rest) ∧
      (texTokReadCh t).errors.length =
        t.errors.length + countErrors (frontRune (texTokReadCh t).rest) := by
  rw [rest_texTokReadCh' h, texTokReadCh]
  split
  · rename_i hle
    rw [List.drop_eq_nil_of_le hle]
    exact ⟨rfl, rfl⟩
  · rename_i hlt
    obtain ⟨b, bs, hdrop⟩ : ∃ b bs, t.input.drop (t.position.pos + t.chLen) = b :: bs :=
      List.exists_cons_of_ne_nil (by simpa using hlt)
    dsimp only
    rw [hdrop, frontRune, countErrors, List.map_singleton, List.count_singleton]
    by_cases herror : (Utf8.decodeRune (b :: bs)).1 = Utf8.runeError
    · rw [if_pos herror, herror, texTokErrorfHere, texTokErrorf, List.countP_append,
        List.length_append]
      exact ⟨rfl, rfl⟩
    · rw [if_neg herror, beq_eq_false_iff_ne.mpr herror]
      exact ⟨rfl, rfl⟩

/-- The current rune moves from the rest to the runes that have been read. -/
theorem entered_read (h : u.Placed) {rs' : List (ℕ × ℕ)} (hnil : u.rest = [] → rs' = rs)
    (hcons : ∀ b cs, u.rest = b :: cs → rs' = rs ++ [Utf8.decodeRune (b :: cs)]) :
    entered rs' (texTokReadCh u).rest =
      entered rs u.rest ++ frontRune (texTokReadCh u).rest := by
  rcases hrest : u.rest with _ | ⟨b, cs⟩
  · rw [hnil hrest, h.rest_read, hrest]
    simp [entered, frontRune, dropRune]
  · rw [hcons b cs hrest, entered, entered, frontRune, List.tail_append_of_ne_nil (by simp)]

/-- The reports between two places: one for every replacement character that is read. -/
theorem Emits.count (h : Emits t n u) (ht : t.Placed) :
    ∃ rs, ReadsRunes t.rest rs u.rest ∧
      u.errors.countP TexTokError.isInvalidUtf8 =
        t.errors.countP TexTokError.isInvalidUtf8 + countErrors (entered rs u.rest) ∧
      u.errors.length = t.errors.length + n + countErrors (entered rs u.rest) := by
  induction h with
  | refl =>
    have hnone : entered [] t.rest = [] := by
      rcases t.rest with _ | ⟨b, bs⟩ <;> rfl
    refine ⟨[], .nil _, ?_, ?_⟩ <;> rw [hnone] <;> rfl
  | @read n u hemits ih =>
    obtain ⟨rs, hrs, hcount, hlength⟩ := ih
    have hu := hemits.scans.placed ht
    obtain ⟨rs', hrs', hnil, hcons⟩ := hu.readsRunes_read hrs
    obtain ⟨hcount', hlength'⟩ := errors_texTokReadCh_count hu.chLen_le
    refine ⟨rs', hrs', ?_, ?_⟩
    · rw [hcount', hcount, entered_read hu hnil hcons, countErrors_append]
      omega
    · rw [hlength', hlength, entered_read hu hnil hcons, countErrors_append]
      omega
  | @report n u format hformat position args hemits ih =>
    obtain ⟨rs, hrs, hcount, hlength⟩ := ih
    refine ⟨rs, hrs, ?_, ?_⟩
    · rw [texTokErrorf, List.countP_append, hcount, List.countP_singleton,
        if_neg (by simpa [TexTokError.isInvalidUtf8] using hformat)]
      rfl
    · rw [texTokErrorf, List.length_append, hlength, List.length_singleton]
      simp only [TexTokenizer.rest]
      omega

/-! ### Emits and validity -/

/-- Encoded values are read one by one. -/
theorem readsRunes_flatMap {cs : List ℕ} (hcs : ∀ c ∈ cs, Utf8.Scalar c) :
    ReadsRunes (cs.flatMap Utf8.encodeRune)
      (cs.map fun c => (c, (Utf8.encodeRune c).length)) [] := by
  induction cs with
  | nil => exact .nil _
  | cons c cs ih =>
    have hdecode := Utf8.decodeRune_encodeRune (hcs c (by simp)) (cs.flatMap Utf8.encodeRune)
    have hdrop : dropRune (Utf8.encodeRune c ++ cs.flatMap Utf8.encodeRune) =
        cs.flatMap Utf8.encodeRune := by
      rw [dropRune, hdecode]
      exact List.drop_left
    have hreads := ih fun c' hc' => hcs c' (List.mem_cons_of_mem c hc')
    rw [← hdrop] at hreads
    rw [List.flatMap_cons, List.map_cons, ← hdecode]
    obtain ⟨b, bs, hencode⟩ := List.exists_cons_of_ne_nil (Utf8.encodeRune_ne_nil c)
    rw [hencode, List.cons_append] at hreads ⊢
    exact .cons hreads

/-- A text is valid exactly when no byte of it fails to decode. -/
theorem ReadsRunes.valid_iff {bs : List UInt8} (h : ReadsRunes bs rs []) :
    Utf8.Valid bs ↔ (Utf8.runeError, 1) ∉ rs := by
  constructor
  · rintro ⟨cs, hcs, rfl⟩
    rw [h.unique (readsRunes_flatMap hcs)]
    intro hmem
    obtain ⟨c, -, hc⟩ := List.mem_map.mp hmem
    obtain ⟨rfl, hlength⟩ := Prod.mk.inj hc
    exact absurd hlength (by decide)
  · generalize hend : ([] : List UInt8) = rest at h
    intro hmem
    induction h with
    | nil bs => exact ⟨[], by simp, hend.symm⟩
    | @cons b bs rest rs hreads ih =>
      obtain ⟨hne, hnot⟩ := not_or.mp (List.mem_cons.not.mp hmem)
      obtain ⟨cs, hcs, hdrop⟩ := ih hend hnot
      obtain ⟨hscalar, hencode⟩ := Utf8.encodeRune_decodeRune (Ne.symm hne)
      refine ⟨(Utf8.decodeRune (b :: bs)).1 :: cs, List.forall_mem_cons.mpr ⟨hscalar, hcs⟩, ?_⟩
      rw [List.flatMap_cons, hencode, ← hdrop, dropRune, List.take_append_drop]

/-- At the end everything has been read. -/
theorem emits_drained (hplaced : t.Placed) (h : t.Settled) :
    ∃ n u, Emits t n u ∧ u.errors = t.drained h ∧ u.rest = [] := by
  fun_induction TexTokenizer.drained t h with
  | case1 t h heof =>
    obtain ⟨n, hn⟩ := exists_emits_texTokNext t
    exact ⟨n, _, hn, rfl, (hn.scans.placed hplaced).ch_none_iff.mp (texTokNext_eof h heof)⟩
  | case2 t h hkind ih =>
    obtain ⟨n, hn⟩ := exists_emits_texTokNext t
    obtain ⟨m, u, hm, herrors, hrest⟩ := ih (hn.scans.placed hplaced)
    exact ⟨_, u, hn.trans hm, herrors, hrest⟩

/-- A text is reported as invalid exactly when one of its runes is the replacement character. -/
theorem reported_iff (input : List UInt8) (file : String) :
    ∃ rs, ReadsRunes input rs [] ∧
      ((∃ e ∈ (texTokInit input file).drained (settled_texTokInit input file),
        e.isInvalidUtf8) ↔ Utf8.runeError ∈ rs.map Prod.fst) := by
  obtain ⟨hplaced, hinit⟩ := placed_texTokInit input file
  obtain ⟨n, u, hemits, herrors, hrest⟩ :=
    emits_drained hplaced (settled_texTokInit input file)
  obtain ⟨rs, hreads, hcount, -⟩ := hemits.count hplaced
  have hfirst : (texTokInit input file).errors.countP TexTokError.isInvalidUtf8 =
      countErrors (frontRune input) := by
    have h := (errors_texTokReadCh_count
      (t := { position := { file := file, row := 1 }, input := input }) (Nat.zero_le _)).1
    rw [rest_texTokReadCh' (Nat.zero_le _)] at h
    exact h.trans (Nat.zero_add _)
  have hentered : frontRune input ++ entered rs u.rest = rs := by
    rw [hinit, hrest] at hreads
    rw [hrest, entered, frontRune, List.append_nil]
    rcases hreads with _ | _
    · rfl
    · rfl
  rw [hinit, hrest] at hreads
  refine ⟨rs, hreads, ?_⟩
  rw [← countErrors_pos_iff, ← hentered, countErrors_append, ← hfirst, ← hcount, herrors,
    List.countP_pos_iff]

/-- An error about the encoding stands for an invalid text, unless the text encodes the
replacement character. -/
theorem texTokInit_reportsInvalid_iff (input : List UInt8) (file : String) :
    ((∃ e ∈ (texTokInit input file).drained (settled_texTokInit input file),
        e.isInvalidUtf8) ↔ ¬Utf8.Valid input) ↔
      ∀ cs : List ℕ, (∀ c ∈ cs, Utf8.Scalar c) → input = cs.flatMap Utf8.encodeRune →
        Utf8.runeError ∉ cs := by
  obtain ⟨rs, hreads, hreported⟩ := reported_iff input file
  rw [hreported]
  by_cases hvalid : Utf8.Valid input
  · -- the values that are encoded are the runes that are read
    obtain ⟨cs, hcs, hinput⟩ := hvalid
    have hrunes : ∀ {cs' : List ℕ}, (∀ c ∈ cs', Utf8.Scalar c) →
        input = cs'.flatMap Utf8.encodeRune → rs.map Prod.fst = cs' := by
      intro cs' hcs' hinput'
      rw [hinput'] at hreads
      rw [hreads.unique (readsRunes_flatMap hcs'), List.map_map]
      exact List.map_id cs'
    have hnot : ¬¬Utf8.Valid input := not_not.mpr ⟨cs, hcs, hinput⟩
    rw [iff_false_right hnot]
    constructor
    · intro hmem cs' hcs' hinput'
      rwa [← hrunes hcs' hinput']
    · intro hall
      rw [hrunes hcs hinput]
      exact hall cs hcs hinput
  · refine iff_of_true (iff_of_true ?_ hvalid) fun cs hcs hinput => absurd ⟨cs, hcs, hinput⟩ hvalid
    rw [hreads.valid_iff, not_not] at hvalid
    exact List.mem_map.mpr ⟨_, hvalid, rfl⟩

/-- The replacement character itself is valid UTF-8, and is reported. -/
theorem reportsInvalid_replacementCharacter :
    ¬((∃ e ∈ (texTokInit [0xEF, 0xBF, 0xBD] "test.wat").drained (settled_texTokInit _ _),
        e.isInvalidUtf8) ↔ ¬Utf8.Valid [0xEF, 0xBF, 0xBD]) := by
  have hscalar : ∀ c ∈ [Utf8.runeError], Utf8.Scalar c := by decide
  have hencode : [0xEF, 0xBF, 0xBD] = [Utf8.runeError].flatMap Utf8.encodeRune := by decide
  obtain ⟨rs, hreads, hreported⟩ := reported_iff [0xEF, 0xBF, 0xBD] "test.wat"
  have hreads' := readsRunes_flatMap hscalar
  rw [← hencode] at hreads'
  have hmem : Utf8.runeError ∈ rs.map Prod.fst := by
    rw [hreads.unique hreads']
    exact List.mem_cons_self
  exact fun h => h.mp (hreported.mpr hmem) ⟨_, hscalar, hencode⟩

end Wasim
