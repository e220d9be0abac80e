import Wasim.Text.Runes

/-!
# Rows and columns

The row and the column of a position are counted along with the cursor, by the rune that is left
behind. `rowOf` and `colOf` say what they count: the newlines in front of the position, and the
runes behind the last of them. Every loop only reads runes and reports errors, so one step of the
cursor (`TexTokenizer.Located.read`) gives it for all of them (`position_texTokNth`).
-/

namespace Wasim

variable {t u : TexTokenizer}

/-- The row behind some runes, counted from one. -/
def rowOf (runes : List ℕ) : ℕ := 1 + runes.count '\n'.toNat

/-- The column behind some runes, counted from one. -/
def colOf (runes : List ℕ) : ℕ := 1 + (runes.reverse.takeWhile (· ≠ '\n'.toNat)).length

theorem rowOf_concat (runes : List ℕ) (r : ℕ) :
    rowOf (runes ++ [r]) = if r = '\n'.toNat then rowOf runes + 1 else rowOf runes := by
  rw [rowOf, rowOf, List.count_append, List.count_singleton]
  split <;> simp_all
  omega

theorem colOf_concat (runes : List ℕ) (r : ℕ) :
    colOf (runes ++ [r]) = if r = '\n'.toNat then 1 else colOf runes + 1 := by
  rw [colOf, colOf, List.reverse_append, List.reverse_singleton, List.singleton_append,
    List.takeWhile_cons]
  split <;> simp_all
  omega

/-- The cursor stands at a rune with its row and column. Behind the last rune they are not kept
up. -/
def TexTokenizer.Located (t : TexTokenizer) : Prop :=
  ∃ rs, ReadsRunes t.input rs t.rest ∧
    (t.ch ≠ none → t.position.row = rowOf (rs.map Prod.fst) ∧
      t.position.col = colOf (rs.map Prod.fst))

theorem position_texTokReadCh (hlt : t.position.pos + t.chLen < t.input.length) :
    (texTokReadCh t).position.row =
        (if t.ch = rune '\n' then t.position.row + 1 else t.position.row) ∧
      (texTokReadCh t).position.col = (if t.ch = rune '\n' then 1 else t.position.col + 1) := by
  rw [texTokReadCh, if_neg (not_le.mpr hlt)]
  dsimp only
  by_cases hch : t.ch = rune '\n'
  · rw [if_neg (not_not.mpr hch), if_pos hch, if_pos hch]
    split <;> exact ⟨rfl, rfl⟩
  · rw [if_pos hch, if_neg hch, if_neg hch]
    split <;> exact ⟨rfl, rfl⟩

/-- One step of the cursor. -/
theorem TexTokenizer.Located.read (h : t.Located) (ht : t.Placed) : (texTokReadCh t).Located := by
  obtain ⟨rs, hreads, hposition⟩ := h
  obtain ⟨rs', hreads', hnil, hcons⟩ := ht.readsRunes_read hreads
  rw [← input_texTokReadCh t] at hreads'
  refine ⟨rs', hreads', fun hch => ?_⟩
  -- there is another rune, so there was one
  have hne : (texTokReadCh t).rest ≠ [] := fun hrest => hch (ht.read.ch_none_iff.mpr hrest)
  rcases hrest : t.rest with _ | ⟨b, bs⟩
  · rw [ht.rest_read, hrest] at hne
    exact absurd rfl hne
  have hlt : t.position.pos + t.chLen < t.input.length := by
    rw [rest_texTokReadCh' ht.chLen_le] at hne
    exact not_le.mp fun hle => hne (List.drop_eq_nil_of_le hle)
  have hrune : t.ch = some (Utf8.decodeRune (b :: bs)).1 := by
    rw [ht.ch_eq, hrest]
    rfl
  obtain ⟨hrow, hcol⟩ := hposition (by rw [hrune]; simp)
  obtain ⟨hrow', hcol'⟩ := position_texTokReadCh hlt
  have hnewline : t.ch = rune '\n' ↔ (Utf8.decodeRune (b :: bs)).1 = '\n'.toNat := by
    rw [hrune, rune, Option.some.injEq]
  rw [hrow', hcol', hcons b bs hrest, List.map_append, List.map_singleton, rowOf_concat,
    colOf_concat, hrow, hcol]
  simp only [hnewline, and_self]

theorem Scans.located (h : Scans t u) (hplaced : t.Placed) (ht : t.Located) : u.Located := by
  induction h with
  | refl => exact ht
  | read hscans ih => exact ih.read (hscans.placed hplaced)
  | report _ _ _ _ ih => exact ih

theorem located_texTokInit (input : List UInt8) (file : String) :
    (texTokInit input file).Located := by
  have hinput : (texTokInit input file).input = input := input_texTokReadCh _
  obtain ⟨hplaced, hrest⟩ := placed_texTokInit input file
  refine ⟨[], ?_, fun hch => ?_⟩
  · rw [hinput, hrest]
    exact .nil input
  · have hne : input ≠ [] := fun hnil => hch (hplaced.ch_none_iff.mpr (hrest.trans hnil))
    exact position_texTokReadCh (t := { position := { file := file, row := 1 }, input := input })
      (List.length_pos_iff.mpr hne)

/-- A token other than the end starts where the cursor stands behind the blanks. -/
theorem ch_ne_none_of_kind (h : (texTokNext t).2.kind ≠ .eof) : (texTokSkipSpace t).ch ≠ none := by
  intro hch
  simp only [texTokNext, if_pos hch] at h
  exact h rfl

/-- The row and the column of every token are those of the runes in front of it. -/
theorem position_texTokNth (input : List UInt8) (file : String) (k : ℕ)
    (hkind : (texTokNth (texTokInit input file) k).kind ≠ .eof) :
    let position := (texTokNth (texTokInit input file) k).position
    position.row = rowOf (runes (input.take position.pos)) ∧
      position.col = colOf (runes (input.take position.pos)) := by
  have hplaced := placed_texTokAfter input file k
  have hskip := scans_texTokSkipSpace (texTokAfter (texTokInit input file) k)
  have hscans := (scans_texTokAfter (texTokInit input file) k).trans hskip
  have hinput : (texTokSkipSpace (texTokAfter (texTokInit input file) k)).input = input :=
    hscans.input_eq.trans (input_texTokReadCh _)
  obtain ⟨rs, hreads, hposition⟩ :=
    hscans.located (placed_texTokInit input file).1 (located_texTokInit input file)
  rw [texTokNth_eq] at hkind ⊢
  obtain ⟨hstart, -, -⟩ := texTokNext_spans hplaced hkind
  dsimp only
  have hne := ch_ne_none_of_kind hkind
  rw [hstart]
  generalize texTokSkipSpace (texTokAfter (texTokInit input file) k) = v at *
  have hsplit : input.take v.position.pos ++ v.rest = input := by
    rw [TexTokenizer.rest, hinput, List.take_append_drop]
  rw [hinput, ← hsplit] at hreads
  rw [hreads.runes_eq]
  exact hposition hne

/-- Behind a newline the columns start again. -/
theorem position_texTokNth_newline :
    (texTokNth (texTokInit (ascii "(\n func)") "test.wat") 1).position.row = 2 ∧
      (texTokNth (texTokInit (ascii "(\n func)") "test.wat") 1).position.col = 2 := by
  obtain ⟨hrow, hcol⟩ := position_texTokNth (ascii "(\n func)") "test.wat" 1 (by decide +kernel)
  have hpos : (texTokNth (texTokInit (ascii "(\n func)") "test.wat") 1).position.pos = 3 := by
    decide +kernel
  have hrunes : runes ((ascii "(\n func)").take 3) = [40, 10, 32] := by decide +kernel
  rw [hpos, hrunes] at hrow hcol
  exact ⟨hrow, hcol⟩

end Wasim
