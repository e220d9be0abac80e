import Mathlib.Data.List.TakeWhile
import Wasim.Library.Nested
import Wasim.Text.Reading

/-!
# Blanks and comments

The grammar of what stands between tokens: blanks, line comments and nested block comments
(`Blanks`). `tex_tok_skip_space` skips just that. Skipping a text of the grammar reads it and
reports nothing (`Blanks.skip`), and what it has skipped is in the grammar
(`texTokSkipSpace_gap`), except that a comment at the end of the input may be cut off.
-/

namespace Wasim

variable {t u v : TexTokenizer}

/-! ### Reading without reports -/

/-- `u` is reached from `t` by reading runes. -/
inductive Moves (t : TexTokenizer) : TexTokenizer → Prop
  | refl : Moves t t
  | read {u : TexTokenizer} : Moves t u → Moves t (texTokReadCh u)

theorem Moves.trans (htu : Moves t u) (huv : Moves u v) : Moves t v := by
  induction huv with
  | refl => exact htu
  | read _ ih => exact ih.read

theorem Moves.scans (h : Moves t u) : Scans t u := by
  induction h with
  | refl => exact .refl
  | read _ ih => exact ih.read

theorem Moves.placed (h : Moves t u) (ht : t.Placed) : u.Placed := h.scans.placed ht

/-! ### The grammar -/

def isBlank (b : UInt8) : Bool := texTokIsSpace (some b.toNat)

/-- What follows the opening of a block comment, to its end. -/
abbrev BlockBody : List UInt8 → Prop :=
  Nested.Body (byteOf '(') (byteOf ';') (byteOf ';') (byteOf ')')

abbrev scanBlock : ℕ → List UInt8 → Option (List UInt8) :=
  Nested.scan (byteOf '(') (byteOf ';') (byteOf ';') (byteOf ')')

/-- Blanks, line comments and block comments. -/
inductive Blanks : List UInt8 → Prop
  | nil : Blanks []
  | blank {b : UInt8} {bs : List UInt8} (hb : isBlank b) : Blanks bs → Blanks (b :: bs)
  | line {cs bs : List UInt8} (hcs : byteOf '\n' ∉ cs) :
      Blanks bs → Blanks (byteOf ';' :: byteOf ';' :: (cs ++ byteOf '\n' :: bs))
  | block {body bs : List UInt8} (hbody : BlockBody body) :
      Blanks bs → Blanks (byteOf '(' :: byteOf ';' :: (body ++ bs))

/-- A comment that the end of the input cuts off: a line comment, or a block comment that is
never closed. -/
def CutOff (bs : List UInt8) : Prop :=
  (∃ cs, bs = byteOf ';' :: byteOf ';' :: cs ∧ byteOf '\n' ∉ cs) ∨
    ∃ cs, bs = byteOf '(' :: byteOf ';' :: cs ∧ ∀ body rest, cs = body ++ rest → ¬BlockBody body

theorem Blanks.append {as bs : List UInt8} (ha : Blanks as) (hb : Blanks bs) :
    Blanks (as ++ bs) := by
  induction ha with
  | nil => exact hb
  | blank h _ ih => exact .blank h ih
  | line h _ ih =>
    rw [List.cons_append, List.cons_append, List.append_assoc, List.cons_append]
    exact .line h ih
  | block h _ ih =>
    rw [List.cons_append, List.cons_append, List.append_assoc]
    exact .block h ih

/-- Nothing to skip in front. -/
def NoBlank (bs : List UInt8) : Prop :=
  (∀ b cs, bs = b :: cs → ¬isBlank b) ∧ (∀ cs, bs ≠ byteOf ';' :: byteOf ';' :: cs) ∧
    ∀ cs, bs ≠ byteOf '(' :: byteOf ';' :: cs

/-! ### The loops of the comments -/

theorem isBlank_lt {b : UInt8} (h : isBlank b) : b.toNat < 0x80 := by
  simp only [isBlank, texTokIsSpace, rune, Option.some.injEq, Bool.or_eq_true,
    decide_eq_true_eq, Char.reduceToNat] at h
  omega

/-- The rune in front is a blank exactly when the byte in front is. -/
theorem texTokIsSpace_iff (h : t.Placed) :
    texTokIsSpace t.ch ↔ ∃ b bs, t.rest = b :: bs ∧ isBlank b := by
  rcases h.cases with ⟨hrest, hch⟩ | ⟨b, bs, hrest, -, hch, -⟩ |
    ⟨xs, bs, r, hrest, hne, hxs, hch, hr, -⟩
  · rw [hch, hrest]
    simp [texTokIsSpace, rune]
  · rw [hch, hrest]
    simp [isBlank]
  · obtain ⟨x, xs, rfl⟩ := List.exists_cons_of_ne_nil hne
    rw [hch, hrest]
    constructor
    · intro hspace
      simp only [texTokIsSpace, rune, Option.some.injEq, Bool.or_eq_true, decide_eq_true_eq,
        Char.reduceToNat] at hspace
      omega
    · rintro ⟨b, cs, hcs, hb⟩
      obtain ⟨rfl, -⟩ := List.cons.inj hcs
      have hlt := isBlank_lt hb
      have hge := hxs x (by simp)
      omega

theorem ne_byteOf_of_nonascii {x : UInt8} (hx : 0x80 ≤ x.toNat) {c : Char}
    (hc : c.toNat < 0x80) : x ≠ byteOf c := by
  rintro rfl
  rw [toNat_byteOf hc] at hx
  omega

/-- The rest of a line is read. -/
theorem texTokSkipLine_moves (h : t.Placed) :
    Moves t (texTokSkipLine t) ∧
      (texTokSkipLine t).rest = t.rest.dropWhile (· ≠ byteOf '\n') := by
  fun_induction texTokSkipLine t with
  | case1 t hch ih =>
    obtain ⟨hmoves, hrest⟩ := ih h.read
    refine ⟨Moves.refl.read.trans hmoves, hrest.trans ?_⟩
    rcases h.cases with ⟨-, hnone⟩ | ⟨b, bs, ht, -, hb, hnext⟩ |
      ⟨xs, bs, r, ht, -, hxs, -, -, hnext⟩
    · exact absurd hnone hch.2
    · have hne : b ≠ byteOf '\n' := by
        rintro rfl
        exact hch.1 ((ch_eq_rune_iff h (by decide)).mpr ⟨bs, ht⟩)
      rw [hnext, ht, List.dropWhile_cons, if_pos (by simpa using hne)]
    · rw [hnext, ht, List.dropWhile_append_of_pos]
      intro x hx
      simpa using ne_byteOf_of_nonascii (hxs x hx) (by decide : '\n'.toNat < 0x80)
  | case2 t hch =>
    refine ⟨.refl, ?_⟩
    rcases not_and_or.mp hch with hch | hch
    · obtain ⟨bs, hrest⟩ := (ch_eq_rune_iff h (by decide)).mp (not_not.mp hch)
      rw [hrest]
      simp
    · rw [h.ch_none_iff.mp (not_not.mp hch)]
      rfl

/-- Block comments are read by the automaton that counts how deep it is. -/
theorem texTokSkipBlock_scan (depth : ℕ) (h : t.Placed) :
    (∀ rest, scanBlock depth t.rest = some rest →
      Moves t (texTokSkipBlock depth t) ∧ (texTokSkipBlock depth t).rest = rest) ∧
    (scanBlock depth t.rest = none → (texTokSkipBlock depth t).rest = []) := by
  fun_induction texTokSkipBlock depth t with
  | case1 depth t hdepth hch =>
    obtain ⟨depth, rfl⟩ := Nat.exists_eq_add_of_lt hdepth
    rw [h.ch_none_iff.mp hch]
    exact ⟨fun rest hscan => by simp [Nested.scan] at hscan, fun _ => h.ch_none_iff.mp hch⟩
  | case2 depth t hdepth hch hopen ih =>
    obtain ⟨depth, rfl⟩ := Nat.exists_eq_add_of_lt hdepth
    obtain ⟨bs, hrest⟩ := (looksAt_iff h (by decide) (by decide)).mp hopen
    have hnext := h.rest_read_two hrest (by decide) (by decide)
    have hscan : scanBlock (0 + depth + 1) t.rest = scanBlock (0 + depth + 1 + 1) bs := by
      rw [hrest]
      simp [Nested.scan]
    have hih := ih h.read.read
    rw [hnext, ← hscan] at hih
    exact ⟨fun rest hsome => ⟨Moves.refl.read.read.trans (hih.1 rest hsome).1,
      (hih.1 rest hsome).2⟩, hih.2⟩
  | case3 depth t hdepth hch hopen hclose ih =>
    obtain ⟨depth, rfl⟩ := Nat.exists_eq_add_of_lt hdepth
    obtain ⟨bs, hrest⟩ := (looksAt_iff h (by decide) (by decide)).mp hclose
    have hnext := h.rest_read_two hrest (by decide) (by decide)
    have hscan : scanBlock (0 + depth + 1) t.rest = scanBlock (0 + depth + 1 - 1) bs := by
      rw [hrest]
      simp [Nested.scan, show byteOf ';' ≠ byteOf '(' by decide]
    have hih := ih h.read.read
    rw [hnext, ← hscan] at hih
    exact ⟨fun rest hsome => ⟨Moves.refl.read.read.trans (hih.1 rest hsome).1,
      (hih.1 rest hsome).2⟩, hih.2⟩
  | case4 depth t hdepth hch hopen hclose ih =>
    obtain ⟨depth, rfl⟩ := Nat.exists_eq_add_of_lt hdepth
    rw [looksAt_iff h (by decide) (by decide)] at hopen hclose
    have hscan : scanBlock (0 + depth + 1) t.rest =
        scanBlock (0 + depth + 1) (texTokReadCh t).rest := by
      rcases h.cases with ⟨-, hnone⟩ | ⟨b, bs, ht, -, hb, hnext⟩ |
        ⟨xs, bs, r, ht, -, hxs, -, -, hnext⟩
      · exact absurd hnone hch
      · rw [hnext, ht]
        rcases bs with _ | ⟨c, bs⟩
        · simp [Nested.scan]
        · rw [scanBlock, Nested.scan, if_neg, if_neg]
          · rintro ⟨rfl, rfl⟩
            exact hclose ⟨bs, ht⟩
          · rintro ⟨rfl, rfl⟩
            exact hopen ⟨bs, ht⟩
      · rw [hnext, ht, scanBlock, Nested.scan_append]
        intro x hx
        exact ⟨ne_byteOf_of_nonascii (hxs x hx) (by decide),
          ne_byteOf_of_nonascii (hxs x hx) (by decide)⟩
    have hih := ih h.read
    rw [← hscan] at hih
    exact ⟨fun rest hsome => ⟨Moves.refl.read.trans (hih.1 rest hsome).1,
      (hih.1 rest hsome).2⟩, hih.2⟩
  | case5 depth t hdepth =>
    obtain rfl := Nat.eq_zero_of_not_pos hdepth
    exact ⟨fun rest hsome => ⟨.refl, by simpa [Nested.scan] using hsome⟩,
      fun hnone => by simp [Nested.scan] at hnone⟩

/-! ### Skipping space -/

theorem texTokSkipSpace_noBlank (h : t.Placed) (hrest : NoBlank t.rest) :
    texTokSkipSpace t = t := by
  rw [texTokSkipSpace, if_neg, if_neg, if_neg]
  · rw [looksAt_iff h (by decide) (by decide)]
    rintro ⟨cs, hcs⟩
    exact hrest.2.2 cs hcs
  · rw [looksAt_iff h (by decide) (by decide)]
    rintro ⟨cs, hcs⟩
    exact hrest.2.1 cs hcs
  · rw [texTokIsSpace_iff h]
    rintro ⟨b, cs, hcs, hb⟩
    exact hrest.1 b cs hcs hb

theorem not_isSpace (h : t.Placed) {b : UInt8} {bs : List UInt8} (hrest : t.rest = b :: bs)
    (hb : isBlank b = false) : ¬texTokIsSpace t.ch = true := by
  rw [texTokIsSpace_iff h, hrest]
  rintro ⟨b', _, hbs, hblank⟩
  obtain ⟨rfl, -⟩ := List.cons.inj hbs
  rw [hb] at hblank
  cases hblank

theorem texTokSkipSpace_line (h : t.Placed) {cs : List UInt8}
    (hrest : t.rest = byteOf ';' :: byteOf ';' :: cs) :
    texTokSkipSpace t = texTokSkipSpace (texTokSkipLine (texTokReadCh (texTokReadCh t))) := by
  rw [texTokSkipSpace, if_neg (not_isSpace h hrest (by decide)),
    if_pos ((looksAt_iff h (by decide) (by decide)).mpr ⟨cs, hrest⟩)]

theorem texTokSkipSpace_block (h : t.Placed) {cs : List UInt8}
    (hrest : t.rest = byteOf '(' :: byteOf ';' :: cs) :
    texTokSkipSpace t = texTokSkipSpace (texTokSkipBlock 1 (texTokReadCh (texTokReadCh t))) := by
  have hline : ¬(t.ch = rune ';' ∧ texTokPeek t = byteOf ';') := by
    rw [looksAt_iff h (by decide) (by decide), hrest]
    rintro ⟨_, hcs⟩
    exact absurd (List.cons.inj hcs).1 (by decide)
  rw [texTokSkipSpace, if_neg (not_isSpace h hrest (by decide)), if_neg hline,
    if_pos ((looksAt_iff h (by decide) (by decide)).mpr ⟨cs, hrest⟩)]

/-- Blanks and comments are read, and the loop goes on behind them. -/
theorem Blanks.skip {gap rest : List UInt8} (hgap : Blanks gap) (h : t.Placed)
    (hrest : t.rest = gap ++ rest) :
    ∃ u, Moves t u ∧ u.rest = rest ∧ texTokSkipSpace t = texTokSkipSpace u := by
  induction hgap generalizing t with
  | nil => exact ⟨t, .refl, hrest, rfl⟩
  | @blank b bs hb _ ih =>
    have hnext := h.rest_read_ascii hrest (isBlank_lt hb)
    obtain ⟨u, hmoves, hu, hskip⟩ := ih h.read hnext
    refine ⟨u, Moves.refl.read.trans hmoves, hu, ?_⟩
    rw [texTokSkipSpace, if_pos ((texTokIsSpace_iff h).mpr ⟨b, _, hrest, hb⟩), hskip]
  | @line cs bs hcs _ ih =>
    simp only [List.cons_append, List.append_assoc] at hrest
    have hnext := h.rest_read_two hrest (by decide) (by decide)
    obtain ⟨hline, hbehind⟩ := texTokSkipLine_moves h.read.read
    have hplaced := hline.placed h.read.read
    -- the newline itself is a blank
    have hnewline : (texTokSkipLine (texTokReadCh (texTokReadCh t))).rest =
        byteOf '\n' :: (bs ++ rest) := by
      rw [hbehind, hnext, List.dropWhile_append_of_pos]
      · simp
      · intro x hx
        have hne : x ≠ byteOf '\n' := fun h => hcs (h ▸ hx)
        simpa using hne
    have hblank : isBlank (byteOf '\n') := by decide
    obtain ⟨u, hmoves, hu, hskip⟩ :=
      ih hplaced.read (hplaced.rest_read_ascii hnewline (by decide))
    refine ⟨u, (Moves.refl.read.read.trans hline).read.trans hmoves, hu, ?_⟩
    rw [texTokSkipSpace_line h hrest, texTokSkipSpace,
      if_pos ((texTokIsSpace_iff hplaced).mpr ⟨_, _, hnewline, hblank⟩), hskip]
  | @block body bs hbody _ ih =>
    simp only [List.cons_append, List.append_assoc] at hrest
    have hnext := h.rest_read_two hrest (by decide) (by decide)
    have hscan : scanBlock 1 (texTokReadCh (texTokReadCh t)).rest = some (bs ++ rest) := by
      rw [hnext, scanBlock, Nested.scan_one_eq_some_iff (by decide)]
      exact ⟨body, hbody, rfl⟩
    obtain ⟨hblock, hbehind⟩ := (texTokSkipBlock_scan 1 h.read.read).1 _ hscan
    obtain ⟨u, hmoves, hu, hskip⟩ := ih (hblock.placed h.read.read) hbehind
    refine ⟨u, (Moves.refl.read.read.trans hblock).trans hmoves, hu, ?_⟩
    rw [texTokSkipSpace_block h hrest, hskip]

/-- A gap in front of `rest`. At the end of the input a comment may be cut off. -/
def Gap (gap rest : List UInt8) : Prop :=
  Blanks gap ∨ (rest = [] ∧ ∃ front last, gap = front ++ last ∧ Blanks front ∧ CutOff last)

theorem Gap.append {front gap rest : List UInt8} (hfront : Blanks front) (hgap : Gap gap rest) :
    Gap (front ++ gap) rest := by
  rcases hgap with hgap | ⟨hrest, front', last, rfl, hfront', hlast⟩
  · exact Or.inl (hfront.append hgap)
  · exact Or.inr ⟨hrest, front ++ front', last, by simp, hfront.append hfront', hlast⟩

theorem Gap.cutOff {last : List UInt8} (h : CutOff last) : Gap last [] :=
  Or.inr ⟨rfl, [], last, rfl, .nil, h⟩

/-- The newline that ends a line comment is the blank in front of what follows. -/
theorem Gap.line {cs gap rest : List UInt8} (hcs : byteOf '\n' ∉ cs)
    (hgap : Gap (byteOf '\n' :: gap) rest) :
    Gap (byteOf ';' :: byteOf ';' :: (cs ++ byteOf '\n' :: gap)) rest := by
  have hblanks : ∀ {bs : List UInt8}, Blanks (byteOf '\n' :: bs) → Blanks bs := by
    intro bs hbs
    generalize hlist : byteOf '\n' :: bs = list at hbs
    rcases hbs with _ | ⟨_, hbs⟩ | _ | _
    · cases hlist
    · obtain ⟨-, rfl⟩ := List.cons.inj hlist
      exact hbs
    · exact absurd (List.cons.inj hlist).1 (by decide)
    · exact absurd (List.cons.inj hlist).1 (by decide)
  rcases hgap with hgap | ⟨hrest, front, last, hsplit, hfront, hlast⟩
  · exact Or.inl (.line hcs (hblanks hgap))
  · rcases front with _ | ⟨b, front⟩
    · rcases hlast with ⟨_, rfl, -⟩ | ⟨_, rfl, -⟩
      · exact absurd (List.cons.inj hsplit).1 (by decide)
      · exact absurd (List.cons.inj hsplit).1 (by decide)
    · obtain ⟨rfl, rfl⟩ := List.cons.inj hsplit
      refine Or.inr ⟨hrest, byteOf ';' :: byteOf ';' :: (cs ++ byteOf '\n' :: front), last, ?_,
        .line hcs (hblanks hfront), hlast⟩
      simp

/-- What is skipped is a gap of the grammar. -/
theorem texTokSkipSpace_gap (h : t.Placed) :
    ∃ gap, t.rest = gap ++ (texTokSkipSpace t).rest ∧ Gap gap (texTokSkipSpace t).rest := by
  fun_induction texTokSkipSpace t with
  | case1 t hspace ih =>
    obtain ⟨b, bs, hrest, hb⟩ := (texTokIsSpace_iff h).mp hspace
    obtain ⟨gap, hgap, hblanks⟩ := ih h.read
    rw [h.rest_read_ascii hrest (isBlank_lt hb)] at hgap
    refine ⟨b :: gap, by rw [hrest, hgap]; rfl, ?_⟩
    exact hblanks.append (.blank hb .nil)
  | case2 t _ hline ih =>
    obtain ⟨bs, hrest⟩ := (looksAt_iff h (by decide) (by decide)).mp hline
    have hnext := h.rest_read_two hrest (by decide) (by decide)
    obtain ⟨hmoves, hbehind⟩ := texTokSkipLine_moves h.read.read
    obtain ⟨gap, hgap, hblanks⟩ := ih (hmoves.placed h.read.read)
    rw [hbehind, hnext] at hgap
    have hcs : byteOf '\n' ∉ bs.takeWhile (· ≠ byteOf '\n') := by
      intro hmem
      have := List.mem_takeWhile_imp hmem
      simp at this
    have hsplit := List.takeWhile_append_dropWhile (p := (· ≠ byteOf '\n')) (l := bs)
    rcases hdrop : bs.dropWhile (· ≠ byteOf '\n') with _ | ⟨b, cs⟩
    · -- the comment runs to the end of the input
      rw [hdrop, eq_comm, List.append_eq_nil_iff] at hgap
      rw [hdrop, List.append_nil] at hsplit
      rw [hsplit] at hcs
      refine ⟨byteOf ';' :: byteOf ';' :: bs, by rw [hrest, hgap.2, List.append_nil], ?_⟩
      rw [hgap.2]
      exact Gap.cutOff (Or.inl ⟨bs, rfl, hcs⟩)
    · have hb : b = byteOf '\n' := by
        have := List.head_dropWhile_not (l := bs) (· ≠ byteOf '\n')
          (by rw [hdrop]; exact List.cons_ne_nil b cs)
        simp only [hdrop, List.head_cons] at this
        simpa using this
      subst hb
      rw [hdrop] at hgap hsplit
      rcases gap with _ | ⟨c, gap⟩
      · -- the loop does not stop in front of a newline
        have hstop := (texTokSkipSpace_stops
          (texTokSkipLine (texTokReadCh (texTokReadCh t)))).1
        have hplaced := (scans_texTokSkipSpace _).placed (hmoves.placed h.read.read)
        rw [← Bool.not_eq_true, texTokIsSpace_iff hplaced] at hstop
        exact absurd ⟨_, _, hgap.symm, by decide⟩ hstop
      · obtain ⟨rfl, hcs'⟩ := List.cons.inj hgap
        refine ⟨byteOf ';' :: byteOf ';' ::
          (bs.takeWhile (· ≠ byteOf '\n') ++ byteOf '\n' :: gap), ?_, hblanks.line hcs⟩
        rw [hrest]
        conv_lhs => rw [← hsplit, hcs']
        simp
  | case3 t _ _ hblock ih =>
    obtain ⟨bs, hrest⟩ := (looksAt_iff h (by decide) (by decide)).mp hblock
    have hnext := h.rest_read_two hrest (by decide) (by decide)
    have hplaced := (scans_texTokSkipBlock 1 _).placed h.read.read
    obtain ⟨gap, hgap, hblanks⟩ := ih hplaced
    have hscan := texTokSkipBlock_scan 1 h.read.read
    rw [hnext] at hscan
    rcases hresult : scanBlock 1 bs with _ | rest
    · rw [hscan.2 hresult, eq_comm, List.append_eq_nil_iff] at hgap
      refine ⟨byteOf '(' :: byteOf ';' :: bs, by rw [hrest, hgap.2, List.append_nil], ?_⟩
      rw [hgap.2]
      refine Gap.cutOff (Or.inr ⟨bs, rfl, ?_⟩)
      intro body rest hbs hbody
      have hclosed := (Nested.scan_one_eq_some_iff (by decide)).mpr ⟨body, hbody, hbs⟩
      rw [scanBlock, hclosed] at hresult
      cases hresult
    · obtain ⟨body, hbody, rfl⟩ := (Nested.scan_one_eq_some_iff (by decide)).mp hresult
      rw [(hscan.1 rest hresult).2] at hgap
      refine ⟨byteOf '(' :: byteOf ';' :: (body ++ gap), by rw [hrest, hgap]; simp, ?_⟩
      have := hblanks.append (.block hbody .nil)
      simpa using this
  | case4 t _ _ _ => exact ⟨[], rfl, Or.inl .nil⟩

end Wasim
