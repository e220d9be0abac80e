import Wasim.Text.Tiling

/-!
# The runes that are read

A tokenizer that goes on reads the runes of the text one by one. `ReadsRunes` is the list of them
with their lengths, from one place of the text to another; it is determined by the two places, and
its values are the runes of the text between them (`ReadsRunes.runes_eq`). A rune is checked when it
becomes the current one, so that a tokenizer has checked the runes behind the one it started with
and the one it stands at (`entered`).
-/

namespace Wasim

variable {t u : TexTokenizer} {bs rest : List UInt8} {rs : List (ℕ × ℕ)}

/-- From the text `bs` on, the runes `rs` with their lengths are read, and `rest` is left. -/
inductive ReadsRunes : List UInt8 → List (ℕ × ℕ) → List UInt8 → Prop
  | nil (bs : List UInt8) : ReadsRunes bs [] bs
  | cons {b : UInt8} {bs rest : List UInt8} {rs : List (ℕ × ℕ)} :
      ReadsRunes (dropRune (b :: bs)) rs rest →
      ReadsRunes (b :: bs) (Utf8.decodeRune (b :: bs) :: rs) rest

/-- The rune in front, if there is one. -/
def frontRune : List UInt8 → List (ℕ × ℕ)
  | [] => []
  | b :: bs => [Utf8.decodeRune (b :: bs)]

/-- The runes that have become the current one on the way. -/
def entered (rs : List (ℕ × ℕ)) (rest : List UInt8) : List (ℕ × ℕ) := (rs ++ frontRune rest).tail

theorem length_dropRune_lt (b : UInt8) (bs : List UInt8) :
    (dropRune (b :: bs)).length < (b :: bs).length := by
  have := Utf8.decodeRune_length_pos b bs
  rw [dropRune, List.length_drop, List.length_cons]
  omega

theorem ReadsRunes.snoc {b : UInt8} {cs : List UInt8} (h : ReadsRunes bs rs (b :: cs)) :
    ReadsRunes bs (rs ++ [Utf8.decodeRune (b :: cs)]) (dropRune (b :: cs)) := by
  generalize hrest : b :: cs = rest at h
  induction h with
  | nil bs =>
    subst hrest
    exact .cons (.nil _)
  | cons _ ih => exact .cons (ih hrest)

theorem ReadsRunes.suffix (h : ReadsRunes bs rs rest) : rest <:+ bs := by
  induction h with
  | nil bs => exact List.suffix_refl bs
  | cons _ ih => exact ih.trans (List.drop_suffix _ _)

/-- The runes are those between the two places. -/
theorem ReadsRunes.unique {rs' : List (ℕ × ℕ)} (h : ReadsRunes bs rs rest)
    (h' : ReadsRunes bs rs' rest) : rs = rs' := by
  induction h generalizing rs' with
  | nil bs =>
    generalize hrest : bs = rest at h'
    rcases h' with _ | hcons
    · rfl
    · exact absurd hcons.suffix.length_le (by simpa using length_dropRune_lt _ _)
  | @cons b bs rest rs hcons ih =>
    generalize hfront : b :: bs = front at h'
    rcases h' with _ | hcons'
    · rw [← hfront] at hcons
      exact absurd hcons.suffix.length_le (by simpa using length_dropRune_lt b bs)
    · obtain ⟨rfl, rfl⟩ := List.cons.inj hfront
      rw [ih hcons']

/-- The values that are read are the runes of the text that is passed. -/
theorem ReadsRunes.runes_eq {text : List UInt8} (h : ReadsRunes (text ++ rest) rs rest) :
    runes text = rs.map Prod.fst := by
  generalize hbs : text ++ rest = bs at h
  induction h generalizing text with
  | nil bs =>
    obtain rfl := List.append_left_eq_self.mp hbs
    rw [runes]
    rfl
  | @cons b bs rest rs hcons ih =>
    have hle := hcons.suffix.length_le
    have hlength := congrArg List.length hbs
    have hlt := Utf8.decodeRune_length_le (b :: bs)
    rw [dropRune, List.length_drop] at hle
    rw [List.length_append] at hlength
    have hpos := Utf8.decodeRune_length_pos b bs
    have hshort : (Utf8.decodeRune (b :: bs)).2 ≤ text.length := by omega
    have hdecode : Utf8.decodeRune text = Utf8.decodeRune (b :: bs) := by
      rw [← hbs] at hshort ⊢
      exact Utf8.decodeRune_append hshort
    obtain ⟨c, cs, rfl⟩ := List.exists_cons_of_ne_nil (l := text) (by
      rintro rfl
      rw [List.length_nil] at hshort
      omega)
    have hdrop : (c :: cs).drop (Utf8.decodeRune (b :: bs)).2 ++ rest = dropRune (b :: bs) := by
      rw [dropRune, ← hbs, List.drop_append_of_le_length]
      rwa [hbs]
    rw [runes, hdecode, ih hdrop]
    rfl

/-! ### What a tokenizer reads -/

/-- One step of the cursor reads the current rune. -/
theorem TexTokenizer.Placed.readsRunes_read (h : u.Placed) (hreads : ReadsRunes bs rs u.rest) :
    ∃ rs', ReadsRunes bs rs' (texTokReadCh u).rest ∧
      (u.rest = [] → rs' = rs) ∧
      ∀ b cs, u.rest = b :: cs → rs' = rs ++ [Utf8.decodeRune (b :: cs)] := by
  rw [h.rest_read]
  rcases hrest : u.rest with _ | ⟨b, cs⟩
  · rw [hrest] at hreads
    exact ⟨rs, hreads, fun _ => rfl, nofun⟩
  · rw [hrest] at hreads
    refine ⟨_, hreads.snoc, nofun, fun b' cs' heq => ?_⟩
    obtain ⟨rfl, rfl⟩ := List.cons.inj heq
    rfl

/-! ### Calls -/

/-- The tokenizer behind `k` calls of `tex_tok_next`. -/
def texTokAfter (t : TexTokenizer) : ℕ → TexTokenizer
  | 0 => t
  | k + 1 => texTokAfter (texTokNext t).1 k

theorem texTokNth_eq (t : TexTokenizer) (k : ℕ) :
    texTokNth t k = (texTokNext (texTokAfter t k)).2 := by
  induction k generalizing t with
  | zero => rfl
  | succ k ih => exact ih (texTokNext t).1

theorem texTokAfter_succ (t : TexTokenizer) (k : ℕ) :
    texTokAfter t (k + 1) = (texTokNext (texTokAfter t k)).1 := by
  induction k generalizing t with
  | zero => rfl
  | succ k ih => exact ih (texTokNext t).1

theorem scans_texTokAfter (t : TexTokenizer) (k : ℕ) : Scans t (texTokAfter t k) := by
  induction k generalizing t with
  | zero => exact .refl
  | succ k ih => exact (scans_texTokNext t).trans (ih _)

theorem placed_texTokAfter (input : List UInt8) (file : String) (k : ℕ) :
    (texTokAfter (texTokInit input file) k).Placed :=
  (scans_texTokAfter _ k).placed (placed_texTokInit input file).1

end Wasim
