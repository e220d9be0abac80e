import Mathlib.Data.List.Infix
import Mathlib.Data.List.Basic
import Mathlib.Data.Int.Notation
import Mathlib.Algebra.Order.Ring.Nat

/-!
# Printing

A document is written text by text to a writer that may fail (`Doc.emit`). The first error ends
the writing, unless it falls into a part whose error is dropped. On a writer that stays failed
(`Sticky`) the error shows up at the next text that is not empty; a document is `Checked` if each
of its dropped parts has one behind it. Then it is written as a whole, or an error is returned
and a prefix of it is written (`Sticky.emit_checked`). A writer with a capacity stays failed
(`Buffer`).

The second half is about reading a text back: `Readable` says that a printed value can be told
from what follows it, as long as that is a possible stop.
-/

namespace Printing

inductive Doc
  | empty
  | text (s : String)
  | seq (first rest : Doc)
  | dropped (part : Doc)

namespace Doc

/-- The text of a document, as a writer that never fails gets it. -/
def chars : Doc → List Char
  | empty => []
  | text s => s.toList
  | seq first rest => first.chars ++ rest.chars
  | dropped part => part.chars

/-- An error of a writer that has failed before is returned. -/
def Strict : Doc → Prop
  | empty => False
  | text s => s ≠ ""
  | seq first rest => first.Strict ∨ rest.Strict
  | dropped _ => False

/-- Every dropped part is followed by a text whose error is returned. -/
def Checked : Doc → Prop
  | empty => True
  | text _ => True
  | seq first rest => (first.Checked ∨ rest.Strict) ∧ rest.Checked
  | dropped _ => False

def all : List Doc → Doc
  | [] => empty
  | doc :: docs => seq doc (all docs)

theorem chars_all (docs : List Doc) : (all docs).chars = docs.flatMap chars := by
  induction docs with
  | nil => rfl
  | cons doc docs ih => rw [all, chars, ih, List.flatMap_cons]

theorem checked_all {docs : List Doc} (h : ∀ doc ∈ docs, doc.Checked) : (all docs).Checked := by
  induction docs with
  | nil => trivial
  | cons doc docs ih =>
    exact ⟨.inl (h doc List.mem_cons_self), ih fun d hd => h d (List.mem_cons_of_mem doc hd)⟩

end Doc

/-! ### Writers -/

variable {W ε : Type}

/-- What follows is only written if there was no error. -/
def andThen (result : W × Option ε) (next : W → W × Option ε) : W × Option ε :=
  match result.2 with
  | none => next result.1
  | some err => (result.1, some err)

variable (write : String → W → W × Option ε)

def Doc.emit : Doc → W → W × Option ε
  | empty, w => (w, none)
  | text s, w => write s w
  | seq first rest, w => andThen (first.emit w) rest.emit
  | dropped part, w => ((part.emit w).1, none)

/-- A writer that stays failed: a text is written as a whole without an error, or a part of it is
written with an error, and then nothing more is. A failed writer may take the empty text. -/
structure Sticky (content : W → List Char) (failed : W → Prop) : Prop where
  success : ∀ s w, (write s w).2 = none →
    content (write s w).1 = content w ++ s.toList ∧ (failed (write s w).1 ↔ failed w)
  failure : ∀ s w, (write s w).2 ≠ none → failed (write s w).1 ∧
    ∃ part, part <+: s.toList ∧ content (write s w).1 = content w ++ part
  stuck : ∀ s w, failed w → s ≠ "" →
    (write s w).2 ≠ none ∧ content (write s w).1 = content w

variable {write} {content : W → List Char} {failed : W → Prop} {w : W}

theorem andThen_of_none {result : W × Option ε} {next : W → W × Option ε} (h : result.2 = none) :
    andThen result next = next result.1 := by
  rw [andThen, h]

theorem andThen_of_ne {result : W × Option ε} {next : W → W × Option ε} (h : result.2 ≠ none) :
    andThen result next = result := by
  obtain ⟨w, err⟩ := result
  obtain ⟨err, rfl⟩ := Option.ne_none_iff_exists'.mp h
  rfl

namespace Sticky

variable (hw : Sticky write content failed)

include hw

/-- A failed writer stays failed, and nothing more is written. -/
theorem emit_failed (doc : Doc) (h : failed w) :
    failed (doc.emit write w).1 ∧ content (doc.emit write w).1 = content w := by
  induction doc generalizing w with
  | empty => exact ⟨h, rfl⟩
  | text s =>
    by_cases hs : s = ""
    · subst hs
      by_cases herr : (write "" w).2 = none
      · obtain ⟨hcontent, hfailed⟩ := hw.success _ _ herr
        exact ⟨hfailed.mpr h, hcontent.trans (List.append_nil _)⟩
      · obtain ⟨hfailed, part, hpart, hcontent⟩ := hw.failure _ _ herr
        obtain rfl : part = [] := List.prefix_nil.mp hpart
        exact ⟨hfailed, hcontent.trans (List.append_nil _)⟩
    · obtain ⟨herr, hcontent⟩ := hw.stuck s w h hs
      exact ⟨(hw.failure s w herr).1, hcontent⟩
  | seq first rest hfirst hrest =>
    obtain ⟨hfailed, hcontent⟩ := hfirst h
    rw [Doc.emit]
    by_cases herr : (first.emit write w).2 = none
    · rw [andThen_of_none herr]
      exact ⟨(hrest hfailed).1, (hrest hfailed).2.trans hcontent⟩
    · rw [andThen_of_ne herr]
      exact ⟨hfailed, hcontent⟩
  | dropped part hpart => exact hpart h

/-- The writer fails with a prefix of the document written, or the whole of it is written. -/
theorem emit_cases (doc : Doc) (h : ¬failed w) :
    (failed (doc.emit write w).1 ∧
      ∃ part, part <+: doc.chars ∧ content (doc.emit write w).1 = content w ++ part) ∨
    (¬failed (doc.emit write w).1 ∧ (doc.emit write w).2 = none ∧
      content (doc.emit write w).1 = content w ++ doc.chars) := by
  induction doc generalizing w with
  | empty => exact .inr ⟨h, rfl, (List.append_nil _).symm⟩
  | text s =>
    by_cases herr : (write s w).2 = none
    · obtain ⟨hcontent, hfailed⟩ := hw.success s w herr
      exact .inr ⟨fun hf => h (hfailed.mp hf), herr, hcontent⟩
    · exact .inl (hw.failure s w herr)
  | seq first rest hfirst hrest =>
    rw [Doc.emit]
    obtain ⟨hfailed, part, hpart, hcontent⟩ | ⟨hok, herr, hcontent⟩ := hfirst h
    · -- nothing of the rest is written any more, returned or not
      have hwhole : part <+: (Doc.seq first rest).chars := hpart.trans (List.prefix_append _ _)
      by_cases herr : (first.emit write w).2 = none
      · rw [andThen_of_none herr]
        obtain ⟨hfailed', hcontent'⟩ := hw.emit_failed rest hfailed
        exact .inl ⟨hfailed', part, hwhole, hcontent'.trans hcontent⟩
      · rw [andThen_of_ne herr]
        exact .inl ⟨hfailed, part, hwhole, hcontent⟩
    · rw [andThen_of_none herr]
      obtain ⟨hfailed, part, hpart, hcontent'⟩ | ⟨hok', herr', hcontent'⟩ := hrest hok
      · refine .inl ⟨hfailed, first.chars ++ part, (List.prefix_append_right_inj _).mpr hpart, ?_⟩
        rw [hcontent', hcontent, List.append_assoc]
      · refine .inr ⟨hok', herr', ?_⟩
        rw [hcontent', hcontent, List.append_assoc, Doc.chars]
  | dropped part hpart =>
    obtain hfailed | ⟨hok, -, hcontent⟩ := hpart h
    · exact .inl hfailed
    · exact .inr ⟨hok, rfl, hcontent⟩

theorem emit_strict {doc : Doc} (hs : doc.Strict) (h : failed w) :
    (doc.emit write w).2 ≠ none := by
  induction doc generalizing w with
  | empty => exact hs.elim
  | text s => exact (hw.stuck s w h hs).1
  | seq first rest hfirst hrest =>
    rw [Doc.emit]
    by_cases herr : (first.emit write w).2 = none
    · rw [andThen_of_none herr]
      obtain hs | hs := hs
      · exact absurd herr (hfirst hs h)
      · exact hrest hs (hw.emit_failed first h).1
    · rw [andThen_of_ne herr]
      exact herr
  | dropped part => exact hs.elim

/-- An error in a checked document is returned. -/
theorem emit_ne_none {doc : Doc} (hc : doc.Checked) (h : ¬failed w)
    (hf : failed (doc.emit write w).1) : (doc.emit write w).2 ≠ none := by
  induction doc generalizing w with
  | empty => exact absurd hf h
  | text s =>
    intro herr
    exact h ((hw.success s w herr).2.mp hf)
  | seq first rest hfirst hrest =>
    obtain ⟨hc, hcrest⟩ := hc
    rw [Doc.emit] at hf ⊢
    by_cases herr : (first.emit write w).2 = none
    · rw [andThen_of_none herr] at hf ⊢
      by_cases hmid : failed (first.emit write w).1
      · obtain hc | hstrict := hc
        · exact absurd herr (hfirst hc h hmid)
        · exact hw.emit_strict hstrict hmid
      · exact hrest hcrest hmid hf
    · rw [andThen_of_ne herr]
      exact herr
  | dropped part => exact hc.elim

/-- A checked document is written as a whole, or an error is returned and a prefix is written. -/
theorem emit_checked {doc : Doc} (hc : doc.Checked) (h : ¬failed w) :
    ((doc.emit write w).2 = none ∧ ¬failed (doc.emit write w).1 ∧
      content (doc.emit write w).1 = content w ++ doc.chars) ∨
    ((doc.emit write w).2 ≠ none ∧ failed (doc.emit write w).1 ∧
      ∃ part, part <+: doc.chars ∧ content (doc.emit write w).1 = content w ++ part) := by
  obtain ⟨hfailed, hpart⟩ | ⟨hok, herr, hcontent⟩ := hw.emit_cases doc h
  · exact .inr ⟨hw.emit_ne_none hc h hfailed, hfailed, hpart⟩
  · exact .inl ⟨herr, hok, hcontent⟩

end Sticky

/-! ### A writer with a capacity -/

/-- What was written, and whether a text did not fit. -/
structure Buffer (capacity : ℕ) where
  written : List Char
  full : Bool
  fits : written.length ≤ capacity

namespace Buffer

variable {capacity : ℕ}

def empty : Buffer capacity := ⟨[], false, Nat.zero_le capacity⟩

@[simp] theorem written_empty : (empty : Buffer capacity).written = [] := rfl

/-- A text that does not fit is cut off, and none is taken after it. -/
def append (s : String) (b : Buffer capacity) : Buffer capacity × Option Unit :=
  if b.full then (b, some ())
  else if h : (b.written ++ s.toList).length ≤ capacity then
    (⟨b.written ++ s.toList, false, h⟩, none)
  else
    (⟨(b.written ++ s.toList).take capacity, true, List.length_take_le ..⟩, some ())

theorem sticky : Sticky (append : String → Buffer capacity → _) written fun b => b.full = true where
  success s b herr := by
    rw [append] at herr ⊢
    split
    · rename_i hfull
      rw [if_pos hfull] at herr
      cases herr
    · rename_i hfull
      rw [if_neg hfull] at herr
      split
      · exact ⟨rfl, by simp [hfull]⟩
      · rename_i hlong
        rw [dif_neg hlong] at herr
        cases herr
  failure s b herr := by
    rw [append] at herr ⊢
    split
    · rename_i hfull
      exact ⟨hfull, [], List.nil_prefix, (List.append_nil _).symm⟩
    · rename_i hfull
      rw [if_neg hfull] at herr
      split
      · rename_i hfits
        rw [dif_pos hfits] at herr
        exact absurd rfl herr
      · refine ⟨rfl, s.toList.take (capacity - b.written.length), List.take_prefix .., ?_⟩
        dsimp only
        rw [List.take_append, List.take_of_length_le b.fits]
  stuck s b hfull _ := by
    rw [append, if_pos hfull]
    exact ⟨Option.some_ne_none _, rfl⟩

end Buffer

/-! ### Reading back -/

/-- Which value was printed, and where its text ends, can be told from what follows it. -/
def Readable {α : Type} (print : α → List Char) (Stop : List Char → Prop) : Prop :=
  ∀ a b r r', Stop r → Stop r' → print a ++ r = print b ++ r' → a = b ∧ r = r'

/-- No digit follows. -/
def NoDigit (r : List Char) : Prop := ∀ c ∈ r.head?, c.isDigit = false

theorem noDigit_cons {c : Char} {r : List Char} (h : c.isDigit = false) : NoDigit (c :: r) := by
  intro d hd
  obtain rfl := Option.some.inj hd
  exact h

theorem takeWhile_digits {n : ℕ} {r : List Char} (h : NoDigit r) :
    (Nat.toDigits 10 n ++ r).takeWhile Char.isDigit = Nat.toDigits 10 n := by
  have hdigits : ∀ c ∈ Nat.toDigits 10 n, c.isDigit := fun c hc =>
    Nat.isDigit_of_mem_toDigits (by omega) (by omega) hc
  have hr : r.takeWhile Char.isDigit = [] := by
    obtain _ | ⟨c, r⟩ := r
    · rfl
    · rw [List.takeWhile_cons_of_neg (by rw [h c rfl]; exact Bool.false_ne_true)]
  rw [List.takeWhile_append_of_pos hdigits, hr, List.append_nil]

theorem readable_nat : Readable (fun n : ℕ => (toString n).toList) NoDigit := by
  intro m n r r' hr hr' h
  simp only [Nat.toString_eq_repr, Nat.toList_repr] at h
  have hdigits : Nat.toDigits 10 m = Nat.toDigits 10 n := by
    rw [← takeWhile_digits hr, h, takeWhile_digits hr']
  refine ⟨?_, ?_⟩
  · rw [← Nat.ofDigitChars_ten_toDigits (n := m), hdigits, Nat.ofDigitChars_ten_toDigits]
  · rw [hdigits] at h
    exact List.append_cancel_left h

/-- A number below zero has a sign in front, which is not a digit. -/
theorem readable_int : Readable (fun i : ℤ => (toString i).toList) NoDigit := by
  have hsign : ∀ n : ℕ, (toString (Int.negSucc n)).toList = '-' :: (toString (n + 1)).toList :=
    fun n => by
      rw [Int.toString_eq_repr]
      simp [Int.repr]
  have hdigits : ∀ (n : ℕ) (r r' : List Char), (toString n).toList ++ r ≠ '-' :: r' := by
    intro n r r' h
    rw [Nat.toString_eq_repr, Nat.toList_repr] at h
    obtain hnil | ⟨l, hl, -⟩ := List.append_eq_cons_iff.mp h
    · exact Nat.toDigits_ne_nil hnil.1
    · have := Nat.isDigit_of_mem_toDigits (b := 10) (n := n) (c := '-') (by omega) (by omega)
        (by rw [hl]; exact List.mem_cons_self)
      exact absurd this (by decide)
  intro i j r r' hr hr' h
  obtain m | m := i
  · obtain n | n := j
    · obtain ⟨rfl, rfl⟩ := readable_nat m n r r' hr hr' h
      exact ⟨rfl, rfl⟩
    · simp only [hsign] at h
      exact absurd h (hdigits m r _)
  · obtain n | n := j
    · simp only [hsign] at h
      exact absurd h.symm (hdigits n r' _)
    · simp only [hsign, List.cons_append, List.cons.injEq, true_and] at h
      obtain ⟨heq, rfl⟩ := readable_nat (m + 1) (n + 1) r r' hr hr' h
      exact ⟨by rw [Nat.succ.inj heq], rfl⟩

/-- A list of values that are each followed by a possible stop, up to what cannot begin one. -/
theorem Readable.list {α : Type} {print : α → List Char} {Stop Last : List Char → Prop}
    (h : Readable print Stop) (hlast : ∀ r, Last r → Stop r)
    (hitem : ∀ a r, Stop (print a ++ r)) (hne : ∀ a r r', Last r' → print a ++ r ≠ r') :
    Readable (fun l : List α => l.flatMap print) Last := by
  have hstop : ∀ (l : List α) r, Last r → Stop (l.flatMap print ++ r) := by
    intro l r hr
    obtain _ | ⟨a, l⟩ := l
    · exact hlast r hr
    · rw [List.flatMap_cons, List.append_assoc]
      exact hitem a _
  intro l l' r r' hr hr' heq
  induction l generalizing l' with
  | nil =>
    obtain _ | ⟨b, l'⟩ := l'
    · exact ⟨rfl, heq⟩
    · simp only [List.flatMap_nil, List.nil_append, List.flatMap_cons, List.append_assoc] at heq
      exact absurd heq.symm (hne b _ r hr)
  | cons a l ih =>
    obtain _ | ⟨b, l'⟩ := l'
    · simp only [List.flatMap_nil, List.nil_append, List.flatMap_cons, List.append_assoc] at heq
      exact absurd heq (hne a _ r' hr')
    · simp only [List.flatMap_cons, List.append_assoc] at heq
      obtain ⟨rfl, hrest⟩ := h a b _ _ (hstop l r hr) (hstop l' r' hr') heq
      obtain ⟨rfl, rfl⟩ := ih l' hrest
      exact ⟨rfl, rfl⟩

end Printing
