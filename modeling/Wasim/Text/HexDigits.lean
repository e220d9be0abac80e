import Mathlib.Algebra.Order.Field.Rat
import Mathlib.Data.Nat.Digits.Lemmas
import Wasim.Text.FloatLiterals

/-!
# The digits of hexadecimal literals

Which number `parse_components` reads for a hexadecimal float literal. The scan keeps sixteen
significant digits and whether something follows them (`Scanned`), takes the trailing zeroes off
and caps the exponent (`Scanned.finishComponents`). The letters do not end a run of trailing
zeroes, so that the digits behind its first zero are taken off with them.
-/

namespace Wasim

/-! ### The number of a literal -/

/-- The values of the digits of a text. -/
def digitsOf (s : List UInt8) : List ℕ := (s.filter (· ≠ byteOf '_')).map digitValue

/-- The number of hexadecimal digits, the most significant one first. -/
def numeral (ds : List ℕ) : ℕ := Nat.ofDigits 16 ds.reverse

/-- The digits behind the leading zeroes. -/
def significant (ds : List ℕ) : List ℕ := ds.dropWhile (· = 0)

/-- A hexadecimal float literal, taken apart. -/
structure HexFloat where
  neg : Bool
  whole : List ℕ
  fraction : List ℕ
  exponentNeg : Bool
  exponent : List ℕ

/-- The texts of a hexadecimal float literal. -/
inductive IsHexFloat : HexFloat → List UInt8 → Prop
  | intro {sign n f : List UInt8} {marker : UInt8} {exponentSign e : List UInt8}
      (hsign : IsSign sign) (hn : Num 16 n) (hf : f = [] ∨ IsFraction 16 f)
      (hmarker : marker = byteOf 'p' ∨ marker = byteOf 'P') (hexponent : IsSign exponentSign)
      (he : Num 10 e) :
      IsHexFloat ⟨sign = [byteOf '-'], digitsOf n, digitsOf f.tail, exponentSign = [byteOf '-'],
          digitsOf e⟩
        (sign ++ (ascii "0x" ++ (n ++ (f ++ marker :: (exponentSign ++ e)))))

namespace HexFloat

/-- The digits of a literal without its point. -/
def digits (l : HexFloat) : List ℕ := l.whole ++ l.fraction

/-- The binary exponent of the last digit, with the digits of the exponent read as `e`. -/
def exponentOf (l : HexFloat) (e : ℕ) : ℤ :=
  (if l.exponentNeg then -(e : ℤ) else e) - 4 * l.fraction.length

/-- The magnitude of a literal. -/
def value (l : HexFloat) : ℚ :=
  numeral l.digits * 2 ^ l.exponentOf (Nat.ofDigits 10 l.exponent.reverse)

end HexFloat

/-! ### The number that is read -/

/-- Where the trailing zeroes start: at the first zero behind the last digit from 1 to 9. The
letters do not end them. -/
def zeroRun : List ℕ → Option ℕ
  | [] => none
  | d :: ds => if d = 0 ∧ ∀ e ∈ ds, e = 0 ∨ 10 ≤ e then some 0 else (zeroRun ds).map (· + 1)

/-- How many of the first sixteen significant digits are taken off as trailing zeroes. -/
def dropped (ds : List ℕ) : ℕ := (zeroRun ds).elim 0 fun start => min ds.length 16 - start

/-- How many of the first sixteen significant digits are kept. -/
def kept (ds : List ℕ) : ℕ := min ds.length 16 - dropped ds

/-- Significant digits, with zeroes in place of those that are taken off. -/
def keptDigits (ds : List ℕ) : List ℕ :=
  ds.take (kept ds) ++ (List.replicate (dropped ds) 0 ++ ds.drop 16)

/-- An exponent with one more digit. From 100000 on it is not extended any more. -/
def extendExponent (e d : ℕ) : ℕ := if e < 100000 then e * 10 + d else e

/-- The exponent that is read for its digits. -/
def cappedExponent (ds : List ℕ) : ℕ := ds.foldl extendExponent 0

/-- The magnitude that is read for a literal. -/
def HexFloat.readValue (l : HexFloat) : ℚ :=
  numeral (keptDigits (significant l.digits)) * 2 ^ l.exponentOf (cappedExponent l.exponent)

/-- What is read for a literal is the literal: it is zero, or the digits that are taken off are
zeroes and the exponent is below a million. -/
def HexFloat.ReadWell (l : HexFloat) : Prop :=
  (∀ d ∈ l.digits, d = 0) ∨
    (∀ d ∈ ((significant l.digits).take 16).drop (kept (significant l.digits)), d = 0) ∧
      Nat.ofDigits 10 l.exponent.reverse < 1000000

/-! ### Numerals -/

theorem numeral_append (ds es : List ℕ) :
    numeral (ds ++ es) = numeral ds * 16 ^ es.length + numeral es := by
  rw [numeral, List.reverse_append, Nat.ofDigits_append, List.length_reverse, Nat.add_comm,
    Nat.mul_comm]
  rfl

theorem numeral_singleton (d : ℕ) : numeral [d] = d := Nat.ofDigits_singleton

theorem numeral_lt {ds : List ℕ} (h : ∀ d ∈ ds, d < 16) : numeral ds < 16 ^ ds.length := by
  have hlt := Nat.ofDigits_lt_base_pow_length (b := 16) (l := ds.reverse) (by decide)
    fun d hd => h d (List.mem_reverse.mp hd)
  rwa [List.length_reverse] at hlt

theorem numeral_replicate (n : ℕ) : numeral (List.replicate n 0) = 0 := by
  induction n with
  | zero => rfl
  | succ n ih => rw [List.replicate_succ', numeral_append, ih, numeral_singleton, Nat.zero_mul]

theorem numeral_eq_zero_iff {ds : List ℕ} : numeral ds = 0 ↔ ∀ d ∈ ds, d = 0 := by
  induction ds using List.reverseRecOn with
  | nil => exact iff_of_true rfl fun d h => (List.not_mem_nil h).elim
  | append_singleton ds d ih =>
    rw [numeral_append, numeral_singleton]
    simp [ih, or_imp, forall_and]

theorem numeral_significant (ds : List ℕ) : numeral (significant ds) = numeral ds := by
  have hsplit : ds = ds.takeWhile (· = 0) ++ significant ds :=
    List.takeWhile_append_dropWhile.symm
  have hzero : numeral (ds.takeWhile (· = 0)) = 0 := numeral_eq_zero_iff.mpr fun d hd => by
    simpa using List.mem_takeWhile_imp hd
  conv_rhs => rw [hsplit, numeral_append, hzero, Nat.zero_mul, Nat.zero_add]

theorem le_numeral_cons {d : ℕ} (hd : d ≠ 0) (ds : List ℕ) :
    16 ^ ds.length ≤ numeral (d :: ds) := by
  have happend := numeral_append [d] ds
  rw [numeral_singleton, List.singleton_append] at happend
  have := Nat.le_mul_of_pos_left (16 ^ ds.length) (Nat.pos_of_ne_zero hd)
  omega

theorem significant_snoc (ds : List ℕ) (d : ℕ) : significant (ds ++ [d]) =
    if significant ds = [] ∧ d = 0 then [] else significant ds ++ [d] := by
  rw [significant, List.dropWhile_append]
  by_cases hnil : significant ds = []
  · rw [if_pos (by simpa [significant] using hnil), hnil]
    by_cases hd : d = 0 <;> simp [hd]
  · rw [if_neg (by simpa [significant] using hnil), if_neg fun h => hnil h.1]
    rfl

theorem significant_head {ds : List ℕ} {d : ℕ} {rest : List ℕ} (h : significant ds = d :: rest) :
    d ≠ 0 := by
  have hne : significant ds ≠ [] := h ▸ List.cons_ne_nil d rest
  have hhead := List.head_dropWhile_not (fun d : ℕ => decide (d = 0)) hne
  simp only [significant] at h
  simpa [h] using hhead

theorem mem_of_mem_significant {ds : List ℕ} {d : ℕ} (h : d ∈ significant ds) : d ∈ ds :=
  (List.dropWhile_sublist _).subset h

/-! ### The run of trailing zeroes -/

theorem zeroRun_snoc (ds : List ℕ) (d : ℕ) : zeroRun (ds ++ [d]) =
    if d = 0 then (zeroRun ds).or (some ds.length) else if d < 10 then none else zeroRun ds := by
  induction ds with
  | nil =>
    by_cases hd : d = 0
    · simp [zeroRun, hd]
    · simp [zeroRun, hd]
  | cons e ds ih =>
    have hall : (∀ x ∈ ds ++ [d], x = 0 ∨ 10 ≤ x) ↔ (∀ x ∈ ds, x = 0 ∨ 10 ≤ x) ∧ (d = 0 ∨ 10 ≤ d) :=
      List.forall_mem_append.trans (and_congr_right' List.forall_mem_singleton)
    rw [List.cons_append, zeroRun, zeroRun, ih]
    by_cases hrun : e = 0 ∧ ∀ x ∈ ds, x = 0 ∨ 10 ≤ x
    · rw [if_pos hrun]
      by_cases hd : d = 0
      · rw [if_pos ⟨hrun.1, hall.mpr ⟨hrun.2, Or.inl hd⟩⟩, if_pos hd]
        rfl
      · by_cases hten : d < 10
        · rw [if_neg fun h => by have := (hall.mp h.2).2; omega, if_neg hd, if_pos hten, if_neg hd,
            if_pos hten]
          rfl
        · rw [if_pos ⟨hrun.1, hall.mpr ⟨hrun.2, Or.inr (not_lt.mp hten)⟩⟩, if_neg hd, if_neg hten]
    · rw [if_neg hrun, if_neg fun h => hrun ⟨h.1, (hall.mp h.2).1⟩]
      by_cases hd : d = 0
      · rw [if_pos hd, if_pos hd]
        cases zeroRun ds <;> rfl
      · rw [if_neg hd, if_neg hd]
        split <;> rfl

/-- The first digit is kept. -/
theorem zeroRun_pos {d : ℕ} (hd : d ≠ 0) (ds : List ℕ) {start : ℕ}
    (h : zeroRun (d :: ds) = some start) : 0 < start := by
  rw [zeroRun, if_neg fun h => hd h.1, Option.map_eq_some_iff] at h
  obtain ⟨a, -, rfl⟩ := h
  exact Nat.succ_pos a

theorem kept_add_dropped (ds : List ℕ) : kept ds + dropped ds = min ds.length 16 := by
  have hle : dropped ds ≤ min ds.length 16 := by
    rw [dropped]
    cases zeroRun ds with
    | none => exact Nat.zero_le _
    | some start => exact Nat.sub_le _ _
  rw [kept]
  omega

theorem kept_pos {d : ℕ} (hd : d ≠ 0) (ds : List ℕ) : 0 < kept (d :: ds) := by
  have hlen : 0 < min (d :: ds).length 16 := by
    rw [List.length_cons]
    omega
  rw [kept, dropped]
  cases hrun : zeroRun (d :: ds) with
  | none => exact hlen
  | some start =>
    have hstart := zeroRun_pos hd ds hrun
    change 0 < min (d :: ds).length 16 - (min (d :: ds).length 16 - start)
    omega

theorem length_keptDigits (ds : List ℕ) : (keptDigits ds).length = ds.length := by
  have hsum := kept_add_dropped ds
  simp only [keptDigits, List.length_append, List.length_take, List.length_replicate,
    List.length_drop]
  omega

/-! ### The scan -/

/-- What the scan has seen: the digits `ds`, the last `behind` of them behind the point, if it has
seen one. -/
structure Scanned (st : DigitScan) (ds : List ℕ) (behind : ℕ) : Prop where
  nd : st.nd = (significant ds).length
  ndMant : st.ndMant = min (significant ds).length 16
  mantissa : st.mantissa = numeral ((significant ds).take 16)
  trunc : st.trunc = true ↔ 0 < numeral ((significant ds).drop 16)
  trailing : st.trailingZeroesNd = (zeroRun (significant ds)).elim (-1) Nat.cast
  point : st.sawDot = true → st.decimalPoint = (significant ds).length - behind

theorem scanned_start : Scanned {} [] 0 where
  nd := rfl
  ndMant := rfl
  mantissa := rfl
  trunc := by simp [significant, numeral]
  trailing := rfl
  point := fun h => by cases h

/-- A point counts the digits in front of it. -/
theorem Scanned.point_seen {st : DigitScan} {ds : List ℕ} {behind : ℕ} (h : Scanned st ds behind) :
    Scanned { st with sawDot := true, decimalPoint := st.nd } ds 0 where
  nd := h.nd
  ndMant := h.ndMant
  mantissa := h.mantissa
  trunc := h.trunc
  trailing := h.trailing
  point := fun _ => by simp [h.nd]

theorem DigitScan.push_eq (st : DigitScan) (digit : ℕ) (nonzero : Bool) :
    st.push 16 16 digit nonzero =
      { st with
        nd := st.nd + 1
        ndMant := if st.ndMant < 16 then st.ndMant + 1 else st.ndMant
        mantissa := if st.ndMant < 16 then (st.mantissa * 16 + digit) % 2 ^ 64 else st.mantissa
        trunc := st.trunc || (decide (16 ≤ st.ndMant) && nonzero) } := by
  rw [push]
  by_cases hlt : st.ndMant < 16
  · simp [hlt, not_le.mpr hlt]
  · simp only [hlt, if_false]
    cases nonzero <;> simp [not_lt.mp hlt]

/-- A significant digit. -/
theorem Scanned.push {st : DigitScan} {ds : List ℕ} {behind d : ℕ} (h : Scanned st ds behind)
    (hds : ∀ x ∈ ds, x < 16) (hd : d < 16) (hsig : significant (ds ++ [d]) = significant ds ++ [d])
    {trailing : ℤ} (htrailing : trailing = (zeroRun (significant (ds ++ [d]))).elim (-1) Nat.cast)
    {nonzero : Bool} (hnonzero : nonzero = true ↔ d ≠ 0) :
    Scanned ({ st with sawDigits := true, trailingZeroesNd := trailing }.push 16 16 d nonzero)
      (ds ++ [d]) (behind + 1) := by
  have hlen : ((significant ds).take 16).length = min (significant ds).length 16 := by
    rw [List.length_take, Nat.min_comm]
  rw [DigitScan.push_eq]
  refine ⟨?_, ?_, ?_, ?_, htrailing, fun hdot => ?_⟩
  · rw [hsig]
    simp [h.nd]
  · rw [hsig]
    simp only [h.ndMant, List.length_append, List.length_singleton]
    split <;> omega
  · simp only [h.ndMant, h.mantissa, hsig]
    by_cases hlt : (significant ds).length < 16
    · have hsmall : numeral (significant ds) * 16 + d < 2 ^ 64 := by
        have hbound := numeral_lt fun x hx => hds x (mem_of_mem_significant hx)
        have hpow : 16 ^ ((significant ds).length + 1) ≤ 16 ^ 16 :=
          Nat.pow_le_pow_right (by decide) hlt
        rw [pow_succ] at hpow
        omega
      rw [if_pos (by omega), List.take_of_length_le hlt.le,
        List.take_of_length_le (by simpa using hlt), Nat.mod_eq_of_lt hsmall, numeral_append,
        numeral_singleton]
      rfl
    · rw [if_neg (by omega), List.take_append_of_le_length (not_lt.mp hlt)]
  · simp only [h.ndMant, hsig, Bool.or_eq_true, h.trunc, Bool.and_eq_true, decide_eq_true_eq,
      hnonzero]
    by_cases hlt : (significant ds).length < 16
    · rw [List.drop_eq_nil_of_le hlt.le, List.drop_eq_nil_of_le (by simpa using hlt)]
      omega
    · rw [List.drop_append_of_le_length (not_lt.mp hlt), numeral_append, numeral_singleton]
      simp only [List.length_singleton, pow_one]
      omega
  · simp only [h.point hdot, hsig, List.length_append, List.length_singleton]
    push_cast
    ring

/-- A leading zero. -/
theorem Scanned.leading {st : DigitScan} {ds : List ℕ} {behind : ℕ} (h : Scanned st ds behind)
    (hnil : significant ds = []) :
    Scanned { st with sawDigits := true, decimalPoint := st.decimalPoint - 1 } (ds ++ [0])
      (behind + 1) := by
  have hsig : significant (ds ++ [0]) = significant ds := by
    rw [significant_snoc, if_pos ⟨hnil, rfl⟩, hnil]
  refine ⟨by rw [hsig]; exact h.nd, by rw [hsig]; exact h.ndMant, by rw [hsig]; exact h.mantissa,
    by rw [hsig]; exact h.trunc, by rw [hsig]; exact h.trailing, fun hdot => ?_⟩
  simp only [h.point hdot, hsig]
  push_cast
  ring

/-- How the scan values the digits, checked for every byte. -/
theorem hexDigit_value {c : UInt8} (hc : texTokIsDigit c.toNat 16) :
    digitValue c < 16 ∧ (c = byteOf '0' ↔ digitValue c = 0) ∧
      ((byteOf '0' ≤ c ∧ c ≤ byteOf '9') →
        c.toNat - '0'.toNat = digitValue c ∧ digitValue c < 10) ∧
      (¬(byteOf '0' ≤ c ∧ c ≤ byteOf '9') →
        (lower c).toNat - 'a'.toNat + 10 = digitValue c ∧ 10 ≤ digitValue c) := by
  have hall : ∀ n : Fin 256, texTokIsDigit n 16 →
      digitValue (UInt8.ofNat n) < 16 ∧
        (UInt8.ofNat n = byteOf '0' ↔ digitValue (UInt8.ofNat n) = 0) ∧
        ((byteOf '0' ≤ UInt8.ofNat n ∧ UInt8.ofNat n ≤ byteOf '9') →
          (UInt8.ofNat n).toNat - '0'.toNat = digitValue (UInt8.ofNat n) ∧
            digitValue (UInt8.ofNat n) < 10) ∧
        (¬(byteOf '0' ≤ UInt8.ofNat n ∧ UInt8.ofNat n ≤ byteOf '9') →
          (lower (UInt8.ofNat n)).toNat - 'a'.toNat + 10 = digitValue (UInt8.ofNat n) ∧
            10 ≤ digitValue (UInt8.ofNat n)) := by
    decide +kernel
  have h := hall ⟨c.toNat, c.toNat_lt⟩ hc
  rwa [UInt8.ofNat_toNat] at h

/-- A digit is scanned. -/
theorem Scanned.digit {st : DigitScan} {ds : List ℕ} {behind : ℕ} (h : Scanned st ds behind)
    (hds : ∀ x ∈ ds, x < 16) {c : UInt8} (hc : texTokIsDigit c.toNat 16) (s : List UInt8) :
    ∃ st', scanDigits 16 16 (c :: s) st = scanDigits 16 16 s st' ∧ st'.sawDot = st.sawDot ∧
      st'.sawDigits = true ∧ Scanned st' (ds ++ [digitValue c]) (behind + 1) := by
  obtain ⟨hunderscore, hpoint, hcases⟩ := digit_cases (Or.inr rfl) hc
  obtain ⟨hlt, hzero, hdecimal, hletter⟩ := hexDigit_value hc
  have hsnoc := significant_snoc ds (digitValue c)
  by_cases hdec : byteOf '0' ≤ c ∧ c ≤ byteOf '9'
  · obtain ⟨hvalue, hten⟩ := hdecimal hdec
    refine ⟨st.decimalDigit 16 16 c, ?_, by simp, by simp, ?_⟩
    · rw [scanDigits, if_neg hunderscore, if_neg hpoint, if_pos hdec]
    · by_cases hlead : c = byteOf '0' ∧ st.nd = 0
      · have hnil : significant ds = [] := List.eq_nil_of_length_eq_zero (h.nd ▸ hlead.2)
        rw [DigitScan.decimalDigit, if_pos hlead, hzero.mp hlead.1]
        exact h.leading hnil
      · rw [hzero, h.nd, List.length_eq_zero_iff, and_comm] at hlead
        rw [if_neg hlead] at hsnoc
        rw [DigitScan.decimalDigit,
          if_neg (by rwa [hzero, h.nd, List.length_eq_zero_iff, and_comm]), hvalue]
        refine h.push hds hlt hsnoc ?_ (by simp [hzero])
        rw [hsnoc, zeroRun_snoc, if_pos hten]
        simp only [hzero, h.trailing, h.nd]
        split
        · cases zeroRun (significant ds) <;> simp
        · rfl
  · obtain ⟨hvalue, hten⟩ := hletter hdec
    obtain ⟨-, hbase⟩ := hcases.resolve_left hdec
    refine ⟨st.hexDigit 16 c, ?_, by simp [DigitScan.hexDigit], by simp [DigitScan.hexDigit], ?_⟩
    · rw [scanDigits, if_neg hunderscore, if_neg hpoint, if_neg hdec, if_pos hbase]
    · have hne : ¬(significant ds = [] ∧ digitValue c = 0) := fun h => by omega
      rw [if_neg hne] at hsnoc
      rw [DigitScan.hexDigit, hvalue]
      refine h.push hds hlt hsnoc ?_ (by simp; omega)
      rw [hsnoc, zeroRun_snoc, if_neg (by omega), if_neg (by omega)]
      exact h.trailing

theorem digitsOf_digit {base : ℕ} (hbase : base = 10 ∨ base = 16) {d : UInt8}
    (hd : texTokIsDigit d.toNat base) (s : List UInt8) :
    digitsOf (d :: s) = digitValue d :: digitsOf s := by
  obtain ⟨hunderscore, -, -⟩ := digit_cases hbase hd
  rw [digitsOf, List.filter_cons_of_pos (by simpa using hunderscore), List.map_cons]
  rfl

theorem digitsOf_underscore (s : List UInt8) : digitsOf (byteOf '_' :: s) = digitsOf s := by
  rw [digitsOf, List.filter_cons_of_neg (by simp)]
  rfl

theorem digitsOf_lt {n : List UInt8} (hn : Num 16 n) : ∀ x ∈ digitsOf n, x < 16 := by
  induction hn with
  | digit hd =>
    rw [digitsOf_digit (Or.inr rfl) hd]
    exact List.forall_mem_singleton.mpr (hexDigit_value hd).1
  | cons hd _ ih =>
    rw [digitsOf_digit (Or.inr rfl) hd]
    exact List.forall_mem_cons.mpr ⟨(hexDigit_value hd).1, ih⟩
  | underscore hd _ ih =>
    rw [digitsOf_digit (Or.inr rfl) hd, digitsOf_underscore]
    exact List.forall_mem_cons.mpr ⟨(hexDigit_value hd).1, ih⟩

/-- A number is scanned. -/
theorem Scanned.num {st : DigitScan} {ds : List ℕ} {behind : ℕ} (h : Scanned st ds behind)
    (hds : ∀ x ∈ ds, x < 16) {n : List UInt8} (hn : Num 16 n) (rest : List UInt8) :
    ∃ st', scanDigits 16 16 (n ++ rest) st = scanDigits 16 16 rest st' ∧ st'.sawDot = st.sawDot ∧
      st'.sawDigits = true ∧ Scanned st' (ds ++ digitsOf n) (behind + (digitsOf n).length) := by
  have hsnoc : ∀ {ds : List ℕ} {d : UInt8}, (∀ x ∈ ds, x < 16) → texTokIsDigit d.toNat 16 →
      ∀ x ∈ ds ++ [digitValue d], x < 16 := fun hds hd =>
    List.forall_mem_append.mpr ⟨hds, List.forall_mem_singleton.mpr (hexDigit_value hd).1⟩
  induction hn generalizing st ds behind with
  | digit hd =>
    obtain ⟨st', hscan, hdot, hsaw, h'⟩ := h.digit hds hd rest
    refine ⟨st', hscan, hdot, hsaw, ?_⟩
    rw [digitsOf_digit (Or.inr rfl) hd]
    exact h'
  | @cons d s hd _ ih =>
    obtain ⟨st₁, hscan₁, hdot₁, -, h₁⟩ := h.digit hds hd (s ++ rest)
    obtain ⟨st₂, hscan₂, hdot₂, hsaw, h₂⟩ := ih h₁ (hsnoc hds hd)
    refine ⟨st₂, hscan₁.trans hscan₂, hdot₂.trans hdot₁, hsaw, ?_⟩
    rw [digitsOf_digit (Or.inr rfl) hd, List.length_cons]
    rwa [List.append_assoc, List.singleton_append, Nat.add_assoc, Nat.add_comm 1] at h₂
  | @underscore d s hd _ ih =>
    obtain ⟨st₁, hscan₁, hdot₁, -, h₁⟩ := h.digit hds hd (byteOf '_' :: (s ++ rest))
    obtain ⟨st₂, hscan₂, hdot₂, hsaw, h₂⟩ := ih h₁ (hsnoc hds hd)
    refine ⟨st₂, ?_, hdot₂.trans hdot₁, hsaw, ?_⟩
    · rw [List.cons_append, List.cons_append, hscan₁, scanDigits_underscore, hscan₂]
    · rw [digitsOf_digit (Or.inr rfl) hd, digitsOf_underscore, List.length_cons]
      rwa [List.append_assoc, List.singleton_append, Nat.add_assoc, Nat.add_comm 1] at h₂

/-- The digits of a literal are scanned, with those behind its point told apart. -/
theorem scanned_literal {n f : List UInt8} (hn : Num 16 n) (hf : f = [] ∨ IsFraction 16 f)
    (rest : List UInt8) :
    ∃ st, scanDigits 16 16 (n ++ (f ++ rest)) {} = scanDigits 16 16 rest st ∧
      st.sawDigits = true ∧
      Scanned st (digitsOf n ++ digitsOf f.tail) (digitsOf f.tail).length ∧
      (st.sawDot = false → digitsOf f.tail = []) := by
  have hnone : ∀ x ∈ ([] : List ℕ), x < 16 := fun x hx => (List.not_mem_nil hx).elim
  obtain ⟨st₁, hscan₁, hdot₁, hsaw₁, h₁⟩ := scanned_start.num hnone hn (f ++ rest)
  rw [List.nil_append] at h₁
  obtain rfl | hf := hf
  · refine ⟨st₁, hscan₁, hsaw₁, ?_, fun _ => rfl⟩
    rw [List.tail_nil, show digitsOf [] = [] from rfl, List.append_nil]
    exact ⟨h₁.nd, h₁.ndMant, h₁.mantissa, h₁.trunc, h₁.trailing,
      fun hdot => by rw [hdot₁] at hdot; cases hdot⟩
  · have hpoint := scanDigits_point 16 16 (f.tail ++ rest) hdot₁
    obtain rfl | hn' := hf
    · refine ⟨_, hscan₁.trans hpoint, hsaw₁, ?_, fun hdot => by cases hdot⟩
      rw [List.tail_cons, show digitsOf [] = [] from rfl, List.append_nil]
      exact h₁.point_seen
    · obtain ⟨st₂, hscan₂, hdot₂, hsaw₂, h₂⟩ := h₁.point_seen.num (digitsOf_lt hn) hn' rest
      refine ⟨st₂, (hscan₁.trans hpoint).trans hscan₂, hsaw₂, ?_, fun hdot => ?_⟩
      · rwa [Nat.zero_add] at h₂
      · rw [hdot₂] at hdot
        cases hdot

/-! ### The exponent -/

/-- The digits of an exponent are folded. -/
theorem scanExponent_num {n : List UInt8} (hn : Num 10 n) (e : ℕ) :
    scanExponent n e = ((((digitsOf n).foldl extendExponent e : ℕ) : ℤ), ([] : List UInt8)) := by
  have hstep : ∀ {d : UInt8}, texTokIsDigit d.toNat 10 → ∀ (s : List UInt8) (e : ℕ),
      scanExponent (d :: s) e = scanExponent s (extendExponent e (digitValue d) : ℕ) := by
    intro d hd s e
    obtain ⟨-, -, hdec | ⟨-, hbase, -⟩⟩ := digit_cases (Or.inl rfl) hd
    · have hvalue : d.toNat - '0'.toNat = digitValue d := (if_pos hdec.2).symm
      have hextend : (if (e : ℤ) < 100000 then (e : ℤ) * 10 + (digitValue d : ℕ) else e) =
          (extendExponent e (digitValue d) : ℕ) := by
        rw [extendExponent]
        by_cases hlt : e < 100000
        · rw [if_pos hlt, if_pos (by exact_mod_cast hlt)]
          push_cast
          rfl
        · rw [if_neg hlt, if_neg (by exact_mod_cast hlt)]
      rw [scanExponent, if_pos hdec, hvalue, hextend]
    · cases hbase
  have hunderscore : ∀ (s : List UInt8) (e : ℤ),
      scanExponent (byteOf '_' :: s) e = scanExponent s e := fun s e => by
    rw [scanExponent, if_neg (by decide), if_pos rfl]
  induction hn generalizing e with
  | digit hd =>
    rw [hstep hd, digitsOf_digit (Or.inl rfl) hd]
    rfl
  | cons hd _ ih => rw [hstep hd, ih, digitsOf_digit (Or.inl rfl) hd, List.foldl_cons]
  | underscore hd _ ih =>
    rw [hstep hd, hunderscore, ih, digitsOf_digit (Or.inl rfl) hd, digitsOf_underscore,
      List.foldl_cons]

theorem parseExponent_eq {sign n : List UInt8} (hsign : IsSign sign) (hn : Num 10 n) :
    parseExponent (sign ++ n) =
      some (if sign = [byteOf '-'] then -(cappedExponent (digitsOf n) : ℤ)
        else cappedExponent (digitsOf n), []) := by
  have hread : (readSign (sign ++ n)).2 = n := by rw [readSign_append hsign hn.noSign]
  have hscan := scanExponent_num hn 0
  obtain ⟨d, s, rfl, hd⟩ := hn.exists_cons
  obtain ⟨-, -, hdec | ⟨-, hbase, -⟩⟩ := digit_cases (Or.inl rfl) hd
  · have hhead : ((sign ++ d :: s).head? = some (byteOf '-')) ↔ sign = [byteOf '-'] := by
      obtain rfl | rfl | rfl := hsign
      · have hne : d ≠ byteOf '-' := (hn.noSign d s rfl).2
        simpa using hne
      · exact iff_of_false (fun h => by simp at h; revert h; decide) (by decide)
      · exact iff_of_true rfl rfl
    simp only [parseExponent, hread]
    rw [if_neg (not_or.mpr ⟨UInt8.not_lt.mpr hdec.1, UInt8.not_lt.mpr hdec.2⟩)]
    rw [Int.natCast_zero] at hscan
    simp only [hscan, hhead]
    by_cases hneg : sign = [byteOf '-']
    · simp [hneg, cappedExponent]
    · simp [hneg, cappedExponent]
  · cases hbase

/-! ### The components -/

theorem dropZeroes_eq (base count mantissa : ℕ) (ndMant : ℤ) :
    dropZeroes base count mantissa ndMant = (mantissa / base ^ count, ndMant - count) := by
  induction count generalizing mantissa ndMant with
  | zero => rw [dropZeroes, pow_zero, Nat.div_one, Nat.cast_zero, sub_zero]
  | succ count ih =>
    rw [dropZeroes, ih, Nat.div_div_eq_div_mul, pow_succ', Nat.cast_succ]
    congr 1
    ring

/-- The first sixteen digits, parted into what is kept and what is taken off. -/
theorem take_kept_append (ds : List ℕ) :
    ds.take 16 = ds.take (kept ds) ++ (ds.take 16).drop (kept ds) := by
  have hle : kept ds ≤ 16 := by
    have := kept_add_dropped ds
    omega
  conv_lhs =>
    rw [← List.take_append_drop (kept ds) (ds.take 16), List.take_take, Nat.min_eq_left hle]

theorem length_dropped (ds : List ℕ) : ((ds.take 16).drop (kept ds)).length = dropped ds := by
  have := kept_add_dropped ds
  rw [List.length_drop, List.length_take]
  omega

theorem numeral_take_div {ds : List ℕ} (h : ∀ d ∈ ds, d < 16) :
    numeral (ds.take 16) / 16 ^ dropped ds = numeral (ds.take (kept ds)) := by
  have hlt : numeral ((ds.take 16).drop (kept ds)) < _ := numeral_lt fun d hd =>
    h d (List.mem_of_mem_take (List.mem_of_mem_drop hd))
  rw [length_dropped] at hlt
  rw [take_kept_append, numeral_append, length_dropped, Nat.add_comm,
    Nat.add_mul_div_right _ _ (Nat.pow_pos (by decide)), Nat.div_eq_of_lt hlt, Nat.zero_add]

/-- How many zeroes the loop takes off. -/
theorem Scanned.toNat_zeroes {st : DigitScan} {ds : List ℕ} {behind : ℕ}
    (h : Scanned st ds behind) :
    (if 0 < st.trailingZeroesNd then (st.ndMant : ℤ) - st.trailingZeroesNd
      else st.trailingZeroesNd).toNat = dropped (significant ds) := by
  have htrailing := h.trailing
  rw [h.ndMant, dropped]
  cases hrun : zeroRun (significant ds) with
  | none =>
    rw [hrun] at htrailing
    rw [htrailing]
    rfl
  | some start =>
    rw [hrun] at htrailing
    have hpos : 0 < start := by
      cases hsig : significant ds with
      | nil =>
        rw [hsig] at hrun
        cases hrun
      | cons d rest =>
        rw [hsig] at hrun
        exact zeroRun_pos (significant_head hsig) rest hrun
    have hstart : st.trailingZeroesNd = start := htrailing
    rw [hstart, if_pos (by exact_mod_cast hpos), Option.elim_some]
    omega

/-- The components of a literal, from what the scan has seen. -/
theorem Scanned.finishComponents {st : DigitScan} {ds : List ℕ} {behind : ℕ}
    (h : Scanned st ds behind) (hds : ∀ d ∈ ds, d < 16) (hsaw : st.sawDigits = true)
    (hdot : st.sawDot = false → behind = 0) {marker : UInt8} (hmarker : lower marker = byteOf 'p')
    {t : List UInt8} {e : ℤ} (he : parseExponent t = some (e, [])) (neg : Bool) :
    finishComponents neg true st (marker :: t) = some
      { mantissa := numeral ((significant ds).take (kept (significant ds)))
        exp := if numeral ((significant ds).take (kept (significant ds))) ≠ 0 then
            4 * ((significant ds).length - kept (significant ds) : ℤ) + (e - 4 * behind) else 0
        neg, trunc := st.trunc, hex := true, rest := [] } := by
  have hpoint : (if st.sawDot = true then st.decimalPoint else (st.nd : ℤ)) =
      (significant ds).length - behind := by
    by_cases hsaw : st.sawDot = true
    · rw [if_pos hsaw, h.point hsaw]
    · rw [if_neg hsaw, h.nd, hdot (Bool.eq_false_of_not_eq_true hsaw)]
      simp
  have hsum := kept_add_dropped (significant ds)
  have hkept : (min (significant ds).length 16 : ℕ) - (dropped (significant ds) : ℤ) =
      kept (significant ds) := by omega
  simp only [Wasim.finishComponents, hsaw, Bool.not_true, Bool.false_eq_true, if_false, if_true,
    h.toNat_zeroes, dropZeroes_eq, hpoint, hmarker, he]
  rw [h.mantissa, h.ndMant, numeral_take_div fun d hd => hds d (mem_of_mem_significant hd), hkept]
  have hexp : ((significant ds).length - behind : ℤ) * 4 + e - kept (significant ds) * 4 =
      4 * ((significant ds).length - kept (significant ds)) + (e - 4 * behind) := by ring
  rw [hexp]

end Wasim
