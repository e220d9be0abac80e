import Wasim.Binary.LaneAgree
import Wasim.Binary.Positions
import Wasim.Binary.Takes

/-!
# The expressions of a file

A reader of a file can only fail to return inside an expression, and what it returns is only read
back from the temp arena in an expression. Which expressions are reached is settled by the bytes:
the first one of a section, behind the head of its entry, and those of the bodies in the last code
section, behind their locals (`EveryExpr`).
-/

namespace Wasim

open BinReadCtx

/-- Behind the locals of a body come the bytes `rest`. -/
def BodyReaches (data rest : List UInt8) : Prop :=
  ∃ ls hd, Encoding.vec Encoding.locals ls hd ∧ data = hd ++ rest

/-- Every expression that a reader of the file reaches starts with bytes of this kind. -/
structure EveryExpr (P : List UInt8 → Prop) (file : List UInt8) : Prop where
  sections : ∀ fs, FileOf fs file → ∀ f ∈ fs, ∀ rest,
    ReachesExpr (.ofByte f.kind) f.payload rest → P rest
  bodies : ∀ fs f fs', FileOf (fs ++ f :: fs') file → f.kind = 10 → (∀ g ∈ fs', g.kind ≠ 10) →
    ∀ bs, BodiesOf bs f.payload → ∀ b ∈ bs, ∀ rest, BodyReaches b.body rest → P rest

theorem fileOf_twinFunctions {fs : List SectionFrame} (h : FileOf fs twinFunctions) :
    fs = [⟨0x01, [0x05], [0x01, 0x60, 0x00, 0x01, 0x7F]⟩, ⟨0x03, [0x03], [0x02, 0x00, 0x00]⟩,
      ⟨0x03, [0x03], [0x02, 0x00, 0x00]⟩,
      ⟨0x0A, [0x11], [0x02, 0x07, 0x00, 0x02, 0x7F, 0x41, 0x00, 0x0B, 0x0B, 0x07, 0x00, 0x02,
        0x7F, 0x41, 0x00, 0x0B, 0x0B]⟩] := by
  have hsize : ∀ b : UInt8, b.toNat < 2 ^ 7 → Encoding.unsigned 32 b.toNat [b] := fun b hb =>
    ⟨.last hb, by simp, by omega⟩
  refine h.unique ⟨?_, by decide⟩
  simp only [List.forall_mem_cons]
  exact ⟨⟨by decide, hsize 0x05 (by decide)⟩, ⟨by decide, hsize 0x03 (by decide)⟩,
    ⟨by decide, hsize 0x03 (by decide)⟩, ⟨by decide, hsize 0x11 (by decide)⟩,
    List.forall_mem_nil _⟩

/-- The file with the two functions reaches the blocks in their bodies, and nothing else. -/
theorem everyExpr_twinFunctions {P : List UInt8 → Prop}
    (h : P [0x02, 0x7F, 0x41, 0x00, 0x0B, 0x0B]) : EveryExpr P twinFunctions := by
  constructor
  · intro fs hfs f hf rest hreach
    rw [fileOf_twinFunctions hfs] at hf
    simp only [List.mem_cons, List.not_mem_nil, or_false] at hf
    obtain rfl | rfl | rfl | rfl := hf
    all_goals exact hreach.elim
  · rintro fs f fs' hfs h10 - bs hbs b hb rest ⟨ls, hd, hls, hbody⟩
    have hf : f ∈ fs ++ f :: fs' := List.mem_append_right _ (List.mem_cons_self ..)
    rw [fileOf_twinFunctions hfs] at hf
    simp only [List.mem_cons, List.not_mem_nil, or_false] at hf
    obtain rfl | rfl | rfl | rfl := hf
    · cases h10
    · cases h10
    · cases h10
    · have hseven : Encoding.unsigned 32 7 [0x07] :=
        ⟨.last (b := 0x07) (by decide), by decide, by decide⟩
      have htwo : Encoding.unsigned 32 2 [0x02] :=
        ⟨.last (b := 0x02) (by decide), by decide, by decide⟩
      have hzero : Encoding.vec Encoding.locals [] [0x00] :=
        ⟨[0x00], [], ⟨.last (b := 0x00) (by decide), by decide, by decide⟩, .nil, rfl⟩
      have hframe : BodyFrame.Valid ⟨[0x07], [0x00, 0x02, 0x7F, 0x41, 0x00, 0x0B, 0x0B]⟩ := hseven
      obtain rfl := hbs.unique ⟨List.forall_mem_cons.mpr ⟨hframe,
        List.forall_mem_singleton.mpr hframe⟩, [0x02], [], htwo, rfl⟩
      have hb' : b.body = [0x00] ++ [0x02, 0x7F, 0x41, 0x00, 0x0B, 0x0B] := by
        obtain rfl | rfl := List.mem_pair.mp hb
        all_goals rfl
      obtain ⟨-, -, rfl⟩ := codeHead_reads.unique hls hzero (hbody.symm.trans hb')
      exact h

/-! ### Readers that end -/

theorem binReadFuncType_returns (c : BinReadCtx) : ∃ r, binReadFuncType c = .returned r := by
  simp only [binReadFuncType]
  split
  · split
    · obtain ⟨args, hargs⟩ := binReadVec_returns .unset binReadValueType (binReadByte c).ctx
      rw [hargs, Outcome.returned_bind]
      split
      · obtain ⟨rets, hrets⟩ := binReadVec_returns .unset binReadValueType args.ctx
        rw [hrets]
        exact ⟨_, rfl⟩
      · exact ⟨_, rfl⟩
    · exact ⟨_, rfl⟩
  · exact ⟨_, rfl⟩

section Ends

variable {α : Type} {Q : ∀ ⦃α : Type⦄, (ℕ → Outcome α) → Prop} (hQ : Outcome.Ending Q)

include hQ

/-- A vector of entries that are never `ok`: the reader ends exactly if that of the first entry
does, where there is one. -/
theorem binReadVec_ends_iff {parse : ℕ → BinReadCtx → Outcome (ReadResult α)}
    (hok : ∀ fuel c r, parse fuel c = .returned r → r.ok = false) (Ends : List UInt8 → Prop)
    (hparse : ∀ c, Q (fun fuel => parse fuel c) ↔ Ends c.rest) (zero : α) (c : BinReadCtx) :
    Q (fun fuel => binReadVec zero (parse fuel) c) ↔
      ∀ k n rest, Encoding.unsigned 32 (k + 1) n → c.rest = n ++ rest → Ends rest := by
  have hcount : (∀ k n rest, Encoding.unsigned 32 (k + 1) n → c.rest = n ++ rest → Ends rest) ↔
      ((binReadU32Leb c).ok = true → (binReadU32Leb c).value.toNat ≠ 0 →
        Ends (binReadU32Leb c).ctx.rest) := by
    have h := ok_and_iff binReadU32Leb_reads binReadU32Leb_accepts c fun v rest =>
      v.toNat ≠ 0 ∧ ¬Ends rest
    constructor
    · intro hall hsize hne
      by_contra hends
      obtain ⟨v, n, rest, hv, hrest, hv0, hno⟩ := h.mp ⟨hsize, hne, hends⟩
      obtain ⟨k, hk⟩ := Nat.exists_eq_succ_of_ne_zero hv0
      rw [Encoding.u32, hk] at hv
      exact hno (hall k n rest hv hrest)
    · intro hread k n rest hn hrest
      by_contra hends
      have hlen : (UInt32.ofNat (k + 1)).toNat = k + 1 := UInt32.toNat_ofNat_of_lt' hn.2.2
      obtain ⟨hsize, hne, hno⟩ := h.mpr ⟨UInt32.ofNat (k + 1), n, rest,
        by rwa [Encoding.u32, hlen], hrest, by rw [hlen]; exact Nat.succ_ne_zero k, hends⟩
      exact hno (hread hsize hne)
  rw [hcount]
  by_cases hsize : (binReadU32Leb c).ok = true
  · simp only [binReadVec, hsize, if_true, forall_const]
    rcases hk : (binReadU32Leb c).value.toNat with _ | k
    · exact iff_of_true (hQ.returned _) fun h => absurd rfl h
    · simp only [binReadVecLoop, ne_eq, Nat.succ_ne_zero, not_false_eq_true, forall_const]
      rw [← hparse]
      refine hQ.bind fun fuel x hx => ?_
      rw [hok _ _ _ hx, if_neg Bool.false_ne_true]
      exact ⟨_, rfl⟩
  · simp only [binReadVec, if_neg hsize]
    exact iff_of_true (hQ.returned _) fun h => absurd h hsize

/-- A section of entries whose reader always returns. -/
theorem plainSection_ends {parse : BinReadCtx → Outcome (ReadResult α)}
    (h : ∀ c, ∃ r, parse c = .returned r) (f : List α → FieldValue) (zero : α) (c : BinReadCtx) :
    Q fun _ => ReadResult.map f <$> binReadVec zero parse c := by
  choose read hread using h
  obtain rfl : parse = fun c => .returned (read c) := funext hread
  obtain ⟨r, hr⟩ := binReadVec_returns zero read c
  rw [hr]
  exact hQ.returned (r.map f)

variable {Ends : List UInt8 → Prop}
  (hexpr : ∀ c, Q (fun fuel => binReadExpr fuel c) ↔ Ends c.rest)

include hexpr

/-- A head and then an expression: the reader ends exactly if the expression behind every head
there is does. -/
theorem thenExpr_ends_iff {E : Encoding α} {head : BinReadCtx → ReadResult α}
    (hreads : Reads E head) (haccepts : Accepts E head) (set : α → Expr → α) (c : BinReadCtx) :
    Q (fun fuel => thenExpr head set fuel c) ↔
      ∀ a bs rest, E a bs → c.rest = bs ++ rest → Ends rest := by
  have hhead : (∀ a bs rest, E a bs → c.rest = bs ++ rest → Ends rest) ↔
      ((head c).ok = true → Ends (head c).ctx.rest) := by
    have h := not_congr (ok_and_iff hreads haccepts c fun _ rest => ¬Ends rest)
    push Not at h
    exact h.symm
  rw [hhead]
  by_cases hok : (head c).ok = true
  · simp only [thenExpr, ReadResult.thenProc, hok, if_true, forall_const]
    rw [← hexpr]
    exact hQ.bind fun _ _ _ => ⟨_, rfl⟩
  · simp only [thenExpr, ReadResult.thenProc, if_neg hok]
    exact iff_of_true (hQ.returned _) fun h => absurd h hok

/-- A vector of entries with a head and an expression. -/
theorem binReadVec_thenExpr_ends_iff {E : Encoding α} {head : BinReadCtx → ReadResult α}
    (hreads : Reads E head) (haccepts : Accepts E head) (set : α → Expr → α) (zero : α)
    (c : BinReadCtx) :
    Q (fun fuel => binReadVec zero (thenExpr head set fuel) c) ↔
      ∀ rest, VecReaches E c.rest rest → Ends rest := by
  rw [binReadVec_ends_iff hQ (fun _ _ _ => thenExpr_ok)
    (fun bs => ∀ a b rest, E a b → bs = b ++ rest → Ends rest)
    (thenExpr_ends_iff hQ hexpr hreads haccepts set)]
  constructor
  · rintro h rest ⟨k, n, a, b, hn, ha, hrest⟩
    exact h k n _ hn hrest a b rest ha rfl
  · rintro h k n _ hn hrest a b rest ha rfl
    exact h rest ⟨k, n, a, b, hn, ha, hrest⟩

/-- The entries of element and of data segments. -/
theorem binReadVec_indexed_ends_iff (mk : UInt32 → α) (set : α → Expr → α) (zero : α)
    (c : BinReadCtx) :
    Q (fun fuel => binReadVec zero
        (thenExpr (fun c => (binReadU32Leb c).map mk) set fuel) c) ↔
      ∀ rest, VecReaches Encoding.u32 c.rest rest → Ends rest := by
  rw [binReadVec_thenExpr_ends_iff hQ hexpr (binReadU32Leb_reads.map mk)
    (binReadU32Leb_accepts.map mk)]
  refine forall_congr' fun rest => imp_congr_left ⟨?_, ?_⟩
  · rintro ⟨k, n, a, b, hn, ⟨x, hx, -⟩, hrest⟩
    exact ⟨k, n, x, b, hn, hx, hrest⟩
  · rintro ⟨k, n, x, b, hn, hx, hrest⟩
    exact ⟨k, n, mk x, b, hn, ⟨x, hx, rfl⟩, hrest⟩

/-- The reader of a section ends exactly if the expression it reaches does. -/
theorem binReadSection_ends_iff {kind : BinSectionKind} (hcode : kind ≠ .code) (c : BinReadCtx) :
    Q (fun fuel => binReadSection fuel c kind) ↔
      ∀ rest, ReachesExpr kind c.rest rest → Ends rest := by
  have hmap : ∀ {α : Type} (f : List α → FieldValue) (parse : ℕ → Outcome (ReadResult (List α))),
      Q (fun fuel => ReadResult.map f <$> parse fuel) ↔ Q parse :=
    fun _ _ => hQ.bind fun _ _ _ => ⟨_, rfl⟩
  cases kind with
  | custom => exact iff_of_true (hQ.returned _) fun _ h => h.elim
  | type =>
    exact iff_of_true (plainSection_ends hQ binReadFuncType_returns _ _ c) fun _ h => h.elim
  | «import» =>
    exact iff_of_true (plainSection_ends hQ (fun _ => ⟨_, rfl⟩) _ _ c) fun _ h => h.elim
  | function =>
    exact iff_of_true (plainSection_ends hQ (fun _ => ⟨_, rfl⟩) _ _ c) fun _ h => h.elim
  | table =>
    exact iff_of_true (plainSection_ends hQ (fun _ => ⟨_, rfl⟩) _ _ c) fun _ h => h.elim
  | memory =>
    exact iff_of_true (plainSection_ends hQ (fun _ => ⟨_, rfl⟩) _ _ c) fun _ h => h.elim
  | «export» =>
    exact iff_of_true (plainSection_ends hQ (fun _ => ⟨_, rfl⟩) _ _ c) fun _ h => h.elim
  | start => exact iff_of_true (hQ.returned _) fun _ h => h.elim
  | code => exact absurd rfl hcode
  | global =>
    exact (hmap _ _).trans
      (binReadVec_thenExpr_ends_iff hQ hexpr globalHead_reads globalHead_accepts _ _ c)
  | element =>
    refine (hmap _ _).trans ?_
    simp only [binReadElementSection, binReadElement_eq]
    exact binReadVec_indexed_ends_iff hQ hexpr _ _ _ c
  | data =>
    refine (hmap _ _).trans ?_
    simp only [binReadDataSection, binReadData_eq]
    exact binReadVec_indexed_ends_iff hQ hexpr _ _ _ c

/-- The reader of a body ends exactly if the expression behind its locals does. -/
theorem bodyResult_ends_iff (binCode : BinCode) :
    Q (fun fuel => bodyResult fuel binCode) ↔
      ∀ rest, BodyReaches binCode.data rest → Ends rest := by
  simp only [bodyResult, binReadCode_eq]
  rw [thenExpr_ends_iff hQ hexpr (codeHead_reads.map _) (codeHead_accepts.map _)]
  constructor
  · rintro h rest ⟨ls, hd, hls, hdata⟩
    exact h _ hd rest ⟨ls, hls, rfl⟩ hdata
  · rintro h _ hd rest ⟨ls, hls, rfl⟩ hdata
    exact h rest ⟨ls, hd, hls, hdata⟩

end Ends

end Wasim
