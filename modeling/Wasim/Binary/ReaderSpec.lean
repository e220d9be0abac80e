import Wasim.Binary.Encoding

/-!
# What the readers promise

Each reader is described once, and later proofs use the description and not the definition.

* `BinReadCtx.Advances c d`: from `c` to `d` a reader only moved forward inside the same data
  and only added diagnostics.
* `Reports c r`: the result `r` of a reader called at `c` advances the context, and it is
  `ok` exactly when no diagnostic was pushed.
* `Reads E r`: on a context that starts with an encoding of `a` the reader returns `a`, and
  stands right behind the encoding.
* `Accepts E r`: what the reader returns with `ok` was encoded in the bytes it consumed.
-/

namespace Wasim

variable {α β : Type}

/-! ### Contexts -/

namespace BinReadCtx

/-- A reader moves forward inside its data and adds diagnostics. -/
structure Advances (c d : BinReadCtx) : Prop where
  base : d.base = c.base
  data : d.data = c.data
  curr : c.curr ≤ d.curr
  bound : c.curr ≤ c.data.length → d.curr ≤ c.data.length
  diags : c.diags <+: d.diags

@[refl]
theorem Advances.refl (c : BinReadCtx) : c.Advances c :=
  ⟨rfl, rfl, le_rfl, id, List.prefix_refl _⟩

theorem Advances.trans {c d e : BinReadCtx} (h : c.Advances d) (k : d.Advances e) :
    c.Advances e where
  base := k.base.trans h.base
  data := k.data.trans h.data
  curr := h.curr.trans k.curr
  bound := fun hc => by
    have hd := h.bound hc
    rw [← h.data] at hd
    have he := k.bound hd
    rwa [h.data] at he
  diags := h.diags.trans k.diags

@[simp]
theorem advance_zero (c : BinReadCtx) : c.advance 0 = c := rfl

@[simp]
theorem advance_diags (c : BinReadCtx) (n : ℕ) : (c.advance n).diags = c.diags := rfl

@[simp]
theorem advance_advance (c : BinReadCtx) (m n : ℕ) :
    (c.advance m).advance n = c.advance (m + n) := by
  simp [advance, Nat.add_assoc]

@[simp]
theorem rest_advance (c : BinReadCtx) (n : ℕ) : (c.advance n).rest = c.rest.drop n := by
  simp [rest, advance, List.drop_drop]

@[simp]
theorem rest_binErrorf (c : BinReadCtx) (range : BinByteRange) (format : String)
    (args : List FmtArg) : (binErrorf c range format args).rest = c.rest := rfl

theorem length_rest (c : BinReadCtx) : c.rest.length = binReaderDataLeft c := by
  simp [rest, binReaderDataLeft]

theorem advances_advance (c : BinReadCtx) {n : ℕ} (h : n ≤ c.rest.length) :
    c.Advances (c.advance n) where
  base := rfl
  data := rfl
  curr := Nat.le_add_right _ _
  bound := fun hc => by
    rw [length_rest, binReaderDataLeft] at h
    change c.curr + n ≤ c.data.length
    omega
  diags := List.prefix_refl _

theorem advances_binErrorf (c : BinReadCtx) (range : BinByteRange) (format : String)
    (args : List FmtArg) : c.Advances (binErrorf c range format args) where
  base := rfl
  data := rfl
  curr := le_rfl
  bound := id
  diags := List.prefix_append _ _

/-- What is left after a reader is the end of what was left before. -/
theorem Advances.rest_eq {c d : BinReadCtx} (h : c.Advances d) :
    d.rest = c.rest.drop (d.curr - c.curr) := by
  have hc := h.curr
  rw [rest, rest, h.data, List.drop_drop]
  congr 1
  omega

theorem Advances.length_rest_le {c d : BinReadCtx} (h : c.Advances d) :
    d.rest.length ≤ c.rest.length := by
  rw [h.rest_eq, List.length_drop]
  omega

/-- No diagnostic was pushed between two steps exactly when none was in either. -/
theorem Advances.diags_eq_iff {c d e : BinReadCtx} (h : c.Advances d) (k : d.Advances e) :
    e.diags = c.diags ↔ d.diags = c.diags ∧ e.diags = d.diags := by
  constructor
  · intro he
    have hd : d.diags = c.diags :=
      (h.diags.eq_of_length_le (he ▸ k.diags.length_le)).symm
    exact ⟨hd, he.trans hd.symm⟩
  · rintro ⟨hd, he⟩
    exact he.trans hd

@[simp]
theorem binErrorf_diags_ne (c : BinReadCtx) (range : BinByteRange) (format : String)
    (args : List FmtArg) : (binErrorf c range format args).diags ≠ c.diags := by
  simp [binErrorf]

end BinReadCtx

open BinReadCtx

/-! ### The contract of a reader -/

/-- A reader called at `c` moved forward, and was `ok` exactly when it pushed no
diagnostic. -/
structure Reports (c : BinReadCtx) (r : ReadResult α) : Prop where
  advances : c.Advances r.ctx
  ok_iff : r.ok = true ↔ r.ctx.diags = c.diags

/-- A read that succeeded after `n` bytes. -/
theorem Reports.success {c : BinReadCtx} {a : α} {n : ℕ} (h : n ≤ c.rest.length) :
    Reports c ⟨a, true, c.advance n⟩ :=
  ⟨advances_advance c h, by simp⟩

/-- A read that failed with one diagnostic. -/
theorem Reports.failure {c : BinReadCtx} {a : α} {range : BinByteRange} {format : String}
    {args : List FmtArg} : Reports c ⟨a, false, binErrorf c range format args⟩ :=
  ⟨advances_binErrorf c _ _ _, by simp⟩

theorem Reports.map {c : BinReadCtx} {r : ReadResult α} (h : Reports c r) (f : α → β) :
    Reports c (r.map f) :=
  ⟨h.advances, h.ok_iff⟩

/-- A failed read whose value is replaced. -/
theorem Reports.fail {c : BinReadCtx} {r : ReadResult α} (h : Reports c r)
    (hok : r.ok = false) (b : β) : Reports c ⟨b, false, r.ctx⟩ :=
  ⟨h.advances, by simpa [hok] using h.ok_iff⟩

/-- A second read after a successful first one. -/
theorem Reports.seq {c : BinReadCtx} {r : ReadResult α} {s : ReadResult β} (hr : Reports c r)
    (hok : r.ok = true) (hs : Reports r.ctx s) : Reports c s := by
  refine ⟨hr.advances.trans hs.advances, ?_⟩
  rw [hr.advances.diags_eq_iff hs.advances, hs.ok_iff]
  exact ⟨fun h => ⟨hr.ok_iff.mp hok, h⟩, fun h => h.2⟩

theorem Reports.andThen {c : BinReadCtx} {r : ReadResult α}
    {f : α → BinReadCtx → ReadResult α} (hr : Reports c r)
    (hf : ∀ a d, Reports d (f a d)) : Reports c (r.andThen f) := by
  rw [ReadResult.andThen]
  split
  · rename_i hok
    exact hr.seq hok (hf _ _)
  · exact hr

/-! ### The primitive readers -/

theorem binReadBytes_reports (c : BinReadCtx) (count : ℕ) :
    Reports c (binReadBytes c count) := by
  unfold binReadBytes
  dsimp only
  split
  · rename_i h
    exact Reports.success (by rwa [length_rest])
  · exact Reports.failure

theorem binReadT_reports (c : BinReadCtx) (size : ℕ) : Reports c (binReadT c size) :=
  ⟨(binReadBytes_reports c size).advances, (binReadBytes_reports c size).ok_iff⟩

theorem binReadU32_reports (c : BinReadCtx) : Reports c (binReadU32 c) :=
  (binReadT_reports c 4).map _

theorem binReadU64_reports (c : BinReadCtx) : Reports c (binReadU64 c) :=
  (binReadT_reports c 8).map _

theorem binReadB8_reports (c : BinReadCtx) : Reports c (binReadB8 c) :=
  (binReadT_reports c 1).map _

theorem binReadByte_reports (c : BinReadCtx) : Reports c (binReadByte c) := by
  unfold binReadByte
  dsimp only
  split
  · rename_i h
    exact Reports.success (by rwa [length_rest])
  · exact Reports.failure

theorem binReadUXXLeb_reports (bits : ℕ) (tName : String) (c : BinReadCtx) :
    Reports c (binReadUXXLeb bits tName c) := by
  unfold binReadUXXLeb
  dsimp only
  split
  · rename_i value size hdec
    obtain ⟨cs, rest, hrest, -, rfl⟩ := Leb128.decodeUnsigned_sound hdec
    split
    · split
      · exact Reports.success (by rw [hrest, List.length_append]; omega)
      · exact Reports.failure
    · exact Reports.failure
  · exact Reports.failure
  · exact Reports.failure

theorem binReadIXXLeb_reports (bits : ℕ) (tName : String) (c : BinReadCtx) :
    Reports c (binReadIXXLeb bits tName c) := by
  unfold binReadIXXLeb
  dsimp only
  split
  · rename_i value size hdec
    obtain ⟨cs, rest, hrest, -, rfl⟩ := Leb128.decodeSigned_sound hdec
    split
    · split
      · exact Reports.success (by rw [hrest, List.length_append]; omega)
      · exact Reports.failure
    · exact Reports.failure
  · exact Reports.failure
  · exact Reports.failure

theorem binReadU32Leb_reports (c : BinReadCtx) : Reports c (binReadU32Leb c) :=
  (binReadUXXLeb_reports 32 "u32" c).map _

theorem binReadU64Leb_reports (c : BinReadCtx) : Reports c (binReadU64Leb c) :=
  (binReadUXXLeb_reports 64 "u64" c).map _

theorem binReadI32Leb_reports (c : BinReadCtx) : Reports c (binReadI32Leb c) :=
  binReadIXXLeb_reports 32 "i32" c

theorem binReadI64Leb_reports (c : BinReadCtx) : Reports c (binReadI64Leb c) :=
  binReadIXXLeb_reports 64 "i64" c

theorem binReadValidateEnum_reports {T : Type} (E : ByteEnum T) (tName : String)
    (c : BinReadCtx) (anchor : ℕ) (input : UInt8) :
    Reports c (binReadValidateEnum E tName c anchor input) := by
  unfold binReadValidateEnum
  split
  · exact Reports.success (n := 0) (Nat.zero_le _)
  · exact Reports.failure

theorem binReadByteAsEnum_reports {T : Type} (E : ByteEnum T) (tName : String)
    (c : BinReadCtx) : Reports c (binReadByteAsEnum E tName c) := by
  unfold binReadByteAsEnum
  dsimp only
  split
  · rename_i hok
    exact (binReadByte_reports c).seq hok (binReadValidateEnum_reports _ _ _ _ _)
  · rename_i hok
    exact (binReadByte_reports c).fail (by simpa using hok) _

/-! ### Entries without an expression -/

theorem binReadName_reports (c : BinReadCtx) : Reports c (binReadName c) := by
  unfold binReadName
  dsimp only
  split
  · rename_i hok
    exact (binReadU32Leb_reports c).seq hok (binReadBytes_reports _ _)
  · rename_i hok
    exact (binReadU32Leb_reports c).fail (by simpa using hok) _

theorem binReadLimits_reports (c : BinReadCtx) : Reports c (binReadLimits c) := by
  refine ((binReadByteAsEnum_reports _ _ c).map _).andThen fun limits d => ?_
  refine ((binReadU32Leb_reports d).map _).andThen fun limits d => ?_
  split
  · exact (binReadU32Leb_reports d).map _
  · exact Reports.success (n := 0) (Nat.zero_le _)

theorem binReadValueType_reports (c : BinReadCtx) : Reports c (binReadValueType c) :=
  binReadByteAsEnum_reports _ _ c

theorem binReadElementType_reports (c : BinReadCtx) : Reports c (binReadElementType c) := by
  have hb := binReadByte_reports c
  unfold binReadElementType
  dsimp only
  split
  · rename_i hok
    split
    · exact hb.seq hok (Reports.success (n := 0) (Nat.zero_le _))
    · exact hb.seq hok Reports.failure
  · rename_i hok
    exact hb.fail (by simpa using hok) _

theorem binReadTableType_reports (c : BinReadCtx) : Reports c (binReadTableType c) :=
  ((binReadElementType_reports c).map _).andThen fun _ d => (binReadLimits_reports d).map _

theorem binReadGlobalType_reports (c : BinReadCtx) : Reports c (binReadGlobalType c) :=
  ((binReadValueType_reports c).map _).andThen fun _ d => (binReadB8_reports d).map _

theorem binReadImportDesc_reports (kind : ExternalKind) (c : BinReadCtx) :
    Reports c (binReadImportDesc kind c) := by
  cases kind with
  | func => exact (binReadU32Leb_reports c).map _
  | table => exact (binReadTableType_reports c).map _
  | mem => exact (binReadLimits_reports c).map _
  | global => exact (binReadGlobalType_reports c).map _

theorem binReadImport_reports (c : BinReadCtx) : Reports c (binReadImport c) :=
  ((((binReadName_reports c).map _).andThen
    fun _ d => (binReadName_reports d).map _).andThen
    fun _ d => (binReadByteAsEnum_reports _ _ d).map _).andThen
    fun _ d => (binReadImportDesc_reports _ d).map _

theorem binReadExport_reports (c : BinReadCtx) : Reports c (binReadExport c) :=
  ((binReadName_reports c).map _).andThen fun _ d =>
    ((binReadByteAsEnum_reports _ _ d).map _).andThen fun _ d =>
      (binReadU32Leb_reports d).map _

theorem binReadCodeStructure_reports (c : BinReadCtx) :
    Reports c (binReadCodeStructure c) := by
  unfold binReadCodeStructure
  dsimp only
  split
  · rename_i hok
    exact (binReadU32Leb_reports c).seq hok ((binReadBytes_reports _ _).map _)
  · rename_i hok
    exact (binReadU32Leb_reports c).fail (by simpa using hok) _

theorem binReadLocal_reports (c : BinReadCtx) : Reports c (binReadLocal c) := by
  unfold binReadLocal
  dsimp only
  split
  · rename_i hok
    exact (binReadU32Leb_reports c).seq hok ((binReadValueType_reports _).map _)
  · rename_i hok
    exact (binReadU32Leb_reports c).fail (by simpa using hok) _

/-! ### Vectors -/

/-- The contract, for a reader that need not return. -/
def ReportsAll (parse : BinReadCtx → Outcome (ReadResult α)) : Prop :=
  ∀ c r, parse c = .returned r → Reports c r

theorem reportsAll_returned {f : BinReadCtx → ReadResult α} (h : ∀ c, Reports c (f c)) :
    ReportsAll fun c => .returned (f c) := by
  intro c r hr
  obtain rfl := Outcome.returned.inj hr
  exact h c

theorem binReadVecLoop_reports {zero : α} {parse : BinReadCtx → Outcome (ReadResult α)}
    (h : ReportsAll parse) (n : ℕ) : ReportsAll (binReadVecLoop zero parse n) := by
  induction n with
  | zero =>
    intro c r hr
    obtain rfl := Outcome.returned.inj hr
    exact Reports.success (n := 0) (Nat.zero_le _)
  | succ n ih =>
    intro c r hr
    rw [binReadVecLoop, Outcome.bind_eq_returned] at hr
    obtain ⟨entry, hentry, hr⟩ := hr
    have he := h c entry hentry
    split at hr
    · rename_i hok
      rw [Outcome.bind_eq_returned] at hr
      obtain ⟨more, hmore, hr⟩ := hr
      obtain rfl := Outcome.returned.inj hr
      exact he.seq hok ((ih _ _ hmore).map _)
    · rename_i hok
      obtain rfl := Outcome.returned.inj hr
      exact he.fail (by simpa using hok) _

theorem binReadVec_reports {zero : α} {parse : BinReadCtx → Outcome (ReadResult α)}
    (h : ReportsAll parse) : ReportsAll (binReadVec zero parse) := by
  intro c r hr
  have hs := binReadU32Leb_reports c
  unfold binReadVec at hr
  dsimp only at hr
  split at hr
  · rename_i hok
    exact hs.seq hok (binReadVecLoop_reports h _ _ _ hr)
  · rename_i hok
    obtain rfl := Outcome.returned.inj hr
    exact hs.fail (by simpa using hok) _

theorem binReadFuncType_reports : ReportsAll binReadFuncType := by
  intro c r hr
  have hvec : ReportsAll (binReadVec .unset fun c => .returned (binReadValueType c)) :=
    binReadVec_reports (reportsAll_returned binReadValueType_reports)
  have hb := binReadByte_reports c
  unfold binReadFuncType at hr
  dsimp only at hr
  split at hr
  · rename_i hok
    split at hr
    · rw [Outcome.bind_eq_returned] at hr
      obtain ⟨args, hargs, hr⟩ := hr
      have ha := hvec _ _ hargs
      split at hr
      · rename_i haok
        rw [Outcome.bind_eq_returned] at hr
        obtain ⟨rets, hrets, hr⟩ := hr
        obtain rfl := Outcome.returned.inj hr
        exact hb.seq hok (ha.seq haok ((hvec _ _ hrets).map _))
      · obtain rfl := Outcome.returned.inj hr
        exact hb.seq hok (ha.map _)
    · obtain rfl := Outcome.returned.inj hr
      exact hb.seq hok Reports.failure
  · rename_i hok
    obtain rfl := Outcome.returned.inj hr
    exact hb.fail (by simpa using hok) _

/-! ### Readers and encodings -/

/-- On a context that starts with an encoding of `a`, the reader returns `a` and stands right
behind the encoding. -/
def Reads (E : Encoding α) (read : BinReadCtx → ReadResult α) : Prop :=
  ∀ ⦃a b⦄, E a b → ∀ ⦃c r⦄, c.rest = b ++ r →
    read c = ⟨a, true, c.advance b.length⟩

/-- What the reader returns with `ok` was encoded in the bytes it consumed. -/
def Accepts (E : Encoding α) (read : BinReadCtx → ReadResult α) : Prop :=
  ∀ ⦃c⦄, (read c).ok = true → ∃ bs rest, c.rest = bs ++ rest ∧ E (read c).value bs ∧
    (read c).ctx = c.advance bs.length

/-- The context behind an encoding stands at what follows it. -/
theorem rest_advance_of_eq {c : BinReadCtx} {b r : List UInt8} (h : c.rest = b ++ r) :
    (c.advance b.length).rest = r := by
  rw [rest_advance, h, List.drop_left]

theorem rest_advance_one {c : BinReadCtx} {b : UInt8} {rest : List UInt8}
    (h : c.rest = b :: rest) : (c.advance 1).rest = rest :=
  rest_advance_of_eq (b := [b]) h

theorem binReadByte_cons {c : BinReadCtx} {b : UInt8} {rest : List UInt8}
    (h : c.rest = b :: rest) : binReadByte c = ⟨b, true, c.advance 1⟩ := by
  have hlen : 1 ≤ binReaderDataLeft c := by
    rw [← length_rest, h]
    simp
  have hget : c.data.getD c.curr 0 = b := by
    have hdrop : (c.data.drop c.curr)[0]? = c.data[c.curr + 0]? := List.getElem?_drop
    rw [show c.data.drop c.curr = b :: rest from h] at hdrop
    rw [List.getD_eq_getElem?_getD, ← Nat.add_zero c.curr, ← hdrop]
    rfl
  rw [binReadByte, if_pos hlen, hget]

theorem binReadByte_nil {c : BinReadCtx} (h : c.rest = []) :
    (binReadByte c).value = 0 ∧ (binReadByte c).ok = false ∧ (binReadByte c).ctx.rest = [] := by
  have hlen : ¬1 ≤ binReaderDataLeft c := by
    rw [← length_rest, h]
    simp
  rw [binReadByte, if_neg hlen]
  exact ⟨rfl, rfl, h⟩

theorem binReadByte_ok_iff {c : BinReadCtx} : (binReadByte c).ok = true ↔ c.rest ≠ [] := by
  rcases h : c.rest with _ | ⟨b, rest⟩
  · simp [binReadByte_nil h]
  · simp [binReadByte_cons h]

theorem binReadBytes_append {c : BinReadCtx} {bs rest : List UInt8} (h : c.rest = bs ++ rest) :
    binReadBytes c bs.length = ⟨bs, true, c.advance bs.length⟩ := by
  have hlen : bs.length ≤ binReaderDataLeft c := by
    rw [← length_rest, h]
    simp
  rw [binReadBytes, if_pos hlen, show c.data.drop c.curr = bs ++ rest from h, List.take_left]

theorem binReadBytes_accepts {c : BinReadCtx} {n : ℕ} (h : (binReadBytes c n).ok = true) :
    ∃ bs rest, c.rest = bs ++ rest ∧ bs.length = n ∧
      binReadBytes c n = ⟨bs, true, c.advance n⟩ := by
  unfold binReadBytes at h ⊢
  dsimp only at h ⊢
  split at h
  · rename_i hle
    rw [if_pos hle]
    rw [← length_rest] at hle
    exact ⟨c.rest.take n, c.rest.drop n, (List.take_append_drop _ _).symm,
      by rw [List.length_take]; omega, rfl⟩
  · cases h

theorem binReadUXXLeb_reads (bits : ℕ) (hbits : bits ≤ 64) (tName : String) :
    Reads (Encoding.unsigned bits) (binReadUXXLeb bits tName) := by
  rintro v bs ⟨hv, hlen, hlt⟩ c rest hrest
  have hdec := Leb128.decodeUnsigned_complete hv rest
    (show bs.length < Leb128.maxBytes by simp only [Leb128.maxBytes]; omega)
  unfold binReadUXXLeb
  dsimp only
  rw [hrest, hdec]
  dsimp only
  rw [if_pos (show bs.length ≤ lebMaxBytes bits from hlen), if_pos (by omega)]

theorem binReadUXXLeb_accepts (bits : ℕ) (tName : String) :
    Accepts (Encoding.unsigned bits) (binReadUXXLeb bits tName) := by
  intro c hok
  have hpos : 0 < 2 ^ bits := by positivity
  unfold binReadUXXLeb at hok ⊢
  dsimp only at hok ⊢
  split at hok
  · rename_i value size hdec
    obtain ⟨cs, rest, hrest, hcs, rfl⟩ := Leb128.decodeUnsigned_sound hdec
    split at hok
    · rename_i hsize
      split at hok
      · rename_i hle
        exact ⟨cs, rest, hrest, ⟨by simpa [hsize, hle] using hcs, hsize, by
          simp only [hsize, hle, if_true]; omega⟩, by simp [hsize, hle]⟩
      · cases hok
    · cases hok
  · cases hok
  · cases hok

theorem binReadIXXLeb_reads (bits : ℕ) (hbits : bits ≤ 64) (tName : String) :
    Reads (Encoding.signed bits) (binReadIXXLeb bits tName) := by
  rintro v bs ⟨hv, hlen, hmin, hmax⟩ c rest hrest
  have hdec := Leb128.decodeSigned_complete hv rest
    (show bs.length < Leb128.maxBytes by simp only [Leb128.maxBytes]; omega)
  unfold binReadIXXLeb
  dsimp only
  rw [hrest, hdec]
  dsimp only
  rw [if_pos (show bs.length ≤ lebMaxBytes bits from hlen), if_pos ⟨hmin, by omega⟩]

theorem binReadIXXLeb_accepts (bits : ℕ) (tName : String) :
    Accepts (Encoding.signed bits) (binReadIXXLeb bits tName) := by
  intro c hok
  unfold binReadIXXLeb at hok ⊢
  dsimp only at hok ⊢
  split at hok
  · rename_i value size hdec
    obtain ⟨cs, rest, hrest, hcs, rfl⟩ := Leb128.decodeSigned_sound hdec
    split at hok
    · rename_i hsize
      split at hok
      · rename_i hle
        have hlt : value < 2 ^ (bits - 1) := Int.lt_of_le_sub_one hle.2
        refine ⟨cs, rest, hrest, ?_, by simp [hsize, hle]⟩
        rw [if_pos hsize, if_pos hle]
        exact ⟨hcs, hsize, hle.1, hlt⟩
      · cases hok
    · cases hok
  · cases hok
  · cases hok

theorem binReadU32Leb_reads : Reads Encoding.u32 binReadU32Leb := by
  intro v bs hv c rest hrest
  rw [binReadU32Leb, binReadUXXLeb_reads 32 (by omega) "u32" hv hrest]
  simp [ReadResult.map]

theorem binReadU32Leb_accepts : Accepts Encoding.u32 binReadU32Leb := by
  intro c hok
  obtain ⟨bs, rest, hrest, hv, hctx⟩ := binReadUXXLeb_accepts 32 "u32" (c := c) hok
  refine ⟨bs, rest, hrest, ?_, hctx⟩
  have hval : ((binReadU32Leb c).value).toNat = (binReadUXXLeb 32 "u32" c).value :=
    UInt32.toNat_ofNat_of_lt' hv.2.2
  rwa [Encoding.u32, hval]

theorem binReadU32_reads : Reads (fun v bs => bs = le32 v) binReadU32 := by
  rintro v bs rfl c rest hrest
  have h := binReadBytes_append hrest
  rw [le32, LittleEndian.length_bytes] at h
  rw [binReadU32, binReadT, h]
  simp [ReadResult.map, le32]

theorem binReadU32_accepts : Accepts (fun v bs => bs = le32 v) binReadU32 := by
  intro c hok
  obtain ⟨bs, rest, hrest, hlen, hread⟩ :=
    binReadBytes_accepts (c := c) (n := 4) hok
  refine ⟨bs, rest, hrest, ?_, by rw [binReadU32, binReadT, hread, hlen]; rfl⟩
  have hlt := LittleEndian.value_lt bs
  rw [hlen] at hlt
  rw [binReadU32, binReadT, hread]
  simp only [ReadResult.map, if_true, le32]
  rw [UInt32.toNat_ofNat_of_lt' (by simpa using hlt), ← hlen, LittleEndian.bytes_value]

theorem binReadU64_reads : Reads (fun v bs => bs = le64 v) binReadU64 := by
  rintro v bs rfl c rest hrest
  have h := binReadBytes_append hrest
  rw [le64, LittleEndian.length_bytes] at h
  rw [binReadU64, binReadT, h]
  simp [ReadResult.map, le64]

theorem binReadU64_accepts : Accepts (fun v bs => bs = le64 v) binReadU64 := by
  intro c hok
  obtain ⟨bs, rest, hrest, hlen, hread⟩ :=
    binReadBytes_accepts (c := c) (n := 8) hok
  refine ⟨bs, rest, hrest, ?_, by rw [binReadU64, binReadT, hread, hlen]; rfl⟩
  have hlt := LittleEndian.value_lt bs
  rw [hlen] at hlt
  rw [binReadU64, binReadT, hread]
  simp only [ReadResult.map, if_true, le64]
  rw [UInt64.toNat_ofNat_of_lt' (by simpa using hlt), ← hlen, LittleEndian.bytes_value]

theorem binReadB8_reads : Reads (fun v bs => bs = [v]) binReadB8 := by
  rintro v bs rfl c rest hrest
  have h := binReadBytes_append hrest
  rw [binReadB8, binReadT, show 1 = [v].length from rfl, h]
  simp [ReadResult.map, LittleEndian.value]

theorem binReadB8_accepts : Accepts (fun v bs => bs = [v]) binReadB8 := by
  intro c hok
  obtain ⟨bs, rest, hrest, hlen, hread⟩ :=
    binReadBytes_accepts (c := c) (n := 1) hok
  obtain ⟨b, rfl⟩ := List.length_eq_one_iff.mp hlen
  refine ⟨[b], rest, hrest, ?_, by rw [binReadB8, binReadT, hread]; rfl⟩
  rw [binReadB8, binReadT, hread]
  simp [ReadResult.map, LittleEndian.value]

/-- The bytes that stand for a value type are exactly those of the enum's range. -/
theorem valueTypeEnum_toByte {t : ValueType} (h : t ≠ .unset) :
    valueTypeEnum.min ≤ t.toByte ∧ t.toByte ≤ valueTypeEnum.max ∧
      valueTypeEnum.ofByte t.toByte = t := by
  cases t <;> first | exact absurd rfl h | decide

theorem toByte_valueTypeEnum : ∀ b : UInt8, valueTypeEnum.min ≤ b ∧ b ≤ valueTypeEnum.max →
    (valueTypeEnum.ofByte b).toByte = b ∧ valueTypeEnum.ofByte b ≠ .unset :=
  forall_byte (by decide +kernel)

theorem binReadValueType_reads : Reads Encoding.valueType binReadValueType := by
  rintro t bs ⟨ht, rfl⟩ c rest hrest
  obtain ⟨hmin, hmax, hof⟩ := valueTypeEnum_toByte ht
  rw [binReadValueType, binReadByteAsEnum, binReadByte_cons hrest]
  simp only [if_true, binReadValidateEnum, if_pos (And.intro hmin hmax), hof,
    List.length_singleton]

theorem binReadValueType_accepts : Accepts Encoding.valueType binReadValueType := by
  intro c hok
  rcases h : c.rest with _ | ⟨b, rest⟩
  · rw [binReadValueType, binReadByteAsEnum] at hok
    simp [binReadByte_nil h] at hok
  · rw [binReadValueType, binReadByteAsEnum, binReadByte_cons h] at hok ⊢
    simp only [if_true, binReadValidateEnum] at hok ⊢
    split at hok
    · rename_i hb
      obtain ⟨hto, hne⟩ := toByte_valueTypeEnum b hb
      exact ⟨[b], rest, rfl, by rw [if_pos hb]; exact ⟨hne, by rw [hto]⟩, by rw [if_pos hb]; rfl⟩
    · cases hok

/-- `Reads`, for a reader that need not return. -/
def ReadsProc (E : Encoding α) (read : BinReadCtx → Outcome (ReadResult α)) : Prop :=
  ∀ ⦃a b⦄, E a b → ∀ ⦃c r⦄, c.rest = b ++ r →
    read c = .returned ⟨a, true, c.advance b.length⟩

/-- `Accepts`, for a reader that need not return. -/
def AcceptsProc (E : Encoding α) (read : BinReadCtx → Outcome (ReadResult α)) : Prop :=
  ∀ ⦃c r⦄, read c = .returned r → r.ok = true → ∃ bs rest, c.rest = bs ++ rest ∧
    E r.value bs ∧ r.ctx = c.advance bs.length

theorem Reads.proc {E : Encoding α} {read : BinReadCtx → ReadResult α} (h : Reads E read) :
    ReadsProc E fun c => .returned (read c) :=
  fun _ _ ha _ _ hc => congrArg Outcome.returned (h ha hc)

theorem Accepts.proc {E : Encoding α} {read : BinReadCtx → ReadResult α} (h : Accepts E read) :
    AcceptsProc E fun c => .returned (read c) := by
  intro c r hr hok
  obtain rfl := Outcome.returned.inj hr
  exact h hok

theorem binReadVecLoop_reads {E : Encoding α} {zero : α}
    {parse : BinReadCtx → Outcome (ReadResult α)} (h : ReadsProc E parse) {as : List α}
    {es : List UInt8} (has : Encoding.All E as es) {c : BinReadCtx} {rest : List UInt8}
    (hc : c.rest = es ++ rest) :
    binReadVecLoop zero parse as.length c = .returned ⟨as, true, c.advance es.length⟩ := by
  induction has generalizing c with
  | nil => rfl
  | @cons a as b bs ha _ ih =>
    rw [List.append_assoc] at hc
    rw [List.length_cons, binReadVecLoop, h ha hc, Outcome.returned_bind]
    dsimp only
    rw [if_pos rfl, ih (rest_advance_of_eq hc)]
    simp [ReadResult.map]

theorem binReadVec_reads {E : Encoding α} (zero : α)
    {parse : BinReadCtx → Outcome (ReadResult α)} (h : ReadsProc E parse) :
    ReadsProc (Encoding.vec E) (binReadVec zero parse) := by
  rintro as bs ⟨n, es, hn, hes, rfl⟩ c rest hc
  rw [List.append_assoc] at hc
  have hsize : binReadU32Leb c = ⟨UInt32.ofNat as.length, true, c.advance n.length⟩ := by
    rw [binReadU32Leb, binReadUXXLeb_reads 32 (by omega) "u32" hn hc]
    rfl
  have hlen : (UInt32.ofNat as.length).toNat = as.length := UInt32.toNat_ofNat_of_lt' hn.2.2
  rw [binReadVec, hsize]
  dsimp only
  rw [if_pos rfl, hlen, binReadVecLoop_reads h hes (rest_advance_of_eq hc)]
  simp

theorem binReadVecLoop_accepts {E : Encoding α} {zero : α}
    {parse : BinReadCtx → Outcome (ReadResult α)} (h : AcceptsProc E parse) (n : ℕ)
    {c : BinReadCtx} {r : ReadResult (List α)}
    (hr : binReadVecLoop zero parse n c = .returned r) (hok : r.ok = true) :
    ∃ es rest, c.rest = es ++ rest ∧ r.value.length = n ∧ Encoding.All E r.value es ∧
      r.ctx = c.advance es.length := by
  induction n generalizing c r with
  | zero =>
    obtain rfl := Outcome.returned.inj hr
    exact ⟨[], c.rest, rfl, rfl, .nil, rfl⟩
  | succ n ih =>
    rw [binReadVecLoop, Outcome.bind_eq_returned] at hr
    obtain ⟨entry, hentry, hr⟩ := hr
    split at hr
    · rename_i heok
      rw [Outcome.bind_eq_returned] at hr
      obtain ⟨more, hmore, hr⟩ := hr
      obtain rfl := Outcome.returned.inj hr
      obtain ⟨b, rest, hrest, hb, hctx⟩ := h hentry heok
      obtain ⟨es, rest', hrest', hlen, hes, hctx'⟩ := ih hmore hok
      rw [hctx, rest_advance_of_eq hrest] at hrest'
      refine ⟨b ++ es, rest', by rw [hrest, hrest', List.append_assoc], by simp [hlen],
        .cons hb hes, ?_⟩
      rw [ReadResult.map_ctx, hctx', hctx, advance_advance, List.length_append]
    · obtain rfl := Outcome.returned.inj hr
      cases hok

theorem binReadVec_accepts {E : Encoding α} {zero : α}
    {parse : BinReadCtx → Outcome (ReadResult α)} (h : AcceptsProc E parse) :
    AcceptsProc (Encoding.vec E) (binReadVec zero parse) := by
  intro c r hr hok
  unfold binReadVec at hr
  dsimp only at hr
  split at hr
  · rename_i hsok
    obtain ⟨n, rest, hrest, hn, hctx⟩ := binReadU32Leb_accepts hsok
    obtain ⟨es, rest', hrest', hlen, hes, hctx'⟩ := binReadVecLoop_accepts h _ hr hok
    rw [hctx, rest_advance_of_eq hrest] at hrest'
    refine ⟨n ++ es, rest', by rw [hrest, hrest', List.append_assoc],
      ⟨n, es, by rw [hlen]; exact hn, hes, rfl⟩, ?_⟩
    rw [hctx', hctx, advance_advance, List.length_append]
  · obtain rfl := Outcome.returned.inj hr
    cases hok

/-- A vector whose entries are read by a reader that always returns is always returned. -/
theorem binReadVec_returns (zero : α) (read : BinReadCtx → ReadResult α) (c : BinReadCtx) :
    ∃ r, binReadVec zero (fun c => .returned (read c)) c = .returned r := by
  have hloop : ∀ n c, ∃ r, binReadVecLoop zero (fun c => .returned (read c)) n c = .returned r := by
    intro n
    induction n with
    | zero => exact fun c => ⟨_, rfl⟩
    | succ n ih =>
      intro c
      rw [binReadVecLoop, Outcome.returned_bind]
      split
      · obtain ⟨r, hr⟩ := ih (read c).ctx
        exact ⟨_, by rw [hr]; rfl⟩
      · exact ⟨_, rfl⟩
  unfold binReadVec
  dsimp only
  split
  · exact hloop _ _
  · exact ⟨_, rfl⟩

end Wasim
