import Wasim.Binary.Scan
import Wasim.Binary.PlainSections
import Wasim.Binary.RoundTrip

/-!
# What a quiet reader takes

A reader that pushes no diagnostic has decoded the bytes it went over, whether it returned
`ok` or not (`Takes`). Together with the other direction, that it returns the value on every
encoding, this says on which payloads a section reader reaches the last byte: exactly on the
encodings of a content (`FieldValue.Fills`).

The encodings are those of the format, with two differences that the readers make. The
mutability of an imported global is any byte. And of the globals, the element segments and the
data segments only the count and the first entry up to the end of its expression are taken.
-/

namespace Wasim

open BinReadCtx

variable {α β : Type}

/-! ### Bytes that were taken -/

/-- From `c` to `d` the bytes `bs` were taken. -/
def Took (c : BinReadCtx) (bs : List UInt8) (d : BinReadCtx) : Prop :=
  (∃ rest, c.rest = bs ++ rest) ∧ d = c.advance bs.length

theorem Took.trans {c d e : BinReadCtx} {as bs : List UInt8} (h : Took c as d)
    (k : Took d bs e) : Took c (as ++ bs) e := by
  obtain ⟨⟨rest, hrest⟩, rfl⟩ := h
  obtain ⟨⟨rest', hrest'⟩, rfl⟩ := k
  rw [rest_advance_of_eq hrest] at hrest'
  refine ⟨⟨rest', by rw [hrest, hrest', List.append_assoc]⟩, ?_⟩
  rw [advance_advance, List.length_append]

theorem Accepts.took {E : Encoding α} {read : BinReadCtx → ReadResult α} (h : Accepts E read)
    {c : BinReadCtx} (hok : (read c).ok = true) :
    ∃ bs, Took c bs (read c).ctx ∧ E (read c).value bs := by
  obtain ⟨bs, rest, hrest, he, hctx⟩ := h hok
  exact ⟨bs, ⟨⟨rest, hrest⟩, hctx⟩, he⟩

theorem Took.accepts {E : Encoding α} {read : BinReadCtx → ReadResult α}
    (h : ∀ c, (read c).ok = true → ∃ bs, Took c bs (read c).ctx ∧ E (read c).value bs) :
    Accepts E read := by
  intro c hok
  obtain ⟨bs, ⟨⟨rest, hrest⟩, hctx⟩, he⟩ := h c hok
  exact ⟨bs, rest, hrest, he, hctx⟩

theorem ReadResult.andThen_of_ok {r : ReadResult α} (h : r.ok = true)
    (f : α → BinReadCtx → ReadResult α) : r.andThen f = f r.value r.ctx := if_pos h

/-! ### Entries without an expression -/

theorem binReadByteAsEnum_took {T : Type} {E : ByteEnum T} {tName : String} {c : BinReadCtx}
    (h : (binReadByteAsEnum E tName c).ok = true) :
    ∃ b, E.min ≤ b ∧ b ≤ E.max ∧ Took c [b] (binReadByteAsEnum E tName c).ctx ∧
      (binReadByteAsEnum E tName c).value = E.ofByte b := by
  rcases hrest : c.rest with _ | ⟨b, rest⟩
  · rw [binReadByteAsEnum] at h
    simp [binReadByte_nil hrest] at h
  · by_cases hb : E.min ≤ b ∧ b ≤ E.max
    · rw [binReadByteAsEnum_cons hb.1 hb.2 tName hrest]
      exact ⟨b, hb.1, hb.2, ⟨⟨rest, hrest⟩, rfl⟩, rfl⟩
    · rw [binReadByteAsEnum, binReadByte_cons hrest] at h
      simp only [if_true, binReadValidateEnum, if_neg hb] at h
      cases h

theorem binReadName_accepts : Accepts Encoding.name binReadName := by
  refine Took.accepts fun c hok => ?_
  simp only [binReadName] at hok ⊢
  by_cases hsize : (binReadU32Leb c).ok = true
  · rw [if_pos hsize] at hok ⊢
    obtain ⟨n, htook, hn⟩ := binReadU32Leb_accepts.took hsize
    obtain ⟨s, rest, hrest, hlen, hread⟩ := binReadBytes_accepts hok
    rw [hread]
    have htook' : Took (binReadU32Leb c).ctx s ((binReadU32Leb c).ctx.advance s.length) :=
      ⟨⟨rest, hrest⟩, rfl⟩
    rw [hlen] at htook'
    refine ⟨n ++ s, htook.trans htook', n, ?_, rfl⟩
    rw [hlen]
    exact hn
  · rw [if_neg hsize] at hok
    cases hok

/-- The bytes of the two kinds of limits. -/
theorem limitsKindEnum_ofByte : ∀ b : UInt8, limitsKindEnum.min ≤ b ∧ b ≤ limitsKindEnum.max →
    b = 0x00 ∧ limitsKindEnum.ofByte b = .unlimited ∨
      b = 0x01 ∧ limitsKindEnum.ofByte b = .limited := by
  rintro b ⟨-, hmax⟩
  have hmax : b ≤ 0x01 := hmax
  obtain rfl | hne := eq_or_ne b 0x00
  · exact .inl ⟨rfl, rfl⟩
  · exact .inr ⟨by grind, if_neg hne⟩

theorem binReadLimits_accepts : Accepts Encoding.limits binReadLimits := by
  refine Took.accepts fun c hok => ?_
  rw [binReadLimits, ReadResult.andThen_ok, ReadResult.andThen_ok] at hok
  obtain ⟨hkind, hmin, hmax⟩ := hok
  obtain ⟨b, hlo, hhi, htook, hvalue⟩ :=
    binReadByteAsEnum_took ((ReadResult.map_ok _ _).symm.trans hkind)
  obtain ⟨m, htook', hm⟩ := binReadU32Leb_accepts.took ((ReadResult.map_ok _ _).symm.trans hmin)
  rw [binReadLimits, ReadResult.andThen_of_ok hkind, ReadResult.andThen_of_ok hmin]
  simp only [ReadResult.map_value, ReadResult.map_ctx, hvalue] at hmax htook' hm ⊢
  rcases limitsKindEnum_ofByte b ⟨hlo, hhi⟩ with ⟨rfl, hof⟩ | ⟨rfl, hof⟩
  · rw [hof, if_neg (by decide)]
    exact ⟨_, htook.trans htook', .unlimited hm⟩
  · rw [hof, if_pos rfl] at hmax ⊢
    obtain ⟨n, htook'', hn⟩ := binReadU32Leb_accepts.took hmax
    exact ⟨0x01 :: (m ++ n), htook.trans (htook'.trans htook''), .limited hm hn⟩

theorem binReadElementType_took {c : BinReadCtx} (h : (binReadElementType c).ok = true) :
    Took c [0x70] (binReadElementType c).ctx ∧ (binReadElementType c).value = .funcRef := by
  rcases hrest : c.rest with _ | ⟨b, rest⟩
  · rw [binReadElementType] at h
    simp [binReadByte_nil hrest] at h
  · rw [binReadElementType, binReadByte_cons hrest] at h ⊢
    by_cases hb : b = 0x70
    · subst hb
      exact ⟨⟨⟨rest, hrest⟩, rfl⟩, rfl⟩
    · simp only [if_true, if_neg hb] at h
      cases h

theorem binReadTableType_accepts : Accepts Encoding.tableType binReadTableType := by
  refine Took.accepts fun c hok => ?_
  rw [binReadTableType, ReadResult.andThen_ok] at hok
  obtain ⟨htype, hlimits⟩ := hok
  obtain ⟨htook, hvalue⟩ := binReadElementType_took htype
  obtain ⟨bs, htook', hl⟩ := binReadLimits_accepts.took hlimits
  rw [binReadTableType, ReadResult.andThen_of_ok htype]
  simp only [ReadResult.map_value, ReadResult.map_ctx, hvalue] at htook' ⊢
  exact ⟨_, htook.trans htook', .funcRef hl⟩

namespace Encoding

/-- A global type with any byte for its mutability. -/
def anyGlobalType : Encoding GlobalType := fun g bs =>
  ∃ t, valueType g.type t ∧ bs = t ++ [g.mutable]

/-- What is imported, as it is read. -/
def readableDesc (kind : ExternalKind) : Encoding ImportDesc := fun desc bs =>
  importDesc kind desc bs ∨
    ∃ g t, kind = .global ∧ desc = .globalType g ∧ anyGlobalType g t ∧ bs = 0x03 :: t

def readableImport : Encoding Import := fun i bs =>
  ∃ m n d, name i.module m ∧ name i.name n ∧ readableDesc i.kind i.desc d ∧ bs = m ++ (n ++ d)

end Encoding

theorem binReadGlobalType_reads_any : Reads Encoding.anyGlobalType binReadGlobalType := by
  rintro ⟨m, t⟩ bs ⟨ts, ht, rfl⟩ c rest hrest
  rw [List.append_assoc] at hrest
  have htype := binReadValueType_reads ht hrest
  have hmutable := binReadB8_reads (a := m) rfl (rest_advance_of_eq hrest)
  rw [binReadGlobalType, htype]
  simp [ReadResult.andThen, ReadResult.map, hmutable]

theorem binReadGlobalType_accepts : Accepts Encoding.anyGlobalType binReadGlobalType := by
  refine Took.accepts fun c hok => ?_
  rw [binReadGlobalType, ReadResult.andThen_ok] at hok
  obtain ⟨htype, hmutable⟩ := hok
  obtain ⟨t, htook, ht⟩ := binReadValueType_accepts.took htype
  obtain ⟨m, htook', rfl⟩ := binReadB8_accepts.took hmutable
  rw [binReadGlobalType, ReadResult.andThen_of_ok htype]
  exact ⟨_, htook.trans htook', t, ht, rfl⟩

theorem externalKindByte_ofByte : ∀ b : UInt8, externalKindEnum.min ≤ b ∧
    b ≤ externalKindEnum.max → Encoding.externalKindByte (externalKindEnum.ofByte b) = b := by
  rintro b ⟨-, hmax⟩
  have hmax : b ≤ 0x03 := hmax
  have hb : b = 0x00 ∨ b = 0x01 ∨ b = 0x02 ∨ b = 0x03 := by grind
  obtain rfl | rfl | rfl | rfl := hb
  all_goals decide

/-- The kind of an import or an export. -/
theorem binReadExternalKind_took {c : BinReadCtx}
    (h : (binReadByteAsEnum externalKindEnum "external kind" c).ok = true) :
    Took c [Encoding.externalKindByte (binReadByteAsEnum externalKindEnum "external kind" c).value]
      (binReadByteAsEnum externalKindEnum "external kind" c).ctx := by
  obtain ⟨b, hmin, hmax, htook, hvalue⟩ := binReadByteAsEnum_took h
  rw [hvalue, externalKindByte_ofByte b ⟨hmin, hmax⟩]
  exact htook

/-- What is imported, behind the byte for its kind. -/
theorem binReadImportDesc_took {kind : ExternalKind} {c : BinReadCtx}
    (h : (binReadImportDesc kind c).ok = true) :
    ∃ bs, Took c bs (binReadImportDesc kind c).ctx ∧
      Encoding.readableDesc kind (binReadImportDesc kind c).value
        (Encoding.externalKindByte kind :: bs) := by
  rcases kind with _ | _ | _ | _
  · obtain ⟨bs, htook, hx⟩ := binReadU32Leb_accepts.took h
    exact ⟨bs, htook, Or.inl (.func hx)⟩
  · obtain ⟨bs, htook, ht⟩ := binReadTableType_accepts.took h
    exact ⟨bs, htook, Or.inl (.table ht)⟩
  · obtain ⟨bs, htook, hl⟩ := binReadLimits_accepts.took h
    exact ⟨bs, htook, Or.inl (.mem hl)⟩
  · obtain ⟨bs, htook, hg⟩ := binReadGlobalType_accepts.took h
    exact ⟨bs, htook, Or.inr ⟨_, bs, rfl, rfl, hg, rfl⟩⟩

theorem readableDesc_reads {kind : ExternalKind} {desc : ImportDesc} {bs rest : List UInt8}
    {c : BinReadCtx} (h : Encoding.readableDesc kind desc bs) (hrest : c.rest = bs ++ rest) :
    binReadByteAsEnum externalKindEnum "external kind" c = ⟨kind, true, c.advance 1⟩ ∧
      binReadImportDesc kind (c.advance 1) = ⟨desc, true, c.advance bs.length⟩ := by
  rcases h with h | ⟨g, t, rfl, rfl, hg, rfl⟩
  · exact binReadImportDesc_reads h hrest
  · refine ⟨binReadByteAsEnum_cons (by decide) (by decide) _ hrest, ?_⟩
    rw [binReadImportDesc, binReadGlobalType_reads_any hg (rest_advance_one hrest)]
    simp [ReadResult.map, Nat.add_comm]

theorem binReadImport_reads_any : Reads Encoding.readableImport binReadImport := by
  rintro ⟨kind, module, name, desc⟩ bs ⟨m, n, d, hm, hn, hd, rfl⟩ c rest hrest
  rw [List.append_assoc, List.append_assoc] at hrest
  have hmodule := binReadName_reads hm hrest
  have hname := binReadName_reads hn (rest_advance_of_eq hrest)
  obtain ⟨hkind, hdesc⟩ :=
    readableDesc_reads hd (rest_advance_of_eq (rest_advance_of_eq hrest))
  simp only [binReadImport, ReadResult.andThen, ReadResult.map, if_true, hmodule, hname, hkind,
    hdesc]
  simp [Nat.add_assoc]

theorem binReadImport_accepts : Accepts Encoding.readableImport binReadImport := by
  refine Took.accepts fun c hok => ?_
  have hok' := hok
  rw [binReadImport, ReadResult.andThen_ok] at hok'
  obtain ⟨hfields, hdesc⟩ := hok'
  have hfields' := hfields
  rw [ReadResult.andThen_ok] at hfields'
  obtain ⟨hnames, hkind⟩ := hfields'
  have hnames' := hnames
  rw [ReadResult.andThen_ok] at hnames'
  obtain ⟨hmodule, hname⟩ := hnames'
  rw [binReadImport, ReadResult.andThen_of_ok hfields]
  rw [ReadResult.andThen_of_ok hnames] at hdesc ⊢
  rw [ReadResult.andThen_of_ok hmodule] at hkind hdesc ⊢
  obtain ⟨m, htook, hm⟩ := binReadName_accepts.took hmodule
  obtain ⟨n, htook', hn⟩ := binReadName_accepts.took hname
  obtain ⟨d, htook₃, hd⟩ := binReadImportDesc_took hdesc
  have htook₂ := binReadExternalKind_took hkind
  exact ⟨_, htook.trans (htook'.trans (htook₂.trans htook₃)), m, n, _, hm, hn, hd, rfl⟩

theorem binReadExport_accepts : Accepts Encoding.export_ binReadExport := by
  refine Took.accepts fun c hok => ?_
  rw [binReadExport, ReadResult.andThen_ok, ReadResult.andThen_ok] at hok
  obtain ⟨hname, hkind, hindex⟩ := hok
  rw [binReadExport, ReadResult.andThen_of_ok hname, ReadResult.andThen_of_ok hkind]
  obtain ⟨n, htook, hn⟩ := binReadName_accepts.took hname
  have htook' := binReadExternalKind_took hkind
  obtain ⟨x, htook'', hx⟩ := binReadU32Leb_accepts.took hindex
  exact ⟨_, htook.trans (htook'.trans htook''), n, x, hn, hx, rfl⟩

theorem AcceptsProc.took {E : Encoding α} {read : BinReadCtx → Outcome (ReadResult α)}
    (h : AcceptsProc E read) {c : BinReadCtx} {r : ReadResult α} (hr : read c = .returned r)
    (hok : r.ok = true) : ∃ bs, Took c bs r.ctx ∧ E r.value bs := by
  obtain ⟨bs, rest, hrest, he, hctx⟩ := h hr hok
  exact ⟨bs, ⟨⟨rest, hrest⟩, hctx⟩, he⟩

theorem binReadFuncType_accepts : AcceptsProc Encoding.funcType binReadFuncType := by
  intro c r hr hok
  have hvec : AcceptsProc (Encoding.vec Encoding.valueType)
      (binReadVec .unset fun c => .returned (binReadValueType c)) :=
    binReadVec_accepts binReadValueType_accepts.proc
  rcases hrest : c.rest with _ | ⟨b, rest⟩
  · simp only [binReadFuncType, binReadByte_nil hrest] at hr
    obtain rfl := Outcome.returned.inj hr
    cases hok
  · simp only [binReadFuncType, binReadByte_cons hrest, if_true] at hr
    split at hr
    · rename_i hb
      obtain ⟨args, hargs, hr⟩ := Outcome.bind_eq_returned.mp hr
      split at hr
      · rename_i haok
        obtain ⟨rets, hrets, hr⟩ := Outcome.bind_eq_returned.mp hr
        obtain rfl := Outcome.returned.inj hr
        obtain ⟨as, htook, ha⟩ := hvec.took hargs haok
        obtain ⟨rs, htook', hrs⟩ := hvec.took hrets hok
        have hbyte : Took c [b] (c.advance 1) := ⟨⟨rest, hrest⟩, rfl⟩
        obtain ⟨⟨rest', hrest'⟩, hctx⟩ := hbyte.trans (htook.trans htook')
        rw [hb] at hrest' hctx
        exact ⟨_, rest', hrest.symm.trans hrest', ⟨as, rs, ha, hrs, rfl⟩, hctx⟩
      · rename_i haok
        obtain rfl := Outcome.returned.inj hr
        exact absurd hok haok
    · obtain rfl := Outcome.returned.inj hr
      cases hok

/-! ### Quiet readers -/

/-- A reader that pushes nothing has taken an encoding of its value, and on an encoding it
returns the value and takes the encoding. Its `ok` is left open. -/
structure Takes (E : Encoding α) (parse : ℕ → BinReadCtx → Outcome (ReadResult α)) : Prop where
  took : ∀ ⦃fuel c r⦄, parse fuel c = .returned r → r.ctx.diags = c.diags →
    ∃ bs, Took c bs r.ctx ∧ E r.value bs
  returns : ∀ ⦃a bs c rest⦄, E a bs → c.rest = bs ++ rest →
    ∃ ok, Outcome.Returns (fun fuel => parse fuel c) ⟨a, ok, c.advance bs.length⟩
  stable : ∀ c, Outcome.Stable fun fuel => parse fuel c

/-- A reader whose `ok` agrees with its diagnostics. -/
theorem Takes.of_reports {E : Encoding α} {parse : BinReadCtx → Outcome (ReadResult α)}
    (hreports : ReportsAll parse) (haccepts : AcceptsProc E parse) (hreads : ReadsProc E parse) :
    Takes E fun _ => parse where
  took _ c r hr hq := haccepts.took hr ((hreports c r hr).ok_iff.mpr hq)
  returns _ _ _ _ ha hrest := ⟨true, 0, hreads ha hrest⟩
  stable _ _ := Outcome.le_refl _

/-- A quiet reader that starts at the beginning of its data reaches the end of them with the
value `a` exactly when the data encode `a`. -/
theorem Takes.whole_iff {E : Encoding α} {parse : ℕ → BinReadCtx → Outcome (ReadResult α)}
    (h : Takes E parse) {fuel base : ℕ} {data : List UInt8} {r : ReadResult α}
    (hr : parse fuel { base := base, data := data } = .returned r) (hq : r.ctx.diags = []) (a : α) :
    E a data ↔ r.value = a ∧ r.ctx.curr = data.length := by
  constructor
  · intro ha
    have hrest : BinReadCtx.rest { base := base, data := data } = data ++ [] := by
      simp [BinReadCtx.rest]
    obtain ⟨ok, hreturns⟩ := h.returns ha hrest
    obtain rfl := Outcome.Returns.unique (h.stable _) ⟨fuel, hr⟩ hreturns
    exact ⟨rfl, by simp [BinReadCtx.advance]⟩
  · rintro ⟨rfl, hcurr⟩
    obtain ⟨bs, ⟨⟨rest, hrest⟩, hctx⟩, hbs⟩ := h.took hr hq
    have hdata : data = bs ++ rest := hrest
    rw [hctx, hdata] at hcurr
    have hlen : rest.length = 0 := by
      simpa [BinReadCtx.advance] using hcurr
    rw [hdata, List.length_eq_zero_iff.mp hlen, List.append_nil]
    exact hbs

namespace Encoding

/-- The values `f a`, encoded as `a`. -/
def image (f : α → β) (E : Encoding α) : Encoding β := fun b bs => ∃ a, E a bs ∧ b = f a

/-- A head, and an expression that is stored in it. -/
def headExpr (E : Encoding α) (set : α → Expr → α) : Encoding α := fun a bs =>
  ∃ h is hb e, E h hb ∧ expr is e ∧ a = set h (Expr.ofInstrs is) ∧ bs = hb ++ e

/-- The number of entries, and of the entries the first. The others are zero. -/
def firstEntry (zero : α) (E : Encoding α) : Encoding (List α) := fun as bs =>
  ∃ n, unsigned 32 as.length n ∧ (as = [] ∧ bs = n ∨
    ∃ a k b, as = a :: List.replicate k zero ∧ E a b ∧ bs = n ++ b)

end Encoding

theorem Takes.map {E : Encoding α} {parse : ℕ → BinReadCtx → Outcome (ReadResult α)}
    (h : Takes E parse) (f : α → β) :
    Takes (E.image f) fun fuel c => ReadResult.map f <$> parse fuel c where
  took fuel c r hr hq := by
    obtain ⟨x, hx, hr⟩ := Outcome.bind_eq_returned.mp hr
    obtain rfl := Outcome.returned.inj hr
    obtain ⟨bs, htook, he⟩ := h.took hx hq
    exact ⟨bs, htook, x.value, he, rfl⟩
  returns b bs c rest hb hrest := by
    obtain ⟨a, ha, rfl⟩ := hb
    obtain ⟨ok, fuel, hfuel⟩ := h.returns ha hrest
    refine ⟨ok, fuel, ?_⟩
    dsimp only at hfuel ⊢
    rw [hfuel]
    rfl
  stable c fuel := Outcome.bind_le_bind (h.stable c fuel) fun _ => Outcome.le_refl _

theorem takes_expr :
    Takes (Encoding.expr.image Expr.ofInstrs) binReadExpr where
  took fuel c r hr hq := by
    obtain ⟨is, e, rest, he, hrest⟩ := (binReadExpr_quiet_iff hr).mp hq
    obtain rfl := Outcome.Returns.unique (binReadExpr_stable c) ⟨fuel, hr⟩
      (binReadExpr_encodes he hrest)
    exact ⟨e, ⟨⟨rest, hrest⟩, rfl⟩, is, he, rfl⟩
  returns x bs c rest hx hrest := by
    obtain ⟨is, he, rfl⟩ := hx
    exact ⟨false, binReadExpr_encodes he hrest⟩
  stable := binReadExpr_stable

/-- A head and then an expression. -/
def thenExpr (head : BinReadCtx → ReadResult α) (set : α → Expr → α) (fuel : ℕ)
    (c : BinReadCtx) : Outcome (ReadResult α) :=
  (head c).thenProc fun a c => do
    let expr ← binReadExpr fuel c
    return expr.map (set a)

theorem thenExpr_ok {head : BinReadCtx → ReadResult α} {set : α → Expr → α} {fuel : ℕ}
    {c : BinReadCtx} {r : ReadResult α} (h : thenExpr head set fuel c = .returned r) :
    r.ok = false := by
  rcases ReadResult.thenProc_eq_returned.mp h with ⟨-, h⟩ | ⟨hok, rfl⟩
  · obtain ⟨x, hx, h⟩ := Outcome.bind_eq_returned.mp h
    obtain rfl := Outcome.returned.inj h
    exact binReadExpr_ok hx
  · exact hok

theorem takes_thenExpr {E : Encoding α} {head : BinReadCtx → ReadResult α}
    (hreports : ∀ c, Reports c (head c)) (haccepts : Accepts E head) (hreads : Reads E head)
    (set : α → Expr → α) : Takes (E.headExpr set) (thenExpr head set) where
  took fuel c r hr hq := by
    rcases ReadResult.thenProc_eq_returned.mp hr with ⟨hok, h⟩ | ⟨hok, rfl⟩
    · obtain ⟨x, hx, h⟩ := Outcome.bind_eq_returned.mp h
      obtain rfl := Outcome.returned.inj h
      have hhead := (hreports c).ok_iff.mp hok
      obtain ⟨hb, htook, hh⟩ := haccepts.took hok
      obtain ⟨e, htook', is, he, hvalue⟩ := takes_expr.took hx (hq.trans hhead.symm)
      refine ⟨hb ++ e, htook.trans htook', _, is, hb, e, hh, he, ?_, rfl⟩
      rw [ReadResult.map_value, hvalue]
    · rw [(hreports c).ok_iff.mpr hq] at hok
      cases hok
  returns a bs c rest ha hrest := by
    obtain ⟨h, is, hb, e, hh, he, rfl, rfl⟩ := ha
    rw [List.append_assoc] at hrest
    obtain ⟨fuel, hfuel⟩ := binReadExpr_encodes he (rest_advance_of_eq hrest)
    refine ⟨false, fuel, ?_⟩
    dsimp only at hfuel ⊢
    rw [thenExpr, hreads hh hrest, ReadResult.thenProc, if_pos rfl, hfuel, Outcome.returned_bind,
      advance_advance, List.length_append]
    rfl
  stable c fuel := ReadResult.thenProc_le _ fun _ _ =>
    Outcome.bind_le_bind (binReadExpr_stable _ fuel) fun _ => Outcome.le_refl _

/-- A vector of entries that are never `ok`: the first one is read, and the others are left
zero. -/
theorem Takes.vec {E : Encoding α} {parse : ℕ → BinReadCtx → Outcome (ReadResult α)}
    (h : Takes E parse) (hok : ∀ fuel c r, parse fuel c = .returned r → r.ok = false)
    (zero : α) : Takes (E.firstEntry zero) fun fuel c => binReadVec zero (parse fuel) c where
  took fuel c r hr hq := by
    have hsize := binReadU32Leb_reports c
    simp only [binReadVec] at hr
    split at hr
    · rename_i hsok
      obtain ⟨n, htook, hn⟩ := binReadU32Leb_accepts.took hsok
      rw [Encoding.u32] at hn
      rcases hcount : (binReadU32Leb c).value.toNat with _ | k
      · rw [hcount] at hr hn
        obtain rfl := Outcome.returned.inj hr
        exact ⟨n, htook, n, hn, Or.inl ⟨rfl, rfl⟩⟩
      · rw [hcount, binReadVecLoop] at hr
        obtain ⟨entry, hentry, hr⟩ := Outcome.bind_eq_returned.mp hr
        rw [hok _ _ _ hentry, if_neg Bool.false_ne_true] at hr
        obtain rfl := Outcome.returned.inj hr
        obtain ⟨b, htook', hb⟩ := h.took hentry (hq.trans (hsize.ok_iff.mp hsok).symm)
        refine ⟨n ++ b, htook.trans htook', n, ?_, Or.inr ⟨_, k, b, rfl, hb, rfl⟩⟩
        rw [List.length_cons, List.length_replicate, ← hcount]
        exact hn
    · rename_i hsok
      obtain rfl := Outcome.returned.inj hr
      exact absurd (hsize.ok_iff.mpr hq) hsok
  returns as bs c rest has hrest := by
    obtain ⟨n, hn, has⟩ := has
    have hlen : (UInt32.ofNat as.length).toNat = as.length := UInt32.toNat_ofNat_of_lt' hn.2.2
    have hn' : Encoding.u32 (UInt32.ofNat as.length) n := by
      rw [Encoding.u32, hlen]
      exact hn
    rcases has with ⟨rfl, rfl⟩ | ⟨a, k, b, rfl, ha, rfl⟩
    · refine ⟨true, 0, ?_⟩
      simp only [binReadVec, binReadU32Leb_reads hn' hrest]
      rfl
    · rw [List.append_assoc] at hrest
      obtain ⟨ok, fuel, hfuel⟩ := h.returns ha (rest_advance_of_eq hrest)
      have hfalse : ok = false := hok _ _ _ hfuel
      refine ⟨false, fuel, ?_⟩
      dsimp only at hfuel
      simp only [binReadVec, binReadU32Leb_reads hn' hrest, if_true, hlen]
      rw [List.length_cons, List.length_replicate, binReadVecLoop, hfuel, Outcome.returned_bind,
        advance_advance, List.length_append, hfalse]
      rfl
  stable c := binReadVec_stable h.stable zero c

/-! ### The contents of sections -/

/-- What stands behind a read that is never `ok` is not read. -/
theorem bind_thenProc_eq {x : Outcome (ReadResult α)}
    (h : ∀ r, x = .returned r → r.ok = false) (more : α → BinReadCtx → Outcome (ReadResult α)) :
    (x >>= fun r => r.thenProc more) = x := by
  rcases x with r | _ | _
  · rw [Outcome.returned_bind, ReadResult.thenProc, h r rfl, if_neg Bool.false_ne_true]
  · rfl
  · rfl

theorem binReadElement_eq :
    binReadElement = thenExpr (fun c => (binReadU32Leb c).map fun x => { index := x })
      fun d e => { d with expr := e } := by
  funext fuel c
  exact bind_thenProc_eq (fun _ => thenExpr_ok) _

theorem binReadData_eq :
    binReadData = thenExpr (fun c => (binReadU32Leb c).map fun x => { index := x })
      fun d e => { d with expr := e } := by
  funext fuel c
  exact bind_thenProc_eq (fun _ => thenExpr_ok) _

theorem Reads.map {E : Encoding α} {read : BinReadCtx → ReadResult α} (h : Reads E read)
    (f : α → β) : Reads (E.image f) fun c => (read c).map f := by
  rintro b bs ⟨a, ha, rfl⟩ c rest hrest
  exact congrArg (ReadResult.map f) (h ha hrest)

theorem Accepts.map {E : Encoding α} {read : BinReadCtx → ReadResult α} (h : Accepts E read)
    (f : α → β) : Accepts (E.image f) fun c => (read c).map f := by
  intro c hok
  obtain ⟨bs, rest, hrest, he, hctx⟩ := h hok
  exact ⟨bs, rest, hrest, ⟨_, he, rfl⟩, hctx⟩

namespace Encoding

/-- A global, as it is read. -/
def readableGlobal : Encoding Global := globalHead.headExpr fun g e => { g with expr := e }

/-- An element segment up to the end of its expression. -/
def elementStart : Encoding Element :=
  (u32.image fun x => { index := x }).headExpr fun d e => { d with expr := e }

/-- A data segment up to the end of its expression. -/
def dataStart : Encoding Data :=
  (u32.image fun x => { index := x }).headExpr fun d e => { d with expr := e }

/-- A function body: its locals and its expression. -/
def body : Encoding Code :=
  ((vec locals).image fun ls => { locals := ls }).headExpr fun code e => { code with expr := e }

end Encoding

/-- The payloads that are read to their last byte as this content. -/
def FieldValue.Fills : Encoding FieldValue
  | .nothing, _ => False
  | .types ts, bs => Encoding.vec Encoding.funcType ts bs
  | .imps is, bs => Encoding.vec Encoding.readableImport is bs
  | .functions fs, bs => Encoding.vec Encoding.u32 fs bs
  | .tables ts, bs => Encoding.vec Encoding.tableType ts bs
  | .memory ms, bs => Encoding.vec Encoding.limits ms bs
  | .globals gs, bs => Encoding.readableGlobal.firstEntry {} gs bs
  | .exports es, bs => Encoding.vec Encoding.export_ es bs
  | .start x, bs => Encoding.u32 x bs
  | .elements es, bs => Encoding.elementStart.firstEntry {} es bs
  | .datas ds, bs => Encoding.dataStart.firstEntry {} ds bs

theorem takes_globals : Takes (Encoding.readableGlobal.firstEntry {}) binReadGlobalSection :=
  (takes_thenExpr globalHead_reports globalHead_accepts globalHead_reads _).vec
    (fun _ _ _ => thenExpr_ok) {}

theorem takes_elements : Takes (Encoding.elementStart.firstEntry {}) binReadElementSection := by
  change Takes _ fun fuel c => binReadVec {} (binReadElement fuel) c
  rw [binReadElement_eq]
  exact (takes_thenExpr (fun c => (binReadU32Leb_reports c).map _) (binReadU32Leb_accepts.map _)
    (binReadU32Leb_reads.map _) _).vec (fun _ _ _ => thenExpr_ok) _

theorem takes_datas : Takes (Encoding.dataStart.firstEntry {}) binReadDataSection := by
  change Takes _ fun fuel c => binReadVec {} (binReadData fuel) c
  rw [binReadData_eq]
  exact (takes_thenExpr (fun c => (binReadU32Leb_reports c).map _) (binReadU32Leb_accepts.map _)
    (binReadU32Leb_reads.map _) _).vec (fun _ _ _ => thenExpr_ok) _

/-- A vector of entries without an expression. -/
theorem takes_vec {E : Encoding α} {parse : BinReadCtx → Outcome (ReadResult α)}
    (hreports : ReportsAll parse) (haccepts : AcceptsProc E parse) (hreads : ReadsProc E parse)
    (zero : α) : Takes (Encoding.vec E) fun _ c => binReadVec zero parse c :=
  .of_reports (binReadVec_reports hreports) (binReadVec_accepts haccepts)
    (binReadVec_reads zero hreads)

/-- A body is read in its own scope. -/
theorem takes_body : Takes Encoding.body
    (thenExpr (fun c => (codeHead c).map fun ls => ({ locals := ls } : Code))
      fun code e => { code with expr := e }) :=
  takes_thenExpr (fun c => (codeHead_reports c).map _) (codeHead_accepts.map _)
    (codeHead_reads.map _) _

theorem binReadCode_eq (fuel : ℕ) (c : BinReadCtx) (binCode : BinCode) :
    binReadCode fuel c binCode =
      thenExpr (fun c => (codeHead c).map fun ls => ({ locals := ls } : Code))
        (fun code e => { code with expr := e }) fuel
        (binReaderSetScope c binCode.pos binCode.data) := by
  simp only [binReadCode, binReadVec_locals, Outcome.returned_bind]
  rfl

end Wasim
