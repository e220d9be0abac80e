import Wasim.Binary.ExprCopy
import Wasim.Binary.Readers

/-!
# Sections that hold expressions, read back

Decoding the global, element and data sections from their encoding. An entry of them ends its
reader without `ok` as soon as the expression is read, so the vector stops there: of a longer
list only the first entry comes back, and without what follows its expression. The expression
itself comes back as it was copied out of the temp arena (`FieldValue.Copied`), which is as it was
pushed if no chunk begins in a body in it (`ExprSection.roundTrip_iff`).
-/

namespace Wasim

open BinReadCtx

/-! ### More fuel -/

section Fuel

variable {α : Type} {parse₁ parse₂ : BinReadCtx → Outcome (ReadResult α)}
  (h : ∀ c, parse₁ c ≤ parse₂ c)

include h

theorem binReadVecLoop_le (zero : α) (n : ℕ) (c : BinReadCtx) :
    binReadVecLoop zero parse₁ n c ≤ binReadVecLoop zero parse₂ n c := by
  induction n generalizing c with
  | zero => exact Outcome.le_refl _
  | succ n ih =>
    refine Outcome.bind_le_bind (h c) fun entry => ?_
    split
    · exact Outcome.bind_le_bind (ih _) fun _ => Outcome.le_refl _
    · exact Outcome.le_refl _

theorem binReadVec_le (zero : α) (c : BinReadCtx) :
    binReadVec zero parse₁ c ≤ binReadVec zero parse₂ c := by
  unfold binReadVec
  dsimp only
  split
  · exact binReadVecLoop_le h zero _ _
  · exact Outcome.le_refl _

end Fuel

theorem ReadResult.thenProc_le {α : Type} (r : ReadResult α)
    {f g : α → BinReadCtx → Outcome (ReadResult α)} (h : ∀ a c, f a c ≤ g a c) :
    r.thenProc f ≤ r.thenProc g := by
  unfold ReadResult.thenProc
  split
  · exact h _ _
  · exact Outcome.le_refl _

theorem binReadGlobal_stable (c : BinReadCtx) :
    Outcome.Stable fun fuel => binReadGlobal fuel c := fun fuel =>
  ReadResult.thenProc_le _ fun _ _ =>
    Outcome.bind_le_bind (binReadExpr_stable _ fuel) fun _ => Outcome.le_refl _

theorem binReadElement_stable (c : BinReadCtx) :
    Outcome.Stable fun fuel => binReadElement fuel c := fun fuel =>
  Outcome.bind_le_bind (ReadResult.thenProc_le _ fun _ _ =>
    Outcome.bind_le_bind (binReadExpr_stable _ fuel) fun _ => Outcome.le_refl _)
    fun _ => Outcome.le_refl _

theorem binReadData_stable (c : BinReadCtx) :
    Outcome.Stable fun fuel => binReadData fuel c := fun fuel =>
  Outcome.bind_le_bind (ReadResult.thenProc_le _ fun _ _ =>
    Outcome.bind_le_bind (binReadExpr_stable _ fuel) fun _ => Outcome.le_refl _)
    fun _ => Outcome.le_refl _

theorem binReadVec_stable {α : Type} {parse : ℕ → BinReadCtx → Outcome (ReadResult α)}
    (h : ∀ c, Outcome.Stable fun fuel => parse fuel c) (zero : α) (c : BinReadCtx) :
    Outcome.Stable fun fuel => binReadVec zero (parse fuel) c :=
  fun fuel => binReadVec_le (fun c => h c fuel) zero c

/-! ### Entries and their encodings -/

/-- A global of the format. -/
structure GlobalDef where
  type : ValueType
  mutable : Bool
  init : Instrs

/-- An element segment of the format. -/
structure ElementDef where
  table : UInt32
  offset : Instrs
  init : List UInt32

/-- A data segment of the format. -/
structure DataDef where
  memory : UInt32
  offset : Instrs
  init : List UInt8

def mutableByte (mutable : Bool) : UInt8 := if mutable then 0x01 else 0x00

namespace Encoding

def global : Encoding GlobalDef := fun g bs =>
  ∃ e, g.type ≠ .unset ∧ expr g.init e ∧ bs = g.type.toByte :: mutableByte g.mutable :: e

def element : Encoding ElementDef := fun d bs =>
  ∃ x e i, u32 d.table x ∧ expr d.offset e ∧ vec u32 d.init i ∧ bs = x ++ (e ++ i)

def data : Encoding DataDef := fun d bs =>
  ∃ x e n, u32 d.memory x ∧ expr d.offset e ∧ unsigned 32 d.init.length n ∧
    bs = x ++ (e ++ (n ++ d.init))

end Encoding

def GlobalDef.toGlobal (g : GlobalDef) : Global where
  mutable := mutableByte g.mutable
  type := g.type
  expr := Expr.ofInstrs g.init

def ElementDef.toElement (d : ElementDef) : Element where
  index := d.table
  expr := Expr.ofInstrs d.offset
  init := d.init

def DataDef.toData (d : DataDef) : Data where
  index := d.memory
  expr := Expr.ofInstrs d.offset
  init := d.init

/-! ### Decoding one entry -/

/-- On an encoding of `d` the reader returns `first d`, without `ok` and without a
diagnostic. -/
def ReturnsFirst {δ α : Type} (E : Encoding δ) (first : δ → α)
    (parse : ℕ → BinReadCtx → Outcome (ReadResult α)) : Prop :=
  ∀ ⦃d bs⦄, E d bs → ∀ ⦃c : BinReadCtx⦄ ⦃rest⦄, c.rest = bs ++ rest →
    ∃ n, Outcome.Returns (fun fuel => parse fuel c) ⟨first d, false, c.advance n⟩

theorem binReadGlobal_encodes :
    ReturnsFirst Encoding.global GlobalDef.toGlobal binReadGlobal := by
  rintro g bs ⟨e, hne, he, rfl⟩ c rest hrest
  have hhead := globalHead_reads (a := ⟨mutableByte g.mutable, g.type, {}⟩) ⟨hne, rfl, rfl⟩ hrest
  obtain ⟨fuel, hfuel⟩ := binReadExpr_encodes he
    (rest_advance_of_eq (b := [g.type.toByte, mutableByte g.mutable]) hrest)
  refine ⟨2 + e.length, fuel, ?_⟩
  dsimp only at hfuel ⊢
  rw [binReadGlobal, ← globalHead, hhead, ReadResult.thenProc, if_pos rfl]
  rw [hfuel, Outcome.returned_bind, advance_advance]
  rfl

/-- An entry that starts with an index and an expression: what follows is not read. -/
theorem indexed_encodes {α : Type} {mk : UInt32 → α} {set : α → Expr → α}
    {more : α → BinReadCtx → Outcome (ReadResult α)} {x : UInt32} {is : Instrs}
    {xs e : List UInt8} (hx : Encoding.u32 x xs) (he : Encoding.expr is e) {c : BinReadCtx}
    {rest : List UInt8} (hrest : c.rest = xs ++ (e ++ rest)) :
    ∃ n, Outcome.Returns (fun fuel => do
      let entry ← ((binReadU32Leb c).map mk).thenProc fun entry c => do
        let expr ← binReadExpr fuel c
        return expr.map (set entry)
      entry.thenProc more) ⟨set (mk x) (Expr.ofInstrs is), false, c.advance n⟩ := by
  have hindex := binReadU32Leb_reads hx hrest
  obtain ⟨fuel, hfuel⟩ := binReadExpr_encodes he (rest_advance_of_eq hrest)
  refine ⟨xs.length + e.length, fuel, ?_⟩
  dsimp only at hfuel ⊢
  rw [hindex, ReadResult.map, ReadResult.thenProc, if_pos rfl, hfuel, Outcome.returned_bind,
    Outcome.pure_eq, Outcome.returned_bind, ReadResult.thenProc, advance_advance]
  rfl

theorem binReadElement_encodes :
    ReturnsFirst Encoding.element (fun d => { d.toElement with init := [] }) binReadElement := by
  rintro d bs ⟨x, e, i, hx, he, -, rfl⟩ c rest hrest
  rw [List.append_assoc, List.append_assoc] at hrest
  exact indexed_encodes hx he hrest

theorem binReadData_encodes :
    ReturnsFirst Encoding.data (fun d => { d.toData with init := [] }) binReadData := by
  rintro d bs ⟨x, e, n, hx, he, -, rfl⟩ c rest hrest
  rw [List.append_assoc, List.append_assoc] at hrest
  exact indexed_encodes hx he hrest

/-! ### Decoding a section -/

/-- What comes back of a list of entries: the first one, as `first` leaves it, and zeroed
memory for the others. -/
def firstOnly {δ α : Type} (first : δ → α) (zero : α) : List δ → List α
  | [] => []
  | d :: ds => first d :: List.replicate ds.length zero

theorem binReadVec_encodes {δ α : Type} {E : Encoding δ} {first : δ → α} (zero : α)
    {parse : ℕ → BinReadCtx → Outcome (ReadResult α)} (hentry : ReturnsFirst E first parse)
    {ds : List δ} {bs : List UInt8} (h : Encoding.vec E ds bs) {c : BinReadCtx}
    {rest : List UInt8} (hrest : c.rest = bs ++ rest) :
    ∃ r, Outcome.Returns (fun fuel => binReadVec zero (parse fuel) c) r ∧
      r.value = firstOnly first zero ds ∧ r.ctx.diags = c.diags := by
  obtain ⟨ns, es, hn, hes, rfl⟩ := h
  rw [List.append_assoc] at hrest
  have hlen : (UInt32.ofNat ds.length).toNat = ds.length := UInt32.toNat_ofNat_of_lt' hn.2.2
  have hsize := binReadU32Leb_reads (a := UInt32.ofNat ds.length)
    (by rw [Encoding.u32, hlen]; exact hn) hrest
  cases hes with
  | nil =>
    refine ⟨⟨[], true, c.advance ns.length⟩, ⟨0, ?_⟩, rfl, rfl⟩
    simp only [binReadVec, hsize]
    rfl
  | @cons d ds b bs hd hds =>
    rw [List.append_assoc] at hrest
    obtain ⟨n, fuel, hfuel⟩ := hentry hd (rest_advance_of_eq hrest)
    refine ⟨⟨first d :: List.replicate ds.length zero, false, (c.advance ns.length).advance n⟩,
      ⟨fuel, ?_⟩, rfl, rfl⟩
    dsimp only at hfuel ⊢
    rw [binReadVec, hsize]
    dsimp only
    rw [if_pos rfl, hlen, List.length_cons, binReadVecLoop, hfuel, Outcome.returned_bind]
    rfl

/-! ### The expression of the first entry -/

/-- The bytes start with a vector that has an entry, and behind the head of the first one come the
bytes `rest`. -/
def VecReaches {β : Type} (H : Encoding β) (bs rest : List UInt8) : Prop :=
  ∃ k n a b, Encoding.unsigned 32 (k + 1) n ∧ H a b ∧ bs = n ++ (b ++ rest)

/-- The payload of a section of this kind has an entry, and the expression of its first entry
starts with the bytes `rest`. -/
def ReachesExpr : BinSectionKind → List UInt8 → List UInt8 → Prop
  | .global => VecReaches Encoding.globalHead
  | .element => VecReaches Encoding.u32
  | .data => VecReaches Encoding.u32
  | _ => fun _ _ => False

/-- The first entry with another expression. -/
def FieldValue.setExpr (e : Expr) : FieldValue → FieldValue
  | globals gs => globals (gs.modifyHead fun g => { g with expr := e })
  | elements es => elements (es.modifyHead fun d => { d with expr := e })
  | datas ds => datas (ds.modifyHead fun d => { d with expr := e })
  | v => v

/-- What is in memory where the reader of a section has left the field `v`. If it has reached an
expression, it is the one that was copied. -/
inductive FieldValue.Copied (li le : ChunkLengths) (kind : BinSectionKind) (bs : List UInt8)
    (v : FieldValue) : FieldValue → Prop
  | none (h : ∀ rest, ¬ReachesExpr kind bs rest) : Copied li le kind bs v v
  | expr {rest : List UInt8} {e : Expr} (h : ReachesExpr kind bs rest)
      (he : ExprCopied li le rest e) : Copied li le kind bs v (v.setExpr e)

/-- What a reader accepts is unique. -/
theorem Reads.unique {β : Type} {H : Encoding β} {read : BinReadCtx → ReadResult β}
    (hreads : Reads H read) {a a' : β} {b b' r r' : List UInt8} (h : H a b) (h' : H a' b')
    (heq : b ++ r = b' ++ r') : a = a' ∧ b = b' ∧ r = r' := by
  have hread := hreads h (c := { data := b ++ r }) rfl
  have hread' := hreads h' (c := { data := b ++ r }) heq
  rw [hread] at hread'
  obtain ⟨rfl, -, hctx⟩ := ReadResult.mk.inj hread'
  have hlen : b.length = b'.length := by
    simpa [BinReadCtx.advance] using congrArg BinReadCtx.curr hctx
  exact ⟨rfl, List.append_inj heq hlen⟩

theorem VecReaches.unique {β : Type} {H : Encoding β} {read : BinReadCtx → ReadResult β}
    (hreads : Reads H read) {bs rest rest' : List UInt8} (h : VecReaches H bs rest)
    (h' : VecReaches H bs rest') : rest = rest' := by
  obtain ⟨k, n, a, b, hn, hb, rfl⟩ := h
  obtain ⟨k', n', a', b', hn', hb', heq⟩ := h'
  obtain ⟨rfl, -⟩ := hn.1.prefix_unique hn'.1 heq
  exact (hreads.unique hb hb' (List.append_cancel_left heq)).2.2

/-- There is one place at which an expression is reached. -/
theorem ReachesExpr.unique {kind : BinSectionKind} {bs rest rest' : List UInt8}
    (h : ReachesExpr kind bs rest) (h' : ReachesExpr kind bs rest') : rest = rest' := by
  cases kind with
  | global => exact VecReaches.unique globalHead_reads h h'
  | element => exact VecReaches.unique binReadU32Leb_reads h h'
  | data => exact VecReaches.unique binReadU32Leb_reads h h'
  | _ => exact h.elim

/-! ### Sections -/

/-- The content of a section that holds expressions. -/
inductive ExprSection where
  | globals (globals : List GlobalDef)
  | elements (elements : List ElementDef)
  | datas (datas : List DataDef)

namespace ExprSection

def Encodes : Encoding ExprSection
  | globals gs, bs => Encoding.vec Encoding.global gs bs
  | elements es, bs => Encoding.vec Encoding.element es bs
  | datas ds, bs => Encoding.vec Encoding.data ds bs

def kind : ExprSection → BinSectionKind
  | globals _ => .global
  | elements _ => .element
  | datas _ => .data

/-- The entries, in order and in every field. -/
def toField : ExprSection → FieldValue
  | globals gs => .globals (gs.map GlobalDef.toGlobal)
  | elements es => .elements (es.map ElementDef.toElement)
  | datas ds => .datas (ds.map DataDef.toData)

/-- At most one entry, and nothing behind its expression. -/
def Short : ExprSection → Prop
  | globals gs => gs.length ≤ 1
  | elements es => es.length ≤ 1 ∧ ∀ d ∈ es, d.init = []
  | datas ds => ds.length ≤ 1 ∧ ∀ d ∈ ds, d.init = []

/-- No chunk begins in a body in one of the expressions. -/
def Fits (li le : ChunkLengths) : ExprSection → Prop
  | globals gs => ∀ g ∈ gs, g.init.Fits li le 1 1
  | elements es => ∀ d ∈ es, d.offset.Fits li le 1 1
  | datas ds => ∀ d ∈ ds, d.offset.Fits li le 1 1

end ExprSection

/-- A reader that brings back the first entry only brings back a list if it has no second
entry, and `first` is faithful on the first. -/
theorem firstOnly_eq_map_iff {δ α : Type} {first full : δ → α} {zero : α} (ds : List δ)
    (hzero : ∀ d ∈ ds, full d ≠ zero) :
    firstOnly first zero ds = ds.map full ↔ ds.length ≤ 1 ∧ ∀ d ∈ ds, first d = full d := by
  match ds, hzero with
  | [], _ => simp [firstOnly]
  | [d], _ => simp [firstOnly]
  | d :: e :: ds, hzero =>
    have hne := hzero e (by simp)
    simp only [firstOnly, List.length_cons, List.replicate_succ, List.map_cons, List.cons.injEq]
    constructor
    · rintro ⟨-, h, -⟩
      exact absurd h.symm hne
    · rintro ⟨h, -⟩
      omega

/-- The head of an entry, then an expression. -/
def StartsWithHead {δ β : Type} (E : Encoding δ) (H : Encoding β) (init : δ → Instrs) : Prop :=
  ∀ ⦃d bs⦄, E d bs → ∃ a b e tail, H a b ∧ Encoding.expr (init d) e ∧ bs = b ++ (e ++ tail)

theorem modifyHead_firstOnly {δ α : Type} (first : δ → α) (zero : α) (f : α → α) (ds : List δ) :
    (firstOnly first zero ds).modifyHead f = firstOnly (fun d => f (first d)) zero ds := by
  cases ds <;> rfl

theorem firstOnly_congr {δ α : Type} {first first' : δ → α} {zero : α} {ds : List δ}
    (h : ∀ d ∈ ds.head?, first d = first' d) :
    firstOnly first zero ds = firstOnly first' zero ds := by
  cases ds with
  | nil => rfl
  | cons d ds => exact congrArg (· :: _) (h d rfl)

section Copied

variable {δ α β : Type} {E : Encoding δ} {H : Encoding β} {init : δ → Instrs}
  (hstart : StartsWithHead E H init) {read : BinReadCtx → ReadResult β} (hreads : Reads H read)
  {first full : δ → α} {zero : α} {set : α → Expr → α} {ds : List δ} {bs rest : List UInt8}
  (h : Encoding.vec E ds bs)

include hstart h

/-- The expression of the first entry is reached. -/
theorem vecReaches_of_vec (rest : List UInt8) {d : δ} (hd : d ∈ ds.head?) :
    ∃ e tail, Encoding.expr (init d) e ∧ VecReaches H (bs ++ rest) (e ++ tail) := by
  obtain ⟨n, es, hn, hes, rfl⟩ := h
  cases hes with
  | nil => cases hd
  | @cons d' ds b bs hd' hds =>
    obtain rfl := Option.some.inj hd
    obtain ⟨a, b', e, tail, ha, he, rfl⟩ := hstart hd'
    exact ⟨e, tail ++ (bs ++ rest), he, ds.length, n, a, b', hn, ha, by
      simp only [List.append_assoc]⟩

variable {li le : ChunkLengths} {kind : BinSectionKind} (hkind : ReachesExpr kind = VecReaches H)
  (f : List α → FieldValue) (hset : ∀ e as, (f as).setExpr e = f (as.modifyHead (set · e)))
  {v : FieldValue}
  (hv : FieldValue.Copied li le kind (bs ++ rest) (f (firstOnly first zero ds)) v)

include hreads hkind hset hv

/-- The entries that are in memory: the first one with the expression that was copied. -/
theorem copied_entries : ∃ e, v = f (firstOnly (fun d => set (first d) e) zero ds) ∧
    ∀ d ∈ ds.head?, ∃ b tail, Encoding.expr (init d) b ∧ ExprCopied li le (b ++ tail) e := by
  cases hv with
  | none hno =>
    have hnil : ds = [] := by
      rw [← List.head?_eq_none_iff, Option.eq_none_iff_forall_not_mem]
      intro d hd
      obtain ⟨e, tail, -, hreach⟩ := vecReaches_of_vec hstart h rest hd
      exact hno _ (hkind ▸ hreach)
    subst hnil
    exact ⟨{}, rfl, fun d hd => absurd hd (Option.not_mem_none d)⟩
  | @expr tail e hreach he =>
    refine ⟨e, by rw [hset, modifyHead_firstOnly], fun d hd => ?_⟩
    obtain ⟨b, tail', hb, hreach'⟩ := vecReaches_of_vec hstart h rest hd
    rw [hkind] at hreach
    exact ⟨b, tail', hb, hreach.unique hreads hreach' ▸ he⟩

/-- If the expression of the first entry fits, then nothing changes. -/
theorem copied_eq (hfirst : ∀ d, set (first d) (Expr.ofInstrs (init d)) = first d)
    (hfits : ∀ d ∈ ds.head?, (init d).Fits li le 1 1) : v = f (firstOnly first zero ds) := by
  obtain ⟨e, rfl, hentry⟩ := copied_entries hstart hreads h hkind f hset hv
  refine congrArg f (firstOnly_congr fun d hd => ?_)
  obtain ⟨b, tail, hb, he⟩ := hentry d hd
  rw [ExprCopied.eq hb (hfits d hd) he, hfirst]

omit hv

variable (li le) in
/-- A section whose reader brings back the first entry. -/
theorem readsBack_iff (hf : Function.Injective f)
    (hfirst : ∀ d, set (first d) (Expr.ofInstrs (init d)) = first d)
    {parse : ℕ → BinReadCtx → Outcome (ReadResult α)} (hentry : ReturnsFirst E first parse)
    (hzero : ∀ d ∈ ds, full d ≠ zero) {c : BinReadCtx} (hrest : c.rest = bs ++ rest) :
    ∃ r, Outcome.Returns (fun fuel => ReadResult.map f <$> binReadVec zero (parse fuel) c) r ∧
      ∀ v, FieldValue.Copied li le kind c.rest r.value v →
        (v = f (ds.map full) ∧ r.ctx.diags = c.diags →
          ds.length ≤ 1 ∧ ∀ d ∈ ds, ∃ e, set (first d) e = full d) ∧
        (ds.length ≤ 1 → (∀ d ∈ ds, first d = full d) → (∀ d ∈ ds, (init d).Fits li le 1 1) →
          v = f (ds.map full) ∧ r.ctx.diags = c.diags) := by
  obtain ⟨r, ⟨fuel, hr⟩, hvalue, hquiet⟩ := binReadVec_encodes zero hentry h hrest
  have hreturns : Outcome.Returns
      (fun fuel => ReadResult.map f <$> binReadVec zero (parse fuel) c) (r.map f) :=
    ⟨fuel, by dsimp only at hr ⊢; rw [hr]; rfl⟩
  refine ⟨r.map f, hreturns, fun v hv => ?_⟩
  rw [ReadResult.map_value, hvalue, hrest] at hv
  constructor
  · rintro ⟨hall, -⟩
    obtain ⟨e, rfl, -⟩ := copied_entries hstart hreads h hkind f hset hv
    obtain ⟨hlen, heq⟩ := (firstOnly_eq_map_iff ds hzero).mp (hf hall)
    exact ⟨hlen, fun d hd => ⟨e, heq d hd⟩⟩
  · intro hlen hfull hfits
    rw [copied_eq hstart hreads h hkind f hset hv hfirst fun d hd =>
      hfits d (List.mem_of_mem_head? hd)]
    exact ⟨congrArg f ((firstOnly_eq_map_iff ds hzero).mpr ⟨hlen, hfull⟩), hquiet⟩

end Copied

theorem startsWithHead_global :
    StartsWithHead Encoding.global Encoding.globalHead GlobalDef.init := by
  rintro g bs ⟨e, hne, he, rfl⟩
  exact ⟨⟨mutableByte g.mutable, g.type, {}⟩, [g.type.toByte, mutableByte g.mutable], e, [],
    ⟨hne, rfl, rfl⟩, he, by rw [List.append_nil]; rfl⟩

theorem startsWithHead_element :
    StartsWithHead Encoding.element Encoding.u32 ElementDef.offset := by
  rintro d bs ⟨x, e, i, hx, he, -, rfl⟩
  exact ⟨d.table, x, e, i, hx, he, rfl⟩

theorem startsWithHead_data : StartsWithHead Encoding.data Encoding.u32 DataDef.offset := by
  rintro d bs ⟨x, e, n, hx, he, -, rfl⟩
  exact ⟨d.memory, x, e, n ++ d.init, hx, he, rfl⟩

/-- **Sections with expressions, read back.** On the encoding of a list of globals, element
segments or data segments the section reader returns. The list is in memory then, and no
diagnostic was pushed, only if there is at most one entry, with an empty `init`. And in this case
it is, if no chunk begins in a body in the expression. -/
theorem ExprSection.roundTrip_iff (li le : ChunkLengths) {s : ExprSection} {bs : List UInt8}
    (h : s.Encodes bs) {c : BinReadCtx} {rest : List UInt8} (hrest : c.rest = bs ++ rest) :
    ∃ r, Outcome.Returns (fun fuel => binReadSection fuel c s.kind) r ∧
      ∀ v, FieldValue.Copied li le s.kind c.rest r.value v →
        (v = s.toField ∧ r.ctx.diags = c.diags → s.Short) ∧
          (s.Fits li le → (v = s.toField ∧ r.ctx.diags = c.diags ↔ s.Short)) := by
  cases s with
  | globals gs =>
    have hzero : ∀ g ∈ gs, g.toGlobal ≠ {} := fun g _ h => by
      simpa [GlobalDef.toGlobal, Expr.ofInstrs] using congrArg Global.expr h
    have hkind : ReachesExpr .global = VecReaches Encoding.globalHead := rfl
    obtain ⟨r, hr, hv⟩ := readsBack_iff startsWithHead_global globalHead_reads h li le hkind
      FieldValue.globals (fun _ _ => rfl) (fun _ _ => FieldValue.globals.inj) (fun _ => rfl)
      binReadGlobal_encodes hzero hrest
    refine ⟨r, hr, fun v hcopied => ?_⟩
    obtain ⟨hone, hback⟩ := hv v hcopied
    exact ⟨fun hall => (hone hall).1, fun hfits => ⟨fun hall => (hone hall).1,
      fun hlen => hback hlen (fun _ _ => rfl) hfits⟩⟩
  | elements es =>
    have hzero : ∀ d ∈ es, d.toElement ≠ {} := fun d _ h => by
      simpa [ElementDef.toElement, Expr.ofInstrs] using congrArg Element.expr h
    have hkind : ReachesExpr .element = VecReaches Encoding.u32 := rfl
    obtain ⟨r, hr, hv⟩ := readsBack_iff startsWithHead_element binReadU32Leb_reads h li le hkind
      FieldValue.elements (fun _ _ => rfl) (fun _ _ => FieldValue.elements.inj) (fun _ => rfl)
      binReadElement_encodes hzero hrest
    refine ⟨r, hr, fun v hcopied => ?_⟩
    obtain ⟨hone, hback⟩ := hv v hcopied
    have hshort : v = (elements es).toField ∧ r.ctx.diags = c.diags → (elements es).Short := by
      intro hall
      obtain ⟨hlen, hentry⟩ := hone hall
      refine ⟨hlen, fun d hd => ?_⟩
      obtain ⟨e, he⟩ := hentry d hd
      exact (congrArg Element.init he).symm
    refine ⟨hshort, fun hfits => ⟨hshort, fun ⟨hlen, hinit⟩ => ?_⟩⟩
    refine hback hlen (fun d hd => ?_) hfits
    rw [ElementDef.toElement, hinit d hd]
  | datas ds =>
    have hzero : ∀ d ∈ ds, d.toData ≠ {} := fun d _ h => by
      simpa [DataDef.toData, Expr.ofInstrs] using congrArg Data.expr h
    have hkind : ReachesExpr .data = VecReaches Encoding.u32 := rfl
    obtain ⟨r, hr, hv⟩ := readsBack_iff startsWithHead_data binReadU32Leb_reads h li le hkind
      FieldValue.datas (fun _ _ => rfl) (fun _ _ => FieldValue.datas.inj) (fun _ => rfl)
      binReadData_encodes hzero hrest
    refine ⟨r, hr, fun v hcopied => ?_⟩
    obtain ⟨hone, hback⟩ := hv v hcopied
    have hshort : v = (datas ds).toField ∧ r.ctx.diags = c.diags → (datas ds).Short := by
      intro hall
      obtain ⟨hlen, hentry⟩ := hone hall
      refine ⟨hlen, fun d hd => ?_⟩
      obtain ⟨e, he⟩ := hentry d hd
      exact (congrArg Data.init he).symm
    refine ⟨hshort, fun hfits => ⟨hshort, fun ⟨hlen, hinit⟩ => ?_⟩⟩
    refine hback hlen (fun d hd => ?_) hfits
    rw [DataDef.toData, hinit d hd]

/-- The sequence `i32.const 0`. -/
def constZero : Instrs := .plain (.i32Const 0) .nil

theorem constZero_encodes : Encoding.expr constZero [0x41, 0x00, 0x0B] :=
  ⟨[0x41, 0x00], .plain (b := [0x41, 0x00]) (r := []) (.i32Const
    ⟨.pos (b := 0x00) (by decide), by decide, by decide, by decide⟩) .nil, rfl⟩

/-- A block of type `i32` with the constant. -/
def blockZero : Instrs := .block false (some .i32) constZero .nil

theorem blockZero_encodes : Encoding.expr blockZero [0x02, 0x7F, 0x41, 0x00, 0x0B, 0x0B] := by
  obtain ⟨b, hb, heq⟩ := constZero_encodes
  obtain rfl : b = [0x41, 0x00] := (List.append_cancel_right heq.symm)
  exact ⟨[0x02, 0x7F, 0x41, 0x00, 0x0B],
    .block (t := 0x7F) (r := []) (.some (t := .i32) (by decide)) hb .nil, rfl⟩

theorem fits_blockZero : blockZero.Fits instructionChunks extraChunks 1 1 :=
  ⟨⟨⟨by decide, by decide⟩, trivial⟩, trivial⟩

/-- The block in a new arena. -/
theorem exists_exprCopied_blockZero :
    ∃ e, ExprCopied instructionChunks extraChunks [0x02, 0x7F, 0x41, 0x00, 0x0B, 0x0B] e := by
  obtain ⟨r, hr, hran⟩ : ∃ r, binReadInstructionsUntil 10
      { data := [0x02, 0x7F, 0x41, 0x00, 0x0B, 0x0B] } binExprBuilder [Opcode.endOp] =
        .returned r ∧ ranTo r.ib (fun _ => true) = true :=
    ⟨_, rfl, by decide +kernel⟩
  obtain ⟨s, hs, -⟩ := exprCopied_of_ranTo hr hran
  exact ⟨s.expr, hs⟩

/-- The bytes of one immutable global of type `i32`, whose initialiser is the block. -/
def globalZero : List UInt8 := [0x01, 0x7F, 0x00, 0x02, 0x7F, 0x41, 0x00, 0x0B, 0x0B]

/-- The reader of the global section reads it back, through the temp arena. -/
theorem ExprSection.roundTrip_global :
    ∃ r v, Outcome.Returns (fun fuel => binReadSection fuel { data := globalZero } .global) r ∧
      FieldValue.Copied instructionChunks extraChunks .global globalZero r.value v ∧
      v = .globals [⟨0x00, .i32, Expr.ofInstrs blockZero⟩] ∧ r.ctx.diags = [] := by
  have hone : Encoding.unsigned 32 1 [0x01] := ⟨.last (b := 0x01) (by decide), by decide, by decide⟩
  have henc : (ExprSection.globals [⟨.i32, false, blockZero⟩]).Encodes globalZero :=
    ⟨[0x01], [0x7F, 0x00, 0x02, 0x7F, 0x41, 0x00, 0x0B, 0x0B], hone,
      .cons (b := [0x7F, 0x00, 0x02, 0x7F, 0x41, 0x00, 0x0B, 0x0B]) (r := [])
        ⟨_, by decide, blockZero_encodes, rfl⟩ .nil, rfl⟩
  have hrest : ({ data := globalZero } : BinReadCtx).rest = globalZero ++ [] := rfl
  obtain ⟨r, hr, hback⟩ := ExprSection.roundTrip_iff instructionChunks extraChunks henc hrest
  obtain ⟨e, he⟩ := exists_exprCopied_blockZero
  have hcopied : FieldValue.Copied instructionChunks extraChunks .global globalZero r.value
      (r.value.setExpr e) :=
    .expr ⟨0, [0x01], ⟨0x00, .i32, {}⟩, [0x7F, 0x00], hone, ⟨by decide, rfl, rfl⟩, rfl⟩ he
  obtain ⟨hv, hquiet⟩ :=
    ((hback _ hcopied).2 (List.forall_mem_singleton.mpr fits_blockZero)).mpr (le_refl 1)
  exact ⟨r, _, hr, hcopied, hv, hquiet⟩

/-- The bytes of a data segment at address 0 with the byte `a`. -/
def dataA : List UInt8 := [0x01, 0x00, 0x41, 0x00, 0x0B, 0x01, 0x61]

/-- The one byte of the segment does not come back. -/
theorem ExprSection.not_roundTrip :
    ¬∀ (s : ExprSection) (bs : List UInt8) (c : BinReadCtx) (rest : List UInt8),
      s.Encodes bs → c.rest = bs ++ rest →
      ∃ r, Outcome.Returns (fun fuel => binReadSection fuel c s.kind) r ∧
        ∀ v, FieldValue.Copied instructionChunks extraChunks s.kind c.rest r.value v →
          v = s.toField ∧ r.ctx.diags = c.diags := by
  intro h
  have hzero : Encoding.unsigned 32 0 [0x00] :=
    ⟨.last (b := 0x00) (by decide), by decide, by decide⟩
  have hone : Encoding.unsigned 32 1 [0x01] := ⟨.last (b := 0x01) (by decide), by decide, by decide⟩
  have henc : (ExprSection.datas [⟨0, constZero, [0x61]⟩]).Encodes dataA :=
    ⟨[0x01], [0x00, 0x41, 0x00, 0x0B, 0x01, 0x61], hone,
      .cons (b := [0x00, 0x41, 0x00, 0x0B, 0x01, 0x61]) (r := [])
        ⟨[0x00], _, [0x01], hzero, constZero_encodes, hone, rfl⟩ .nil, rfl⟩
  obtain ⟨r, hr, hback⟩ := h _ _ { data := dataA } [] henc rfl
  have hrun : Outcome.Returns (fun fuel => binReadSection fuel { data := dataA } .data)
      ⟨.datas [⟨0, Expr.ofInstrs constZero, []⟩], false, { curr := 5, data := dataA }⟩ :=
    ⟨2, by rfl⟩
  have hstable : Outcome.Stable fun fuel => binReadSection fuel { data := dataA } .data :=
    fun fuel => Outcome.bind_le_bind (binReadVec_stable binReadData_stable {} _ fuel) fun _ =>
      Outcome.le_refl _
  obtain rfl := Outcome.Returns.unique hstable hr hrun
  obtain ⟨x, hx, hran⟩ : ∃ x, binReadInstructionsUntil 10 { data := dataA.drop 2 }
      binExprBuilder [Opcode.endOp] = .returned x ∧ ranTo x.ib (fun _ => true) = true :=
    ⟨_, rfl, by decide +kernel⟩
  obtain ⟨s, hs, -⟩ := exprCopied_of_ranTo hx hran
  have hreach : ReachesExpr .data dataA (dataA.drop 2) :=
    ⟨0, [0x01], 0, [0x00], hone, hzero, rfl⟩
  have hinit := congrArg (fun ds : List Data => ds.map Data.init)
    (FieldValue.datas.inj (hback _ (.expr hreach hs)).1)
  cases hinit

end Wasim
