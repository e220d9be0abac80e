import Wasim.Binary.ReaderSpec

/-!
# The cursor of the reader context, checks included

`Reader.lean` keeps offsets as natural numbers and slices as lists, so that a reader cannot go
out of bounds. Here the same procedures are written with the checks the source makes on the way:
offsets are `int`s that wrap around, `s[lo:hi]` and `s[i]` crash outside of `s`, and so does the
assertion of `bin_reader_anchor_range`. `bin_reader_data_guard` comes with them: a scope that is
opened over the next bytes and closed when the block around it ends.

* `Spec`: from a position inside of its data a reader never crashes, only moves forward inside of
  the same data, and stays where it is when it fails.
* `Simulates`: it is then the reader of `Reader.lean`, value, diagnostics and all.
-/

namespace Wasim

/-! ### Checked integers and slices -/

/-- What a computation on `int`s that yields `n` leaves. -/
def wrapInt (n : ℤ) : ℤ := n.bmod (2 ^ 64)

theorem wrapInt_eq {n : ℤ} (hmin : -2 ^ 63 ≤ n) (hmax : n < 2 ^ 63) : wrapInt n = n :=
  Int.bmod_eq_of_le (by omega) (by omega)

/-- A slice of bytes: its length is an `int`. -/
structure ByteSlice where
  bytes : List UInt8
  length_lt : bytes.length < 2 ^ 63

namespace ByteSlice

def len (s : ByteSlice) : ℤ := s.bytes.length

def empty : ByteSlice := ⟨[], by decide⟩

/-- `s[i]`. -/
def get (s : ByteSlice) (i : ℤ) : Outcome UInt8 :=
  if 0 ≤ i ∧ i < s.len then .returned (s.bytes.getD i.toNat 0) else .crashed

/-- `s[lo:hi]`. -/
def slice (s : ByteSlice) (lo hi : ℤ) : Outcome ByteSlice :=
  if 0 ≤ lo ∧ lo ≤ hi ∧ hi ≤ s.len then
    .returned ⟨(s.bytes.drop lo.toNat).take (hi - lo).toNat, by
      have hlt := s.length_lt
      rw [List.length_take, List.length_drop]
      omega⟩
  else .crashed

theorem len_lt (s : ByteSlice) : s.len < 2 ^ 63 := by
  have h := s.length_lt
  rw [len]
  omega

end ByteSlice

/-! ### The context -/

/-- `Bin_Read_Ctx`: a diagnostic is its text with the ends of its range. -/
structure BinCursor where
  base : ℤ
  curr : ℤ
  data : ByteSlice
  diags : List (BinError × ℤ × ℤ)

/-- What a reader hands back. -/
structure CursorResult (α : Type) where
  value : α
  ok : Bool
  ctx : BinCursor

namespace BinCursor

def errorf (c : BinCursor) (start stop : ℤ) (format : String) (args : List FmtArg) : BinCursor :=
  { c with diags := c.diags ++ [(⟨format, args⟩, start, stop)] }

def absolutePos (c : BinCursor) : ℤ := wrapInt (c.base + c.curr)

abbrev anchor := absolutePos

def anchorRange (c : BinCursor) (anchor : ℤ) : Outcome (ℤ × ℤ) :=
  let stop := c.anchor
  if anchor ≤ stop then .returned (anchor, stop) else .crashed

def dataLeft (c : BinCursor) : ℤ := wrapInt (c.data.len - c.curr)

def advance (c : BinCursor) (count : ℤ) : BinCursor :=
  { c with curr := wrapInt (c.curr + count) }

def readBytes (c : BinCursor) (count : ℤ) : Outcome (CursorResult ByteSlice) :=
  let start := c.anchor
  let dataLeft := c.dataLeft
  if count ≤ dataLeft then do
    let bytes ← c.data.slice c.curr (wrapInt (c.curr + count))
    return ⟨bytes, true, c.advance count⟩
  else
    return ⟨.empty, false, c.errorf start (wrapInt (start + dataLeft)) "missing %v bytes"
      [.int (wrapInt (count - dataLeft))]⟩

/-- `bin_read_t` at the unsigned type of `size` bytes. -/
def readT (c : BinCursor) (size : ℕ) : Outcome (CursorResult ℕ) := do
  let data ← c.readBytes size
  return ⟨if data.ok then LittleEndian.value data.value.bytes else 0, data.ok, data.ctx⟩

/-- A read that failed behind `here`, with the range from `start` to where the reader stands. -/
def failAt {α : Type} (c : BinCursor) (start : ℤ) (zero : α) (format : String)
    (args : List FmtArg) : Outcome (CursorResult α) := do
  let here ← c.anchorRange start
  return ⟨zero, false, c.errorf here.1 here.2 format args⟩

def readByte (c : BinCursor) : Outcome (CursorResult UInt8) :=
  let start := c.anchor
  if 1 ≤ c.dataLeft then do
    let result ← c.data.get c.curr
    return ⟨result, true, c.advance 1⟩
  else c.failAt start 0 "missing byte" []

/-- `bin_read_iXX_leb` at the signed type `tName` of `bits` bits. -/
def readIXXLeb (c : BinCursor) (bits : ℕ) (tName : String) : Outcome (CursorResult ℤ) := do
  let start := c.anchor
  let max : ℤ := 2 ^ (bits - 1) - 1
  let min : ℤ := -2 ^ (bits - 1)
  let rest ← c.data.slice c.curr c.data.len
  match Leb128.decodeSigned rest.bytes with
  | .ok (value, size) =>
    if size ≤ lebMaxBytes bits then
      if min ≤ value ∧ value ≤ max then return ⟨value, true, c.advance size⟩
      else
        c.failAt start 0
          "LEB %[0]v has value that does not fit into a %[0]v: MIN(%v) <= %v <= MAX(%v)"
          [.name tName, .int min, .int value, .int max]
    else
      c.failAt start 0 "LEB has to many bytes for a %v: %v <= %v"
        [.name tName, .int size, .int (lebMaxBytes bits)]
  | .error .bufferTooSmall => c.failAt start 0 "missing bytes for LEB %v" [.name tName]
  | .error .valueTooLarge => c.failAt start 0 "LEB to large to even fit into a i128" []

/-- `bin_read_uXX_leb` at the unsigned type `tName` of `bits` bits. -/
def readUXXLeb (c : BinCursor) (bits : ℕ) (tName : String) : Outcome (CursorResult ℕ) := do
  let start := c.anchor
  let max : ℕ := 2 ^ bits - 1
  let rest ← c.data.slice c.curr c.data.len
  match Leb128.decodeUnsigned rest.bytes with
  | .ok (value, size) =>
    if size ≤ lebMaxBytes bits then
      if value ≤ max then return ⟨value, true, c.advance size⟩
      else
        c.failAt start 0 "LEB %[0]v has value to large to fit into a %[0]v: %v <= %v"
          [.name tName, .int value, .int max]
    else
      c.failAt start 0 "LEB has to many bytes for a %v: %v <= %v"
        [.name tName, .int size, .int (lebMaxBytes bits)]
  | .error .bufferTooSmall => c.failAt start 0 "missing bytes for LEB %v" [.name tName]
  | .error .valueTooLarge => c.failAt start 0 "LEB to large to even fit into a u128" []

/-! ### Scopes -/

/-- What `bin_reader_push_data` hands back for the end of the scope. -/
structure ScopeFrame where
  oldBase : ℤ := 0
  resumeCurr : ℤ := 0
  oldData : ByteSlice := .empty
  ok : Bool := false

def pushData (c : BinCursor) (count : ℤ) : Outcome (ScopeFrame × BinCursor) :=
  let start := c.anchor
  let dataLeft := c.dataLeft
  if count < 0 ∨ dataLeft < count then
    return ({}, c.errorf start (wrapInt (start + dataLeft)) "missing %v bytes"
      [.int (wrapInt (count - dataLeft))])
  else do
    let oldBase := c.base
    let oldData := c.data
    let resumeCurr := wrapInt (c.curr + count)
    let base := wrapInt (c.base + c.curr)
    let data ← oldData.slice (wrapInt (resumeCurr - count)) resumeCurr
    return (⟨oldBase, resumeCurr, oldData, true⟩, { c with base := base, curr := 0, data := data })

def popData (c : BinCursor) (oldBase resumeCurr : ℤ) (oldData : ByteSlice) : BinCursor :=
  { c with base := oldBase, curr := resumeCurr, data := oldData }

/-- `_bin_reader_end_data`, which the guard defers to the end of its block. -/
def endData (f : ScopeFrame) (c : BinCursor) : BinCursor :=
  if f.ok then c.popData f.oldBase f.resumeCurr f.oldData else c

end BinCursor

/-! ### One read -/

namespace BinCursor

variable {α β : Type} {c : BinCursor}

/-- The position lies inside of the data. -/
structure InBounds (c : BinCursor) : Prop where
  nonneg : 0 ≤ c.curr
  le_len : c.curr ≤ c.data.len

/-- From `c` to `d` the position only moved forward inside of the same data. -/
structure Later (c d : BinCursor) : Prop where
  base : d.base = c.base
  data : d.data = c.data
  curr : c.curr ≤ d.curr

@[refl]
theorem Later.refl (c : BinCursor) : c.Later c := ⟨rfl, rfl, le_rfl⟩

theorem Later.trans {d e : BinCursor} (h : c.Later d) (k : d.Later e) : c.Later e :=
  ⟨k.base.trans h.base, k.data.trans h.data, h.curr.trans k.curr⟩

theorem later_errorf (c : BinCursor) (start stop : ℤ) (format : String) (args : List FmtArg) :
    c.Later (c.errorf start stop format args) := ⟨rfl, rfl, le_rfl⟩

theorem InBounds.dataLeft_eq (h : c.InBounds) : c.dataLeft = c.data.len - c.curr := by
  have hlen := c.data.len_lt
  have hnonneg := h.nonneg
  exact wrapInt_eq (by have := h.le_len; omega) (by omega)

/-- Where a sum that stays inside of the data stands. -/
theorem InBounds.wrap_add (h : c.InBounds) {n : ℤ} (hn : 0 ≤ n) (hle : n ≤ c.dataLeft) :
    wrapInt (c.curr + n) = c.curr + n := by
  have hlen := c.data.len_lt
  have hnonneg := h.nonneg
  rw [h.dataLeft_eq] at hle
  exact wrapInt_eq (by omega) (by omega)

theorem InBounds.advance (h : c.InBounds) {n : ℤ} (hn : 0 ≤ n) (hle : n ≤ c.dataLeft) :
    (c.advance n).InBounds ∧ c.Later (c.advance n) := by
  have hcurr : (c.advance n).curr = c.curr + n := h.wrap_add hn hle
  have hnonneg := h.nonneg
  rw [h.dataLeft_eq] at hle
  refine ⟨⟨?_, ?_⟩, rfl, rfl, ?_⟩ <;> rw [hcurr]
  · omega
  · change c.curr + n ≤ c.data.len
    omega
  · omega

/-- The unread bytes, `ctx.data[ctx.curr:]`. -/
theorem InBounds.slice_rest (h : c.InBounds) :
    ∃ rest, c.data.slice c.curr c.data.len = .returned rest ∧
      rest.bytes = c.data.bytes.drop c.curr.toNat := by
  rw [ByteSlice.slice, if_pos ⟨h.nonneg, h.le_len, le_rfl⟩]
  refine ⟨_, rfl, List.take_of_length_le ?_⟩
  have hlen : c.data.len = c.data.bytes.length := rfl
  have hnonneg := h.nonneg
  rw [List.length_drop]
  omega

/-- What a read promises: it moves forward inside of its data, and not at all when it fails. -/
structure Spec (c : BinCursor) (r : CursorResult α) : Prop where
  later : c.Later r.ctx
  bounds : r.ctx.InBounds
  failed : r.ok = false → r.ctx.curr = c.curr

theorem Spec.success (h : c.InBounds) {a : α} {n : ℤ} (hn : 0 ≤ n) (hle : n ≤ c.dataLeft) :
    Spec c ⟨a, true, c.advance n⟩ :=
  ⟨(h.advance hn hle).2, (h.advance hn hle).1, nofun⟩

theorem Spec.failure (h : c.InBounds) {a : α} {start stop : ℤ} {format : String}
    {args : List FmtArg} : Spec c ⟨a, false, c.errorf start stop format args⟩ :=
  ⟨later_errorf c _ _ _ _, ⟨h.nonneg, h.le_len⟩, fun _ => rfl⟩

/-- The range of an anchor that was taken at the same position. -/
@[simp]
theorem anchorRange_anchor (c : BinCursor) :
    c.anchorRange c.anchor = .returned (c.anchor, c.anchor) :=
  if_pos le_rfl

theorem failAt_anchor (c : BinCursor) (zero : α) (format : String) (args : List FmtArg) :
    c.failAt c.anchor zero format args =
      .returned ⟨zero, false, c.errorf c.anchor c.anchor format args⟩ := by
  rw [failAt, anchorRange_anchor]
  rfl

theorem failAt_spec (h : c.InBounds) (zero : α) (format : String) (args : List FmtArg) :
    ∃ r, c.failAt c.anchor zero format args = .returned r ∧ Spec c r :=
  ⟨_, failAt_anchor c zero format args, Spec.failure h⟩

/-- `ctx.data[pos:pos+count]` with enough data left. -/
theorem InBounds.slice_bytes (h : c.InBounds) {n : ℤ} (hn : 0 ≤ n) (hle : n ≤ c.dataLeft) :
    ∃ bytes, c.data.slice c.curr (c.curr + n) = .returned bytes ∧
      bytes.bytes = (c.data.bytes.drop c.curr.toNat).take n.toNat := by
  rw [h.dataLeft_eq] at hle
  rw [ByteSlice.slice, if_pos ⟨h.nonneg, by omega, by omega⟩]
  exact ⟨_, rfl, congrArg (fun k : ℤ => (c.data.bytes.drop c.curr.toNat).take k.toNat)
    (add_sub_cancel_left c.curr n)⟩

theorem readBytes_of_le (h : c.InBounds) {n : ℕ} (hle : n ≤ c.dataLeft) :
    ∃ bytes, c.readBytes n = .returned ⟨bytes, true, c.advance n⟩ ∧
      bytes.bytes = (c.data.bytes.drop c.curr.toNat).take n := by
  obtain ⟨bytes, hslice, hbytes⟩ := h.slice_bytes (n := n) (by omega) hle
  refine ⟨bytes, ?_, by rw [hbytes, Int.toNat_natCast]⟩
  rw [readBytes, if_pos hle, h.wrap_add (by omega) hle, hslice]
  rfl

theorem readBytes_spec (h : c.InBounds) (n : ℕ) :
    ∃ r, c.readBytes n = .returned r ∧ Spec c r := by
  by_cases hle : (n : ℤ) ≤ c.dataLeft
  · obtain ⟨bytes, hread, -⟩ := readBytes_of_le h hle
    exact ⟨_, hread, Spec.success h (by omega) hle⟩
  · rw [readBytes, if_neg hle]
    exact ⟨_, rfl, Spec.failure h⟩

theorem readT_spec (h : c.InBounds) (size : ℕ) :
    ∃ r, c.readT size = .returned r ∧ Spec c r := by
  obtain ⟨data, hdata, hspec⟩ := readBytes_spec h size
  rw [readT, hdata]
  exact ⟨_, rfl, hspec.later, hspec.bounds, hspec.failed⟩

theorem readByte_of_le (h : c.InBounds) (hle : 1 ≤ c.dataLeft) :
    c.readByte = .returned ⟨c.data.bytes.getD c.curr.toNat 0, true, c.advance 1⟩ := by
  have hget : c.data.get c.curr = .returned (c.data.bytes.getD c.curr.toNat 0) := by
    rw [h.dataLeft_eq] at hle
    rw [ByteSlice.get, if_pos ⟨h.nonneg, by omega⟩]
  rw [readByte, if_pos hle, hget]
  rfl

theorem readByte_spec (h : c.InBounds) : ∃ r, c.readByte = .returned r ∧ Spec c r := by
  by_cases hle : 1 ≤ c.dataLeft
  · exact ⟨_, readByte_of_le h hle, Spec.success h (by omega) hle⟩
  · rw [readByte, if_neg hle]
    exact failAt_spec h _ _ _

/-- A decoder never consumes more than it was given. -/
theorem InBounds.size_le (h : c.InBounds) {cs rest : List UInt8}
    (hrest : c.data.bytes.drop c.curr.toNat = cs ++ rest) : (cs.length : ℤ) ≤ c.dataLeft := by
  have hlen : c.data.len = c.data.bytes.length := rfl
  have hsum := congrArg List.length hrest
  have hnonneg := h.nonneg
  have hle := h.le_len
  rw [List.length_drop, List.length_append] at hsum
  rw [h.dataLeft_eq]
  omega

theorem readIXXLeb_spec (h : c.InBounds) (bits : ℕ) (tName : String) :
    ∃ r, c.readIXXLeb bits tName = .returned r ∧ Spec c r := by
  obtain ⟨rest, hslice, hrest⟩ := h.slice_rest
  rw [readIXXLeb, hslice, Outcome.returned_bind, hrest]
  split
  · rename_i value size hdec
    obtain ⟨cs, rest', hsplit, -, rfl⟩ := Leb128.decodeSigned_sound hdec
    split
    · split
      · exact ⟨_, rfl, Spec.success h (by omega) (h.size_le hsplit)⟩
      · exact failAt_spec h _ _ _
    · exact failAt_spec h _ _ _
  · exact failAt_spec h _ _ _
  · exact failAt_spec h _ _ _

theorem readUXXLeb_spec (h : c.InBounds) (bits : ℕ) (tName : String) :
    ∃ r, c.readUXXLeb bits tName = .returned r ∧ Spec c r := by
  obtain ⟨rest, hslice, hrest⟩ := h.slice_rest
  rw [readUXXLeb, hslice, Outcome.returned_bind, hrest]
  split
  · rename_i value size hdec
    obtain ⟨cs, rest', hsplit, -, rfl⟩ := Leb128.decodeUnsigned_sound hdec
    split
    · split
      · exact ⟨_, rfl, Spec.success h (by omega) (h.size_le hsplit)⟩
      · exact failAt_spec h _ _ _
    · exact failAt_spec h _ _ _
  · exact failAt_spec h _ _ _
  · exact failAt_spec h _ _ _

/-! ### The readers without checks -/

/-- A diagnostic with the ends of its range as `int`s. -/
def ofDiagnostic (d : BinDiagnostic) : BinError × ℤ × ℤ :=
  (d.error, d.range.start, d.range.stop)

/-- `c` is the context `m` of the readers without checks, at an offset that is an `int`. -/
structure Models (c : BinCursor) (m : BinReadCtx) : Prop where
  base : c.base = m.base
  curr : c.curr = m.curr
  data : c.data.bytes = m.data
  diags : c.diags = m.diags.map ofDiagnostic
  bound : m.curr ≤ m.data.length
  fits : m.base + m.data.length < 2 ^ 63

/-- The read `r` is the read `q` without checks, its value up to `f`. -/
structure Simulates (f : α → β) (r : CursorResult α) (q : ReadResult β) : Prop where
  value : f r.value = q.value
  ok : r.ok = q.ok
  ctx : r.ctx.Models q.ctx

variable {m : BinReadCtx}

theorem Models.inBounds (h : c.Models m) : c.InBounds where
  nonneg := by rw [h.curr]; omega
  le_len := by rw [h.curr, ByteSlice.len, h.data]; exact_mod_cast h.bound

theorem Models.dataLeft_eq (h : c.Models m) : c.dataLeft = binReaderDataLeft m := by
  rw [h.inBounds.dataLeft_eq, h.curr, ByteSlice.len, h.data, binReaderDataLeft,
    Nat.cast_sub h.bound]

theorem Models.anchor_eq (h : c.Models m) : c.anchor = binReaderAnchor m := by
  have hbound := h.bound
  have hfits := h.fits
  rw [anchor, absolutePos, h.base, h.curr, wrapInt_eq (by omega) (by omega)]
  rfl

theorem Models.advance (h : c.Models m) {n : ℕ} (hle : n ≤ binReaderDataLeft m) :
    (c.advance n).Models (m.advance n) where
  base := h.base
  curr := by
    have hwrap := h.inBounds.wrap_add (n := n) (by omega) (by rw [h.dataLeft_eq]; omega)
    exact hwrap.trans (by rw [h.curr]; rfl)
  data := h.data
  diags := h.diags
  bound := by
    have hbound := h.bound
    rw [binReaderDataLeft] at hle
    change m.curr + n ≤ m.data.length
    omega
  fits := h.fits

theorem Models.errorf (h : c.Models m) {start stop : ℤ} {range : BinByteRange}
    (hstart : start = range.start) (hstop : stop = range.stop) (format : String)
    (args : List FmtArg) :
    (c.errorf start stop format args).Models (binErrorf m range format args) where
  base := h.base
  curr := h.curr
  data := h.data
  diags := by
    rw [BinCursor.errorf, binErrorf, h.diags, List.map_append, hstart, hstop]
    rfl
  bound := h.bound
  fits := h.fits

theorem failAt_simulates (h : c.Models m) {f : α → β} {zero : α} {zero' : β}
    (hzero : f zero = zero') (format : String) (args : List FmtArg) :
    ∃ r, c.failAt c.anchor zero format args = .returned r ∧
      Simulates f r ⟨zero', false,
        binErrorf m (binReaderAnchorRange m (binReaderAnchor m)) format args⟩ :=
  ⟨_, failAt_anchor c zero format args, hzero, rfl, h.errorf h.anchor_eq h.anchor_eq format args⟩

theorem readBytes_simulates (h : c.Models m) {n : ℕ} (hn : n < 2 ^ 63) :
    ∃ r, c.readBytes n = .returned r ∧ Simulates ByteSlice.bytes r (binReadBytes m n) := by
  have hleft := h.dataLeft_eq
  have hbound := h.bound
  have hfits := h.fits
  have hdata : binReaderDataLeft m = m.data.length - m.curr := rfl
  have hanchor : binReaderAnchor m = m.base + m.curr := rfl
  rw [binReadBytes]
  by_cases hle : n ≤ binReaderDataLeft m
  · obtain ⟨bytes, hread, hbytes⟩ := readBytes_of_le h.inBounds (n := n) (by omega)
    rw [if_pos hle]
    exact ⟨_, hread, by rw [hbytes, h.data, h.curr, Int.toNat_natCast], rfl, h.advance hle⟩
  · rw [if_neg hle, readBytes, if_neg (by omega), hleft, h.anchor_eq,
      wrapInt_eq (by omega) (by omega), wrapInt_eq (by omega) (by omega)]
    exact ⟨_, rfl, rfl, rfl, h.errorf (by rfl) (by push_cast; rfl) _ _⟩

theorem readT_simulates (h : c.Models m) {size : ℕ} (hsize : size < 2 ^ 63) :
    ∃ r, c.readT size = .returned r ∧ Simulates id r (binReadT m size) := by
  obtain ⟨data, hdata, hvalue, hok, hctx⟩ := readBytes_simulates h hsize
  rw [readT, hdata]
  exact ⟨_, rfl, by rw [binReadT, ← hvalue, ← hok]; rfl, hok, hctx⟩

theorem readByte_simulates (h : c.Models m) :
    ∃ r, c.readByte = .returned r ∧ Simulates id r (binReadByte m) := by
  have hleft := h.dataLeft_eq
  rw [binReadByte]
  by_cases hle : 1 ≤ binReaderDataLeft m
  · rw [if_pos hle, readByte_of_le h.inBounds (by omega)]
    exact ⟨_, rfl, by rw [h.data, h.curr, Int.toNat_natCast]; rfl, rfl, h.advance hle⟩
  · rw [if_neg hle, readByte, if_neg (by omega)]
    exact failAt_simulates h rfl _ _

theorem Models.drop_eq (h : c.Models m) : c.data.bytes.drop c.curr.toNat = m.rest := by
  rw [h.data, h.curr, Int.toNat_natCast]
  rfl

/-- What a decoder consumed was left in the data. -/
theorem length_le_dataLeft {cs rest : List UInt8} (hrest : m.rest = cs ++ rest) :
    cs.length ≤ binReaderDataLeft m := by
  rw [← BinReadCtx.length_rest, hrest, List.length_append]
  omega

theorem readIXXLeb_simulates (h : c.Models m) (bits : ℕ) (tName : String) :
    ∃ r, c.readIXXLeb bits tName = .returned r ∧ Simulates id r (binReadIXXLeb bits tName m) := by
  obtain ⟨rest, hslice, hrest⟩ := h.inBounds.slice_rest
  rw [readIXXLeb, hslice, Outcome.returned_bind, hrest, h.drop_eq, binReadIXXLeb]
  cases hdec : Leb128.decodeSigned m.rest with
  | ok result =>
    obtain ⟨value, size⟩ := result
    obtain ⟨cs, rest', hsplit, -, rfl⟩ := Leb128.decodeSigned_sound hdec
    dsimp only
    split
    · split
      · exact ⟨_, rfl, rfl, rfl, h.advance (length_le_dataLeft hsplit)⟩
      · exact failAt_simulates h rfl _ _
    · exact failAt_simulates h rfl _ _
  | error e =>
    cases e with
    | bufferTooSmall => exact failAt_simulates h rfl _ _
    | valueTooLarge => exact failAt_simulates h rfl _ _

theorem readUXXLeb_simulates (h : c.Models m) (bits : ℕ) (tName : String) :
    ∃ r, c.readUXXLeb bits tName = .returned r ∧ Simulates id r (binReadUXXLeb bits tName m) := by
  obtain ⟨rest, hslice, hrest⟩ := h.inBounds.slice_rest
  rw [readUXXLeb, hslice, Outcome.returned_bind, hrest, h.drop_eq, binReadUXXLeb]
  cases hdec : Leb128.decodeUnsigned m.rest with
  | ok result =>
    obtain ⟨value, size⟩ := result
    obtain ⟨cs, rest', hsplit, -, rfl⟩ := Leb128.decodeUnsigned_sound hdec
    dsimp only
    split
    · split
      · exact ⟨_, rfl, rfl, rfl, h.advance (length_le_dataLeft hsplit)⟩
      · exact failAt_simulates h rfl _ _
    · exact failAt_simulates h rfl _ _
  | error e =>
    cases e with
    | bufferTooSmall => exact failAt_simulates h rfl _ _
    | valueTooLarge => exact failAt_simulates h rfl _ _

end BinCursor

end Wasim
