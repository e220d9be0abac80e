import Wasim.Binary.Controls

/-!
# The immediates of plain instructions

The comment on `Instruction_Opcode` documents where the immediates of an instruction are: in its
field `extra`, or in the extra bytes from `extras[extra]` on. `Expr.readPlain` reads an
instruction back by that comment.

What an instruction has in the extra bytes is written in one piece, so nothing pushed later gets
in between. Only the offset can go wrong: it is kept in a `u32`, and from `2 ^ 32` extra bytes on
it wraps around (`binReadExpr_readsBack_iff`).
-/

namespace Wasim

/-! ### Reading by the documentation -/

/-- Several `u32`s one after the other. -/
def readWords : ℕ → List UInt8 → Option (List UInt32)
  | 0, _ => some []
  | n + 1, bs => do
    let word ← readWord bs
    let words ← readWords n (bs.drop 4)
    return UInt32.ofNat word :: words

/-- A `u64` at the start of a byte string. -/
def readDword (bs : List UInt8) : Option UInt64 :=
  if 8 ≤ bs.length then some (UInt64.ofNat (LittleEndian.value (bs.take 8))) else none

/-- The integer that `n` stands for in two's complement. -/
def twosComplement (bits n : ℕ) : ℤ := if n < 2 ^ (bits - 1) then n else n - 2 ^ bits

/-- The instruction with this opcode and this field `extra`; `bs` are the extra bytes from
`extras[extra]` on. -/
def readPlain (op : InstructionOpcode) (extra : UInt32) (bs : List UInt8) : Option PlainInstr :=
  if NullaryOp op then some (.nullary op)
  else if IndexOp op then some (.index op extra)
  else if op = Opcode.brTable then do
    let count ← readWord bs
    let labels ← readWords count (bs.drop 4)
    let default ← readWord (bs.drop (4 + 4 * count))
    return .brTable labels (UInt32.ofNat default)
  else if op = Opcode.callIndirect then some (.callIndirect extra)
  else if MemargOp op then do
    let align ← readWord bs
    let offset ← readWord (bs.drop 4)
    return .memarg op (UInt32.ofNat align) (UInt32.ofNat offset)
  else if MemoryOp op then some (.memory op)
  else if op = Opcode.i32Const then some (.i32Const (twosComplement 32 extra.toNat))
  else if op = Opcode.i64Const then do
    let constant ← readDword bs
    return .i64Const (twosComplement 64 constant.toNat)
  else if op = Opcode.f32Const then some (.f32Const extra)
  else if op = Opcode.f64Const then do
    let bits ← readDword bs
    return .f64Const bits
  else none

/-- Read the plain instruction at index `i`. -/
def Expr.readPlain (e : Expr) (i : ℕ) : Option PlainInstr := do
  let inst ← e.instructions[i]?
  Wasim.readPlain inst.opcode inst.extra (e.extras.drop inst.extra.toNat)

/-! ### What is read -/

theorem append_prefix_iff {α : Type*} {xs ys zs : List α} :
    xs ++ ys <+: zs ↔ xs <+: zs ∧ ys <+: zs.drop xs.length := by
  constructor
  · rintro ⟨t, rfl⟩
    exact ⟨⟨ys ++ t, by rw [List.append_assoc]⟩, ⟨t, by rw [List.append_assoc, List.drop_left]⟩⟩
  · rintro ⟨⟨t, rfl⟩, h⟩
    rw [List.drop_left] at h
    exact (List.prefix_append_right_inj xs).mpr h

theorem readWord_eq_some' {bs : List UInt8} {x : UInt32} :
    (∃ w, readWord bs = some w ∧ UInt32.ofNat w = x) ↔ le32 x <+: bs := by
  constructor
  · rintro ⟨w, hw, rfl⟩
    obtain ⟨hlt, hprefix⟩ := readWord_eq_some.mp hw
    rwa [le32, UInt32.toNat_ofNat_of_lt' hlt]
  · intro h
    exact ⟨x.toNat, readWord_eq_some.mpr ⟨x.toNat_lt, h⟩, UInt32.ofNat_toNat⟩

theorem readWords_eq_some {n : ℕ} {bs : List UInt8} {words : List UInt32} :
    readWords n bs = some words ↔ words.length = n ∧ words.flatMap le32 <+: bs := by
  induction n generalizing bs words with
  | zero =>
    rw [readWords, Option.some.injEq, eq_comm, List.length_eq_zero_iff]
    exact ⟨fun h => ⟨h, by simp [h]⟩, And.left⟩
  | succ n ih =>
    rw [readWords]
    constructor
    · intro h
      obtain ⟨word, hword, h⟩ := Option.bind_eq_some_iff.mp h
      obtain ⟨rest, hrest, h⟩ := Option.bind_eq_some_iff.mp h
      obtain rfl := Option.some.inj h
      obtain ⟨rfl, hprefix⟩ := ih.mp hrest
      have hle : le32 (UInt32.ofNat word) <+: bs := readWord_eq_some'.mp ⟨word, hword, rfl⟩
      exact ⟨rfl, by
        rw [List.flatMap_cons, append_prefix_iff]
        exact ⟨hle, by simpa [le32] using hprefix⟩⟩
    · rintro ⟨hlen, hprefix⟩
      rcases words with _ | ⟨word, rest⟩
      · simp at hlen
      rw [List.flatMap_cons, append_prefix_iff] at hprefix
      obtain ⟨w, hw, rfl⟩ := readWord_eq_some'.mpr hprefix.1
      have hrest := ih.mpr ⟨by simpa using hlen, by simpa [le32] using hprefix.2⟩
      rw [hw, Option.bind_eq_bind, Option.bind_some, hrest]
      rfl

theorem readDword_eq_some {bs : List UInt8} {x : UInt64} :
    readDword bs = some x ↔ le64 x <+: bs := by
  rw [readDword, le64]
  constructor
  · intro h
    split at h
    · rename_i hlen
      have htake : (bs.take 8).length = 8 := by simp [hlen]
      have hlt := LittleEndian.value_lt (bs.take 8)
      have hbytes := LittleEndian.bytes_value (bs.take 8)
      rw [htake] at hlt hbytes
      obtain rfl := Option.some.inj h
      rw [UInt64.toNat_ofNat_of_lt' (by simpa [UInt64.size] using hlt), hbytes]
      exact List.take_prefix 8 bs
    · cases h
  · rintro ⟨tail, rfl⟩
    rw [if_pos (by simp), List.take_append_of_le_length (by simp), List.take_of_length_le (by simp),
      LittleEndian.value_bytes, Nat.mod_eq_of_lt (by simpa using x.toNat_lt), UInt64.ofNat_toNat]

theorem twosComplement_ofInt32 {v : ℤ} (hmin : -2 ^ 31 ≤ v) (hmax : v < 2 ^ 31) :
    twosComplement 32 (UInt32.ofInt v).toNat = v := by
  have hnat : ((UInt32.ofInt v).toNat : ℤ) = v % 2 ^ 32 := by
    rw [UInt32.ofInt, UInt32.toNat_ofNat_of_lt' (by rw [UInt32.size]; omega)]
    omega
  rw [twosComplement]
  split <;> omega

theorem twosComplement_ofInt64 {v : ℤ} (hmin : -2 ^ 63 ≤ v) (hmax : v < 2 ^ 63) :
    twosComplement 64 (UInt64.ofInt v).toNat = v := by
  have hnat : ((UInt64.ofInt v).toNat : ℤ) = v % 2 ^ 64 := by
    rw [UInt64.ofInt, UInt64.toNat_ofNat_of_lt' (by rw [UInt64.size]; omega)]
    omega
  rw [twosComplement]
  split <;> omega

theorem ofInt_twosComplement (n : UInt64) : UInt64.ofInt (twosComplement 64 n.toNat) = n := by
  have hn := n.toNat_lt
  apply UInt64.toNat_inj.mp
  rw [UInt64.ofInt, UInt64.toNat_ofNat_of_lt' (by rw [UInt64.size]; omega), twosComplement]
  split <;> omega

/-- The field `extra` is the offset, unless there are no extra bytes. -/
theorem PlainInstr.payload_eq_nil_or (i : PlainInstr) :
    i.payload = [] ∨ ∀ offset, i.extra offset = UInt32.ofNat offset := by
  cases i <;> first | exact .inl rfl | exact .inr fun _ => rfl

/-- The groups of opcodes do not meet, and the others are in none of them. -/
theorem opcode_groups : ∀ op : InstructionOpcode,
    (IndexOp op → ¬NullaryOp op) ∧
    (MemargOp op → ¬NullaryOp op ∧ ¬IndexOp op ∧ op ≠ Opcode.brTable ∧
      op ≠ Opcode.callIndirect) ∧
    (MemoryOp op → ¬NullaryOp op ∧ ¬IndexOp op ∧ op ≠ Opcode.brTable ∧
      op ≠ Opcode.callIndirect ∧ ¬MemargOp op) :=
  forall_byte (by decide +kernel)

/-- An instruction is read back exactly if its extra bytes are there. -/
theorem readPlain_eq_some {i : PlainInstr} {b : List UInt8} (hi : i.Encodes b) (offset : ℕ)
    (bs : List UInt8) : readPlain i.opcode (i.extra offset) bs = some i ↔ i.payload <+: bs := by
  have hinline : i.payload = [] → readPlain i.opcode (i.extra offset) bs = some i →
      (readPlain i.opcode (i.extra offset) bs = some i ↔ i.payload <+: bs) := by
    intro hpayload hread
    exact iff_of_true hread (hpayload ▸ List.nil_prefix)
  cases hi with
  | nullary h => exact hinline rfl (if_pos h)
  | @index op x _ h _ =>
    refine hinline rfl ?_
    rw [readPlain, PlainInstr.opcode, if_neg ((opcode_groups op).1 h), if_pos h]
    rfl
  | callIndirect => exact hinline rfl rfl
  | memory h =>
    obtain ⟨h₁, h₂, h₃, h₄, h₅⟩ := (opcode_groups _).2.2 h
    refine hinline rfl ?_
    rw [readPlain, PlainInstr.opcode, if_neg h₁, if_neg h₂, if_neg h₃, if_neg h₄, if_neg h₅,
      if_pos h]
  | @i32Const v _ hv =>
    refine hinline rfl ?_
    rw [show readPlain (PlainInstr.i32Const v).opcode ((PlainInstr.i32Const v).extra offset) bs =
      some (.i32Const (twosComplement 32 (UInt32.ofInt v).toNat)) from rfl,
      twosComplement_ofInt32 hv.2.2.1 hv.2.2.2]
  | f32Const => exact hinline rfl rfl
  | @brTable labels default _ _ hl _ =>
    have hcount : labels.length < 2 ^ 32 := by
      obtain ⟨n, es, hn, -, -⟩ := hl
      exact hn.2.2
    have hread : readPlain (PlainInstr.brTable labels default).opcode
        ((PlainInstr.brTable labels default).extra offset) bs =
        (do
          let count ← readWord bs
          let labels ← readWords count (bs.drop 4)
          let default ← readWord (bs.drop (4 + 4 * count))
          return .brTable labels (UInt32.ofNat default)) := rfl
    have hlength : (labels.flatMap le32).length = 4 * labels.length := by
      simp [le32, Nat.mul_comm]
    rw [hread, PlainInstr.payload, append_prefix_iff, append_prefix_iff, List.length_append,
      hlength]
    constructor
    · intro h
      obtain ⟨count, hc, h⟩ := Option.bind_eq_some_iff.mp h
      obtain ⟨words, hw, h⟩ := Option.bind_eq_some_iff.mp h
      obtain ⟨d, hd, h⟩ := Option.bind_eq_some_iff.mp h
      obtain ⟨rfl, rfl⟩ := PlainInstr.brTable.inj (Option.some.inj h)
      obtain ⟨rfl, hwords⟩ := readWords_eq_some.mp hw
      exact ⟨⟨readWord_eq_some'.mp ⟨_, hc, rfl⟩, by simpa [le32] using hwords⟩,
        readWord_eq_some'.mp ⟨_, by simpa [le32] using hd, rfl⟩⟩
    · rintro ⟨⟨hc, hw⟩, hd⟩
      obtain ⟨count, hcount', hc'⟩ := readWord_eq_some'.mpr hc
      obtain rfl : count = labels.length := by
        have hlt := (readWord_eq_some.mp hcount').1
        have := congrArg UInt32.toNat hc'
        rwa [UInt32.toNat_ofNat_of_lt' hlt, UInt32.toNat_ofNat_of_lt' hcount] at this
      obtain ⟨d, hd', rfl⟩ := readWord_eq_some'.mpr hd
      have hwords := readWords_eq_some.mpr ⟨rfl, by simpa [le32] using hw⟩
      rw [hcount', Option.bind_eq_bind, Option.bind_some, hwords, Option.bind_eq_bind,
        Option.bind_some]
      rw [show (le32 (UInt32.ofNat labels.length)).length = 4 by simp [le32]] at hd'
      rw [hd']
      rfl
  | @memarg op align memOffset _ _ h _ _ =>
    obtain ⟨h₁, h₂, h₃, h₄⟩ := (opcode_groups op).2.1 h
    have hread : readPlain (PlainInstr.memarg op align memOffset).opcode
        ((PlainInstr.memarg op align memOffset).extra offset) bs =
        (do
          let align ← readWord bs
          let offset ← readWord (bs.drop 4)
          return .memarg op (UInt32.ofNat align) (UInt32.ofNat offset)) := by
      rw [readPlain, PlainInstr.opcode, if_neg h₁, if_neg h₂, if_neg h₃, if_neg h₄, if_pos h]
    rw [hread, PlainInstr.payload, append_prefix_iff]
    constructor
    · intro h
      obtain ⟨a, ha, h⟩ := Option.bind_eq_some_iff.mp h
      obtain ⟨o, ho, h⟩ := Option.bind_eq_some_iff.mp h
      obtain ⟨-, rfl, rfl⟩ := PlainInstr.memarg.inj (Option.some.inj h)
      exact ⟨readWord_eq_some'.mp ⟨_, ha, rfl⟩,
        readWord_eq_some'.mp ⟨_, by simpa [le32] using ho, rfl⟩⟩
    · rintro ⟨ha, ho⟩
      obtain ⟨a, ha', rfl⟩ := readWord_eq_some'.mpr ha
      obtain ⟨o, ho', rfl⟩ := readWord_eq_some'.mpr ho
      rw [show (le32 (UInt32.ofNat a)).length = 4 by simp [le32]] at ho'
      rw [ha', Option.bind_eq_bind, Option.bind_some, ho']
      rfl
  | @i64Const v _ hv =>
    have hread : readPlain (PlainInstr.i64Const v).opcode ((PlainInstr.i64Const v).extra offset)
        bs = (do
          let constant ← readDword bs
          return .i64Const (twosComplement 64 constant.toNat)) := rfl
    rw [hread, PlainInstr.payload, ← readDword_eq_some]
    constructor
    · intro h
      obtain ⟨c, hc, h⟩ := Option.bind_eq_some_iff.mp h
      rw [← PlainInstr.i64Const.inj (Option.some.inj h), ofInt_twosComplement]
      exact hc
    · intro h
      rw [h, Option.bind_eq_bind, Option.bind_some,
        twosComplement_ofInt64 hv.2.2.1 hv.2.2.2]
      rfl
  | f64Const bits =>
    have hread : readPlain (PlainInstr.f64Const bits).opcode
        ((PlainInstr.f64Const bits).extra offset) bs = (do
          let bits ← readDword bs
          return .f64Const bits) := rfl
    rw [hread, PlainInstr.payload, ← readDword_eq_some]
    constructor
    · intro h
      obtain ⟨c, hc, h⟩ := Option.bind_eq_some_iff.mp h
      rwa [PlainInstr.f64Const.inj (Option.some.inj h)] at hc
    · intro h
      rw [h]
      rfl

/-! ### The instructions in source order -/

/-- An instruction of a sequence: a plain one as a whole, of the others the opcode. -/
inductive SourceInstr where
  | plain (i : PlainInstr)
  | mark (op : InstructionOpcode)

def SourceInstr.opcode : SourceInstr → InstructionOpcode
  | plain i => i.opcode
  | mark op => op

/-- The instructions of a sequence in the order of the source, every `else` and `end` of a
construct inside it included. -/
def Instrs.source : Instrs → List SourceInstr
  | nil => []
  | plain i rest => .plain i :: rest.source
  | block isLoop _ body rest =>
    .mark (blockOp isLoop) :: (body.source ++ .mark 0x0B :: rest.source)
  | ifThen _ body rest => .mark 0x04 :: (body.source ++ .mark 0x0B :: rest.source)
  | ifElse _ body els rest =>
    .mark 0x04 :: (body.source ++ .mark 0x05 :: (els.source ++ .mark 0x0B :: rest.source))

/-- The offsets of the extra bytes of the instructions, in the order of the source; the first
extra byte of the sequence stands at `offset`. An `else` and an `end` have none. -/
def Instrs.offsets : Instrs → ℕ → List ℕ
  | nil, _ => []
  | plain i rest, offset => offset :: rest.offsets (offset + i.payload.length)
  | block _ type body rest, offset =>
    offset :: (body.offsets (offset + (blockTypeBytes type).length) ++ 0 ::
      rest.offsets (offset + (blockTypeBytes type).length + body.payloadSize + 4))
  | ifThen type body rest, offset =>
    offset :: (body.offsets (offset + (blockTypeBytes type).length) ++ 0 ::
      rest.offsets (offset + (blockTypeBytes type).length + body.payloadSize + 8))
  | ifElse type body els rest, offset =>
    offset :: (body.offsets (offset + (blockTypeBytes type).length) ++ 0 ::
      (els.offsets (offset + (blockTypeBytes type).length + body.payloadSize + 4) ++ 0 ::
        rest.offsets (offset + (blockTypeBytes type).length + body.payloadSize + 4 +
          els.payloadSize + 4)))

/-- The instructions of a sequence with their offsets. -/
def Instrs.placed (is : Instrs) (offset : ℕ) : List (SourceInstr × ℕ) :=
  is.source.zip (is.offsets offset)

/-- What is pushed for an instruction of the source. -/
def SourceInstr.instruction : SourceInstr → ℕ → Instruction
  | plain i, offset => ⟨i.opcode, i.extra offset⟩
  | mark op, offset => ⟨op, UInt32.ofNat offset⟩

namespace Instrs

@[simp]
theorem length_source (is : Instrs) : is.source.length = is.size := by
  induction is with
  | nil => rfl
  | plain i rest ih => simp [source, size, ih]; omega
  | block l t body rest ihb ihr => simp [source, size, ihb, ihr]; omega
  | ifThen t body rest ihb ihr => simp [source, size, ihb, ihr]; omega
  | ifElse t body els rest ihb ihe ihr => simp [source, size, ihb, ihe, ihr]; omega

@[simp]
theorem length_offsets (is : Instrs) (offset : ℕ) : (is.offsets offset).length = is.size := by
  induction is generalizing offset with
  | nil => rfl
  | plain i rest ih => simp [offsets, size, ih]; omega
  | block l t body rest ihb ihr => simp [offsets, size, ihb, ihr]; omega
  | ifThen t body rest ihb ihr => simp [offsets, size, ihb, ihr]; omega
  | ifElse t body els rest ihb ihe ihr => simp [offsets, size, ihb, ihe, ihr]; omega

/-- The flat form of a sequence is its source with the offsets. -/
theorem flat_eq (is : Instrs) (offset : ℕ) :
    is.flat offset = (is.placed offset).map fun p => p.1.instruction p.2 := by
  induction is generalizing offset with
  | nil => rfl
  | plain i rest ih => simp [flat, placed, source, offsets, ih, SourceInstr.instruction]
  | block l t body rest ihb ihr =>
    simp [flat, placed, source, offsets, ihb, ihr, SourceInstr.instruction, List.zip_append]
  | ifThen t body rest ihb ihr =>
    simp [flat, placed, source, offsets, ihb, ihr, SourceInstr.instruction, List.zip_append]
  | ifElse t body els rest ihb ihe ihr =>
    simp [flat, placed, source, offsets, ihb, ihe, ihr, SourceInstr.instruction, List.zip_append]

/-- The extra bytes of a plain instruction stand at its offset `o`. -/
def StandsAt (is : Instrs) (pos offset : ℕ) (i : PlainInstr) (o : ℕ) : Prop :=
  ∃ pre post, is.payload pos = pre ++ (i.payload ++ post) ∧ offset + pre.length = o

/-- A part of a sequence, put between other extra bytes. -/
theorem StandsAt.mono {is is' : Instrs} {pos pos' offset offset' o : ℕ} {i : PlainInstr}
    (h : is.StandsAt pos offset i o) {p q : List UInt8}
    (hpayload : is'.payload pos' = p ++ (is.payload pos ++ q))
    (hoffset : offset = offset' + p.length) :
    is'.StandsAt pos' offset' i o := by
  obtain ⟨pre, post, hp, ho⟩ := h
  refine ⟨p ++ pre, post ++ q, ?_, ?_⟩
  · rw [hpayload, hp]
    simp only [List.append_assoc]
  · rw [List.length_append]
    omega

theorem standsAt_of_mem_placed {is : Instrs} (pos offset : ℕ) {o : ℕ} {i : PlainInstr}
    (hmem : (.plain i, o) ∈ is.placed offset) : is.StandsAt pos offset i o := by
  induction is generalizing pos offset with
  | nil => cases hmem
  | plain j rest ih =>
    rcases List.mem_cons.mp hmem with heq | hmem
    · obtain ⟨⟨rfl⟩, rfl⟩ := Prod.mk.inj heq
      exact ⟨[], rest.payload (pos + 1), rfl, rfl⟩
    · exact (ih (pos + 1) _ hmem).mono (p := j.payload) (q := []) (by simp [payload]) rfl
  | block isLoop type body rest ihb ihr =>
    rw [placed, source, offsets, List.zip_cons_cons, List.zip_append (by simp),
      List.zip_cons_cons] at hmem
    rcases List.mem_cons.mp hmem with heq | hmem
    · cases heq
    rcases List.mem_append.mp hmem with hmem | hmem
    · exact (ihb (pos + 1) _ hmem).mono (p := blockTypeBytes type) rfl rfl
    rcases List.mem_cons.mp hmem with heq | hmem
    · cases heq
    · exact (ihr (pos + body.size + 2) _ hmem).mono (q := [])
        (p := blockTypeBytes type ++ (body.payload (pos + 1) ++ le32 (UInt32.ofNat (pos + 1))))
        (by simp [payload]) (by simp [le32, Nat.add_assoc])
  | ifThen type body rest ihb ihr =>
    rw [placed, source, offsets, List.zip_cons_cons, List.zip_append (by simp),
      List.zip_cons_cons] at hmem
    rcases List.mem_cons.mp hmem with heq | hmem
    · cases heq
    rcases List.mem_append.mp hmem with hmem | hmem
    · exact (ihb (pos + 1) _ hmem).mono (p := blockTypeBytes type) rfl rfl
    rcases List.mem_cons.mp hmem with heq | hmem
    · cases heq
    · exact (ihr (pos + body.size + 2) _ hmem).mono (q := [])
        (p := blockTypeBytes type ++
          (body.payload (pos + 1) ++ (le32 (UInt32.ofNat (pos + 1)) ++ le32 0)))
        (by simp [payload]) (by simp [le32, Nat.add_assoc])
  | ifElse type body els rest ihb ihe ihr =>
    rw [placed, source, offsets, List.zip_cons_cons, List.zip_append (by simp),
      List.zip_cons_cons, List.zip_append (by simp), List.zip_cons_cons] at hmem
    rcases List.mem_cons.mp hmem with heq | hmem
    · cases heq
    rcases List.mem_append.mp hmem with hmem | hmem
    · exact (ihb (pos + 1) _ hmem).mono (p := blockTypeBytes type) rfl rfl
    rcases List.mem_cons.mp hmem with heq | hmem
    · cases heq
    rcases List.mem_append.mp hmem with hmem | hmem
    · exact (ihe (pos + body.size + 2) _ hmem).mono
        (p := blockTypeBytes type ++ (body.payload (pos + 1) ++ le32 (UInt32.ofNat (pos + 1))))
        (q := le32 (UInt32.ofNat (pos + body.size + 2)) ++
          rest.payload (pos + body.size + els.size + 3))
        (by simp [payload]) (by simp [le32, Nat.add_assoc])
    rcases List.mem_cons.mp hmem with heq | hmem
    · cases heq
    · exact (ihr (pos + body.size + els.size + 3) _ hmem).mono (q := [])
        (p := blockTypeBytes type ++ (body.payload (pos + 1) ++ (le32 (UInt32.ofNat (pos + 1)) ++
          (els.payload (pos + body.size + 2) ++ le32 (UInt32.ofNat (pos + body.size + 2))))))
        (by simp [payload]) (by simp [le32, Nat.add_assoc])

theorem map_fst_placed (is : Instrs) (offset : ℕ) :
    (is.placed offset).map Prod.fst = is.source :=
  List.map_fst_zip (by simp)

/-- The plain instructions of an encodable sequence are encodable. -/
theorem exists_encodes_of_mem_source {is : Instrs} {b : List UInt8} (he : is.Encodes b)
    {i : PlainInstr} (hi : .plain i ∈ is.source) : ∃ bs, i.Encodes bs := by
  induction he with
  | nil => cases hi
  | plain hj _ ih =>
    rcases List.mem_cons.mp hi with heq | hi
    · obtain rfl := SourceInstr.plain.inj heq
      exact ⟨_, hj⟩
    · exact ih hi
  | block _ _ _ ihb ihr =>
    simp only [source, List.mem_cons, List.mem_append, reduceCtorEq, false_or] at hi
    exact hi.elim ihb ihr
  | ifThen _ _ _ ihb ihr =>
    simp only [source, List.mem_cons, List.mem_append, reduceCtorEq, false_or] at hi
    exact hi.elim ihb ihr
  | ifElse _ _ _ _ ihb ihe ihr =>
    simp only [source, List.mem_cons, List.mem_append, reduceCtorEq, false_or] at hi
    exact hi.elim ihb fun hi => hi.elim ihe ihr

end Instrs

/-! ### Reading the sequence back -/

/-- Behind the sentinel the expression has the opcodes of the sequence in the order of the
source, closed by an `end`, and every plain instruction can be read back by the
documentation. -/
structure PlainsReadBack (is : Instrs) (e : Expr) : Prop where
  sentinel : e.instructions.head? = some {}
  opcodes : e.instructions.tail.map Instruction.opcode =
    is.source.map SourceInstr.opcode ++ [Opcode.endOp]
  plains : ∀ j i, is.source[j]? = some (.plain i) → e.readPlain (j + 1) = some i

/-- The extra bytes of a plain instruction at offset `o` are found: below `2 ^ 32` always, above
it only if the same bytes happen to stand where the offset has wrapped around to. -/
def PlainInstr.Found (i : PlainInstr) (o : ℕ) (extras : List UInt8) : Prop :=
  2 ^ 32 ≤ o → i.payload <+: extras.drop (o % 2 ^ 32)

theorem Expr.readPlain_ofInstrs {is : Instrs} {b : List UInt8} (he : is.Encodes b) {j o : ℕ}
    {i : PlainInstr} (hj : (is.placed 1)[j]? = some (.plain i, o)) :
    (Expr.ofInstrs is).readPlain (j + 1) = some i ↔ i.Found o (Expr.ofInstrs is).extras := by
  have hmem : (.plain i, o) ∈ is.placed 1 := List.mem_of_getElem? hj
  obtain ⟨bs, hbs⟩ := Instrs.exists_encodes_of_mem_source he (List.of_mem_zip hmem).1
  obtain ⟨pre, post, hpayload, hoffset⟩ := Instrs.standsAt_of_mem_placed 1 1 hmem
  have hget : (Expr.ofInstrs is).instructions[j + 1]? = some ⟨i.opcode, i.extra o⟩ := by
    have hlt : j < (is.flat 1).length := by
      rw [Instrs.flat_eq, List.length_map]
      exact (List.getElem?_eq_some_iff.mp hj).1
    rw [Expr.ofInstrs, List.getElem?_cons_succ, List.getElem?_append_left hlt, Instrs.flat_eq,
      List.getElem?_map, hj]
    rfl
  rw [Expr.readPlain, hget, Option.bind_eq_bind, Option.bind_some, readPlain_eq_some hbs]
  rcases i.payload_eq_nil_or with hnil | hextra
  · rw [PlainInstr.Found, hnil]
    exact iff_of_true List.nil_prefix fun _ => List.nil_prefix
  rw [hextra, UInt32.toNat_ofNat', PlainInstr.Found]
  refine ⟨fun h _ => h, fun h => ?_⟩
  rcases Nat.lt_or_ge o (2 ^ 32) with hlt | hge
  · rw [Nat.mod_eq_of_lt hlt, ← hoffset, Expr.ofInstrs, hpayload, Nat.add_comm,
      List.drop_succ_cons, List.drop_left]
    exact List.prefix_append _ _
  · exact h hge

theorem plainsReadBack_iff {is : Instrs} {b : List UInt8} (he : is.Encodes b) :
    PlainsReadBack is (Expr.ofInstrs is) ↔
      ∀ i o, (.plain i, o) ∈ is.placed 1 → i.Found o (Expr.ofInstrs is).extras := by
  constructor
  · intro h i o hmem
    obtain ⟨j, hj⟩ := List.mem_iff_getElem?.mp hmem
    refine (Expr.readPlain_ofInstrs he hj).mp (h.plains j i ?_)
    rw [Instrs.placed, List.getElem?_zip_eq_some] at hj
    exact hj.1
  · intro h
    refine ⟨rfl, ?_, fun j i hj => ?_⟩
    · have hopcode : (Instruction.opcode ∘ fun p : SourceInstr × ℕ => p.1.instruction p.2) =
          SourceInstr.opcode ∘ Prod.fst := by
        funext ⟨i, o⟩
        cases i <;> rfl
      simp only [Expr.ofInstrs, List.tail_cons, List.map_append, List.map_singleton]
      rw [Instrs.flat_eq, List.map_map, hopcode, ← List.map_map, Instrs.map_fst_placed]
      rfl
    · obtain ⟨o, ho⟩ : ∃ o, (is.offsets 1)[j]? = some o := by
        have hlt := (List.getElem?_eq_some_iff.mp hj).1
        rw [Instrs.length_source, ← Instrs.length_offsets is 1] at hlt
        exact ⟨_, List.getElem?_eq_getElem hlt⟩
      have hplaced : (is.placed 1)[j]? = some (.plain i, o) :=
        List.getElem?_zip_eq_some.mpr ⟨hj, ho⟩
      exact (Expr.readPlain_ofInstrs he hplaced).mpr (h i o (List.mem_of_getElem? hplaced))

/-- **Reading plain instructions back.** On the encoding of an instruction sequence the
expression reader returns the sentinel and the opcodes of the source, and every plain
instruction can be read back, if and only if the extra bytes of every plain instruction are
found. -/
theorem binReadExpr_readsBack_iff {is : Instrs} {bs : List UInt8} (he : Encoding.expr is bs)
    {c : BinReadCtx} {rest : List UInt8} (hrest : c.rest = bs ++ rest) :
    (∃ r, Outcome.Returns (fun fuel => binReadExpr fuel c) r ∧ PlainsReadBack is r.value) ↔
      ∀ i o, (.plain i, o) ∈ is.placed 1 → i.Found o (Expr.ofInstrs is).extras := by
  have hret := binReadExpr_encodes he hrest
  obtain ⟨b, hb, -⟩ := he
  rw [← plainsReadBack_iff hb]
  constructor
  · rintro ⟨r, hr, h⟩
    obtain rfl := Outcome.Returns.unique (binReadExpr_stable c) hr hret
    exact h
  · intro h
    exact ⟨_, hret, h⟩

/-- The constant inside a block is read back, although the block is not. -/
theorem binReadExpr_readsBack_blockAroundConst :
    ∃ r, Outcome.Returns
        (fun fuel => binReadExpr fuel { data := [0x02, 0x40, 0x42, 0x00, 0x1A, 0x0B, 0x0B] }) r ∧
      PlainsReadBack blockAroundConst r.value := by
  have hconst : PlainInstr.Encodes (.i64Const 0) [0x42, 0x00] :=
    .i64Const ⟨.pos (b := 0x00) (by decide), by decide, by decide, by decide⟩
  have hdrop : PlainInstr.Encodes (.nullary 0x1A) [0x1A] := .nullary (by decide)
  have henc : Encoding.expr blockAroundConst [0x02, 0x40, 0x42, 0x00, 0x1A, 0x0B, 0x0B] :=
    ⟨_, .block (t := 0x40) .none (.plain hconst (.plain hdrop .nil)) .nil, rfl⟩
  refine (@binReadExpr_readsBack_iff _ _ henc _ [] rfl).mpr fun i o hmem hge => ?_
  have hplaced : blockAroundConst.placed 1 = [(.mark 0x02, 1), (.plain (.i64Const 0), 2),
      (.plain (.nullary 0x1A), 10), (.mark 0x0B, 0)] := rfl
  rw [hplaced] at hmem
  simp only [List.mem_cons, Prod.mk.injEq, reduceCtorEq, false_and, false_or, or_false,
    List.not_mem_nil] at hmem
  omega

/-! ### A wrapped offset -/

/-- A `br_table` with `n` labels, and a constant behind it. -/
def constBehindLabels (n : ℕ) : Instrs :=
  .plain (.brTable (List.replicate n 0) 0) (.plain (.i64Const 5) .nil)

theorem all_replicate_zero (n : ℕ) :
    Encoding.All Encoding.u32 (List.replicate n 0) (List.replicate n 0x00) := by
  induction n with
  | zero => exact .nil
  | succ n ih =>
    have hzero : Encoding.u32 0 [0x00] := ⟨.last (b := 0x00) (by decide), by decide, by decide⟩
    exact .cons hzero ih

theorem flatMap_replicate_zero (n : ℕ) :
    (List.replicate n 0).flatMap le32 = List.replicate (4 * n) 0x00 := by
  induction n with
  | zero => rfl
  | succ n ih =>
    rw [List.replicate_succ, List.flatMap_cons, ih, Nat.mul_succ, Nat.add_comm (4 * n),
      List.replicate_add]
    rfl

/-- With `2 ^ 30` labels the offset of the constant wraps around, into the labels. -/
theorem binReadExpr_not_readsBack :
    ¬∀ (is : Instrs) (bs : List UInt8) (c : BinReadCtx) (rest : List UInt8),
      Encoding.expr is bs → c.rest = bs ++ rest →
      ∃ r, Outcome.Returns (fun fuel => binReadExpr fuel c) r ∧ PlainsReadBack is r.value := by
  intro h
  obtain ⟨n, hn⟩ : ∃ n, n = 2 ^ 30 := ⟨_, rfl⟩
  have hcount : Encoding.unsigned 32 (List.replicate n (0 : UInt32)).length
      [0x80, 0x80, 0x80, 0x80, 0x04] := by
    rw [List.length_replicate, hn]
    have hleb := Leb128.unsigned_iff.mpr ⟨[0x80, 0x80, 0x80, 0x80], 0x04, rfl, by decide +kernel,
      by decide, rfl⟩
    exact ⟨hleb, by decide, by decide⟩
  have htable : PlainInstr.Encodes (.brTable (List.replicate n 0) 0) _ :=
    .brTable ⟨_, _, hcount, all_replicate_zero n, rfl⟩
      ⟨.last (b := 0x00) (by decide), by decide, by decide⟩
  have hconst : PlainInstr.Encodes (.i64Const 5) [0x42, 0x05] :=
    .i64Const ⟨.pos (b := 0x05) (by decide), by decide, by decide, by decide⟩
  have henc : Encoding.expr (constBehindLabels n) _ :=
    ⟨_, .plain htable (.plain hconst .nil), rfl⟩
  have hfound := (@binReadExpr_readsBack_iff _ _ henc { data := _ } [] rfl).mp
    (h _ _ _ _ henc rfl)
  have hlength : (PlainInstr.brTable (List.replicate n 0) 0).payload.length = 2 ^ 32 + 8 := by
    rw [PlainInstr.payload, flatMap_replicate_zero]
    simp only [le32, List.length_append, LittleEndian.length_bytes, List.length_replicate]
    omega
  have hmem : (.plain (.i64Const 5), 1 + (2 ^ 32 + 8)) ∈ (constBehindLabels n).placed 1 := by
    rw [← hlength]
    exact List.mem_cons_of_mem _ List.mem_cons_self
  obtain ⟨t, ht⟩ := hfound _ _ hmem (by omega)
  -- the offset wraps around to 9, which is inside of the second label
  have hbyte := congrArg (fun bs => bs[0]?) ht
  have hextras : (Expr.ofInstrs (constBehindLabels n)).extras[9]? = some 0 := by
    have hpayload : (Expr.ofInstrs (constBehindLabels n)).extras =
        0 :: (le32 (UInt32.ofNat (List.replicate n (0 : UInt32)).length) ++
          (List.replicate (4 * n) 0x00 ++ (le32 0 ++ (le64 5 ++ [])))) := by
      rw [← flatMap_replicate_zero]
      simp [Expr.ofInstrs, constBehindLabels, Instrs.payload, PlainInstr.payload]
      rfl
    rw [hpayload, List.getElem?_cons_succ, List.getElem?_append_right (by simp [le32]),
      List.getElem?_append_left (by simp [le32]; omega), List.getElem?_replicate]
    simp [le32]
    omega
  rw [List.getElem?_drop, show (1 + (2 ^ 32 + 8)) % 2 ^ 32 + 0 = 9 from rfl, hextras] at hbyte
  revert hbyte
  rw [List.getElem?_append_left (by decide)]
  decide

end Wasim
